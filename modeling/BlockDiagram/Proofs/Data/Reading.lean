import BlockDiagram.Data.Datum
import BlockDiagram.Data.Fields
import Mathlib.Data.List.Basic
/-! Reading data back: the node of a datum, of which a text may keep only some reals, and what its
records and lists read as. -/

namespace BlockDiagram

/-- What is left of a real where only some are kept: nothing, but in its place. -/
def Leaf.ofKept (kept : Float → Bool) (x : Float) : Leaf := if kept x then .ofReal x else .null

namespace Datum

variable (kept : Float → Bool)

mutual

/-- The node a text gives back that keeps some reals and writes the others as missing values. -/
def nodeKeeping : Datum → Node
  | flag b => .leaf (.ofFlag b)
  | natural n => .leaf (.ofNatural n)
  | real x => .leaf (.ofKept kept x)
  | text s => .leaf (.ofText s)
  | list items => .list (nodesKeeping items)
  | record fields => .map (entriesKeeping fields)

def nodesKeeping : List Datum → List Node
  | [] => []
  | d :: rest => nodeKeeping d :: nodesKeeping rest

def entriesKeeping : List (String × Datum) → List (Node × Node)
  | [] => []
  | (name, d) :: rest => (.leaf (.ofText name), nodeKeeping d) :: entriesKeeping rest

end

mutual

/-- A text that keeps every value keeps every real. -/
theorem node_eq_nodeKeeping (d : Datum) : d.node = d.nodeKeeping fun _ => true := by
  cases d with
  | list items => rw [node, nodeKeeping, nodes_eq_nodesKeeping items]
  | record fields => rw [node, nodeKeeping, entries_eq_entriesKeeping fields]
  | _ => rfl

theorem nodes_eq_nodesKeeping (items : List Datum) :
    nodes items = nodesKeeping (fun _ => true) items := by
  cases items with
  | nil => rfl
  | cons d rest => rw [nodes, nodesKeeping, node_eq_nodeKeeping d, nodes_eq_nodesKeeping rest]

theorem entries_eq_entriesKeeping (fields : List (String × Datum)) :
    nodesOfFields fields = entriesKeeping (fun _ => true) fields := by
  cases fields with
  | nil => rfl
  | cons f rest =>
      rw [nodesOfFields, entriesKeeping, node_eq_nodeKeeping f.2, entries_eq_entriesKeeping rest]

end

theorem nodesKeeping_eq_map (items : List Datum) :
    nodesKeeping kept items = items.map (nodeKeeping kept) := by
  induction items with
  | nil => rfl
  | cons d rest ih => rw [nodesKeeping, ih, List.map_cons]

mutual

/-- Every part of data can be read where any type is allowed, and so can a missing value. -/
theorem nodeKeeping_isFree (d : Datum) : (d.nodeKeeping kept).isFree = true := by
  cases d with
  | real x =>
      rw [nodeKeeping, Node.isFree, Leaf.ofKept]
      split <;> rfl
  | list items => rw [nodeKeeping, Node.isFree, nodesKeeping_areFree items]
  | record fields => rw [nodeKeeping, Node.isFree, entriesKeeping_areFree fields]
  | _ => rfl

theorem nodesKeeping_areFree (items : List Datum) : Node.areFree (nodesKeeping kept items) = true := by
  cases items with
  | nil => rfl
  | cons d rest => rw [nodesKeeping, Node.areFree, nodeKeeping_isFree d, nodesKeeping_areFree rest]; rfl

theorem entriesKeeping_areFree (fields : List (String × Datum)) :
    Node.entriesAreFree (entriesKeeping kept fields) = true := by
  cases fields with
  | nil => rfl
  | cons f rest =>
      rw [entriesKeeping, Node.entriesAreFree, nodeKeeping_isFree f.2, entriesKeeping_areFree rest]
      rfl

end

/-- The fields of a record as they are read. -/
def fieldsKeeping (fields : List (String × Datum)) : Fields :=
  fields.map fun f => (f.1, f.2.nodeKeeping kept)

variable {kept}

theorem mapM_named {nameOf : Node → Option String} (hname : ∀ s, nameOf (.leaf (.ofText s)) = some s)
    (fields : List (String × Datum)) :
    (entriesKeeping kept fields).mapM (Node.named? nameOf) = some (fieldsKeeping kept fields) := by
  induction fields with
  | nil => rfl
  | cons f rest ih =>
      rw [entriesKeeping, List.mapM_cons, ih, Node.named?, hname]
      rfl

/-- A record is read as the fields it was written with, if these are among the known ones, each once. -/
theorem fields?_record {names : List String} (hnames : names.Nodup) {fields : List (String × Datum)}
    (h : (fields.map Prod.fst).Sublist names) (positional : Bool) :
    ((record fields).nodeKeeping kept).fields? positional names = some (fieldsKeeping kept fields) := by
  have hfirst : (fieldsKeeping kept fields).map Prod.fst = fields.map Prod.fst := by
    rw [fieldsKeeping, List.map_map]
    rfl
  have hknown : (fieldsKeeping kept fields).filter (fun e => e.1 ∈ names) = fieldsKeeping kept fields := by
    refine List.filter_eq_self.mpr fun e he => decide_eq_true (h.subset ?_)
    rw [← hfirst]
    exact List.mem_map_of_mem he
  have hentries : Fields.ofEntries? names (fieldsKeeping kept fields) = some (fieldsKeeping kept fields) := by
    rw [Fields.ofEntries?, hknown, if_pos (hfirst ▸ h.nodup hnames)]
  change (Option.some (entriesKeeping kept fields)).bind (fun entries =>
    (entries.mapM (Node.named? Node.text?)).bind (Fields.ofEntries? names)) = _
  rw [Option.bind_some, mapM_named (fun _ => rfl), Option.bind_some, hentries]

theorem freeFields?_record (names : List String) (fields : List (String × Datum)) :
    Node.freeFields? names (entriesKeeping kept fields) =
      Fields.ofEntries? names (fieldsKeeping kept fields) := by
  rw [Node.freeFields?, mapM_named fun _ => rfl]
  rfl

theorem lookup_fieldsKeeping (fields : List (String × Datum)) (name : String) :
    (fieldsKeeping kept fields).lookup name = (fields.lookup name).map (nodeKeeping kept) := by
  induction fields with
  | nil => rfl
  | cons f rest ih =>
      rw [fieldsKeeping] at ih ⊢
      rw [List.map_cons, List.lookup_cons, List.lookup_cons, ih]
      split <;> rfl

/-- The fields of a record some of which may be left out. -/
def present (parts : List (String × Option Datum)) : List (String × Datum) :=
  parts.filterMap fun part => part.2.map fun d => (part.1, d)

theorem present_nil : present [] = [] := rfl

theorem present_some (name : String) (d : Datum) (parts : List (String × Option Datum)) :
    present ((name, some d) :: parts) = [(name, d)] ++ present parts := rfl

theorem present_map {β : Type} (name : String) (write : β → Datum) (value : Option β)
    (parts : List (String × Option Datum)) :
    present ((name, value.map write) :: parts) = optional name write value ++ present parts := by
  cases value <;> rfl

theorem present_sublist (parts : List (String × Option Datum)) :
    ((present parts).map Prod.fst).Sublist (parts.map Prod.fst) := by
  induction parts with
  | nil => exact List.Sublist.refl []
  | cons part rest ih =>
      obtain ⟨name, d?⟩ := part
      cases d? with
      | none => exact ih.cons name
      | some d => exact ih.cons_cons name

theorem lookup_present {parts : List (String × Option Datum)} (h : (parts.map Prod.fst).Nodup)
    (name : String) : (present parts).lookup name = (parts.lookup name).join := by
  induction parts with
  | nil => rfl
  | cons part rest ih =>
      obtain ⟨key, d?⟩ := part
      obtain ⟨hkey, hrest⟩ := List.nodup_cons.mp h
      have hstep := ih hrest
      rw [List.lookup_cons]
      cases hsame : name == key with
      | false =>
          cases d? with
          | none => exact hstep
          | some d =>
              rw [present_some, List.singleton_append, List.lookup_cons, hsame]
              exact hstep
      | true =>
          have heq : name = key := beq_iff_eq.mp hsame
          subst heq
          cases d? with
          | none =>
              -- The name stands for nothing here, and cannot turn up again.
              have hgone : rest.lookup name = none := by
                rw [List.lookup_eq_none_iff]
                intro e he
                have hmem : e.1 ∈ rest.map Prod.fst := List.mem_map_of_mem he
                exact bne_iff_ne.mpr fun heq => hkey (heq ▸ hmem)
              rw [hgone] at hstep
              exact hstep
          | some d =>
              rw [present_some, List.singleton_append, List.lookup_cons, hsame]
              rfl

/-- A record is read as fields under which every name that was written is found again. -/
theorem read_record {parts : List (String × Option Datum)} {names : List String}
    (hparts : parts.map Prod.fst = names) (hnames : names.Nodup) (positional : Bool) :
    ∃ fields, ((record (present parts)).nodeKeeping kept).fields? positional names = some fields ∧
      ∀ name, fields.lookup name = ((parts.lookup name).join).map (nodeKeeping kept) := by
  refine ⟨_, fields?_record hnames (hparts ▸ present_sublist parts) positional, fun name => ?_⟩
  rw [lookup_fieldsKeeping, lookup_present (hparts ▸ hnames)]

end Datum

end BlockDiagram
