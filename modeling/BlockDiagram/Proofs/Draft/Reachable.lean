import BlockDiagram.Proofs.Draft.Sound
import BlockDiagram.Proofs.Names
/-! Reachable drafts: what a sequence of calls on an empty draft can lead to, failed calls included.
All of them are sound. -/

namespace BlockDiagram

open Call

/-- The calls that change a draft, with any arguments. -/
inductive DraftCall (α : Type) where
  | signal (s : Signal α)
  | block (name : String) (kind : BlockKind α)
  | input (block : BlockId) (slot : Nat) (r : Reference)
  | output (block : BlockId) (r : Reference)
  | breakpoints (id : String) (values : List α)
  | table (id : Option String) (axes : List String) (values : Array α)
  | normalizer (breakpoints input : String)
  | lookup (name table : String) (coordinates : List String) (output : String)
  | function (name table : String) (inputs : List String) (output : String)

namespace Draft

variable {α : Type}

theorem breakpointsId?_ok {d : Draft α} {id : String} {set : BreakpointId}
    (h : d.breakpointsId? id = .ok set) : ∃ s, d.breakpoints[set.index]? = some s ∧ s.id = id := by
  unfold breakpointsId? at h
  split at h
  · rename_i i hi
    cases h
    exact entry_of_findIdx hi
  · cases h

theorem tableId?_ok {d : Draft α} {id : String} {table : TableId} (h : d.tableId? id = .ok table) :
    ∃ t, d.tables[table.index]? = some t ∧ t.id = id := by
  unfold tableId? at h
  split at h
  · rename_i i hi
    cases h
    exact entry_of_findIdx hi
  · cases h

theorem axis_ok {d : Draft α} {id : String} {a : Axis} (h : d.axis id = .ok a) :
    a.id = id ∧ ∃ s, d.breakpoints[a.set.index]? = some s ∧ s.id = id ∧
      s.values.length = a.length := by
  obtain ⟨set, hset, h⟩ := outcome_bind_ok.mp h
  obtain ⟨s, hs, h⟩ := outcome_bind_ok.mp h
  cases h
  rw [entry_eq_ok] at hs
  obtain ⟨t, ht, hid⟩ := breakpointsId?_ok hset
  cases hs.symm.trans ht
  exact ⟨rfl, s, hs, hid, rfl⟩

theorem axesNamed_ok {d : Draft α} {ids : List String} {axes : List Axis}
    (h : d.axesNamed ids = .ok axes) :
    axes.map Axis.id = ids ∧ ∀ a ∈ axes, ∃ s, d.breakpoints[a.set.index]? = some s ∧ s.id = a.id ∧
      s.values.length = a.length := by
  induction outcome_mapM_ok.mp h with
  | nil => exact ⟨rfl, fun a ha => by cases ha⟩
  | cons hx hrest ih =>
      obtain ⟨hid, s, hs, hsid, hlength⟩ := axis_ok hx
      obtain ⟨hids, hsets⟩ := ih (outcome_mapM_ok.mpr hrest)
      refine ⟨by rw [List.map_cons, hid, hids], ?_⟩
      intro a ha
      rcases List.mem_cons.mp ha with rfl | ha
      · exact ⟨s, hs, hsid.trans hid.symm, hlength⟩
      · exact hsets a ha

/-- A property that adding signals and blocks and binding slots never takes away. -/
structure Stable (P : Draft α → Prop) : Prop where
  signal : ∀ s, Keeps P (addSignal s)
  block : ∀ name kind, Keeps P (addBlock name kind)
  input : ∀ id slot r, Keeps P (bindInput id slot r : Drafting α Unit)
  output : ∀ id r, Keeps P (bindOutput id r : Drafting α Unit)
  normalizers : ∀ d ns, P d → P { d with normalizers := ns }

namespace Stable

variable {P : Draft α → Prop}

theorem bindVariables (h : Stable P) (block : BlockId) (slot : Nat) (vs : List String) :
    Keeps P (bindVariables block slot vs : Drafting α Unit) := by
  induction vs generalizing slot with
  | nil => exact keeps_pure ()
  | cons v vs ih => exact keeps_bind (h.input block slot _) fun _ => ih (slot + 1)

theorem addLookup (h : Stable P) (name table : String) (coordinates : List String) (output : String) :
    Keeps P (addLookup name table coordinates output : Drafting α BlockId) := by
  unfold Draft.addLookup
  refine keeps_bind keeps_get fun d => keeps_bind (keeps_lift _) fun id => ?_
  refine keeps_bind (h.block _ _) fun block => keeps_bind (h.bindVariables _ _ _) fun _ => ?_
  exact keeps_bind (h.output _ _) fun _ => keeps_pure _

variable [Scalar α]

theorem addNormalizer (h : Stable P) (breakpoints input : String) :
    Keeps P (addNormalizer breakpoints input : Drafting α String) := by
  unfold Draft.addNormalizer
  refine keeps_bind keeps_get fun d => keeps_bind (keeps_lift _) fun set => ?_
  dsimp only
  split
  · exact keeps_pure _
  · refine keeps_bind (h.signal _) fun signal => keeps_bind (h.block _ _) fun block => ?_
    refine keeps_bind (h.input _ _ _) fun _ => keeps_bind (h.output _ _) fun _ => ?_
    exact keeps_bind (keeps_modify fun d hd => h.normalizers d _ hd) fun _ => keeps_pure _

theorem addFunction (h : Stable P) (name table : String) (inputs : List String) (output : String) :
    Keeps P (addFunction name table inputs output : Drafting α BlockId) := by
  unfold Draft.addFunction
  refine keeps_bind keeps_get fun d => keeps_bind (keeps_lift _) fun t => ?_
  split
  · exact keeps_bind (keeps_fail _) fun _ => keeps_bind (keeps_mapM (fun _ => h.addNormalizer _ _) _)
      fun _ => h.addLookup _ _ _ _
  · exact keeps_bind (keeps_mapM (fun _ => h.addNormalizer _ _) _) fun _ => h.addLookup _ _ _ _

end Stable

section Sound

theorem keeps_addSignal (s : Signal α) : Keeps Sound (addSignal s) := by
  intro d hd
  unfold final
  rw [addSignal_run]
  by_cases h : s.varId ∈ d.varIds
  · rw [if_pos h]
    exact hd
  · rw [if_neg h]
    exact hd.push_signal h

theorem keeps_addBlock (name : String) (kind : BlockKind α) : Keeps Sound (addBlock name kind) := by
  intro d hd
  unfold final
  rw [addBlock_run]
  cases h : d.enlist ⟨d.blocks.size⟩ kind with
  | ok d₁ => exact hd.push_block h
  | error e => exact hd

theorem keeps_bindInput (block : BlockId) (slot : Nat) (r : Reference) :
    Keeps Sound (bindInput block slot r : Drafting α Unit) := by
  intro d hd
  unfold final
  rw [bindInput_run]
  cases h : d.bindable block r with
  | error e => exact hd
  | ok b =>
      obtain ⟨hr, hb⟩ := bindable_ok.mp h
      refine hd.set_block hb rfl ?_ (hd.outputs block.index b hb)
      intro id hid
      rcases mem_bind_inputs hid with rfl | hold
      · exact checkReference_ok.mp hr
      · exact hd.inputs block.index b hb id hold

theorem keeps_bindOutput (block : BlockId) (r : Reference) :
    Keeps Sound (bindOutput block r : Drafting α Unit) := by
  intro d hd
  unfold final
  rw [bindOutput_run]
  cases h : d.bindable block r with
  | error e => exact hd
  | ok b =>
      obtain ⟨hr, hb⟩ := bindable_ok.mp h
      dsimp only
      cases b.kind.hasOutput with
      | false => exact hd
      | true =>
          refine hd.set_block hb rfl (hd.inputs block.index b hb) ?_
          rintro id ⟨⟩
          exact checkReference_ok.mp hr

theorem keeps_registerTable (id : Option String) (axes : List String) (values : Array α) :
    Keeps Sound (registerTable id axes values) := by
  intro d hd
  have hclaimed : (d.claimed id).Sound := by
    cases id with
    | none => exact { hd with }
    | some id => exact hd
  unfold final
  rw [registerTable_run]
  by_cases hid : ∃ i ∈ id, i ∈ d.tableIds
  · rw [if_pos hid]
    exact hd
  · rw [if_neg hid]
    cases h : d.axesNamed axes >>= (Table.ofValues (d.claimedId id) · values) with
    | error e => exact hclaimed
    | ok t =>
        obtain ⟨xs, hxs, ht⟩ := outcome_bind_ok.mp h
        obtain ⟨htid, htaxes, htvalues, htusers, hne, hsize⟩ := Table.ofValues_ok ht
        have hfresh := claimedId_not_mem hid
        rw [mem_tableIds] at hfresh
        have hgrids : GridsSound d.breakpoints (d.tables.push t) d.blocks.size := by
          refine hd.grids.push_table ?_ ?_ ⟨htaxes ▸ hne, ?_⟩ htusers
          · intro i s hs heq
            exact hfresh ⟨i, s, hs, heq.trans htid⟩
          · rw [htaxes]
            exact (axesNamed_ok hxs).2
          · rw [htvalues, Table.dims, htaxes]
            exact hsize
        have hkinds : ∀ (i : Nat) (b : DraftBlock α), d.blocks[i]? = some b →
            b.kind.InRange d.breakpoints.size (d.tables.push t).size := by
          intro i b hb
          refine (hd.kinds i b hb).mono (Nat.le_refl _) ?_
          rw [Array.size_push]
          exact Nat.le_succ _
        cases id with
        | none => exact { hclaimed with grids := hgrids, kinds := hkinds }
        | some id => exact { hclaimed with grids := hgrids, kinds := hkinds }

theorem keeps_registerBreakpoints [Arithmetic α] (id : String) (values : List α) :
    Keeps Sound (registerBreakpoints id values) := by
  intro d hd
  unfold final
  rw [registerBreakpoints_run]
  cases hid : d.breakpoints.any fun s => s.id == id with
  | true => exact hd
  | false =>
      cases h : BreakpointSet.ofValues id values with
      | error e => exact hd
      | ok s =>
          obtain ⟨hsid, hvalues, hne, husers⟩ := BreakpointSet.ofValues_ok h
          have hgrids : GridsSound (d.breakpoints.push s) d.tables d.blocks.size := by
            refine hd.grids.push_set ?_ (hvalues ▸ hne) husers
            intro i t ht heq
            rw [Array.any_eq_false'] at hid
            have := hid t (Array.mem_of_getElem? ht)
            simp [heq, hsid] at this
          have hkinds : ∀ (i : Nat) (b : DraftBlock α), d.blocks[i]? = some b →
              b.kind.InRange (d.breakpoints.push s).size d.tables.size := by
            intro i b hb
            refine (hd.kinds i b hb).mono ?_ (Nat.le_refl _)
            rw [Array.size_push]
            exact Nat.le_succ _
          exact { hd with grids := hgrids, kinds := hkinds }

theorem stable_sound : Stable (Sound : Draft α → Prop) where
  signal := keeps_addSignal
  block := keeps_addBlock
  input := keeps_bindInput
  output := keeps_bindOutput
  normalizers := fun _ _ hd => { hd with }

theorem keeps_addNormalizer [Scalar α] (breakpoints input : String) :
    Keeps Sound (addNormalizer breakpoints input : Drafting α String) :=
  stable_sound.addNormalizer breakpoints input

theorem keeps_addFunction [Scalar α] (name table : String) (inputs : List String) (output : String) :
    Keeps Sound (addFunction name table inputs output : Drafting α BlockId) :=
  stable_sound.addFunction name table inputs output

end Sound

end Draft

section Reachable

variable {α : Type} [Scalar α]

namespace DraftCall

def run : DraftCall α → Drafting α Unit
  | signal s => do let _ ← Draft.addSignal s
  | block name kind => do let _ ← Draft.addBlock name kind
  | input id slot r => Draft.bindInput id slot r
  | output id r => Draft.bindOutput id r
  | .breakpoints id values => do let _ ← Draft.registerBreakpoints id values
  | table id axes values => do let _ ← Draft.registerTable id axes values
  | normalizer set v => do let _ ← Draft.addNormalizer set v
  | lookup name t vs out => do let _ ← Draft.addLookup name t vs out
  | function name t vs out => do let _ ← Draft.addFunction name t vs out

/-- A stable property is kept by every call if it is kept by the two that register grid data. -/
theorem keeps_of_stable {P : Draft α → Prop} (h : Draft.Stable P)
    (hset : ∀ id values, Keeps P (Draft.registerBreakpoints id values))
    (htable : ∀ id axes values, Keeps P (Draft.registerTable id axes values)) (c : DraftCall α) :
    Keeps P c.run := by
  cases c with
  | signal s => exact keeps_bind (h.signal s) fun _ => keeps_pure ()
  | block name kind => exact keeps_bind (h.block name kind) fun _ => keeps_pure ()
  | input id slot r => exact h.input id slot r
  | output id r => exact h.output id r
  | breakpoints id values => exact keeps_bind (hset id values) fun _ => keeps_pure ()
  | table id axes values => exact keeps_bind (htable id axes values) fun _ => keeps_pure ()
  | normalizer set v => exact keeps_bind (h.addNormalizer set v) fun _ => keeps_pure ()
  | lookup name t vs out => exact keeps_bind (h.addLookup name t vs out) fun _ => keeps_pure ()
  | function name t vs out => exact keeps_bind (h.addFunction name t vs out) fun _ => keeps_pure ()

theorem keeps_sound (c : DraftCall α) : Keeps Draft.Sound c.run :=
  c.keeps_of_stable Draft.stable_sound Draft.keeps_registerBreakpoints Draft.keeps_registerTable

end DraftCall

namespace Draft

/-- The drafts that calls on an empty one lead to. -/
inductive Reachable : Draft α → Prop
  | empty (name : String) : Reachable (Draft.empty name)
  | call {d : Draft α} (c : DraftCall α) : Reachable d → Reachable (final c.run d)

/-- What a sequence of calls makes of an empty draft. -/
def after (name : String) (calls : List (DraftCall α)) : Draft α :=
  calls.foldl (fun d c => final c.run d) (empty name)

theorem reachable_after (name : String) (calls : List (DraftCall α)) : (after name calls).Reachable := by
  have hall : ∀ d : Draft α, d.Reachable → (calls.foldl (fun d c => final c.run d) d).Reachable := by
    induction calls with
    | nil => exact fun d hd => hd
    | cons c calls ih => exact fun d hd => ih _ (.call c hd)
  exact hall _ (.empty name)

theorem Reachable.sound {d : Draft α} (h : d.Reachable) : d.Sound := by
  induction h with
  | empty name => exact empty_sound name
  | call c _ ih => exact c.keeps_sound _ ih

end Draft

end Reachable

end BlockDiagram
