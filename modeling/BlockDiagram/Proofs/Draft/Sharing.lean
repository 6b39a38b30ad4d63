import BlockDiagram.Proofs.Draft.Atomicity
import BlockDiagram.Proofs.Draft.Realization
/-! Sharing: the normalizers that calls on a draft have asked for, kept in a ledger beside it. There is one for
each breakpoint set and input, whatever its variable is called, and every function reads those of its own
inputs. -/

namespace BlockDiagram

open Call

/-- The coordinates of the inputs on the axes of a table. -/
def Table.keys {α : Type} (t : Table α) (inputs : List String) : List NormalizerKey :=
  (t.axes.zip inputs).map fun p => ⟨p.1.set, p.2⟩

/-- A lookup that a function of a table has been given. -/
structure TableUse where
  block : BlockId
  table : String
  inputs : List String
  output : String

/-- What calls for normalizers and functions have asked for, and what they have done. -/
structure Ledger where
  /-- The normalizers asked for, those of the inputs of functions included. -/
  requests : List NormalizerKey := []
  /-- What calls for single normalizers have returned. -/
  answers : List (NormalizerKey × String) := []
  functions : List TableUse := []
  /-- The blocks these calls have added. -/
  own : List BlockId := []

/-- The block a call binds a port of. -/
def DraftCall.binds? {α : Type} : DraftCall α → Option BlockId
  | .input id _ _ => some id
  | .output id _ => some id
  | _ => none

/-- A normalizer with what tells it apart: what it has been asked for as, its variable, and its block. -/
structure Placement where
  key : NormalizerKey
  varId : String
  block : BlockId

namespace Placement

def entry (x : Placement) : NormalizerKey × String := (x.key, x.varId)

end Placement

namespace Draft

variable {α : Type}

/-- The blocks that `d'` has and `d` has not. -/
def added (d d' : Draft α) : List BlockId :=
  (List.range' d.blocks.size (d'.blocks.size - d.blocks.size)).map Handle.mk

theorem added_self (d : Draft α) : added d d = [] := by
  rw [added, Nat.sub_self]
  rfl

theorem added_push {d d' : Draft α} {b : DraftBlock α} (h : d'.blocks = d.blocks.push b) :
    added d d' = [⟨d.blocks.size⟩] := by
  rw [added, h, Array.size_push, Nat.add_sub_cancel_left]
  rfl

theorem added_trans {d d' d'' : Draft α} (h : d.blocks.size ≤ d'.blocks.size)
    (h' : d'.blocks.size ≤ d''.blocks.size) : added d d' ++ added d' d'' = added d d'' := by
  obtain ⟨n, hn⟩ := Nat.exists_eq_add_of_le h
  obtain ⟨k, hk⟩ := Nat.exists_eq_add_of_le h'
  simp only [added, hn, hk, Nat.add_sub_cancel_left, ← List.map_append]
  rw [Nat.add_assoc, Nat.add_sub_cancel_left, List.range'_append_1]

theorem Grows.size_le {made : List String} {d d' : Draft α} (h : d.Grows made d') :
    d.blocks.size ≤ d'.blocks.size := by
  by_contra hlt
  have hb := Array.getElem?_eq_getElem (Nat.lt_of_not_le hlt)
  exact Nat.lt_irrefl _ (Array.getElem?_eq_some_iff.mp (h.blocks _ _ hb)).1

end Draft

/-- The ledger once the normalizers have been asked for and the blocks have been added. -/
def Ledger.asked (l : Ledger) (keys : List NormalizerKey) (blocks : List BlockId) : Ledger :=
  { l with requests := l.requests ++ keys, own := l.own ++ blocks }

theorem Ledger.asked_asked (l : Ledger) (keys keys' : List NormalizerKey) (blocks blocks' : List BlockId) :
    (l.asked keys blocks).asked keys' blocks' = l.asked (keys ++ keys') (blocks ++ blocks') := by
  simp only [asked, List.append_assoc]

/-- The ledger after a call on a draft; failed calls leave it as it is. -/
def Ledger.note {α : Type} [Scalar α] (l : Ledger) (d : Draft α) : DraftCall α → Ledger
  | .normalizer breakpoints input =>
    match (Draft.addNormalizer breakpoints input).run d, d.breakpointsId? breakpoints with
    | .ok varId d', .ok set =>
      { l.asked [⟨set, input⟩] (d.added d') with
        answers := l.answers ++ [(⟨set, input⟩, varId)] }
    | .ok _ _, .error _ => l
    | .error _ _, _ => l
  | .function name table inputs output =>
    match (Draft.addFunction name table inputs output).run d, d.tableNamed table with
    | .ok block d', .ok t =>
      { l.asked (t.keys inputs) (d.added d') with
        functions := l.functions ++ [{ block, table, inputs, output }] }
    | .ok _ _, .error _ => l
    | .error _ _, _ => l
  | _ => l

namespace Draft

variable {α : Type} [Scalar α]

/-- The drafts that calls on an empty one lead to, each with the ledger of these calls, as long as no port of
a block that a call for a normalizer or a function has added is bound by hand. -/
inductive Tended : Draft α → Ledger → Prop
  | empty (name : String) : Tended (Draft.empty name) {}
  | call {d : Draft α} {l : Ledger} (c : DraftCall α) : Tended d l →
      (∀ u d', c.run.run d = .ok u d' → ∀ id, c.binds? = some id → id ∉ l.own) →
      Tended (final c.run d) (l.note d c)

theorem Tended.reachable {d : Draft α} {l : Ledger} (h : d.Tended l) : d.Reachable := by
  induction h with
  | empty name => exact .empty name
  | call c _ _ ih => exact .call c ih

/-- The function's lookup is there, and reads in each slot the variable of the normalizer for its axis and
input. -/
def Serves (d : Draft α) (placed : List Placement) (f : TableUse) : Prop :=
  ∃ (tableId : TableId) (t : Table α) (cs : List String), d.tables[tableId.index]? = some t ∧
    t.id = f.table ∧ t.rank = f.inputs.length ∧ d.Puts (.lookup tableId) cs f.output f.block.index ∧
    List.Forall₂ (fun k c => ∃ x ∈ placed, x.key = k ∧ x.varId = c) (t.keys f.inputs) cs

/-- The normalizers, one for each pair of a breakpoint set and an input that has been asked for. No two share
a variable or a block, and they and the lookups of the functions are all that has been added. -/
structure Shares (d : Draft α) (l : Ledger) (placed : List Placement) : Prop where
  keys : (placed.map Placement.key).Nodup
  varIds : (placed.map Placement.varId).Nodup
  blocks : (placed.map Placement.block).Nodup
  requests : ∀ k, k ∈ l.requests ↔ ∃ x ∈ placed, x.key = k
  answers : ∀ k v, (k, v) ∈ l.answers → ∃ x ∈ placed, x.key = k ∧ x.varId = v
  own : ∀ id, id ∈ l.own ↔ (∃ x ∈ placed, x.block = id) ∨ ∃ f ∈ l.functions, f.block = id
  derived : ∀ x ∈ placed, d.Derived x.varId
  normalizers : ∀ x ∈ placed,
    d.Puts (.normalizer x.key.breakpoints) [x.key.input] x.varId x.block.index
  functions : ∀ f ∈ l.functions, d.Serves placed f

/-- The draft looks normalizers up among those that are there. -/
structure Tallies (d : Draft α) (l : Ledger) (placed : List Placement) : Prop extends
    d.Shares l placed where
  listed : d.normalizers = placed.map Placement.entry

section Steps

variable {made : List String} {d d' d'' : Draft α} {l : Ledger} {placed placed' : List Placement}
  {own : List BlockId}

/-- What is still there in `d'`: the signals, the tables, and the blocks of the list. -/
structure Spares (own : List BlockId) (d d' : Draft α) : Prop where
  signals : ∀ (i : Nat) (s : Signal α), d.signals[i]? = some s → d'.signals[i]? = some s
  blocks : ∀ id ∈ own, ∀ b, d.blocks[id.index]? = some b → d'.blocks[id.index]? = some b
  tables : ∀ (i : Nat) (t : Table α), d.tables[i]? = some t →
    ∃ t', d'.tables[i]? = some t' ∧ t'.id = t.id ∧ t'.axes = t.axes

namespace Spares

omit [Scalar α] in
theorem of_grows (h : d.Grows made d') : Spares own d d' where
  signals := h.signals
  blocks := fun id _ b hb => h.blocks id.index b hb
  tables := by
    intro i t ht
    obtain ⟨t', ht', hid, haxes, -⟩ := h.tables i t ht
    exact ⟨t', ht', hid, haxes⟩

omit [Scalar α] in
theorem put {id : BlockId} (h : id ∉ own) (b : DraftBlock α) : Spares own d (d.put id b) where
  signals := fun _ _ hs => hs
  blocks := by
    intro i hi c hc
    refine (put_block_ne fun heq => h ?_).trans hc
    have hsame : i = id := Handle.eq_mk heq
    exact hsame ▸ hi
  tables := fun _ t ht => ⟨t, ht, rfl, rfl⟩

omit [Scalar α] in
theorem puts (h : Spares own d d') {k : BlockKind α} {ws : List String} {v : String} {id : BlockId}
    (hid : id ∈ own) (hputs : d.Puts k ws v id.index) : d'.Puts k ws v id.index := by
  obtain ⟨b, r, hb, hkind, hinputs, hr, hname⟩ := hputs
  refine ⟨b, r, h.blocks id hid b hb, hkind, hinputs, hr, ?_⟩
  rcases r with i | w
  · obtain ⟨s, hs, rfl⟩ := Option.map_eq_some_iff.mp hname
    exact Option.map_eq_some_iff.mpr ⟨s, h.signals _ s hs, rfl⟩
  · exact hname

theorem derived (h : Spares own d d') {v : String} (hv : d.Derived v) : d'.Derived v := by
  obtain ⟨i, hi⟩ := hv
  exact ⟨i, h.signals i _ hi⟩

omit [Scalar α] in
theorem serves (h : Spares own d d') (hplaced : ∀ x ∈ placed, x ∈ placed') {f : TableUse}
    (hf : f.block ∈ own) (hserves : d.Serves placed f) : d'.Serves placed' f := by
  obtain ⟨tableId, t, cs, ht, hid, hrank, hputs, hcs⟩ := hserves
  obtain ⟨t', ht', hid', haxes⟩ := h.tables _ t ht
  have hkeys : t'.keys f.inputs = t.keys f.inputs := by rw [Table.keys, Table.keys, haxes]
  refine ⟨tableId, t', cs, ht', hid'.trans hid, ?_, h.puts hf hputs, ?_⟩
  · rw [Table.rank, haxes]
    exact hrank
  · rw [hkeys]
    refine hcs.imp fun k c hx => ?_
    obtain ⟨x, hx, hkey, hvar⟩ := hx
    exact ⟨x, hplaced x hx, hkey, hvar⟩

end Spares

/-- What spares the blocks that have been added for normalizers and functions leaves all of them right. -/
theorem Tallies.spared (h : d.Tallies l placed) (hspares : Spares l.own d d')
    (hsame : d'.normalizers = d.normalizers) : d'.Tallies l placed where
  keys := h.keys
  varIds := h.varIds
  blocks := h.blocks
  requests := h.requests
  answers := h.answers
  own := h.own
  derived := fun x hx => hspares.derived (h.derived x hx)
  normalizers := fun x hx => hspares.puts ((h.own _).mpr (.inl ⟨x, hx, rfl⟩)) (h.normalizers x hx)
  functions := fun f hf =>
    hspares.serves (fun _ hx => hx) ((h.own _).mpr (.inr ⟨f, hf, rfl⟩)) (h.functions f hf)
  listed := hsame.trans h.listed

omit [Scalar α] in
theorem mem_placed (h : d.normalizers = placed.map Placement.entry) {k : NormalizerKey} {c : String} :
    (k, c) ∈ d.normalizers ↔ ∃ x ∈ placed, x.key = k ∧ x.varId = c := by
  rw [h, List.mem_map]
  simp only [Placement.entry, Prod.mk.injEq]

/-- The placement of a normalizer that has just been added. -/
def placement (d : Draft α) (key : NormalizerKey) (c : String) : Placement :=
  ⟨key, c, ⟨d.blocks.size⟩⟩

theorem Tallies.add (h : d.Tallies l placed) {set : BreakpointId} {w c : String}
    (hnew : ∀ v, ((⟨set, w⟩ : NormalizerKey), v) ∉ d.normalizers) (hadds : d.AddsNormalizer set w c d') :
    d'.Tallies (l.asked [⟨set, w⟩] (d.added d')) (d.placement ⟨set, w⟩ c :: placed) := by
  have hspares : Spares l.own d d' := .of_grows hadds.grows
  obtain ⟨b, hpush, -⟩ := hadds.blocks
  have hown : ∀ x ∈ placed, x.block ∈ l.own := fun x hx => (h.own _).mpr (.inl ⟨x, hx, rfl⟩)
  constructor
  · constructor
    · refine List.nodup_cons.mpr ⟨fun hin => ?_, h.keys⟩
      obtain ⟨x, hx, hkey⟩ := List.mem_map.mp hin
      exact hnew x.varId ((mem_placed h.listed).mpr ⟨x, hx, hkey, rfl⟩)
    · refine List.nodup_cons.mpr ⟨fun hin => hadds.fresh ?_, h.varIds⟩
      obtain ⟨x, hx, hvar⟩ := List.mem_map.mp hin
      obtain ⟨i, hi⟩ := h.derived x hx
      exact mem_varIds.mpr ⟨i, _, hi, hvar⟩
    · refine List.nodup_cons.mpr ⟨fun hin => ?_, h.blocks⟩
      obtain ⟨x, hx, hblock⟩ := List.mem_map.mp hin
      obtain ⟨b', -, hb', -⟩ := h.normalizers x hx
      rw [hblock] at hb'
      exact Nat.lt_irrefl _ (Array.getElem?_eq_some_iff.mp hb').1
    · intro k
      rw [Ledger.asked, List.mem_append, h.requests, List.mem_singleton, List.exists_mem_cons_iff]
      exact or_comm.trans (or_congr_left eq_comm)
    · intro k v hin
      obtain ⟨x, hx, hsame⟩ := h.answers k v hin
      exact ⟨x, List.mem_cons_of_mem _ hx, hsame⟩
    · intro id
      rw [Ledger.asked, added_push hpush, List.mem_append, h.own, List.mem_singleton,
        List.exists_mem_cons_iff]
      rw [or_comm, ← or_assoc]
      exact or_congr_left (or_congr_left eq_comm)
    · intro x hx
      rcases List.mem_cons.mp hx with rfl | hx
      · exact hadds.derived
      · exact hspares.derived (h.derived x hx)
    · intro x hx
      rcases List.mem_cons.mp hx with rfl | hx
      · exact hadds.puts
      · exact hspares.puts (hown x hx) (h.normalizers x hx)
    · intro f hf
      exact hspares.serves (fun x hx => List.mem_cons_of_mem _ hx) ((h.own _).mpr (.inr ⟨f, hf, rfl⟩))
        (h.functions f hf)
  · rw [hadds.normalizers, h.listed]
    rfl

/-- A request is met by the one normalizer for it, be it there or new. -/
theorem Tallies.ask (h : d.Tallies l placed) {id w c : String} {set : BreakpointId}
    (hset : d.breakpointsId? id = .ok set) (hrun : (addNormalizer id w).run d = .ok c d') :
    ∃ placed', d.Grows [] d' ∧ (∀ x ∈ placed, x ∈ placed') ∧
      d'.Tallies (l.asked [⟨set, w⟩] (d.added d')) placed' ∧
      ∃ x ∈ placed', x.key = ⟨set, w⟩ ∧ x.varId = c := by
  obtain ⟨set', hset', hcases⟩ := addNormalizer_cases hrun
  cases hset.symm.trans hset'
  rcases hcases with ⟨hin, rfl⟩ | ⟨hnew, hadds⟩
  · obtain ⟨x, hx, hkey, hvar⟩ := (mem_placed h.listed).mp hin
    refine ⟨placed, .refl d', fun _ hx => hx, ?_, x, hx, hkey, hvar⟩
    refine { h with requests := fun k => ?_, own := fun b => ?_ }
    · rw [Ledger.asked, List.mem_append, h.requests, or_iff_left_iff_imp, List.mem_singleton]
      rintro rfl
      exact ⟨x, hx, hkey⟩
    · rw [Ledger.asked, added_self, List.append_nil]
      exact h.own b
  · exact ⟨_, hadds.grows, fun _ hx => List.mem_cons_of_mem _ hx, h.add hnew hadds, _,
      List.mem_cons_self, rfl, rfl⟩

omit [Scalar α] in
theorem Sound.breakpointsId?_of_axis (hd : d.Sound) {a : Axis} {s : BreakpointSet α}
    (hs : d.breakpoints[a.set.index]? = some s) (hid : s.id = a.id) : d.breakpointsId? a.id = .ok a.set := by
  obtain ⟨set, hset, -⟩ := breakpointsId?_of_set hs
  obtain ⟨t, ht, htid⟩ := breakpointsId?_ok hset
  have hsame : set = a.set := Handle.eq_mk (hd.grids.setIds _ _ t s ht hs htid)
  rw [← hid, hset, hsame]

/-- The coordinates of a function are the variables of the normalizers for its axes and inputs. -/
theorem Tallies.askAll (h : d.Tallies l placed) (hd : d.Sound) {ps : List (Axis × String)}
    {cs : List String} (hps : ∀ p ∈ ps, ∃ s, d.breakpoints[p.1.set.index]? = some s ∧ s.id = p.1.id)
    (hrun : (ps.mapM fun (p : Axis × String) =>
      match p with | (axis, input) => addNormalizer axis.id input).run d = .ok cs d') :
    ∃ placed', d.Grows [] d' ∧ d'.Tallies (l.asked (ps.map fun p => ⟨p.1.set, p.2⟩) (d.added d')) placed' ∧
      (∀ x ∈ placed, x ∈ placed') ∧
      List.Forall₂ (fun k c => ∃ x ∈ placed', x.key = k ∧ x.varId = c)
        (ps.map fun p => ⟨p.1.set, p.2⟩) cs := by
  induction ps generalizing d l placed cs with
  | nil =>
      cases hrun
      rw [added_self]
      refine ⟨placed, .refl d', ?_, fun _ hx => hx, .nil⟩
      rw [List.map_nil, Ledger.asked, List.append_nil, List.append_nil]
      exact h
  | cons p ps ih =>
      rw [List.mapM_cons] at hrun
      obtain ⟨c, d₁, hfirst, hrun⟩ := run_bind_ok.mp hrun
      obtain ⟨cs', d₂, hrest, hrun⟩ := run_bind_ok.mp hrun
      cases hrun
      obtain ⟨s, hs, hid⟩ := hps p List.mem_cons_self
      obtain ⟨placed₁, hgrows₁, hold₁, h₁, x, hx, hkey, hvar⟩ :=
        h.ask (hd.breakpointsId?_of_axis hs hid) hfirst
      obtain ⟨placed₂, hgrows₂, h₂, hold₂, hcs⟩ := ih h₁ ((keeps_addNormalizer _ _).ok hd hfirst)
        (fun q hq => by
          obtain ⟨t, ht, htid⟩ := hps q (List.mem_cons_of_mem p hq)
          obtain ⟨t', ht', htid', -⟩ := hgrows₁.sets _ t ht
          exact ⟨t', ht', htid'.trans htid⟩) hrest
      rw [Ledger.asked_asked, added_trans hgrows₁.size_le hgrows₂.size_le] at h₂
      refine ⟨placed₂, hgrows₁.trans hgrows₂, h₂, fun y hy => hold₂ y (hold₁ y hy), ?_⟩
      exact .cons ⟨x, hold₂ x hx, hkey, hvar⟩ hcs

/-- A function is served: the normalizers of its inputs are there, and its lookup reads them. -/
theorem Tallies.serve (h : d.Tallies l placed) (hd : d.Sound) {name table output : String}
    {inputs : List String} {t : Table α} {id : BlockId} (ht : d.tableNamed table = .ok t)
    (hrun : (addFunction name table inputs output).run d = .ok id d') :
    ∃ placed', d'.Tallies { l.asked (t.keys inputs) (d.added d') with
      functions := l.functions ++ [⟨id, table, inputs, output⟩] } placed' := by
  obtain ⟨t', cs, d₁, htable, hrank, hnormalizers, hlookup⟩ := addFunction_split hrun
  cases ht.symm.trans htable
  obtain ⟨i, hi, hid⟩ := tableNamed_ok htable
  obtain ⟨placed', hgrows, h₁, -, hcs⟩ := h.askAll hd (fun p hp => by
    obtain ⟨s, hs, hsid, -⟩ := hd.grids.axes i t hi p.1 (List.of_mem_zip hp).1
    exact ⟨s, hs, hsid⟩) hnormalizers
  have hd₁ : d₁.Sound := (keeps_mapM (fun _ => keeps_addNormalizer _ _) _).ok hd hnormalizers
  obtain ⟨rfl, hgrows', hsame, -, tableId, t₁, b, ht₁, hid₁, hpush, hkind, hinputs, hout⟩ :=
    addLookup_push hlookup
  obtain ⟨haxes, -⟩ := hd₁.table_grown hgrows hi ht₁ (hid₁.trans hid.symm)
  obtain ⟨t₂, ht₂, hid₂, haxes₂, -⟩ := hgrows'.tables _ t₁ ht₁
  have hspared := h₁.spared (.of_grows hgrows') hsame
  have hadded : d.added d' = d.added d₁ ++ [⟨d₁.blocks.size⟩] := by
    rw [← added_push hpush, added_trans hgrows.size_le hgrows'.size_le]
  refine ⟨placed', { hspared with own := fun x => ?_, functions := fun f hf => ?_ }⟩
  · have hold := hspared.own x
    simp only [Ledger.asked, hadded, ← List.append_assoc, List.mem_append, List.mem_singleton] at hold ⊢
    rw [hold]
    simp only [or_and_right, exists_or, exists_eq_left, or_assoc, eq_comm]
  · rcases List.mem_append.mp hf with hf | hf
    · exact hspared.functions f hf
    · rw [List.mem_singleton.mp hf]
      have haxes' : t₂.axes = t.axes := haxes₂.trans haxes
      refine ⟨tableId, t₂, cs, ht₂, hid₂.trans hid₁, ?_, ⟨b, _, ?_, hkind, hinputs, hout, rfl⟩, ?_⟩
      · rw [Table.rank, haxes']
        exact hrank
      · rw [hpush]
        exact Array.getElem?_push_size
      · rw [Table.keys, haxes']
        exact hcs

/-- A call that neither asks for normalizers nor binds what has been added for them spares all of it. -/
theorem spares_of_call {c : DraftCall α} {u : Unit} (hrun : c.run.run d = .ok u d')
    (hbinds : ∀ id, c.binds? = some id → id ∉ own) (hnormalizer : ∀ set v, c ≠ .normalizer set v)
    (hfunction : ∀ name table inputs output, c ≠ .function name table inputs output) :
    Spares own d d' ∧ d'.normalizers = d.normalizers := by
  cases c with
  | signal s =>
      obtain ⟨id, d₁, hsignal, hpure⟩ := run_bind_ok.mp hrun
      cases hpure
      have hgrows := grows_addSignal hsignal
      obtain ⟨-, -, rfl⟩ := addSignal_ok hsignal
      exact ⟨.of_grows hgrows, rfl⟩
  | block name kind =>
      obtain ⟨id, d₁, hblock, hpure⟩ := run_bind_ok.mp hrun
      cases hpure
      obtain ⟨hsame, ⟨b, hb, -, -, hopen⟩, hput⟩ := addBlock_ok hblock
      have hgrows := hput [] b fun r v hr => by
        rw [hopen] at hr
        cases hr
      rw [put_self hb] at hgrows
      exact ⟨.of_grows hgrows, hsame⟩
  | input id slot r =>
      obtain ⟨b, -, rfl⟩ := bindInput_ok hrun
      exact ⟨.put (hbinds id rfl) _, rfl⟩
  | output id r =>
      obtain ⟨b, -, rfl⟩ := bindOutput_ok hrun
      exact ⟨.put (hbinds id rfl) _, rfl⟩
  | breakpoints id values =>
      obtain ⟨set, d₁, hset, hpure⟩ := run_bind_ok.mp hrun
      cases hpure
      obtain ⟨hgrows, hsame, -⟩ := registerBreakpoints_ok hset
      exact ⟨.of_grows hgrows, hsame⟩
  | table id axes values =>
      obtain ⟨table, d₁, htable, hpure⟩ := run_bind_ok.mp hrun
      cases hpure
      obtain ⟨hgrows, hsame, -⟩ := registerTable_ok htable
      exact ⟨.of_grows hgrows, hsame⟩
  | normalizer set v => exact absurd rfl (hnormalizer set v)
  | lookup name table vs out =>
      obtain ⟨id, d₁, hlookup, hpure⟩ := run_bind_ok.mp hrun
      cases hpure
      obtain ⟨-, hgrows, hsame, -⟩ := addLookup_push hlookup
      exact ⟨.of_grows hgrows, hsame⟩
  | function name table vs out => exact absurd rfl (hfunction name table vs out)

theorem note_of_error {c : DraftCall α} {e : ModelError α} (hrun : c.run.run d = .error e d') :
    l.note d c = l := by
  cases c with
  | normalizer set v =>
      rw [Ledger.note, run_discard_error.mp hrun]
  | function name table vs out =>
      rw [Ledger.note, run_discard_error.mp hrun]
  | _ => rfl

theorem note_of_other {c : DraftCall α} (hnormalizer : ∀ set v, c ≠ .normalizer set v)
    (hfunction : ∀ name table inputs output, c ≠ .function name table inputs output) :
    l.note d c = l := by
  cases c with
  | normalizer set v => exact absurd rfl (hnormalizer set v)
  | function name table vs out => exact absurd rfl (hfunction name table vs out)
  | _ => rfl

end Steps

section Runs

variable {d d' : Draft α} {l : Ledger} {placed : List Placement}

theorem Tallies.answer (h : d.Tallies l placed) {set w : String}
    {c : String} (hrun : (addNormalizer set w).run d = .ok c d') :
    ∃ placed', d'.Tallies (l.note d (.normalizer set w)) placed' := by
  obtain ⟨id, hid, -⟩ := addNormalizer_cases hrun
  obtain ⟨placed', -, -, h', hx⟩ := h.ask hid hrun
  refine ⟨placed', ?_⟩
  rw [Ledger.note, hid, hrun]
  refine { h' with answers := fun k v hin => ?_ }
  rcases List.mem_append.mp hin with hin | hin
  · exact h'.answers k v hin
  · cases List.mem_singleton.mp hin
    exact hx

/-- Every call keeps the tally. -/
theorem Tallies.call (h : d.Tallies l placed) (hd : d.Sound) (c : DraftCall α)
    (hbinds : ∀ u d', c.run.run d = .ok u d' → ∀ id, c.binds? = some id → id ∉ l.own) :
    ∃ placed', (final c.run d).Tallies (l.note d c) placed' := by
  cases hrun : c.run.run d with
  | error e d' =>
      rw [final_of_error hrun, note_of_error hrun]
      refine ⟨placed, ?_⟩
      rcases hd.unchanged_of_error hrun with rfl | ⟨-, -, -, rfl⟩
      · exact h
      · exact h.spared ⟨fun _ _ hs => hs, fun _ _ _ hb => hb, fun _ t ht => ⟨t, ht, rfl, rfl⟩⟩ rfl
  | ok u d' =>
      rw [final_of_ok hrun]
      by_cases hnormalizer : ∃ set v, c = .normalizer set v
      · obtain ⟨set, v, rfl⟩ := hnormalizer
        obtain ⟨x, d₁, hnormalizer, hpure⟩ := run_bind_ok.mp hrun
        cases hpure
        exact h.answer hnormalizer
      by_cases hfunction : ∃ name table inputs output, c = .function name table inputs output
      · obtain ⟨name, table, inputs, output, rfl⟩ := hfunction
        obtain ⟨id, d₁, hfunction, hpure⟩ := run_bind_ok.mp hrun
        cases hpure
        obtain ⟨t, -, -, ht, -⟩ := addFunction_split hfunction
        rw [Ledger.note, ht, hfunction]
        exact h.serve hd ht hfunction
      push Not at hnormalizer hfunction
      obtain ⟨hspares, hsame⟩ := spares_of_call hrun (hbinds u d' hrun) hnormalizer hfunction
      rw [note_of_other hnormalizer hfunction]
      exact ⟨placed, h.spared hspares hsame⟩

theorem Tended.tallies (h : d.Tended l) : ∃ placed, d.Tallies l placed := by
  induction h with
  | empty name =>
      refine ⟨[], ⟨.nil, .nil, .nil, ?_, ?_, ?_, ?_, ?_, ?_⟩, rfl⟩
      · simp
      · simp
      · simp
      · simp
      · simp
      · simp
  | call c h hbinds ih =>
      obtain ⟨placed, hplaced⟩ := ih
      exact hplaced.call h.reachable.sound c hbinds

end Runs

end Draft

end BlockDiagram
