import BlockDiagram.Proofs.Directory
import BlockDiagram.Proofs.Draft.Growth
/-! Names of a draft: the name tables kept beside it by the writes of its calls are exact, and so are
the lists of users of its grid data. -/

namespace BlockDiagram

open Call

namespace Draft

variable {α : Type}

/-- The name tables kept beside a draft. A call that adds a part writes the name of the part once; no
other call writes. -/
inductive Recorded [Arithmetic α] : Draft α → Directory → Prop
  | empty (name : String) : Recorded (Draft.empty name) .empty
  | signal {d d' : Draft α} {x : Directory} {s : Signal α} {id : SignalId} : Recorded d x →
      (addSignal s).run d = .ok id d' →
      Recorded d' { x with signals := x.signals.write s.varId id }
  | block {d d' : Draft α} {x : Directory} {name : String} {kind : BlockKind α} {id : BlockId} :
      Recorded d x → (addBlock name kind).run d = .ok id d' →
      Recorded d' { x with blocks := x.blocks.write (freshName d.blockNames name) id }
  | input {d d' : Draft α} {x : Directory} {block : BlockId} {slot : Nat} {r : Reference} :
      Recorded d x → (bindInput block slot r).run d = .ok () d' → Recorded d' x
  | output {d d' : Draft α} {x : Directory} {block : BlockId} {r : Reference} :
      Recorded d x → (bindOutput block r).run d = .ok () d' → Recorded d' x
  | breakpoints {d d' : Draft α} {x : Directory} {id : String} {values : List α}
      {set : BreakpointId} : Recorded d x → (registerBreakpoints id values).run d = .ok set d' →
      Recorded d' { x with breakpoints := x.breakpoints.write id set }
  | table {d d' : Draft α} {x : Directory} {id : Option String} {axes : List String}
      {values : Array α} {table : TableId} : Recorded d x →
      (registerTable id axes values).run d = .ok table d' →
      Recorded d' { x with tables := x.tables.write (d.claimedId id) table }
  | noted {d : Draft α} {x : Directory} (normalizers : List (NormalizerKey × String))
      (anonymous : Nat) : Recorded d x → Recorded { d with normalizers, anonymous } x

/-- What the name tables and the lists of a draft say is what its arenas say. -/
structure Catalogued (d : Draft α) (x : Directory) : Prop where
  exact : x.Exact DraftBlock.name d.signals d.blocks d.breakpoints d.tables
  users : UsersExact DraftBlock.kind d.blocks d.breakpoints d.tables

section Recorded

/-- The draft has name tables. -/
def HasDirectory [Arithmetic α] (d : Draft α) : Prop := ∃ x, d.Recorded x

variable [Scalar α]

theorem stable_hasDirectory : Stable (HasDirectory : Draft α → Prop) where
  signal _ := keeps_of_run (fun _ _ _ ⟨_, hx⟩ hrun => ⟨_, hx.signal hrun⟩)
    fun _ _ _ hd hrun => addSignal_error hrun ▸ hd
  block _ _ := keeps_of_run (fun _ _ _ ⟨_, hx⟩ hrun => ⟨_, hx.block hrun⟩)
    fun _ _ _ hd hrun => addBlock_error hrun ▸ hd
  input _ _ _ := keeps_of_run (fun _ _ _ ⟨_, hx⟩ hrun => ⟨_, hx.input hrun⟩)
    fun _ _ _ hd hrun => bindInput_error hrun ▸ hd
  output _ _ := keeps_of_run (fun _ _ _ ⟨_, hx⟩ hrun => ⟨_, hx.output hrun⟩)
    fun _ _ _ hd hrun => bindOutput_error hrun ▸ hd
  normalizers := fun d ns ⟨x, hx⟩ => ⟨x, hx.noted ns d.anonymous⟩

theorem keeps_hasDirectory_registerBreakpoints (id : String) (values : List α) :
    Keeps HasDirectory (registerBreakpoints id values) :=
  keeps_of_run (fun _ _ _ ⟨_, hx⟩ hrun => ⟨_, hx.breakpoints hrun⟩)
    fun _ _ _ hd hrun => registerBreakpoints_error hrun ▸ hd

theorem keeps_hasDirectory_registerTable (id : Option String) (axes : List String)
    (values : Array α) : Keeps HasDirectory (registerTable id axes values) := by
  refine keeps_of_run (fun _ _ _ ⟨_, hx⟩ hrun => ⟨_, hx.table hrun⟩) ?_
  rintro d e d' ⟨x, hx⟩ hrun
  rcases registerTable_error hrun with rfl | rfl
  · exact ⟨x, hx⟩
  · cases id with
    | none => exact ⟨x, hx.noted d.normalizers d.nextAnonymous⟩
    | some id => exact ⟨x, hx⟩

/-- Every call is made of calls that write one name or none. -/
theorem Reachable.hasDirectory {d : Draft α} (h : d.Reachable) : ∃ x, d.Recorded x := by
  induction h with
  | empty name => exact ⟨_, .empty name⟩
  | call c _ ih =>
      exact c.keeps_of_stable stable_hasDirectory keeps_hasDirectory_registerBreakpoints
        keeps_hasDirectory_registerTable _ ih

theorem Recorded.sound {d : Draft α} {x : Directory} (h : d.Recorded x) : d.Sound := by
  induction h with
  | empty name => exact empty_sound name
  | signal _ hrun ih => exact (keeps_addSignal _).ok ih hrun
  | block _ hrun ih => exact (keeps_addBlock _ _).ok ih hrun
  | input _ hrun ih => exact (keeps_bindInput _ _ _).ok ih hrun
  | output _ hrun ih => exact (keeps_bindOutput _ _).ok ih hrun
  | breakpoints _ hrun ih => exact (keeps_registerBreakpoints _ _).ok ih hrun
  | table _ hrun ih => exact (keeps_registerTable _ _ _).ok ih hrun
  | noted ns n _ ih => exact { ih with }

end Recorded

namespace Catalogued

variable {d d' : Draft α} {x : Directory}

theorem addSignal (h : d.Catalogued x) {s : Signal α} {id : SignalId}
    (hrun : (Draft.addSignal s).run d = .ok id d') :
    d'.Catalogued { x with signals := x.signals.write s.varId id } := by
  obtain ⟨hfree, rfl, rfl⟩ := addSignal_ok hrun
  rw [mem_varIds] at hfree
  refine ⟨{ h.exact with signals := h.exact.signals.push (x := s.unwired) ?_ }, h.users⟩
  intro y hy heq
  obtain ⟨i, hi⟩ := Array.mem_iff_getElem?.mp hy
  exact hfree ⟨i, y, hi, heq⟩

/-- The name of a new block is free, and the block is listed where its kind reads grid data. -/
theorem addBlock (h : d.Catalogued x) {name : String} {kind : BlockKind α} {id : BlockId}
    (hrun : (Draft.addBlock name kind).run d = .ok id d') :
    d'.Catalogued { x with blocks := x.blocks.write (freshName d.blockNames name) id } := by
  have hfree : ∀ b ∈ d.blocks, b.name ≠ freshName d.blockNames name := freshName_ne name
  rw [addBlock_run] at hrun
  split at hrun
  · cases hrun
  · rename_i d₁ henlist
    cases hrun
    obtain ⟨hsignals, hblocks, -, -⟩ := enlist_ok henlist
    have hnames : d₁.blockNames = d.blockNames := by rw [blockNames, hblocks, blockNames]
    rw [hnames]
    unfold enlist at henlist
    split at henlist
    · split at henlist
      · cases henlist
        exact ⟨{ h.exact with
          blocks := h.exact.blocks.push (x := ⟨freshName d.blockNames name, _, [], none⟩) hfree
          breakpoints := h.exact.breakpoints.modify (by intro s; rfl) },
          h.users.push_normalizer rfl⟩
      · cases henlist
    · split at henlist
      · cases henlist
        exact ⟨{ h.exact with
          blocks := h.exact.blocks.push (x := ⟨freshName d.blockNames name, _, [], none⟩) hfree
          tables := h.exact.tables.modify (by intro t; rfl) },
          h.users.push_lookup rfl⟩
      · cases henlist
    · rename_i hset htable
      cases henlist
      exact ⟨{ h.exact with
        blocks := h.exact.blocks.push (x := ⟨freshName d.blockNames name, kind, [], none⟩) hfree },
        h.users.push_plain hset htable⟩

/-- Binding a slot changes neither names nor kinds. -/
theorem put (h : d.Catalogued x) {id : BlockId} {b b' : DraftBlock α}
    (hb : d.blocks[id.index]? = some b) (hname : b'.name = b.name) (hkind : b'.kind = b.kind) :
    (d.put id b').Catalogued x := by
  have hsame : ∀ {γ : Type} (f : DraftBlock α → γ), f b' = f b → ∀ i : Nat,
      (d.put id b').blocks[i]?.map f = d.blocks[i]?.map f := by
    intro γ f hf i
    rw [Draft.put, Array.getElem?_setIfInBounds]
    split
    · subst i
      rw [if_pos (Array.getElem?_eq_some_iff.mp hb).1, hb, Option.map_some, Option.map_some, hf]
    · rfl
  exact ⟨{ h.exact with blocks := h.exact.blocks.congr (hsame _ hname) },
    h.users.congr (hsame _ hkind)⟩

/-- A further breakpoint set has a free name, and no block reads it yet. -/
theorem registerBreakpoints [Arithmetic α] (h : d.Catalogued x) (hd : d.Sound) {id : String}
    {values : List α} {set : BreakpointId}
    (hrun : (Draft.registerBreakpoints id values).run d = .ok set d') :
    d'.Catalogued { x with breakpoints := x.breakpoints.write id set } := by
  rw [registerBreakpoints_run] at hrun
  split at hrun
  · cases hrun
  · rename_i hfree
    split at hrun
    · cases hrun
    · rename_i s hs
      cases hrun
      obtain ⟨rfl, -, -, husers⟩ := BreakpointSet.ofValues_ok hs
      refine ⟨{ h.exact with breakpoints := h.exact.breakpoints.push ?_ }, h.users.push_set husers ?_⟩
      · intro t ht heq
        exact hfree (Array.any_eq_true'.mpr ⟨t, ht, beq_iff_eq.mpr heq⟩)
      · intro b hb hkind
        obtain ⟨i, hi⟩ := Array.mem_iff_getElem?.mp hb
        have hrange := hd.kinds i b hi
        rw [hkind] at hrange
        exact Nat.lt_irrefl _ hrange

/-- A further table has a free name, and no block reads it yet. -/
theorem registerTable (h : d.Catalogued x) (hd : d.Sound) {id : Option String} {axes : List String}
    {values : Array α} {table : TableId}
    (hrun : (Draft.registerTable id axes values).run d = .ok table d') :
    d'.Catalogued { x with tables := x.tables.write (d.claimedId id) table } := by
  rw [registerTable_run] at hrun
  split at hrun
  · cases hrun
  · rename_i hfree
    split at hrun
    · cases hrun
    · rename_i t ht
      cases hrun
      obtain ⟨axes', -, ht⟩ := outcome_bind_ok.mp ht
      obtain ⟨hid, -, -, husers, -⟩ := Table.ofValues_ok ht
      have hclaimed := claimedId_not_mem hfree
      rw [mem_tableIds] at hclaimed
      have hname : ∀ s ∈ d.tables, s.id ≠ t.id := by
        intro s hs heq
        obtain ⟨i, hi⟩ := Array.mem_iff_getElem?.mp hs
        exact hclaimed ⟨i, s, hi, heq.trans hid⟩
      have hkinds : ∀ b ∈ d.blocks, b.kind ≠ .lookup ⟨d.tables.size⟩ := by
        intro b hb hkind
        obtain ⟨i, hi⟩ := Array.mem_iff_getElem?.mp hb
        have hrange := hd.kinds i b hi
        rw [hkind] at hrange
        exact Nat.lt_irrefl _ hrange
      rw [← hid]
      cases id with
      | none =>
          exact ⟨{ h.exact with tables := h.exact.tables.push hname },
            h.users.push_table husers hkinds⟩
      | some id =>
          exact ⟨{ h.exact with tables := h.exact.tables.push hname },
            h.users.push_table husers hkinds⟩

end Catalogued

/-- The name tables of a draft are exact. -/
theorem Recorded.catalogued [Scalar α] {d : Draft α} {x : Directory} (h : d.Recorded x) :
    d.Catalogued x := by
  induction h with
  | empty name => exact ⟨⟨.empty, .empty, .empty, .empty⟩, .empty⟩
  | signal _ hrun ih => exact ih.addSignal hrun
  | block _ hrun ih => exact ih.addBlock hrun
  | input _ hrun ih =>
      obtain ⟨b, hb, rfl⟩ := bindInput_ok hrun
      exact ih.put hb rfl rfl
  | output _ hrun ih =>
      obtain ⟨b, hb, rfl⟩ := bindOutput_ok hrun
      exact ih.put hb rfl rfl
  | breakpoints hd hrun ih => exact ih.registerBreakpoints hd.sound hrun
  | table hd hrun ih => exact ih.registerTable hd.sound hrun
  | noted ns n _ ih => exact ⟨ih.exact, ih.users⟩

end Draft

end BlockDiagram
