import BlockDiagram.Proofs.Draft.Names
import BlockDiagram.Proofs.Model.Holder
import BlockDiagram.Proofs.Model.Operation
/-! Names of a model: the name tables that wiring takes over from the draft and that completion goes on
writing are exact, and so are the lists of users, inputs and outputs. -/

namespace BlockDiagram

open Call

variable {α : Type} [Scalar α]

namespace Model

/-- The name tables kept beside a model. A splice gives the old signal a name of its own and writes the
old name again, for the new signal; every block that is added is written under its name. -/
inductive Recorded : Model α → Directory → Prop
  | wired {d : Draft α} {m : Model α} {x : Directory} : d.Recorded x → d.wire = .ok m → Recorded m x
  | limited {m m' : Model α} {x : Directory} {id : SignalId} {s : Signal α} : Recorded m x →
      m.signal? id = some s → s.needsLimiter = true → (limitSignal id).run m = .ok () m' →
      Recorded m' { x with
        signals := (x.signals.write (freshName m.varIds (s.varId ++ "_unlim")) id).write s.varId
          ⟨m.signals.size⟩
        blocks := x.blocks.write (freshName m.blockNames (s.varId ++ "_limiter")) ⟨m.blocks.size⟩ }
  | fed {m m' : Model α} {x : Directory} {id : SignalId} {s : Signal α} : Recorded m x →
      m.signal? id = some s → s.source = none → (feedSignal id).run m = .ok () m' →
      Recorded m' { x with
        blocks := x.blocks.write (freshName m.blockNames (s.feeder id).name) ⟨m.blocks.size⟩ }
  | tapped {m m' : Model α} {x : Directory} {id : SignalId} {s : Signal α} : Recorded m x →
      m.signal? id = some s → m.needsTap s = true → (tapSignal id).run m = .ok () m' →
      Recorded m' { x with
        blocks := x.blocks.write (freshName m.blockNames (s.varId ++ "_output")) ⟨m.blocks.size⟩ }
  | evaluated {m m' : Model α} {x : Directory} : Recorded m x → m'.bare = m.bare → Recorded m' x

omit [Scalar α] in
/-- What the name tables and the lists of users of a model say is what its arenas say. -/
structure Catalogued (m : Model α) (x : Directory) : Prop where
  exact : x.Exact Block.name m.signals m.blocks m.breakpoints m.tables
  users : UsersExact Block.kind m.blocks m.breakpoints m.tables

namespace Catalogued

variable {m m' : Model α} {x : Directory}

omit [Scalar α] in
/-- A block that reads no grid data. -/
theorem attach (h : m.Catalogued x) {b : Block α} (hplain : b.kind.InRange 0 0) :
    (m.attach b).Catalogued { x with
      blocks := x.blocks.write (freshName m.blockNames b.name) ⟨m.blocks.size⟩ } := by
  have hfree : ∀ c ∈ m.blocks, c.name ≠ freshName m.blockNames b.name := freshName_ne b.name
  constructor
  · refine { h.exact with signals := h.exact.signals.congr ?_, blocks := ?_ }
    · intro i
      have hentry : (m.attach b).signal? ⟨i⟩ = (m.signal? ⟨i⟩).map _ := attach_signal?
      rw [signal?, signal?] at hentry
      rw [hentry]
      cases m.signals[i]? with
      | none => rfl
      | some s => rfl
    · exact h.exact.blocks.push (x := { b with name := freshName m.blockNames b.name }) hfree
  · refine h.users.push_plain (b := { b with name := freshName m.blockNames b.name }) ?_ ?_
    · intro i hkind
      rw [show b.kind = _ from hkind] at hplain
      exact Nat.not_lt_zero _ hplain
    · intro i hkind
      rw [show b.kind = _ from hkind] at hplain
      exact Nat.not_lt_zero _ hplain

omit [Scalar α] in
theorem split (h : m.Catalogued x) {id : SignalId} {s : Signal α} (hs : m.signal? id = some s) :
    (m.split id s).Catalogued { x with
      signals := (x.signals.write (freshName m.varIds (s.varId ++ "_unlim")) id).write s.varId
        ⟨m.signals.size⟩ } := by
  have hfree : ∀ t ∈ m.signals, t.varId ≠ freshName m.varIds (s.varId ++ "_unlim") :=
    freshName_ne (s.varId ++ "_unlim")
  have hblocks : ∀ {γ : Type} (f : Block α → γ), (∀ b, f (b.redirect id ⟨m.signals.size⟩) = f b) →
      ∀ i : Nat, (m.split id s).blocks[i]?.map f = m.blocks[i]?.map f := by
    intro γ f hf i
    rw [show (m.split id s).blocks[i]? = _ from split_block? (i := ⟨i⟩), block?]
    cases m.blocks[i]? with
    | none => rfl
    | some b => rw [Option.map_some, Option.map_some, Option.map_some, hf]
  constructor
  · refine { h.exact with signals := ?_, blocks := ?_ }
    · exact h.exact.signals.supplant hs (y := { s.beforeLimiter
        (freshName m.varIds (s.varId ++ "_unlim")) ⟨m.blocks.size⟩ with sinks := [] })
        (z := { s.afterLimiter ⟨m.blocks.size⟩ with source := none }) hfree rfl
    · exact h.exact.blocks.congr (hblocks _ fun _ => rfl)
  · exact h.users.congr (hblocks _ fun _ => rfl)

omit [Scalar α] in
theorem of_bare [Arithmetic α] (h : m.Catalogued x) (hbare : m'.bare = m.bare) :
    m'.Catalogued x := by
  have hblocks : ∀ {γ : Type} (f : Block α → γ), (∀ b, f b.bare = f b) →
      ∀ i : Nat, m'.blocks[i]?.map f = m.blocks[i]?.map f := by
    intro γ f hf i
    have hone : ∀ n : Model α, n.blocks[i]?.map f = (n.bare.block? ⟨i⟩).map f := by
      intro n
      rw [bare_block?, Option.map_map]
      exact congrArg (Option.map · n.blocks[i]?) (funext fun b => (hf b).symm)
    rw [hone, hone, hbare]
  constructor
  · rw [signals_of_bare hbare, breakpoints_of_bare hbare, tables_of_bare hbare]
    exact { h.exact with blocks := h.exact.blocks.congr (hblocks _ fun _ => rfl) }
  · rw [breakpoints_of_bare hbare, tables_of_bare hbare]
    exact h.users.congr (hblocks _ fun _ => rfl)

omit [Scalar α] in
/-- Wiring leaves the signals, the grid data, and the names and kinds of the blocks. -/
theorem of_wired [Arithmetic α] {d : Draft α} (h : d.Catalogued x)
    (hm : d.Wired d.blocks.toList m) : m.Catalogued x := by
  obtain ⟨hsets, htables, -⟩ := hm.fresh
  have hblocks : ∀ {γ : Type} (f : Block α → γ) (g : DraftBlock α → γ),
      (∀ b₀ b, d.Resolved b₀ b → f b = g b₀) →
      ∀ i : Nat, m.blocks[i]?.map f = d.blocks[i]?.map g := by
    intro γ f g hfg i
    cases hb₀ : d.blocks[i]? with
    | none =>
        have hsize := hm.size
        rw [Array.length_toList] at hsize
        rw [Array.getElem?_eq_none_iff] at hb₀
        rw [Array.getElem?_eq_none (hsize ▸ hb₀)]
        rfl
    | some b₀ =>
        obtain ⟨b, hb, hres⟩ := hm.blocks i b₀ (by rw [Array.getElem?_toList, hb₀])
        rw [hb, Option.map_some, Option.map_some, hfg b₀ b hres]
  constructor
  · rw [hsets, htables]
    refine { h.exact with signals := h.exact.signals.congr fun i => ?_, blocks := ?_ }
    · cases hs : m.signals[i]? with
      | none =>
          rw [Array.getElem?_eq_none_iff, hm.signalCount, ← Array.getElem?_eq_none_iff] at hs
          rw [hs]
      | some s =>
          rw [hm.signals i s hs]
          rfl
    · exact h.exact.blocks.congr (hblocks _ _ fun _ _ hres => hres.name)
  · rw [hsets, htables]
    exact h.users.congr (hblocks _ _ fun _ _ hres => hres.kind)

end Catalogued

/-- The name tables of a model are exact. Its edges agree besides, so that completion adds to it what it
is to add. -/
theorem Recorded.catalogued {m : Model α} {x : Directory} (h : m.Recorded x) :
    m.EdgesAgree ∧ m.Catalogued x := by
  induction h with
  | wired hd hm =>
      have hwired := Draft.wire_ok hd.sound hm
      exact ⟨hwired.edges, .of_wired hd.catalogued hwired⟩
  | @limited m m' x id s _ hs hneed hrun ih =>
      obtain ⟨hedges, hnames⟩ := ih
      rw [limitSignal_run hedges hs] at hrun
      cases hrun
      have hlimiter : (s.limiter id ⟨m.signals.size⟩).kind.InRange 0 0 := by
        rw [Signal.limiter, BlockKind.limiterBetween]
        split <;> trivial
      have hspliced := (hnames.split hs).attach hlimiter
      rw [split_blockNames, split_size] at hspliced
      exact ⟨hedges.splice hs, hspliced⟩
  | @fed m m' x id s _ hs hsource hrun ih =>
      obtain ⟨hedges, hnames⟩ := ih
      rw [feedSignal_run hs, hsource] at hrun
      cases hrun
      have hfeeder : (s.feeder id).kind.InRange 0 0 := by
        unfold Signal.feeder
        split
        · split <;> trivial
        · trivial
      exact ⟨hedges.feed hs hsource, hnames.attach hfeeder⟩
  | tapped _ hs hneed hrun ih =>
      obtain ⟨hedges, hnames⟩ := ih
      rw [tapSignal_run hedges hs, if_pos hneed] at hrun
      cases hrun
      exact ⟨hedges.tap hs, hnames.attach trivial⟩
  | evaluated _ hbare ih => exact ⟨ih.1.of_bare hbare, ih.2.of_bare hbare⟩

/-- Completion is made of calls that each write the names they give. -/
theorem Recorded.extends {m m' : Model α} {x : Directory} (h : m.Recorded x)
    (hext : Relation.ReflTransGen Extends m m') : ∃ x', m'.Recorded x' := by
  have hkeep : ∀ m m' : Model α, Extends m m' → (∃ x, m.Recorded x) → ∃ x', m'.Recorded x' := by
    rintro m m' hstep ⟨x, hx⟩
    have hedges := hx.catalogued.1
    cases hstep with
    | limit hs hneed => exact ⟨_, hx.limited hs hneed (limitSignal_run hedges hs)⟩
    | feed hs hsource =>
        refine ⟨_, hx.fed hs hsource ?_⟩
        rw [feedSignal_run hs, hsource]
        rfl
    | tap hs hneed =>
        refine ⟨_, hx.tapped hs hneed ?_⟩
        rw [tapSignal_run hedges hs, if_pos hneed]
  exact extends_keeps hkeep hext ⟨x, h⟩

theorem Reachable.hasDirectory {m : Model α} (h : m.Reachable) : ∃ x, m.Recorded x := by
  induction h with
  | wired hd hm =>
      obtain ⟨x, hx⟩ := hd.hasDirectory
      exact ⟨x, .wired hx hm⟩
  | @call m c hm ih =>
      obtain ⟨x, hx⟩ := ih
      rcases call_bare_or_complete c hm.sound with rfl | hbare
      · obtain ⟨m', hrun, hext, -⟩ := complete_run hm.sound.edges
        rw [ModelCall.run, final_of_ok hrun]
        exact hx.extends hext
      · exact ⟨x, hx.evaluated hbare⟩

omit [Scalar α] in
/-- Inputs and outputs are listed in the order of the arena. -/
theorem Enrolled.lists {m : Model α} (h : m.Enrolled) :
    Lists m.inputs (fun b : Block α => b.kind = .input) m.blocks ∧
      Lists m.outputs (fun b : Block α => b.kind = .output) m.blocks := by
  have htest : ∀ (p : BlockKind α → Bool) (k : BlockKind α), (∀ k', p k' = true ↔ k' = k) →
      Lists (m.blockIds.filter fun id => (m.kindOf? id).any p) (fun b : Block α => b.kind = k)
        m.blocks := by
    intro p k hp
    refine .filter_all fun id => ?_
    simp only [kindOf?, block?, Option.any_map, Option.any_eq_true, hp]
  constructor
  · rw [h.inputs]
    exact htest _ _ fun _ => BlockKind.isInput_iff
  · rw [h.outputs]
    exact htest _ _ fun _ => BlockKind.isOutput_iff

end Model

/-- A draft looks its parts up as the name tables say. -/
structure Draft.Follows (d : Draft α) (x : Directory) : Prop where
  signals : ∀ v, d.signalId? v = x.signals v
  breakpoints : ∀ id, (d.breakpointsId? id).toOption = x.breakpoints id
  tables : ∀ id, (d.tableId? id).toOption = x.tables id

/-- A model looks its parts up as the name tables say. -/
structure Model.Follows (m : Model α) (x : Directory) : Prop where
  signals : ∀ v, m.signalId? v = x.signals v
  blocks : ∀ name, m.blockId? name = x.blocks name
  breakpoints : ∀ id,
    m.breakpointsNamed? id = (x.breakpoints id).bind fun set => m.breakpoints[set.index]?
  tables : ∀ id, m.tableNamed? id = (x.tables id).bind fun table => m.tables[table.index]?

omit [Scalar α] in
theorem Draft.Catalogued.follows {d : Draft α} {x : Directory} (h : d.Catalogued x) :
    d.Follows x := by
  constructor
  · exact h.exact.signals.findIdx
  · intro id
    rw [← h.exact.breakpoints.findIdx, breakpointsId?]
    cases d.breakpoints.findIdx? fun s => s.id == id with
    | none => rfl
    | some i => rfl
  · intro id
    rw [← h.exact.tables.findIdx, tableId?]
    cases d.tables.findIdx? fun t => t.id == id with
    | none => rfl
    | some i => rfl

omit [Scalar α] in
theorem Model.Catalogued.follows {m : Model α} {x : Directory} (h : m.Catalogued x) :
    m.Follows x :=
  ⟨h.exact.signals.findIdx, h.exact.blocks.findIdx, h.exact.breakpoints.find, h.exact.tables.find⟩

/-- Every reachable draft has name tables, kept by the writes of its calls, and so has every model that
wiring one and calling the result leads to. They are exact: names are distinct, and each leads to the one
part that bears it and is what a lookup goes by. The users of grid data are exactly the blocks that read
it, and the inputs and outputs of a model exactly its input and output blocks, all in the order of the
arena. -/
theorem name_tables_exact :
    (∀ d : Draft α, d.Reachable → (∃ x, d.Recorded x) ∧ ∀ x, d.Recorded x →
      d.varIds.Nodup ∧ d.blockNames.Nodup ∧
      x.Exact DraftBlock.name d.signals d.blocks d.breakpoints d.tables ∧ d.Follows x ∧
      UsersExact DraftBlock.kind d.blocks d.breakpoints d.tables) ∧
    ∀ m : Model α, m.Reachable → (∃ x, m.Recorded x) ∧ ∀ x, m.Recorded x →
      m.varIds.Nodup ∧ m.blockNames.Nodup ∧
      x.Exact Block.name m.signals m.blocks m.breakpoints m.tables ∧ m.Follows x ∧
      UsersExact Block.kind m.blocks m.breakpoints m.tables ∧
      Lists m.inputs (fun b : Block α => b.kind = .input) m.blocks ∧
      Lists m.outputs (fun b : Block α => b.kind = .output) m.blocks := by
  constructor
  · refine fun d hd => ⟨hd.hasDirectory, fun x hx => ?_⟩
    have hnames := hx.catalogued
    exact ⟨hnames.exact.signals.nodup, hnames.exact.blocks.nodup, hnames.exact, hnames.follows,
      hnames.users⟩
  · refine fun m hm => ⟨hm.hasDirectory, fun x hx => ?_⟩
    have hnames := hx.catalogued.2
    exact ⟨hnames.exact.signals.nodup, hnames.exact.blocks.nodup, hnames.exact, hnames.follows,
      hnames.users, hm.sound.enrolled.lists⟩

/-- A function of a limited variable whose name with the suffix of a front half is taken. -/
def Draft.crowded : Draft Float :=
  .after "crowded"
    [ .breakpoints "A" [0, 1], .table (some "T") ["A"] #[0, 1],
      .signal (Signal.declare "x_unlim" "" ""),
      .signal ((Signal.declare "x" "" "").withLimits (some 0) (some 1)),
      .signal (Signal.declare "y" "" ""), .function "f" "T" ["x"] "y" ]

theorem crowded_names_exact :
    ∃ (m : Model Float) (x y : Directory), Draft.crowded.Recorded x ∧ x.signals "x" = some ⟨1⟩ ∧
      Draft.crowded.build = .ok m ∧ m.Recorded y ∧ y.signals "x" = some ⟨4⟩ ∧
      y.signals "x_unlim_1" = some ⟨1⟩ ∧ y.blocks "x_limiter" = some ⟨2⟩ ∧
      ∀ s, m.breakpoints[0]? = some s → (⟨0⟩ : BlockId) ∈ s.users := by
  have hdraft : (Draft.crowded.signals[1]?).any (fun s => s.varId == "x") = true := by
    decide +kernel
  have hbuilds : Draft.crowded.build.toOption.any (fun m =>
      ((m.signals[4]?).any fun s => s.varId == "x") &&
        ((m.signals[1]?).any fun s => s.varId == "x_unlim_1") &&
        ((m.blocks[2]?).any fun b => b.name == "x_limiter") &&
        (m.breakpoints[0]?).all fun s => s.users.contains ⟨0⟩) = true := by
    decide +kernel
  obtain ⟨m, hm, hmodel⟩ := outcome_of_any hbuilds
  simp only [Bool.and_eq_true, Option.any_eq_true, Option.all_eq_true, beq_iff_eq,
    List.contains_iff_mem] at hdraft hmodel
  obtain ⟨⟨⟨hback, hfront⟩, hlimiter⟩, husers⟩ := hmodel
  have hreach : Draft.crowded.Reachable := Draft.reachable_after _ _
  obtain ⟨⟨x, hx⟩, hnames⟩ := name_tables_exact.1 Draft.crowded hreach
  obtain ⟨-, -, hexact, -⟩ := hnames x hx
  obtain ⟨⟨y, hy⟩, hnames'⟩ := name_tables_exact.2 m (Model.Reachable.built hreach hm)
  obtain ⟨-, -, hexact', -⟩ := hnames' y hy
  exact ⟨m, x, y, hx, (hexact.signals "x" ⟨1⟩).mpr hdraft, hm, hy,
    (hexact'.signals "x" ⟨4⟩).mpr hback, (hexact'.signals "x_unlim_1" ⟨1⟩).mpr hfront,
    (hexact'.blocks "x_limiter" ⟨2⟩).mpr hlimiter, husers⟩

end BlockDiagram
