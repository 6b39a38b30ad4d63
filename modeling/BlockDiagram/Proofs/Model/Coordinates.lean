import BlockDiagram.Proofs.Draft.Sharing
import BlockDiagram.Proofs.Draft.Solution
/-! Coordinates: in the model that is built of a draft, a function of a table reads the positions of its own
inputs, and no two normalizers are mixed up. -/

namespace BlockDiagram

open Call

variable {α : Type} [Scalar α]

namespace Draft

/-- The model shows the variable to the blocks that read it on the signal `i`: the declared one, or the one
behind its limiter. -/
def Seen (d : Draft α) (m : Model α) (v : String) (i : SignalId) : Prop :=
  ∃ id s, d.signalId? v = some id ∧ d.signals[id.index]? = some s ∧
    (∃ t, m.signal? i = some t ∧ t.varId = v) ∧
    (s.needsLimiter = false ∧ i = id ∨ s.needsLimiter = true ∧ ∃ p c, m.block? p = some c ∧
      c.kind = .limiterBetween s.lower s.upper ∧ c.inputs = [id] ∧ c.output = some i)

end Draft

namespace Model

/-- The signal carries the variable of the normalizer and has its block for a source. -/
def Conveys (m : Model α) (x : Placement) (i : SignalId) : Prop :=
  ∃ s, m.signal? i = some s ∧ s.varId = x.varId ∧ s.source = some ⟨x.block, 0⟩

/-- The normalizers are blocks of the model that read their inputs, and the lookups read the normalizers for
their axes and inputs. -/
structure Shares (m : Model α) (d : Draft α) (l : Ledger) (placed : List Placement) : Prop where
  normalizers : ∀ x ∈ placed, ∃ b i o, m.block? x.block = some b ∧
    b.kind = .normalizer x.key.breakpoints ∧ b.inputs = [i] ∧ d.Seen m x.key.input i ∧
    b.output = some o ∧ m.Conveys x o
  functions : ∀ f ∈ l.functions, ∃ b tableId t, m.block? f.block = some b ∧ b.kind = .lookup tableId ∧
    m.tables[tableId.index]? = some t ∧ t.id = f.table ∧ t.rank = f.inputs.length ∧
    List.Forall₂ (fun k i => ∃ x ∈ placed, x.key = k ∧ m.Conveys x i) (t.keys f.inputs) b.inputs

end Model

namespace Draft

section Built

variable {d : Draft α} {w m : Model α} {holder : SignalId → SignalId} {l : Ledger}
  {placed : List Placement}

theorem Wired.seen (hd : d.Sound) (hw : d.Wired d.blocks.toList w) (hm : w.Completed m holder) {v : String}
    {id : SignalId} (hid : d.signalId? v = some id) : d.Seen m v (holder id) := by
  obtain ⟨s, hs, rfl⟩ := (signalId?_eq_some hd).mp hid
  obtain ⟨t, ht, rfl⟩ := hw.exists_signal hs
  refine ⟨id, _, hid, hs, hm.named id t ht, ?_⟩
  cases hneed : t.unwired.needsLimiter with
  | false => exact .inl ⟨rfl, hm.free id t ht hneed⟩
  | true => exact .inr ⟨rfl, hm.limited id t ht hneed⟩

theorem Wired.conveys [Unbounded α] (hd : d.Sound) (hw : d.Wired d.blocks.toList w)
    (hm : w.Completed m holder) (hedges : m.EdgesAgree) (h : d.Shares l placed) {x : Placement}
    (hx : x ∈ placed) {id : SignalId} (hid : d.signalId? x.varId = some id) :
    m.Conveys x (holder id) := by
  obtain ⟨c, id', -, hc, -, -, hout, hid', -⟩ := hw.completed_puts hd hm (h.normalizers x hx)
  cases hid.symm.trans hid'
  obtain ⟨s, hs, hsource⟩ := hedges.source_of_output hc hout
  obtain ⟨-, -, -, -, ⟨t, ht, hname⟩, -⟩ := hw.seen hd hm hid
  rw [hw.holder_of_derived hd hm (h.derived x hx) hid] at ht ⊢
  cases hs.symm.trans ht
  exact ⟨s, hs, hname, hsource⟩

/-- What holds in the draft is there in the model that is built of it. -/
theorem Shares.built [Unbounded α] (hd : d.Sound) (h : d.Shares l placed) (hbuild : d.build = .ok m) :
    m.Shares d l placed := by
  obtain ⟨w, -, hw, -, hext, hcomplete⟩ := build_ok hd hbuild
  obtain ⟨holder, hm⟩ := Model.exists_holder hext hcomplete
  have hedges := Model.edges_of_extends hext hw.edges
  have htables : m.tables = d.tables := (Model.grids_of_extends hext).2.trans hw.fresh.2.1
  constructor
  · intro x hx
    obtain ⟨c, o, ids, hc, hkind, hinputs, hout, ho, hids⟩ :=
      hw.completed_puts hd hm (h.normalizers x hx)
    obtain ⟨i, rest, hi, hrest, rfl⟩ := List.forall₂_cons_left_iff.mp hids
    cases hrest
    have hconveys := hw.conveys hd hm hedges h hx ho
    rw [hw.holder_of_derived hd hm (h.derived x hx) ho] at hconveys
    exact ⟨c, holder i, o, hc, hkind, hinputs, hw.seen hd hm hi, hout, hconveys⟩
  · intro f hf
    obtain ⟨tableId, t, cs, ht, hid, hrank, hputs, hcs⟩ := h.functions f hf
    obtain ⟨c, -, ids, hc, hkind, hinputs, -, -, hids⟩ := hw.completed_puts hd hm hputs
    refine ⟨c, tableId, t, hc, hkind, htables ▸ ht, hid, hrank, ?_⟩
    rw [hinputs, List.forall₂_map_right_iff]
    refine forall₂_comp hcs hids ?_
    rintro k v id ⟨x, hx, hkey, rfl⟩ hv
    exact ⟨x, hx, hkey, hw.conveys hd hm hedges h hx hv⟩

end Built

/-- Normalizers are shared, and only by those that ask for the same. Their blocks are one for each pair of a
breakpoint set and an input that has been asked for; calls for one pair return one variable, and calls for two
pairs two, however they are named. Every function reads the positions of its inputs on the axes of its table.
A model that is built keeps all that. -/
theorem Tended.normalizers_shared [Unbounded α] {d : Draft α} {l : Ledger} (h : d.Tended l) :
    ∃ placed, d.Shares l placed ∧
      (∀ k v k' v', (k, v) ∈ l.answers → (k', v') ∈ l.answers → (k = k' ↔ v = v')) ∧
      ∀ m, d.build = .ok m → m.Shares d l placed := by
  obtain ⟨placed, hplaced⟩ := h.tallies
  refine ⟨placed, hplaced.toShares, ?_, fun m hbuild => hplaced.built h.reachable.sound hbuild⟩
  intro k v k' v' hk hk'
  obtain ⟨x, hx, rfl, rfl⟩ := hplaced.answers k v hk
  obtain ⟨y, hy, rfl, rfl⟩ := hplaced.answers k' v' hk'
  constructor
  · intro heq
    rw [List.inj_on_of_nodup_map hplaced.keys hx hy heq]
  · intro heq
    rw [List.inj_on_of_nodup_map hplaced.varIds hx hy heq]

/-- The ledger of calls on an empty draft. -/
def ledger (name : String) (calls : List (DraftCall α)) : Ledger :=
  (calls.foldl (fun p c => (final c.run p.1, p.2.note p.1 c)) (empty name, {})).2

theorem tended_after (name : String) {calls : List (DraftCall α)} (h : ∀ c ∈ calls, c.binds? = none) :
    (after name calls).Tended (ledger name calls) := by
  have hall : ∀ (d : Draft α) (l : Ledger), d.Tended l →
      (calls.foldl (fun d c => final c.run d) d).Tended
        (calls.foldl (fun p c => (final c.run p.1, p.2.note p.1 c)) (d, l)).2 := by
    induction calls with
    | nil => exact fun d l hd => hd
    | cons c calls ih =>
        intro d l hd
        refine ih (fun x hx => h x (List.mem_cons_of_mem c hx)) _ _ (.call c hd fun _ _ _ id hid => ?_)
        rw [h c List.mem_cons_self] at hid
        cases hid
  exact hall _ _ (.empty name)

/-- Two pairs that would give one name, which is that of a declared variable besides. One of the inputs is
limited. -/
def namesakes : List (DraftCall Float) :=
  [ .signal ((Signal.declare "A" "a" "").withLimits (some 0) (some 1)),
    .signal (Signal.declare "A_x" "b" ""), .signal (Signal.declare "A_x_x_B" "c" ""),
    .breakpoints "x_B" [0, 1], .breakpoints "B" [0, 1], .table (some "T") ["B", "x_B"] #[1, 2, 3, 4],
    .normalizer "x_B" "A", .function "f" "T" ["A_x", "A"] "A_x_x_B", .normalizer "B" "A_x",
    .normalizer "x_B" "A" ]

theorem normalizers_shared_namesakes :
    ∃ placed m, (after "namesakes" namesakes).build = .ok m ∧
      (ledger "namesakes" namesakes).answers =
        [(⟨⟨0⟩, "A"⟩, "A_x_x_B_1"), (⟨⟨1⟩, "A_x"⟩, "A_x_x_B_2"), (⟨⟨0⟩, "A"⟩, "A_x_x_B_1")] ∧
      (ledger "namesakes" namesakes).own = [⟨0⟩, ⟨1⟩, ⟨2⟩] ∧
      (after "namesakes" namesakes).Shares (ledger "namesakes" namesakes) placed ∧
      m.Shares (after "namesakes" namesakes) (ledger "namesakes" namesakes) placed := by
  have hbuilt : (after "namesakes" namesakes).build.toOption.any (fun _ => true) = true := by
    decide +kernel
  obtain ⟨m, hm, -⟩ := outcome_of_any hbuilt
  have htended : (after "namesakes" namesakes).Tended (ledger "namesakes" namesakes) := by
    refine tended_after _ fun c hc => ?_
    have hfree : namesakes.all (fun c => c.binds?.isNone) = true := by decide +kernel
    exact Option.isNone_iff_eq_none.mp (List.all_eq_true.mp hfree c hc)
  obtain ⟨placed, hshares, -, hbuild⟩ := Tended.normalizers_shared htended
  exact ⟨placed, m, hm, by decide +kernel, by decide +kernel, hshares, hbuild m hm⟩

end Draft

end BlockDiagram
