import BlockDiagram.Proofs.Model.Inputs
/-! Driving: which keys of a built model lead to an input block, where no two signals share a key. -/

namespace BlockDiagram

open Call

variable {α : Type} [Scalar α]

namespace Model

variable {w m f : Model α}

/-- Every limiter of `f` that is not of `m` stands in a signal of `m` that had need of one. -/
def LimitersTraced (m f : Model α) (holder : SignalId → SignalId) : Prop :=
  ∀ p c, f.block? p = some c → m.blocks.size ≤ p.index → c.kind.isLimiter = true →
    ∃ id s, m.signal? id = some s ∧ s.needsLimiter = true ∧ c.output = some (holder id)

theorem LimitersTraced.of_attach {holder : SignalId → SignalId} {b : Block α}
    (h : (m.attach b).LimitersTraced f holder) (htrace : (m.attach b).Traced f holder)
    (hb : b.kind.isLimiter = false) : m.LimitersTraced f holder := by
  intro p c hc hp hkind
  rcases Nat.eq_or_lt_of_le hp with hlast | hlater
  · obtain rfl := Handle.eq_mk hlast.symm
    obtain ⟨c', hc', -, hkind', -⟩ := htrace.blocks ⟨m.blocks.size⟩ _
      (by rw [attach_block?, if_pos rfl])
    cases hc.symm.trans hc'
    rw [hkind', hb] at hkind
    cases hkind
  · obtain ⟨id, t, ht, hneed, hout⟩ := h p c hc (by rw [attach_size]; exact hlater) hkind
    rw [attach_signal?] at ht
    obtain ⟨s, hs, rfl⟩ := Option.map_eq_some_iff.mp ht
    exact ⟨id, s, hs, hneed, hout⟩

theorem LimitersTraced.of_splice {holder : SignalId → SignalId} {id : SignalId} {s : Signal α}
    (h : (m.splice id s).LimitersTraced f holder) (htrace : (m.splice id s).Traced f holder)
    (hm : m.EdgesAgree) (hs : m.signal? id = some s) (hneed : s.needsLimiter = true) :
    m.LimitersTraced f fun j => holder (if j = id then ⟨m.signals.size⟩ else j) := by
  intro p c hc hp hkind
  rcases Nat.eq_or_lt_of_le hp with hlast | hlater
  · obtain rfl := Handle.eq_mk hlast.symm
    obtain ⟨u, t, hhalved⟩ := htrace.halved hm hs
    obtain ⟨c', hc', -, -, hout⟩ := hhalved.limiter
    cases hc.symm.trans hc'
    refine ⟨id, s, hs, hneed, ?_⟩
    dsimp only
    rw [if_pos rfl, hout]
  · obtain ⟨j, x, hx, hxneed, hout⟩ := h p c hc (by rw [splice_size]; exact hlater) hkind
    rcases splice_signal_cases hs hx with ⟨-, rfl⟩ | ⟨-, rfl⟩ | ⟨hj, hx⟩
    · cases hxneed
    · cases hxneed
    · refine ⟨j, x, hx, hxneed, ?_⟩
      dsimp only
      rw [if_neg hj, hout]

theorem exists_trace_of_limiters (h : Relation.ReflTransGen Extends m f) (hf : f.Complete)
    (hm : m.EdgesAgree) : ∃ holder, m.Traced f holder ∧ m.LimitersTraced f holder := by
  induction h using Relation.ReflTransGen.head_induction_on with
  | refl => exact ⟨id, .refl hf, fun p c hc hp => absurd (block?_lt hc) (Nat.not_lt.mpr hp)⟩
  | @head m n hstep _ ih =>
      obtain ⟨holder, htrace, hlimiters⟩ := ih (hstep.edges hm)
      cases hstep with
      | limit hs hneed =>
          exact ⟨_, htrace.of_splice hm hs hneed, hlimiters.of_splice htrace hm hs hneed⟩
      | @feed id s hs hsource =>
          have hkind : (s.feeder id).kind.isLimiter = false := by
            unfold Signal.feeder
            split
            · split <;> rfl
            · rfl
          refine ⟨holder, htrace.of_attach ⟨?_, .inl (s.feeder_inputs id)⟩,
            hlimiters.of_attach htrace hkind⟩
          rw [s.feeder_output]
          rintro x ⟨⟩
          exact ⟨s, hs, hsource⟩
      | @tap id s hs hneed =>
          refine ⟨holder, htrace.of_attach ⟨?_, .inr ⟨id, s, hs, hneed, rfl⟩⟩,
            hlimiters.of_attach htrace rfl⟩
          rintro x ⟨⟩

/-- No two signals answer to one key. -/
def Unambiguous (m : Model α) : Prop :=
  ∀ key i j s t, m.signal? i = some s → m.signal? j = some t → s.answersTo key = true →
    t.answersTo key = true → i = j

omit [Scalar α] in
theorem unambiguous_of_pairwise (h : (m.signals.toList.map fun s => (s.varId, s.name)).Pairwise
    fun a b => a.1 ≠ b.1 ∧ a.1 ≠ b.2 ∧ a.2 ≠ b.1 ∧ a.2 ≠ b.2) : m.Unambiguous := by
  rw [List.pairwise_map] at h
  have hone : ∀ (key : String) (i j : Nat) (s t : Signal α), i < j → m.signals[i]? = some s →
      m.signals[j]? = some t → s.answersTo key = true → t.answersTo key = true → False := by
    intro key i j s t hij hs ht hskey htkey
    rw [← Array.getElem?_toList, List.getElem?_eq_some_iff] at hs ht
    obtain ⟨hi, rfl⟩ := hs
    obtain ⟨hj, rfl⟩ := ht
    have hdistinct := List.pairwise_iff_getElem.mp h i j hi hj hij
    simp only [Signal.answersTo, Bool.or_eq_true, beq_iff_eq] at hskey htkey
    grind
  intro key i j s t hs ht hskey htkey
  rcases Nat.lt_trichotomy i.index j.index with hlt | heq | hlt
  · exact (hone key _ _ s t hlt hs ht hskey htkey).elim
  · exact Handle.eq_mk heq
  · exact (hone key _ _ t s hlt ht hs htkey hskey).elim

/-- The key names a signal that input block `p` produces, or the back half of one that a limiter has been
put into; `w` is the model before completion. -/
inductive Names (w m : Model α) (key : String) (p : BlockId) : Prop
  | input {id : SignalId} {s : Signal α} : m.Supplies p id → m.signal? id = some s →
      s.answersTo key = true → Names w m key p
  | half {id n : SignalId} {l : BlockId} {s u t : Signal α} : w.signal? id = some s →
      s.needsLimiter = true → w.Halved m id n s l u t → m.Supplies p id → t.answersTo key = true →
      Names w m key p

/-- The key names a signal with the mark of a half that a limiter of the draft's own produces from a
signal of input block `p`. -/
inductive Misnames (w m : Model α) (key : String) (p : BlockId) : Prop
  | limiter {id x : SignalId} {s : Signal α} {l : BlockId} {c : Block α} : m.Supplies p x →
      l.index < w.blocks.size → m.block? l = some c → c.kind.isLimiter = true →
      c.inputs.head? = some x → c.output = some id → m.signal? id = some s → s.limited = true →
      s.answersTo key = true → Misnames w m key p

section Built

variable {key : String} {p : BlockId}

omit [Scalar α]

theorem Supplies.unique {q : BlockId} {id : SignalId} (h : m.Supplies p id) (h' : m.Supplies q id)
    (hedges : m.EdgesAgree) : p = q := by
  obtain ⟨b, hb, -, hbout⟩ := h
  obtain ⟨c, hc, -, hcout⟩ := h'
  exact hedges.output_unique hb hc hbout hcout

/-- Of the signals that answer to the key there is only one, so the search by the signals of the input
blocks finds its block. -/
theorem Supplies.inputBlock? {id : SignalId} {s : Signal α} (h : m.Supplies p id)
    (hs : m.signal? id = some s) (hkey : s.answersTo key = true) (hone : m.Unambiguous)
    (hedges : m.EdgesAgree) (henrolled : m.Enrolled) : m.inputBlock? key = some p := by
  have hmem := (mem_supplied henrolled).mpr ⟨id, h, hs⟩
  cases hfound : m.supplied.find? fun e => e.2.answersTo key with
  | none => exact absurd hkey (List.find?_eq_none.mp hfound _ hmem)
  | some e =>
      obtain ⟨j, he, ht⟩ := (mem_supplied henrolled).mp (List.mem_of_find?_eq_some hfound)
      have hekey : e.2.answersTo key = true := by simpa using List.find?_some hfound
      cases hone key id j s e.2 hs ht hkey hekey
      rw [inputBlock?_of_supplied hfound, h.unique he hedges]

/-- What the search finds, in the order in which it looks. -/
theorem inputBlock?_eq_some (henrolled : m.Enrolled)
    (h : m.inputBlock? key = some p) :
    (∃ id s, m.Supplies p id ∧ m.signal? id = some s ∧ s.answersTo key = true) ∨
      ∃ id s, m.signal? id = some s ∧ s.limited = true ∧ s.answersTo key = true ∧
        m.limitedInput? s = some p := by
  rw [inputBlock?_eq] at h
  cases hfound : m.supplied.find? fun e => e.2.answersTo key with
  | some e =>
      rw [hfound] at h
      cases h
      obtain ⟨id, he, hs⟩ := (mem_supplied henrolled).mp (List.mem_of_find?_eq_some hfound)
      exact .inl ⟨id, e.2, he, hs, by simpa using List.find?_some hfound⟩
  | none =>
      rw [hfound] at h
      obtain ⟨s, hs, hp⟩ := Option.bind_eq_some_iff.mp h
      obtain ⟨i, hi⟩ := Array.mem_iff_getElem?.mp (Array.mem_of_find?_eq_some hs)
      have htest := Array.find?_some hs
      rw [Bool.and_eq_true] at htest
      exact .inr ⟨⟨i⟩, s, hi, htest.1, htest.2, hp⟩

/-- The input block behind the limiter of a signal. -/
theorem limitedInput?_iff (hedges : m.EdgesAgree) (henrolled : m.Enrolled) {id : SignalId}
    {s : Signal α} (hs : m.signal? id = some s) :
    m.limitedInput? s = some p ↔ ∃ x l c, m.Supplies p x ∧ m.block? l = some c ∧
      c.kind.isLimiter = true ∧ c.inputs.head? = some x ∧ c.output = some id := by
  rw [limitedInput?_eq_some]
  constructor
  · rintro ⟨e, c, x, u, e', he, hc, hkind, hin, hu, he', rfl, hmem⟩
    obtain ⟨-, c', hc', hout⟩ := (hedges.source id s hs e).mp he
    cases hc.symm.trans hc'
    obtain ⟨-, b, hb, hbout⟩ := (hedges.source x u hu e').mp he'
    obtain ⟨b', hb', hbkind⟩ := henrolled.mem_inputs.mp hmem
    cases hb.symm.trans hb'
    exact ⟨x, e.block, c, ⟨b, hb, hbkind, hbout⟩, hc, hkind, hin, hout⟩
  · rintro ⟨x, l, c, ⟨b, hb, hbkind, hbout⟩, hc, hkind, hin, hout⟩
    obtain ⟨u, hu⟩ := exists_signal (hedges.outputs p b hb x hbout)
    exact ⟨⟨l, 0⟩, c, x, u, ⟨p, 0⟩, (hedges.source id s hs _).mpr ⟨rfl, c, hc, hout⟩, hc, hkind, hin,
      hu, (hedges.source x u hu _).mpr ⟨rfl, b, hb, hbout⟩, rfl,
      henrolled.mem_inputs.mpr ⟨b, hb, hbkind⟩⟩

/-- A signal with the mark of a half whose limiter reads the signal of an input block leads to that
block. -/
theorem inputBlock?_of_limited {id : SignalId} {s : Signal α} (hs : m.signal? id = some s)
    (hlimited : s.limited = true) (hkey : s.answersTo key = true)
    (hp : m.limitedInput? s = some p) (hone : m.Unambiguous) (hedges : m.EdgesAgree)
    (henrolled : m.Enrolled) : m.inputBlock? key = some p := by
  have hnone : (m.supplied.find? fun e => e.2.answersTo key) = none := by
    rw [List.find?_eq_none]
    rintro ⟨q, t⟩ he htkey
    obtain ⟨j, ⟨b, hb, hbkind, hbout⟩, ht⟩ := (mem_supplied henrolled).mp he
    -- The only signal that answers to the key comes from a limiter, not from an input block.
    cases hone key id j s t hs ht hkey htkey
    obtain ⟨x, l, c, -, hc, hkind, -, hout⟩ := (limitedInput?_iff hedges henrolled hs).mp hp
    cases hedges.output_unique hb hc hbout hout
    cases hb.symm.trans hc
    rw [hbkind] at hkind
    cases hkind
  have hfound : (m.signals.find? fun s => s.limited && s.answersTo key) = some s := by
    cases hfirst : m.signals.find? fun s => s.limited && s.answersTo key with
    | none =>
        have := Array.find?_eq_none.mp hfirst s (Array.mem_of_getElem? hs)
        rw [hlimited, hkey] at this
        exact absurd rfl this
    | some t =>
        obtain ⟨i, hi⟩ := Array.mem_iff_getElem?.mp (Array.mem_of_find?_eq_some hfirst)
        have htest := Array.find?_some hfirst
        rw [Bool.and_eq_true] at htest
        cases hone key id ⟨i⟩ s t hs hi hkey htest.2
        exact hi.symm.trans hs
  rw [inputBlock?_eq, hnone, hfound]
  exact hp

end Built

/-- The back half of a signal that had need of a limiter has the mark of a half. -/
theorem Halved.back_limited {id n : SignalId} {l : BlockId} {s u t : Signal α}
    (h : w.Halved m id n s l u t) (hneed : s.needsLimiter = true) (hm : m.Complete) :
    t.limited = true := by
  have hfree := hm.limited n t h.back
  rw [Signal.needsLimiter, Bool.and_eq_true] at hneed
  rw [Signal.needsLimiter, h.limits.1, h.limits.2, hneed.2, Bool.and_true, Bool.not_eq_false'] at hfree
  exact hfree

/-- The keys that lead to an input block. -/
theorem inputBlock?_iff {holder : SignalId → SignalId} (htrace : w.Traced m holder)
    (hlimiters : w.LimitersTraced m holder) (hm : m.Sound) (hcomplete : m.Complete)
    (hone : m.Unambiguous) {key : String} {p : BlockId} :
    m.inputBlock? key = some p ↔ w.Names m key p ∨ w.Misnames m key p := by
  have hedges := hm.edges
  have henrolled := hm.enrolled
  constructor
  · intro h
    rcases inputBlock?_eq_some henrolled h with ⟨id, s, hp, hs, hkey⟩ | ⟨id, s, hs, hmark, hkey, hp⟩
    · exact .inl (.input hp hs hkey)
    · obtain ⟨x, l, c, hp, hc, hkind, hin, hout⟩ := (limitedInput?_iff hedges henrolled hs).mp hp
      by_cases hl : l.index < w.blocks.size
      · exact .inr (.limiter hp hl hc hkind hin hout hs hmark hkey)
      · obtain ⟨j, y, hy, hneed, hback⟩ := hlimiters l c hc (Nat.not_lt.mp hl) hkind
        obtain ⟨q, u, t, hhalved⟩ := htrace.limited j y hy hneed
        obtain ⟨c', hc', -, hin', hout'⟩ := hhalved.limiter
        cases hedges.output_unique hc hc' hback hout'
        cases hc.symm.trans hc'
        rw [hin'] at hin
        cases hin
        cases hout.symm.trans hout'
        cases hs.symm.trans hhalved.back
        exact .inl (.half hy hneed hhalved hp hkey)
  · rintro ((⟨hp, hs, hkey⟩ | ⟨-, hneed, hhalved, hp, hkey⟩) |
      ⟨hp, -, hc, hkind, hin, hout, hs, hmark, hkey⟩)
    · exact hp.inputBlock? hs hkey hone hedges henrolled
    · obtain ⟨c, hc, hkind, hin, hout⟩ := hhalved.limiter
      refine inputBlock?_of_limited hhalved.back (hhalved.back_limited hneed hcomplete) hkey ?_ hone
        hedges henrolled
      exact (limitedInput?_iff hedges henrolled hhalved.back).mpr
        ⟨_, _, c, hp, hc, by rw [hkind]; rfl, by rw [hin]; rfl, hout⟩
    · refine inputBlock?_of_limited hs hmark hkey ?_ hone hedges henrolled
      exact (limitedInput?_iff hedges henrolled hs).mpr ⟨_, _, _, hp, hc, hkind, hin, hout⟩

end Model

/-- Where no key is shared, an assignment to a built model, whatever has been done to it since, succeeds
exactly if the key names a signal of an input block, or the half behind the limiter of one, or if a limiter
of the draft's own makes the signal named pass for such a half. Then the block has the value and nothing
else changes; otherwise the key is refused and nothing changes at all. -/
theorem Draft.assignment_outcome {d : Draft α} (hd : d.Reachable) {w m g : Model α}
    (hw : d.wire = .ok w) (hm : d.build = .ok m) (hg : m.Operated g) (hone : m.Unambiguous)
    (key : String) (value : α) :
    (∀ p, w.Names m key p ∨ w.Misnames m key p → (Model.setInput key value).run g =
      .ok () { g with blocks := g.blocks.modify p.index fun b => { b with value } }) ∧
    ((∀ p, ¬ (w.Names m key p ∨ w.Misnames m key p)) →
      (Model.setInput key value).run g = .error (.unknownInput key) g) := by
  obtain ⟨w', hw', hwired, -, hext, hcomplete⟩ := Draft.build_ok hd.sound hm
  cases hw.symm.trans hw'
  obtain ⟨holder, htrace, hlimiters⟩ := Model.exists_trace_of_limiters hext hcomplete hwired.edges
  have hsound := (Draft.built_sound_complete hd.sound hm).1
  have hiff : ∀ p, g.inputBlock? key = some p ↔ w.Names m key p ∨ w.Misnames m key p := by
    intro p
    rw [Model.inputBlock?_of_bare (hg.sound_and_bare hsound hcomplete).2]
    exact Model.inputBlock?_iff htrace hlimiters hsound hcomplete hone
  rw [Model.setInput_run]
  constructor
  · intro p hp
    rw [(hiff p).mpr hp]
  · intro hnone
    cases hblock : g.inputBlock? key with
    | none => rfl
    | some p => exact absurd ((hiff p).mp hblock) (hnone p)

namespace Model

/-- A signal with limits that a limiter of the draft's own computes from an input. -/
def bystander : Draft Float :=
  .after "bystander"
    [ .signal ((Signal.declare "X" "x" "").withRole .input),
      .signal ((Signal.declare "Y" "y" "").withLimits (some 0) (some 1)),
      .block "lim" (.limiter 0 5), .input ⟨0⟩ 0 (.signal ⟨0⟩), .output ⟨0⟩ (.signal ⟨1⟩) ]

/-- The front half of the computed signal is taken for an input, and the input it is computed from gets
the value. -/
theorem bystander_drives_input :
    ∃ m : Model Float, bystander.build = .ok m ∧ (setInput "Y_unlim" 3).run m =
      .ok () { m with blocks := m.blocks.modify 2 fun b => { b with value := 3 } } := by
  have hwires : bystander.wire.toOption.any (fun w => w.blocks.size == 1) = true := by decide +kernel
  have hbuilds : bystander.build.toOption.any (fun m =>
      ((m.block? ⟨2⟩).any fun b => b.kind.isInput && b.output == some ⟨0⟩) &&
      ((m.block? ⟨0⟩).any fun c =>
        c.kind.isLimiter && c.inputs.head? == some ⟨0⟩ && c.output == some ⟨1⟩) &&
      ((m.signal? ⟨1⟩).any fun s => s.limited && s.answersTo "Y_unlim") &&
      (m.signals.toList.map fun s => (s.varId, s.name)) ==
        [("X", "x"), ("Y_unlim", "y_unlim"), ("Y", "y")]) = true := by
    decide +kernel
  obtain ⟨w, hw, hsize⟩ := outcome_of_any hwires
  obtain ⟨m, hm, hparts⟩ := outcome_of_any hbuilds
  simp only [Bool.and_eq_true, Option.any_eq_true, beq_iff_eq] at hsize hparts
  obtain ⟨⟨⟨⟨b, hb, hinput, hbout⟩, c, hc, ⟨hlimiter, hin⟩, hout⟩, s, hs, hmark, hkey⟩, hnames⟩ := hparts
  have hone : m.Unambiguous := by
    apply unambiguous_of_pairwise
    rw [hnames]
    decide
  have houtcome := Draft.assignment_outcome (Draft.reachable_after _ _) hw hm .built hone "Y_unlim"
    3
  refine ⟨m, hm, houtcome.1 ⟨2⟩ (.inr ?_)⟩
  exact .limiter ⟨b, hb, BlockKind.isInput_iff.mp hinput, hbout⟩ (by rw [hsize]; exact Nat.one_pos) hc
    hlimiter hin hout hs hmark hkey

end Model

end BlockDiagram
