import BlockDiagram.Proofs.Model.Transparency
/-! Inputs: which input block a key leads to. The search goes by the signals that input blocks produce,
then by the limited signals whose limiter reads such a signal. -/

namespace BlockDiagram

variable {α : Type}

namespace Model

variable {m m' : Model α}

/-- Block `p` is an input block and produces the signal. -/
def Supplies (m : Model α) (p : BlockId) (id : SignalId) : Prop :=
  ∃ b, m.block? p = some b ∧ b.kind = .input ∧ b.output = some id

theorem Enrolled.mem_inputs (h : m.Enrolled) {p : BlockId} :
    p ∈ m.inputs ↔ ∃ b, m.block? p = some b ∧ b.kind = .input := by
  rw [h.inputs, List.mem_filter, Option.any_eq_true, blockIds, Handle.mem_all]
  constructor
  · rintro ⟨-, k, hk, hinput⟩
    obtain ⟨b, hb, rfl⟩ := Option.map_eq_some_iff.mp hk
    exact ⟨b, hb, BlockKind.isInput_iff.mp hinput⟩
  · rintro ⟨b, hb, hkind⟩
    exact ⟨block?_lt hb, b.kind, Option.map_eq_some_iff.mpr ⟨b, hb, rfl⟩, by rw [hkind]; rfl⟩

/-- The input blocks that produce a signal, with that signal. -/
def supplied (m : Model α) : List (BlockId × Signal α) :=
  m.inputs.filterMap fun p => (m.outputOf? p).map fun s => (p, s)

theorem outputOf?_eq_some {p : BlockId} {s : Signal α} :
    m.outputOf? p = some s ↔ ∃ b id, m.block? p = some b ∧ b.output = some id ∧
      m.signal? id = some s := by
  simp only [outputOf?, Option.bind_eq_bind, Option.bind_eq_some_iff]
  constructor
  · rintro ⟨b, hb, id, hout, hs⟩
    exact ⟨b, id, hb, hout, hs⟩
  · rintro ⟨b, id, hb, hout, hs⟩
    exact ⟨b, hb, id, hout, hs⟩

theorem mem_supplied (h : m.Enrolled) {p : BlockId} {s : Signal α} :
    (p, s) ∈ m.supplied ↔ ∃ id, m.Supplies p id ∧ m.signal? id = some s := by
  simp only [supplied, List.mem_filterMap, Option.map_eq_some_iff, Prod.mk.injEq, h.mem_inputs,
    outputOf?_eq_some]
  constructor
  · rintro ⟨q, ⟨b, hb, hkind⟩, t, ⟨c, id, hc, hout, ht⟩, rfl, rfl⟩
    cases hb.symm.trans hc
    exact ⟨id, ⟨b, hb, hkind, hout⟩, ht⟩
  · rintro ⟨id, ⟨b, hb, hkind, hout⟩, hs⟩
    exact ⟨p, ⟨b, hb, hkind⟩, s, ⟨b, id, hb, hout, hs⟩, rfl, rfl⟩

theorem find_supplied (m : Model α) (test : Signal α → Bool) :
    (m.inputs.find? fun p => ((m.outputOf? p).map test).getD false) =
      (m.supplied.find? fun e => test e.2).map Prod.fst := by
  unfold supplied
  induction m.inputs with
  | nil => rfl
  | cons p ps ih =>
      cases hs : m.outputOf? p with
      | none => simp [hs, ih]
      | some s => cases ht : test s <;> simp [hs, ht, ih]

/-- The search for an input block, by the signals that input blocks produce first. -/
theorem inputBlock?_eq (m : Model α) (key : String) :
    m.inputBlock? key = (((m.supplied.find? fun e => e.2.answersTo key).map Prod.fst) <|>
      (m.signals.find? fun s => s.limited && s.answersTo key).bind m.limitedInput?) := by
  rw [← find_supplied m fun s => s.answersTo key]
  rfl

theorem supplied_fst_nodup (h : m.Enrolled) : (m.supplied.map Prod.fst).Nodup := by
  have hsub : (m.supplied.map Prod.fst).Sublist m.inputs := by
    unfold supplied
    induction m.inputs with
    | nil => exact .slnil
    | cons p ps ih =>
        cases hs : m.outputOf? p with
        | none => simpa [hs] using ih.cons p
        | some s => simpa [hs] using ih
  refine hsub.nodup ?_
  rw [h.inputs]
  exact (Handle.nodup_all _).filter _

/-- What is found first by the signals of input blocks is found. -/
theorem inputBlock?_of_supplied {key : String} {e : BlockId × Signal α}
    (h : (m.supplied.find? fun e => e.2.answersTo key) = some e) : m.inputBlock? key = some e.1 := by
  rw [inputBlock?_eq, h]
  rfl

section Bare

variable [Arithmetic α]

theorem outputOf?_of_bare (h : m.bare = m'.bare) (p : BlockId) : m.outputOf? p = m'.outputOf? p := by
  have hone : ∀ {n n' : Model α} {s : Signal α}, n.bare = n'.bare → n.outputOf? p = some s →
      n'.outputOf? p = some s := by
    intro n n' s hbare hs
    obtain ⟨b, id, hb, hout, hs⟩ := outputOf?_eq_some.mp hs
    obtain ⟨c, hc, -, -, -, houtput⟩ := block_of_bare hbare hb
    exact outputOf?_eq_some.mpr ⟨c, id, hc, houtput.trans hout, signal?_of_bare hbare id ▸ hs⟩
  exact Option.ext fun s => ⟨hone h, hone h.symm⟩

theorem supplied_of_bare (h : m.bare = m'.bare) : m.supplied = m'.supplied := by
  simp only [supplied, inputs_of_bare h, outputOf?_of_bare h]

theorem inputBlock?_of_bare (h : m.bare = m'.bare) (key : String) :
    m.inputBlock? key = m'.inputBlock? key := by
  rw [inputBlock?_eq, inputBlock?_eq, supplied_of_bare h, signals_of_bare h,
    funext (limitedInput?_of_bare h)]

end Bare

end Model

end BlockDiagram
