import BlockDiagram.Proofs.Document.Formulas
import BlockDiagram.Proofs.Document.Valid
import BlockDiagram.Proofs.Draft.Progress
/-! Progress of lowering: a formula that names declared variables only can be lowered, whatever their
names are, and the variable it is lowered for gets a producer. -/

namespace BlockDiagram

open Call Draft

variable {α : Type} [Scalar α]

namespace Document

variable {d d' : Draft α}

theorem deriveSignal_adds (h : d.Closed) (owner : String) (used : Nat) :
    ∃ v n d₁, (deriveSignal owner used).run d = .ok (v, n) d₁ ∧ d.Adds [] d₁ ∧
      d₁.outputNames = d.outputNames ∧ v ∈ d₁.varIds ∧ v ∉ d.varIds := by
  have hnew := firstFree_not_mem (numbered_injective (owner ++ "_t")) d.varIds (used + 1)
  obtain ⟨signal, d₁, hsignal, hadds, hsame, hin, -⟩ := addSignal_adds h
    (s := Signal.derive (owner ++ "_t" ++ (firstFree (fun n => owner ++ "_t" ++ n.repr) d.varIds
      (used + 1)).repr)) hnew
  exact ⟨_, _, d₁, run_bind_ok.mpr ⟨d, d, rfl, run_bind_ok.mpr ⟨signal, d₁, hsignal, rfl⟩⟩, hadds, hsame,
    hin, hnew⟩

omit [Scalar α] in
/-- A producer is added if what binds its slots succeeds and leaves its block a producer of nothing. -/
theorem addProducer_adds {β : Type} (name : String) {k : BlockKind α} {output : String}
    (bindSlots : BlockId → Drafting α β) {P : β → Prop} (h : d.Closed)
    (hrange : k.InRange d.breakpoints.size d.tables.size) (hkind : k.hasOutput = true)
    (hout : output ∈ d.varIds)
    (hslots : ∀ block d₁ n, d.Adds [] d₁ → d₁.blocks[block.index]? = some { name := n, kind := k } →
      ∃ x d₂ b, (bindSlots block).run d₁ = .ok x d₂ ∧ d₁.Adds [] d₂ ∧
        d₂.blocks[block.index]? = some b ∧ b.kind = k ∧ b.output = none ∧ P x) :
    ∃ x d', (addProducer name k output bindSlots).run d = .ok x d' ∧ d.Adds [output] d' ∧ P x := by
  obtain ⟨block, d₁, n, hblock, hadds₁, -, hb₁⟩ := addBlock_adds h name hrange
  obtain ⟨x, d₂, b, hrun, hadds₂, hb₂, hbkind, hopen, hx⟩ := hslots block d₁ n hadds₁ hb₁
  obtain ⟨d₃, houtput, hadds₃⟩ := bindOutput_adds hadds₂.closed hb₂ hopen (by rw [hbkind]; exact hkind)
    (r := .variable output) rfl rfl (hadds₂.varIds _ (hadds₁.varIds _ hout))
  refine ⟨x, d₃, ?_, (hadds₁.trans hadds₂).trans hadds₃, hx⟩
  exact run_bind_ok.mpr ⟨block, d₁, hblock, run_bind_ok.mpr ⟨x, d₂, hrun,
    run_bind_ok.mpr ⟨(), d₃, houtput, rfl⟩⟩⟩

omit [Scalar α] in
theorem addConstant_adds {β : Type} (h : d.Closed) (name : String) (x : α) {output : String}
    (hout : output ∈ d.varIds) (r : β) :
    ∃ d', (addProducer name (.constant x) output fun _ => pure r).run d = .ok r d' ∧
      d.Adds [output] d' := by
  obtain ⟨_, d', hrun, hadds, rfl⟩ := addProducer_adds name (k := .constant x) (fun _ => pure r)
    (P := fun y => y = r) h trivial rfl hout fun block d₁ m hadds hb =>
      ⟨r, d₁, _, rfl, .refl hadds.closed, hb, rfl, rfl, rfl⟩
  exact ⟨d', hrun, hadds⟩

omit [Scalar α] in
theorem kind_producer (op : Operator) (sets tables : Nat) :
    (op.kind : BlockKind α).InRange sets tables ∧ (op.kind : BlockKind α).hasOutput = true := by
  cases op <;> exact ⟨trivial, rfl⟩

omit [Scalar α] in
theorem checkFormulas_cons {known : List String} {owner : String} {f : Formula α}
    {rest : List (Formula α)} (h : checkFormulas known owner (f :: rest) = .ok ()) :
    checkFormula known owner f = .ok () ∧ checkFormulas known owner rest = .ok () := by
  rw [checkFormulas] at h
  obtain ⟨u, hf, hrest⟩ := outcome_bind_ok.mp h
  exact ⟨hf, hrest⟩

mutual

theorem lowerArgument_adds {known : List String} {owner : String} : ∀ (f : Formula α) (used : Nat)
    {d : Draft α}, d.Closed → (∀ v ∈ known, v ∈ d.varIds) → checkFormula known owner f = .ok () →
      ∃ v n d', (lowerArgument owner f used).run d = .ok (v, n) d' ∧ d.Adds [] d' ∧ v ∈ d'.varIds
  | .name w, used, d, h, hknown, hf | .var w, used, d, h, hknown, hf =>
      ⟨w, used, d, rfl, .refl h, hknown w (checkKnown_ok hf w (List.mem_singleton_self w))⟩
  | .number x, used, d, h, _, _ | .const x, used, d, h, _, _ => by
      obtain ⟨v, n, d₁, hderive, hadds, hsame, hin, hnew⟩ := deriveSignal_adds h owner used
      obtain ⟨d₂, hproducer, hadds₂⟩ := addConstant_adds hadds.closed s!"{v}_const" x hin (v, n)
      exact ⟨v, n, d₂, run_bind_ok.mpr ⟨(v, n), d₁, hderive, hproducer⟩,
        hadds₂.derived hadds.varIds hsame hin hnew, hadds₂.varIds v hin⟩
  | .apply op args, used, d, h, hknown, hf => by
      obtain ⟨v, n, d₁, hderive, hadds, hsame, hin, hnew⟩ := deriveSignal_adds h owner used
      obtain ⟨hrange, hkind⟩ :=
        kind_producer (α := α) op d₁.breakpoints.size d₁.tables.size
      obtain ⟨⟨w, m⟩, d₂, hproducer, hadds₂, hw⟩ := addProducer_adds
        s!"{v}_{(op.kind : BlockKind α).tag}" (k := op.kind) (P := fun r => r.1 = v)
        (fun block => do
          let used ← lowerArguments owner block 0 args n
          return (v, used)) hadds.closed hrange hkind hin
        fun block d₁' m hadds' hb => by
          obtain ⟨n', d₂, b, hargs, hadds₂, hb₂, hbkind, hopen⟩ := lowerArguments_adds args n
            hadds'.closed (fun v hv => hadds'.varIds v (hadds.varIds v (hknown v hv)))
            (checkFormulas_of_apply hf) hb rfl
          exact ⟨(v, n'), d₂, b, run_bind_ok.mpr ⟨n', d₂, hargs, rfl⟩, hadds₂, hb₂, hbkind, hopen, rfl⟩
      cases hw
      exact ⟨w, m, d₂, run_bind_ok.mpr ⟨(w, n), d₁, hderive, hproducer⟩,
        hadds₂.derived hadds.varIds hsame hin hnew, hadds₂.varIds w hin⟩

theorem lowerArguments_adds {known : List String} {owner : String} {id : BlockId} :
    ∀ (args : List (Formula α)) (used : Nat) {d : Draft α} {b : DraftBlock α}, d.Closed →
      (∀ v ∈ known, v ∈ d.varIds) → checkFormulas known owner args = .ok () →
      d.blocks[id.index]? = some b → b.output = none →
      ∃ n d' c, (lowerArguments owner id b.inputs.length args used).run d = .ok n d' ∧ d.Adds [] d' ∧
        d'.blocks[id.index]? = some c ∧ c.kind = b.kind ∧ c.output = none
  | [], used, d, b, h, _, _, hb, hopen => ⟨used, d, b, rfl, .refl h, hb, rfl, hopen⟩
  | f :: rest, used, d, b, h, hknown, hargs, hb, hopen => by
      obtain ⟨hf, hrest⟩ := checkFormulas_cons hargs
      obtain ⟨v, n, d₁, hfirst, hadds₁, hv⟩ := lowerArgument_adds f used h hknown hf
      have hb₁ := (lowerArgument_ok f hfirst).1.blocks _ b hb
      obtain ⟨d₂, hbind, hadds₂, -, hb₂⟩ := bindInput_adds hadds₁.closed hb₁ hv
      obtain ⟨n', d₃, c, hlast, hadds₃, hc, hkind, hcopen⟩ := lowerArguments_adds rest n
        hadds₂.closed (fun v hv => hadds₂.varIds v (hadds₁.varIds v (hknown v hv))) hrest hb₂ hopen
      rw [List.length_append, List.length_singleton] at hlast
      exact ⟨n', d₃, c, run_bind_ok.mpr ⟨(v, n), d₁, hfirst, run_bind_ok.mpr ⟨(), d₂, hbind, hlast⟩⟩,
        (hadds₁.trans hadds₂).trans hadds₃, hc, hkind, hcopen⟩

end

theorem lowerFormula_adds {known : List String} {owner : String} (f : Formula α) (h : d.Closed)
    (hknown : ∀ v ∈ known, v ∈ d.varIds) (hf : checkFormula known owner f = .ok ())
    (howner : owner ∈ d.varIds) :
    ∃ d', (lowerFormula owner f).run d = .ok () d' ∧ d.Adds [owner] d' := by
  have hcopy : ∀ w ∈ known, ∃ d', (addProducer s!"{owner}_copy" (.sum : BlockKind α) owner fun block =>
      bindInput block 0 (.variable w)).run d = .ok () d' ∧ d.Adds [owner] d' := by
    intro w hw
    obtain ⟨u, d', hrun, hadds, -⟩ := addProducer_adds s!"{owner}_copy" (k := .sum)
      (fun block => bindInput block 0 (.variable w)) (P := fun _ => True) h trivial
      rfl howner fun block d₁ m hadds hb => by
        obtain ⟨d₂, hbind, hadds₂, -, hb₂⟩ :=
          bindInput_adds hadds.closed hb (hadds.varIds w (hknown w hw))
        exact ⟨(), d₂, _, hbind, hadds₂, hb₂, rfl, rfl, trivial⟩
    exact ⟨d', hrun, hadds⟩
  cases f with
  | number x => exact addConstant_adds h s!"{owner}_const" x howner ()
  | const x => exact addConstant_adds h s!"{owner}_const" x howner ()
  | name w => exact hcopy w (checkKnown_ok hf w (List.mem_singleton_self w))
  | var w => exact hcopy w (checkKnown_ok hf w (List.mem_singleton_self w))
  | apply op args =>
      obtain ⟨hrange, hkind⟩ := kind_producer (α := α) op d.breakpoints.size d.tables.size
      obtain ⟨u, d', hrun, hadds, -⟩ := addProducer_adds
        s!"{owner}_{(op.kind : BlockKind α).tag}" (k := op.kind) (P := fun _ => True) (fun block => do
          let _ ← lowerArguments owner block 0 args 0) h hrange hkind howner
        fun block d₁ m hadds hb => by
          obtain ⟨n, d₂, b, hargs, hadds₂, hb₂, hbkind, hopen⟩ := lowerArguments_adds args 0
            hadds.closed (fun v hv => hadds.varIds v (hknown v hv)) (checkFormulas_of_apply hf) hb rfl
          exact ⟨(), d₂, b, run_bind_ok.mpr ⟨n, d₂, hargs, rfl⟩, hadds₂, hb₂, hbkind, hopen, trivial⟩
      exact ⟨d', hrun, hadds⟩

end Document

end BlockDiagram
