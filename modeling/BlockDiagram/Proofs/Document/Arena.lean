import BlockDiagram.Proofs.Document.Layout
import BlockDiagram.Proofs.Document.Lowered
/-! Arenas: all signals and blocks of a lowered document, in order. The variables are declared first.
The normalizers and lookups of the functions stand in front of the blocks of the formulas. -/

namespace BlockDiagram

open Call Draft

variable {α : Type} [Scalar α]

namespace Document

variable {doc : Document α} {d d' : Draft α}

omit [Scalar α] in
/-- What each call keeps is kept by all of them. -/
theorem forEach_keeps {β : Type} {call : β → Drafting α Unit} {bs : List β} {u : Unit}
    (P : Draft α → Prop)
    (hcall : ∀ b ∈ bs, ∀ d d', P d → (call b).run d = .ok () d' → P d')
    (h : (forEach call bs).run d = .ok u d') (hd : P d) : P d' := by
  induction bs generalizing d with
  | nil =>
      cases h
      exact hd
  | cons b rest ih =>
      obtain ⟨u₁, d₁, hfirst, hrest⟩ := run_bind_ok.mp h
      have hd₁ := hcall b List.mem_cons_self d d₁ hd hfirst
      exact ih (fun c hc => hcall c (List.mem_cons_of_mem b hc)) hrest hd₁

section Functions

variable {P : DraftBlock α → Prop}

theorem addNormalizer_adds_normalizer {id w c : String}
    (hP : ∀ b, (∃ set, b.kind = .normalizer set) → b.inputs = slots [w] → P b)
    (h : (addNormalizer id w).run d = .ok c d') (hd : ∀ b ∈ d.blocks, P b) : ∀ b ∈ d'.blocks, P b := by
  obtain ⟨set, -, hcases⟩ := addNormalizer_cases h
  rcases hcases with ⟨-, rfl⟩ | ⟨-, hadds⟩
  · exact hd
  · obtain ⟨b₀, hpush, hkind, hinputs, -⟩ := hadds.blocks
    intro b hb
    rw [hpush] at hb
    rcases Array.mem_push.mp hb with hold | rfl
    · exact hd b hold
    · exact hP b ⟨set, hkind⟩ hinputs

theorem addNormalizers_add_normalizers {ps : List (Axis × String)} {cs : List String}
    (hP : ∀ p ∈ ps, ∀ b, (∃ set, b.kind = .normalizer set) → b.inputs = slots [p.2] → P b)
    (h : (ps.mapM fun (p : Axis × String) =>
      match p with | (axis, input) => addNormalizer axis.id input).run d = .ok cs d')
    (hd : ∀ b ∈ d.blocks, P b) : ∀ b ∈ d'.blocks, P b := by
  induction ps generalizing d cs with
  | nil =>
      cases h
      exact hd
  | cons p ps ih =>
      rw [List.mapM_cons] at h
      obtain ⟨c, d₁, hfirst, h⟩ := run_bind_ok.mp h
      obtain ⟨cs', d₂, hrest, h⟩ := run_bind_ok.mp h
      cases h
      have hd₁ := addNormalizer_adds_normalizer (hP p List.mem_cons_self) hfirst hd
      exact ih (fun q hq => hP q (List.mem_cons_of_mem p hq)) hrest hd₁

omit [Scalar α] in
theorem addLookup_adds_lookup {name table output : String} {cs : List String} {id : BlockId}
    (hP : ∀ b, (∃ t, b.kind = .lookup t) → (∃ ws, b.inputs = slots ws) →
      b.output = some (.variable output) → P b)
    (h : (addLookup name table cs output).run d = .ok id d') (hd : ∀ b ∈ d.blocks, P b) :
    ∀ b ∈ d'.blocks, P b := by
  obtain ⟨-, -, -, -, tableId, -, b₀, -, -, hpush, hkind, hinputs, hout⟩ := addLookup_push h
  intro b hb
  rw [hpush] at hb
  rcases Array.mem_push.mp hb with hold | rfl
  · exact hd b hold
  · exact hP b ⟨tableId, hkind⟩ ⟨cs, hinputs⟩ hout

theorem addFunction_adds_blocks {name table output : String} {inputs : List String} {id : BlockId}
    (hnormalizer : ∀ w ∈ inputs, ∀ b, (∃ set, b.kind = .normalizer set) → b.inputs = slots [w] → P b)
    (hlookup : ∀ b, (∃ t, b.kind = .lookup t) → (∃ ws, b.inputs = slots ws) →
      b.output = some (.variable output) → P b)
    (h : (addFunction name table inputs output).run d = .ok id d') (hd : ∀ b ∈ d.blocks, P b) :
    ∀ b ∈ d'.blocks, P b := by
  obtain ⟨t, cs, d₂, -, -, hnormalizers, hcall⟩ := addFunction_split h
  refine addLookup_adds_lookup hlookup hcall ?_
  refine addNormalizers_add_normalizers (fun p hp => ?_) hnormalizers hd
  exact hnormalizer p.2 (List.of_mem_zip hp).2

/-- A normalizer of an input of some function, or the lookup of some function. -/
def GridBlock (doc : Document α) (b : DraftBlock α) : Prop :=
  ∃ f ∈ doc.functions, (∃ w ∈ f.inputs, (∃ set, b.kind = .normalizer set) ∧ b.inputs = slots [w]) ∨
    (∃ t, b.kind = .lookup t) ∧ (∃ ws, b.inputs = slots ws) ∧ b.output = some (.variable f.output)

theorem lowerFunction_adds_blocks {f : Function α} (hf : f ∈ doc.functions) {u : Unit}
    (h : (lowerFunction f).run d = .ok u d') (hd : ∀ b ∈ d.blocks, doc.GridBlock b) :
    ∀ b ∈ d'.blocks, doc.GridBlock b := by
  have hrest : ∀ {table : String} {d₁ : Draft α}, (∀ b ∈ d₁.blocks, doc.GridBlock b) →
      (do let _ ← addFunction f.name table f.inputs f.output : Drafting α Unit).run d₁ = .ok u d' →
      ∀ b ∈ d'.blocks, doc.GridBlock b := by
    intro table d₁ hd₁ hcall
    obtain ⟨block, d₂, hfunction, hpure⟩ := run_bind_ok.mp hcall
    cases hpure
    refine addFunction_adds_blocks ?_ ?_ hfunction hd₁
    · exact fun w hw b hkind hinputs => ⟨f, hf, .inl ⟨w, hw, hkind, hinputs⟩⟩
    · exact fun b hkind hinputs houtput => ⟨f, hf, .inr ⟨hkind, hinputs, houtput⟩⟩
  unfold lowerFunction at h
  split at h
  · obtain ⟨id, d₁, hid, hcall⟩ := run_bind_ok.mp h
    cases hid
    exact hrest hd hcall
  · obtain ⟨tableId, d₁, hregister, hread⟩ := run_bind_ok.mp h
    obtain ⟨d₂, d₃, hget, hlift⟩ := run_bind_ok.mp hread
    cases hget
    obtain ⟨t, d₄, hentry, hname⟩ := run_bind_ok.mp hlift
    obtain ⟨-, rfl⟩ := run_lift_ok.mp hentry
    obtain ⟨id, d₅, hid, hcall⟩ := run_bind_ok.mp hname
    cases hid
    obtain ⟨-, -, hblocks, -⟩ := registerTable_ok hregister
    exact hrest (hblocks ▸ hd) hcall

end Functions

section Formulas

/-- The blocks in the positions from `i` up to `j` are those of the formulas of the variables. -/
inductive Spreads (d : Draft α) : List (Variable α) → Nat → Nat → Prop
  | nil (i : Nat) : Spreads d [] i i
  | free {v : Variable α} {vars : List (Variable α)} {i j : Nat} : v.calculation = none →
      Spreads d vars i j → Spreads d (v :: vars) i j
  | formula {v : Variable α} {vars : List (Variable α)} {f : Formula α} {ws : List String}
      {i k j : Nat} : v.calculation = some f → d.Puts f.head.1 ws v.varId i →
      d.Lays f.head.2 ws (i + 1) k → Spreads d vars k j → Spreads d (v :: vars) i j

theorem Spreads.le {vars : List (Variable α)} {i j : Nat} (h : Spreads d vars i j) : i ≤ j := by
  induction h with
  | nil i => exact Nat.le_refl i
  | free hnone hrest ih => exact ih
  | formula hf hputs hlays hrest ih => exact Nat.le_trans (Nat.le_of_succ_le hlays.le) ih

theorem formulas_spread {vars : List (Variable α)} {u : Unit}
    (h : (forEach (fun v : Variable α => v.calculation.forM (lowerFormula v.varId)) vars).run d =
      .ok u d') : (∃ made, d.Grows made d') ∧ Spreads d' vars d.blocks.size d'.blocks.size := by
  induction vars generalizing d with
  | nil =>
      cases h
      exact ⟨⟨[], .refl _⟩, .nil _⟩
  | cons v rest ih =>
      obtain ⟨u₁, d₁, hfirst, hrest⟩ := run_bind_ok.mp h
      obtain ⟨⟨made, hgrows⟩, hspreads⟩ := ih hrest
      change (v.calculation.forM (lowerFormula v.varId)).run d = .ok u₁ d₁ at hfirst
      cases hcalculation : v.calculation with
      | none =>
          rw [hcalculation] at hfirst
          cases hfirst
          exact ⟨⟨made, hgrows⟩, .free hcalculation hspreads⟩
      | some f =>
          rw [hcalculation] at hfirst
          obtain ⟨ws, hputs, hlays⟩ := lowerFormula_lays (u := ()) hfirst
          obtain ⟨hgrows₁, -⟩ := lowerFormula_ok (u := ()) hfirst
          exact ⟨⟨_, hgrows₁.trans hgrows⟩,
            .formula hcalculation (hputs.grows hgrows) (hlays.grows hgrows) hspreads⟩

end Formulas

section Signals

theorem vars_signals {vs : List (Variable α)} {u : Unit}
    (h : (forEach (fun v : Variable α => do let _ ← addSignal v.signal) vs).run d = .ok u d') :
    d'.signals.toList = d.signals.toList ++ vs.map Variable.signal := by
  induction vs generalizing d with
  | nil =>
      cases h
      simp
  | cons v rest ih =>
      obtain ⟨u₁, d₁, hfirst, hrest⟩ := run_bind_ok.mp h
      obtain ⟨id, d₂, hsignal, hpure⟩ := run_bind_ok.mp hfirst
      cases hpure
      obtain ⟨-, -, rfl⟩ := addSignal_ok hsignal
      rw [ih hrest]
      simp only [Array.toList_push, List.append_assoc, List.map_cons, List.singleton_append]
      rfl

omit [Scalar α] in
theorem registerBreakpoints_signals [Arithmetic α] {id : String} {values : List α} {set : BreakpointId}
    (h : (registerBreakpoints id values).run d = .ok set d') : d'.signals = d.signals := by
  rw [registerBreakpoints_run] at h
  split at h
  · cases h
  · split at h
    · cases h
    · cases h
      rfl

omit [Scalar α] in
theorem registerTable_signals {id : Option String} {axes : List String} {values : Array α}
    {table : TableId} (h : (registerTable id axes values).run d = .ok table d') :
    d'.signals = d.signals := by
  rw [registerTable_run] at h
  split at h
  · cases h
  · split at h
    · cases h
    · cases h
      cases id <;> rfl

/-- The variables are declared in a draft that has no signal yet. -/
theorem declared_signals {doc : Document α} {d₁ d₂ d₃ : Draft α} {u₁ u₂ u₃ : Unit}
    (hsets : (forEach (fun b : Breakpoints α => do
      let _ ← registerBreakpoints b.id b.values) doc.breakpoints).run (empty doc.name) = .ok u₁ d₁)
    (htables : (forEach (fun t : Grid α => do
      let _ ← registerTable (some t.id) t.axes t.values.toArray) doc.tables).run d₁ = .ok u₂ d₂)
    (hvars : (forEach (fun v : Variable α => do
      let _ ← addSignal v.signal) doc.vars).run d₂ = .ok u₃ d₃) :
    d₃.signals.toList = doc.vars.map Variable.signal := by
  have hnone₁ : d₁.signals = #[] := by
    refine forEach_keeps (fun d => d.signals = #[]) (fun b _ d d' hd hcall => ?_) hsets rfl
    obtain ⟨set, d'', hregister, hpure⟩ := run_bind_ok.mp hcall
    cases hpure
    exact (registerBreakpoints_signals hregister).trans hd
  have hnone₂ : d₂.signals = #[] := by
    refine forEach_keeps (fun d => d.signals = #[]) (fun t _ d d' hd hcall => ?_) htables hnone₁
    obtain ⟨table, d'', hregister, hpure⟩ := run_bind_ok.mp hcall
    cases hpure
    exact (registerTable_signals hregister).trans hd
  rw [vars_signals hvars, hnone₂]
  rfl

end Signals

/-- All signals and blocks of the draft of a document: the signals of its variables, in the order of their
declaration, before those that lowering has derived; the blocks of its functions, then those of its
formulas. -/
structure Arranged (doc : Document α) (d : Draft α) : Prop where
  signals : ∀ (i : Nat) (v : Variable α), doc.vars[i]? = some v → d.signals[i]? = some v.signal
  blocks : ∃ n, (∀ (i : Nat) (b : DraftBlock α), i < n → d.blocks[i]? = some b → doc.GridBlock b) ∧
    Spreads d doc.vars n d.blocks.size

theorem arranged_of_draft (hdoc : doc.Valid) (h : doc.draft = .ok d) : doc.Arranged d := by
  obtain ⟨u, hrun⟩ := run_of_draft h
  obtain ⟨u₁, d₁, hsets, hrun⟩ := run_bind_ok.mp hrun
  obtain ⟨u₂, d₂, htables, hrun⟩ := run_bind_ok.mp hrun
  obtain ⟨u₃, d₃, hvars, hrun⟩ := run_bind_ok.mp hrun
  obtain ⟨u₄, d₄, hfunctions, hformulas⟩ := run_bind_ok.mp hrun
  obtain ⟨hd₃, -, halltables, -⟩ := declared_ok hsets htables hvars (blank_empty doc.name)
  have hgrid : ∀ b ∈ d₄.blocks, doc.GridBlock b := by
    refine forEach_keeps (fun d => ∀ b ∈ d.blocks, doc.GridBlock b)
      (fun f hf d d' hd hcall => lowerFunction_adds_blocks hf hcall hd) hfunctions ?_
    intro b hb
    rw [hd₃.blocks] at hb
    simp at hb
  obtain ⟨hgrows₄, -, -⟩ := functions_ok hdoc hfunctions hd₃ halltables
  obtain ⟨⟨made, hgrows₅⟩, hspreads⟩ := formulas_spread hformulas
  refine ⟨fun i v hv => (hgrows₄.trans hgrows₅).signals i _ ?_, d₄.blocks.size, fun i b hi hb => ?_,
    hspreads⟩
  · rw [← Array.getElem?_toList, declared_signals hsets htables hvars, List.getElem?_map, hv]
    rfl
  · have hold : d₄.blocks[i]? = some d₄.blocks[i] := Array.getElem?_eq_getElem hi
    cases hb.symm.trans (hgrows₅.blocks i _ hold)
    exact hgrid _ (Array.getElem_mem hi)

end Document

end BlockDiagram
