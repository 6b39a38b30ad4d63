import BlockDiagram.Proofs.Document.Formulas
import BlockDiagram.Proofs.Document.Meaning
import BlockDiagram.Proofs.Document.Valid
/-! Lowered documents: the draft of a valid document has a producer for every variable that a formula
or a function defines, and for no other. -/

namespace BlockDiagram

open Call Draft

variable {α : Type} [Scalar α]

namespace Document

variable {d d' : Draft α}

omit [Scalar α] in
/-- Calls that each add to the draft, and what each of them brings about for good. -/
theorem forEach_ok {β : Type} {call : β → Drafting α Unit} {bs : List β} {u : Unit}
    (made : β → List String) (I : Draft α → Prop) (Q : β → Draft α → Prop)
    (hcall : ∀ b ∈ bs, ∀ d d', I d → (call b).run d = .ok () d' → d.Grows (made b) d' ∧ I d' ∧ Q b d')
    (hstay : ∀ b ∈ bs, ∀ d d' made, d.Grows made d' → Q b d → Q b d')
    (h : (forEach call bs).run d = .ok u d') (hd : I d) :
    d.Grows (bs.flatMap made) d' ∧ I d' ∧ ∀ b ∈ bs, Q b d' := by
  induction bs generalizing d with
  | nil =>
      cases h
      exact ⟨.refl _, hd, fun b hb => by cases hb⟩
  | cons b rest ih =>
      obtain ⟨u₁, d₁, hfirst, hrest⟩ := run_bind_ok.mp h
      obtain ⟨hgrows₁, hd₁, hb⟩ := hcall b List.mem_cons_self d d₁ hd hfirst
      obtain ⟨hgrows₂, hd₂, hall⟩ := ih (fun c hc => hcall c (List.mem_cons_of_mem b hc))
        (fun c hc => hstay c (List.mem_cons_of_mem b hc)) hrest hd₁
      refine ⟨hgrows₁.trans hgrows₂, hd₂, fun c hc => ?_⟩
      rcases List.mem_cons.mp hc with rfl | hc
      · exact hstay c List.mem_cons_self d₁ d' _ hgrows₂ hb
      · exact hall c hc

/-- A draft that has no block yet. -/
structure Blank (d : Draft α) : Prop where
  sound : d.Sound
  blocks : d.blocks = #[]
  normalizers : d.normalizers = []

theorem Blank.located (h : Blank d) : d.Located := by
  intro key c hin
  rw [h.normalizers] at hin
  cases hin

omit [Scalar α] in
theorem Blank.not_produced (h : Blank d) (v : String) : ¬ d.Produced v := by
  rintro ⟨i, b, r, hb, -⟩
  rw [h.blocks] at hb
  simp at hb

def HasSet (b : Breakpoints α) (d : Draft α) : Prop :=
  ∃ (i : Nat) (s : BreakpointSet α), d.breakpoints[i]? = some s ∧ s.id = b.id ∧ s.values = b.values

def HasTable (g : Grid α) (d : Draft α) : Prop :=
  ∃ (i : Nat) (t : Table α), d.tables[i]? = some t ∧ t.id = g.id ∧ t.axes.map Axis.id = g.axes ∧
    t.values = g.values.toArray

def HasSignal (v : Variable α) (d : Draft α) : Prop := ∃ i : Nat, d.signals[i]? = some v.signal

omit [Scalar α] in
theorem hasSet_grows {b : Breakpoints α} {made : List String} (hgrows : d.Grows made d')
    (h : HasSet b d) : HasSet b d' := by
  obtain ⟨i, s, hs, hid, hvalues⟩ := h
  obtain ⟨s', hs', hid', hvalues'⟩ := hgrows.sets i s hs
  exact ⟨i, s', hs', hid'.trans hid, hvalues'.trans hvalues⟩

omit [Scalar α] in
theorem hasTable_grows {g : Grid α} {made : List String} (hgrows : d.Grows made d')
    (h : HasTable g d) : HasTable g d' := by
  obtain ⟨i, t, ht, hid, haxes, hvalues⟩ := h
  obtain ⟨t', ht', hid', haxes', hvalues'⟩ := hgrows.tables i t ht
  exact ⟨i, t', ht', hid'.trans hid, haxes' ▸ haxes, hvalues'.trans hvalues⟩

theorem hasSignal_grows {v : Variable α} {made : List String} (hgrows : d.Grows made d')
    (h : HasSignal v d) : HasSignal v d' := by
  obtain ⟨i, hi⟩ := h
  exact ⟨i, hgrows.signals i _ hi⟩

/-- The draft computes the function on its output. -/
def HasFunction (doc : Document α) (f : Function α) (d : Draft α) : Prop :=
  ∃ axes values t, doc.grid? f.table = some (axes, values) ∧ t.axes.map Axis.id = axes ∧
    t.values = values.toArray ∧ d.Tabulates t f.inputs f.output

/-- The draft computes the formula of a variable, if it has one. -/
def HasFormula (v : Variable α) (d : Draft α) : Prop :=
  ∀ f, v.calculation = some f → f.Defines d v.varId

theorem lowerFunction_ok {doc : Document α} (hdoc : doc.Valid) {f : Function α} (hf : f ∈ doc.functions)
    {u : Unit} (h : (lowerFunction f).run d = .ok u d') (hd : d.Sound) (hlocated : d.Located)
    (htables : ∀ g ∈ doc.tables, HasTable g d) :
    d.Grows [f.output] d' ∧ d'.Located ∧ HasFunction doc f d' := by
  obtain ⟨id, d₁, block, hfunction, hgrows, hsound, hlocated₁, axes, values, hgrid, hid⟩ :
      ∃ id d₁ block, (addFunction f.name id f.inputs f.output).run d₁ = .ok block d' ∧
        d.Grows [] d₁ ∧ d₁.Sound ∧ d₁.Located ∧
        ∃ axes values, doc.grid? f.table = some (axes, values) ∧
          ∃ (i : Nat) (t : Table α), d₁.tables[i]? = some t ∧ t.id = id ∧
            t.axes.map Axis.id = axes ∧ t.values = values.toArray := by
    have hvalid := hdoc.table hf
    unfold lowerFunction at h
    split at h
    · rename_i name hsource
      obtain ⟨id, d₁, hid, hrest⟩ := run_bind_ok.mp h
      cases hid
      obtain ⟨block, d₂, hfunction, hpure⟩ := run_bind_ok.mp hrest
      cases hpure
      rw [hsource] at hvalid
      obtain ⟨g, hg, rfl⟩ := List.mem_map.mp hvalid
      refine ⟨g.id, d, block, hfunction, .refl d, hd, hlocated, g.axes, g.values, ?_, htables g hg⟩
      rw [hsource, grid?, find?_of_nodup hdoc.tables hg]
      rfl
    · rename_i axes values hsource
      obtain ⟨tableId, d₁, hregister, hread⟩ := run_bind_ok.mp h
      obtain ⟨d₂, d₃, hget, hlift⟩ := run_bind_ok.mp hread
      cases hget
      obtain ⟨t, d₄, hentry, hrest⟩ := run_bind_ok.mp hlift
      obtain ⟨ht, rfl⟩ := run_lift_ok.mp hentry
      obtain ⟨id, d₅, hid, hcall⟩ := run_bind_ok.mp hrest
      cases hid
      obtain ⟨block, d₆, hfunction, hpure⟩ := run_bind_ok.mp hcall
      cases hpure
      obtain ⟨hgrows, hsame, -, t', ht', -, haxes, hvalues⟩ := registerTable_ok hregister
      rw [entry_eq_ok] at ht
      cases ht.symm.trans ht'
      exact ⟨t.id, _, block, hfunction, hgrows, (keeps_registerTable _ _ _).ok hd hregister,
        hlocated.grows hgrows hsame, axes, values, by rw [hsource]; rfl, tableId.index, t, ht, rfl,
        haxes, hvalues⟩
  obtain ⟨hgrows₂, hlocated₂, i, t, ht, htid, htabulates⟩ := addFunction_ok hfunction hsound hlocated₁
  obtain ⟨j, t', ht', htid', haxes, hvalues⟩ := hid
  have hsingle := hsound.grids.tableIds i j t t' ht ht' (htid.trans htid'.symm)
  subst hsingle
  cases ht.symm.trans ht'
  exact ⟨hgrows.trans hgrows₂, hlocated₂, axes, values, t, hgrid, haxes, hvalues, htabulates⟩

theorem hasFunction_grows {doc : Document α} {f : Function α} {made : List String}
    (hgrows : d.Grows made d') (h : HasFunction doc f d) : HasFunction doc f d' := by
  obtain ⟨axes, values, t, hgrid, haxes, hvalues, htabulates⟩ := h
  exact ⟨axes, values, t, hgrid, haxes, hvalues, htabulates.grows hgrows⟩

theorem hasFormula_grows {v : Variable α} {made : List String} (hgrows : d.Grows made d')
    (h : HasFormula v d) : HasFormula v d' :=
  fun f hf => Formula.Defines.retained hgrows.retains (h f hf)

theorem keeps_deriveSignal (owner : String) (used : Nat) :
    Keeps Sound (deriveSignal owner used : Drafting α (String × Nat)) := by
  unfold deriveSignal
  exact keeps_bind keeps_get fun _ => keeps_bind (keeps_addSignal _) fun _ => keeps_pure _

omit [Scalar α] in
theorem keeps_addProducer {β : Type} {name output : String} {k : BlockKind α}
    {bindSlots : BlockId → Drafting α β} (hslots : ∀ block, Keeps Sound (bindSlots block)) :
    Keeps Sound (addProducer name k output bindSlots) := by
  unfold addProducer
  refine keeps_bind (keeps_addBlock _ _) fun block => keeps_bind (hslots block) fun x => ?_
  exact keeps_bind (keeps_bindOutput _ _) fun _ => keeps_pure x

mutual

theorem keeps_lowerArgument (owner : String) :
    ∀ (f : Formula α) (used : Nat), Keeps Sound (lowerArgument owner f used)
  | .name _, _ | .var _, _ => keeps_pure _
  | .number _, used | .const _, used =>
      keeps_bind (keeps_deriveSignal owner used) fun _ => keeps_addProducer fun _ => keeps_pure _
  | .apply _ args, used =>
      keeps_bind (keeps_deriveSignal owner used) fun p => keeps_addProducer fun block =>
        keeps_bind (keeps_lowerArguments owner block 0 args p.2) fun _ => keeps_pure _

theorem keeps_lowerArguments (owner : String) (block : BlockId) :
    ∀ (slot : Nat) (fs : List (Formula α)) (used : Nat),
      Keeps Sound (lowerArguments owner block slot fs used)
  | _, [], _ => keeps_pure _
  | slot, f :: rest, used =>
      keeps_bind (keeps_lowerArgument owner f used) fun p => keeps_bind (keeps_bindInput _ _ _) fun _ =>
        keeps_lowerArguments owner block (slot + 1) rest p.2

end

theorem keeps_lowerFormula (owner : String) (f : Formula α) : Keeps Sound (lowerFormula owner f) := by
  cases f with
  | number x => exact keeps_addProducer fun _ => keeps_pure ()
  | const x => exact keeps_addProducer fun _ => keeps_pure ()
  | name w => exact keeps_addProducer fun _ => keeps_bindInput _ _ _
  | var w => exact keeps_addProducer fun _ => keeps_bindInput _ _ _
  | apply op args =>
      exact keeps_addProducer fun block =>
        keeps_bind (keeps_lowerArguments owner block 0 args 0) fun _ => keeps_pure ()

theorem keeps_lowerFunction (f : Function α) : Keeps Sound (lowerFunction f) := by
  have hrest : ∀ table : String, Keeps Sound (do
      let _ ← Draft.addFunction f.name table f.inputs f.output : Drafting α Unit) :=
    fun table => keeps_bind (keeps_addFunction _ _ _ _) fun _ => keeps_pure ()
  unfold lowerFunction
  split
  · exact keeps_bind (keeps_pure _) fun table => hrest table
  · refine keeps_bind (keeps_registerTable _ _ _) fun id => keeps_bind keeps_get fun d => ?_
    exact keeps_bind (keeps_lift _) fun t => keeps_bind (keeps_pure _) fun table => hrest table

/-- The draft of a document: what it has of the document's parts, and which variables it leaves without
producer. -/
structure Lowered (doc : Document α) (d : Draft α) : Prop where
  sound : d.Sound
  sets : ∀ b ∈ doc.breakpoints, HasSet b d
  signals : ∀ v ∈ doc.vars, HasSignal v d
  functions : ∀ f ∈ doc.functions, HasFunction doc f d
  formulas : ∀ v ∈ doc.vars, HasFormula v d
  free : ∀ v ∈ doc.vars, v.calculation = none → (∀ f ∈ doc.functions, f.output ≠ v.varId) →
    ¬ d.Produced v.varId

omit [Scalar α] in
theorem blank_empty (name : String) : Blank (empty name : Draft α) :=
  ⟨empty_sound name, rfl, rfl⟩

theorem sets_ok {bs : List (Breakpoints α)} {u : Unit}
    (h : (forEach (fun b : Breakpoints α => do
      let _ ← registerBreakpoints b.id b.values) bs).run d = .ok u d') (hd : Blank d) :
    Blank d' ∧ ∀ b ∈ bs, HasSet b d' :=
  (forEach_ok (fun _ => []) Blank HasSet
    (fun b _ d d' hd hcall => by
      obtain ⟨set, d'', hregister, hpure⟩ := run_bind_ok.mp hcall
      cases hpure
      obtain ⟨hgrows, hnormalizers, hblocks, s, hs, hid, hvalues⟩ := registerBreakpoints_ok hregister
      exact ⟨hgrows, ⟨(keeps_registerBreakpoints _ _).ok hd.sound hregister, hblocks.trans hd.blocks,
        hnormalizers.trans hd.normalizers⟩, set.index, s, hs, hid, hvalues⟩)
    (fun _ _ _ _ _ => hasSet_grows) h hd).2

omit [Scalar α] in
theorem tables_ok {ts : List (Grid α)} {u : Unit}
    (h : (forEach (fun t : Grid α => do
      let _ ← registerTable (some t.id) t.axes t.values.toArray) ts).run d = .ok u d') (hd : Blank d) :
    d.Grows (ts.flatMap fun _ => []) d' ∧ Blank d' ∧ ∀ g ∈ ts, HasTable g d' :=
  forEach_ok (fun _ => []) Blank HasTable
    (fun g _ d d' hd hcall => by
      obtain ⟨table, d'', hregister, hpure⟩ := run_bind_ok.mp hcall
      cases hpure
      obtain ⟨hgrows, hnormalizers, hblocks, t, ht, hid, haxes, hvalues⟩ := registerTable_ok hregister
      exact ⟨hgrows, ⟨(keeps_registerTable _ _ _).ok hd.sound hregister, hblocks.trans hd.blocks,
        hnormalizers.trans hd.normalizers⟩, table.index, t, ht, hid _ rfl, haxes, hvalues⟩)
    (fun _ _ _ _ _ => hasTable_grows) h hd

theorem vars_ok {vs : List (Variable α)} {u : Unit}
    (h : (forEach (fun v : Variable α => do
      let _ ← addSignal v.signal) vs).run d = .ok u d') (hd : Blank d) :
    d.Grows (vs.flatMap fun _ => []) d' ∧ Blank d' ∧ ∀ v ∈ vs, HasSignal v d' :=
  forEach_ok (fun _ => []) Blank HasSignal
    (fun v _ d d' hd hcall => by
      obtain ⟨id, d'', hsignal, hpure⟩ := run_bind_ok.mp hcall
      cases hpure
      have hgrows := grows_addSignal hsignal
      have hsound := (keeps_addSignal _).ok hd.sound hsignal
      obtain ⟨-, -, rfl⟩ := addSignal_ok hsignal
      exact ⟨hgrows, ⟨hsound, hd.blocks, hd.normalizers⟩, _, Array.getElem?_push_size⟩)
    (fun _ _ _ _ _ => hasSignal_grows) h hd

/-- Registering the grid data and declaring the variables of a document adds no block. -/
theorem declared_ok {doc : Document α} {d₁ d₂ d₃ : Draft α} {u₁ u₂ u₃ : Unit}
    (hsets : (forEach (fun b : Breakpoints α => do
      let _ ← registerBreakpoints b.id b.values) doc.breakpoints).run d = .ok u₁ d₁)
    (htables : (forEach (fun t : Grid α => do
      let _ ← registerTable (some t.id) t.axes t.values.toArray) doc.tables).run d₁ = .ok u₂ d₂)
    (hvars : (forEach (fun v : Variable α => do
      let _ ← addSignal v.signal) doc.vars).run d₂ = .ok u₃ d₃) (hd : Blank d) :
    Blank d₃ ∧ (∀ b ∈ doc.breakpoints, HasSet b d₃) ∧ (∀ g ∈ doc.tables, HasTable g d₃) ∧
      ∀ v ∈ doc.vars, HasSignal v d₃ := by
  obtain ⟨hd₁, hallsets⟩ := sets_ok hsets hd
  obtain ⟨hgrows₂, hd₂, halltables⟩ := tables_ok htables hd₁
  obtain ⟨hgrows₃, hd₃, hallsignals⟩ := vars_ok hvars hd₂
  exact ⟨hd₃, fun b hb => hasSet_grows hgrows₃ (hasSet_grows hgrows₂ (hallsets b hb)),
    fun g hg => hasTable_grows hgrows₃ (halltables g hg), hallsignals⟩

theorem functions_ok {doc : Document α} (hdoc : doc.Valid) {u : Unit}
    (h : (forEach lowerFunction doc.functions).run d = .ok u d') (hd : Blank d)
    (htables : ∀ g ∈ doc.tables, HasTable g d) :
    d.Grows (doc.functions.flatMap fun f => [f.output]) d' ∧ d'.Sound ∧
      ∀ f ∈ doc.functions, HasFunction doc f d' := by
  obtain ⟨hgrows, ⟨hsound, -, -⟩, hall⟩ := forEach_ok (fun f => [f.output])
    (fun d => d.Sound ∧ d.Located ∧ ∀ g ∈ doc.tables, HasTable g d) (HasFunction doc)
    (fun f hf d d' hd hcall => by
      obtain ⟨hsound, hlocated, hhas⟩ := hd
      obtain ⟨hgrows, hlocated', hfunction⟩ := lowerFunction_ok hdoc hf hcall hsound hlocated hhas
      exact ⟨hgrows, ⟨(keeps_lowerFunction f).ok hsound hcall, hlocated',
        fun g hg => hasTable_grows hgrows (hhas g hg)⟩, hfunction⟩)
    (fun _ _ _ _ _ => hasFunction_grows) h ⟨hd.sound, hd.located, htables⟩
  exact ⟨hgrows, hsound, hall⟩

theorem formulas_ok {vars : List (Variable α)} {u : Unit}
    (h : (forEach (fun v : Variable α => v.calculation.forM (lowerFormula v.varId)) vars).run d =
      .ok u d') (hd : d.Sound) :
    d.Grows (vars.flatMap fun v => if v.calculation.isSome then [v.varId] else []) d' ∧ d'.Sound ∧
      ∀ v ∈ vars, HasFormula v d' := by
  refine forEach_ok (fun v => if v.calculation.isSome then [v.varId] else []) Sound HasFormula
    (fun v _ d d' hd hcall => ?_) (fun _ _ _ _ _ => hasFormula_grows) h hd
  cases hcalculation : v.calculation with
  | none =>
      rw [hcalculation] at hcall
      cases hcall
      exact ⟨.refl _, hd, fun f hf => by rw [hcalculation] at hf; cases hf⟩
  | some f =>
      rw [hcalculation] at hcall
      obtain ⟨hgrows, hdefines⟩ := lowerFormula_ok (u := ()) hcall
      refine ⟨hgrows, (keeps_lowerFormula v.varId f).ok hd hcall, fun g hg => ?_⟩
      cases hcalculation.symm.trans hg
      exact hdefines

theorem run_of_draft {doc : Document α} (h : doc.draft = .ok d) :
    ∃ u, doc.lower.run (empty doc.name) = .ok u d := by
  unfold draft at h
  split at h
  · rename_i u d' hrun
    cases h
    exact ⟨u, hrun⟩
  · cases h

theorem lowered_of_draft {doc : Document α} (hdoc : doc.Valid) (h : doc.draft = .ok d) :
    doc.Lowered d := by
  obtain ⟨u, hrun⟩ := run_of_draft h
  obtain ⟨u₁, d₁, hsets, hrun⟩ := run_bind_ok.mp hrun
  obtain ⟨u₂, d₂, htables, hrun⟩ := run_bind_ok.mp hrun
  obtain ⟨u₃, d₃, hvars, hrun⟩ := run_bind_ok.mp hrun
  obtain ⟨u₄, d₄, hfunctions, hformulas⟩ := run_bind_ok.mp hrun
  obtain ⟨hd₃, hallsets, halltables, hallsignals⟩ :=
    declared_ok hsets htables hvars (blank_empty doc.name)
  obtain ⟨hgrows₄, hsound₄, hallfunctions⟩ := functions_ok hdoc hfunctions hd₃ halltables
  obtain ⟨hgrows₅, hsound₅, hallformulas⟩ := formulas_ok hformulas hsound₄
  have hgrows := hgrows₄.trans hgrows₅
  refine ⟨hsound₅, fun b hb => hasSet_grows hgrows (hallsets b hb),
    fun v hv => hasSignal_grows hgrows (hallsignals v hv),
    fun f hf => hasFunction_grows hgrows₅ (hallfunctions f hf), hallformulas, ?_⟩
  intro v hv hnone hnofunction hproduced
  obtain ⟨i, hi⟩ := hallsignals v hv
  rcases hgrows.produced _ (mem_varIds.mpr ⟨i, _, hi, rfl⟩) hproduced with hmade | hold
  · rcases List.mem_append.mp hmade with hmade | hmade
    · obtain ⟨f, hf, hout⟩ := List.mem_flatMap.mp hmade
      exact hnofunction f hf (List.mem_singleton.mp hout).symm
    · obtain ⟨w, hw, hout⟩ := List.mem_flatMap.mp hmade
      split at hout
      · rename_i hsome
        have hsame : w = v :=
          List.inj_on_of_nodup_map hdoc.vars hw hv (List.mem_singleton.mp hout).symm
        rw [hsame, hnone] at hsome
        cases hsome
      · cases hout
  · exact hd₃.not_produced _ hold

end Document

end BlockDiagram
