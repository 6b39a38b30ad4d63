import BlockDiagram.Document.Validity
import BlockDiagram.Proofs.Call
import Mathlib.Data.List.Nodup
/-! Valid documents: what a document without fault satisfies. -/

namespace BlockDiagram

variable {α : Type}

namespace Document

theorem checkKnown_ok {known ids : List String} {place : Place}
    (h : checkKnown known place ids = (.ok () : Except (DocumentError α) Unit)) :
    ∀ id ∈ ids, id ∈ known := by
  induction ids with
  | nil => exact fun id hid => by cases hid
  | cons id rest ih =>
      rw [checkKnown] at h
      split at h
      · intro x hx
        rcases List.mem_cons.mp hx with rfl | hx
        · assumption
        · exact ih h x hx
      · cases h

theorem checkAxes_ok {sets axes : List String} {owner : String}
    (h : checkAxes sets owner axes = (.ok () : Except (DocumentError α) Unit)) :
    axes ≠ [] ∧ ∀ id ∈ axes, id ∈ sets := by
  unfold checkAxes at h
  split at h
  · cases h
  · rename_i hne
    exact ⟨fun hnil => hne (by rw [hnil]; rfl), checkKnown_ok h⟩

theorem checkFormulas_of_apply {known : List String} {owner : String} {op : Operator}
    {args : List (Formula α)} (h : checkFormula known owner (.apply op args) = .ok ()) :
    checkFormulas known owner args = .ok () := by
  rw [checkFormula] at h
  split at h
  · cases h
  · exact h

theorem checkSection_ok {β : Type} {context : Section} {id : β → String}
    {check : β → Except (DocumentError α) Unit} {seen : List String} {bs : List β}
    (h : checkSection context id check seen bs = .ok ()) :
    (bs.map id).Nodup ∧ (∀ b ∈ bs, id b ∉ seen) ∧ ∀ b ∈ bs, check b = .ok () := by
  induction bs generalizing seen with
  | nil => exact ⟨List.nodup_nil, fun b hb => (by cases hb), fun b hb => (by cases hb)⟩
  | cons b rest ih =>
      rw [checkSection] at h
      have hnew : id b ∉ seen := by
        intro hin
        rw [if_pos hin] at h
        cases h
      rw [if_neg hnew] at h
      obtain ⟨u, hcheck, hrest⟩ := outcome_bind_ok.mp h
      obtain ⟨hnodup, hseen, hchecks⟩ := ih hrest
      refine ⟨?_, ?_, ?_⟩
      · rw [List.map_cons, List.nodup_cons]
        refine ⟨fun hin => ?_, hnodup⟩
        obtain ⟨c, hc, heq⟩ := List.mem_map.mp hin
        exact hseen c hc (by rw [heq]; exact List.mem_cons_self)
      · intro c hc
        rcases List.mem_cons.mp hc with rfl | hc
        · exact hnew
        · exact fun hin => hseen c hc (List.mem_cons_of_mem _ hin)
      · intro c hc
        rcases List.mem_cons.mp hc with rfl | hc
        · exact hcheck
        · exact hchecks c hc

theorem checkCalculations_ok {varIds : List String} {vars : List (Variable α)}
    (h : checkCalculations varIds vars = .ok ()) :
    ∀ v ∈ vars, ∀ f, v.calculation = some f → checkFormula varIds v.varId f = .ok () := by
  induction vars with
  | nil => exact fun v hv => by cases hv
  | cons v rest ih =>
      rw [checkCalculations] at h
      intro w hw f hf
      split at h
      · rename_i g hg
        obtain ⟨u, hfirst, hrest⟩ := outcome_bind_ok.mp h
        rcases List.mem_cons.mp hw with rfl | hw
        · cases hg.symm.trans hf
          exact hfirst
        · exact ih hrest w hw f hf
      · rename_i hnone
        rcases List.mem_cons.mp hw with rfl | hw
        · rw [hnone] at hf
          cases hf
        · exact ih h w hw f hf

variable [Scalar α] {doc : Document α}

/-- IDs are distinct, limits are not reversed, grids have axes and these have points, and everything that
is named exists. -/
structure Valid (doc : Document α) : Prop where
  vars : (doc.vars.map Variable.varId).Nodup
  sets : (doc.breakpoints.map Breakpoints.id).Nodup
  tables : (doc.tables.map Grid.id).Nodup
  limits : ∀ v ∈ doc.vars, checkLimits v = .ok ()
  points : ∀ b ∈ doc.breakpoints, checkBreakpoints b = .ok ()
  gridded : ∀ t ∈ doc.tables, t.axes ≠ []
  axes : ∀ t ∈ doc.tables, ∀ a ∈ t.axes, a ∈ doc.breakpoints.map Breakpoints.id
  functions : ∀ f ∈ doc.functions, checkFunction (doc.vars.map Variable.varId)
    (doc.breakpoints.map Breakpoints.id) (doc.tables.map Grid.id) f = .ok ()
  formulas : ∀ v ∈ doc.vars, ∀ f, v.calculation = some f →
    checkFormula (doc.vars.map Variable.varId) v.varId f = .ok ()

theorem check_ok (h : doc.check = .ok ()) : doc.Valid := by
  unfold check at h
  split at h
  · cases h
  obtain ⟨u₁, hvars, h⟩ := outcome_bind_ok.mp h
  obtain ⟨u₂, hsets, h⟩ := outcome_bind_ok.mp h
  obtain ⟨u₃, htables, h⟩ := outcome_bind_ok.mp h
  obtain ⟨u₄, hfunctions, hformulas⟩ := outcome_bind_ok.mp h
  constructor
  · exact (checkSection_ok hvars).1
  · exact (checkSection_ok hsets).1
  · exact (checkSection_ok htables).1
  · exact (checkSection_ok hvars).2.2
  · exact (checkSection_ok hsets).2.2
  · exact fun t ht => (checkAxes_ok ((checkSection_ok htables).2.2 t ht)).1
  · exact fun t ht => (checkAxes_ok ((checkSection_ok htables).2.2 t ht)).2
  · exact (checkSection_ok hfunctions).2.2
  · exact checkCalculations_ok hformulas

theorem Valid.inputs (h : doc.Valid) {f : Function α} (hf : f ∈ doc.functions) :
    ∀ w ∈ f.inputs, w ∈ doc.vars.map Variable.varId := by
  obtain ⟨u, hknown, -⟩ := outcome_bind_ok.mp (h.functions f hf)
  exact fun w hw => checkKnown_ok hknown w (List.mem_append_left _ hw)

theorem Valid.output (h : doc.Valid) {f : Function α} (hf : f ∈ doc.functions) :
    f.output ∈ doc.vars.map Variable.varId := by
  obtain ⟨u, hknown, -⟩ := outcome_bind_ok.mp (h.functions f hf)
  exact checkKnown_ok hknown f.output (List.mem_append_right _ (List.mem_singleton_self _))

theorem Valid.table (h : doc.Valid) {f : Function α} (hf : f ∈ doc.functions) :
    match f.table with
    | .shared id => id ∈ doc.tables.map Grid.id
    | .own axes _ => axes ≠ [] ∧ ∀ a ∈ axes, a ∈ doc.breakpoints.map Breakpoints.id := by
  obtain ⟨u, -, htable⟩ := outcome_bind_ok.mp (h.functions f hf)
  split
  · rename_i id hid
    rw [hid] at htable
    exact checkKnown_ok htable id (List.mem_singleton_self id)
  · rename_i axes values hown
    rw [hown] at htable
    exact checkAxes_ok htable

theorem find?_of_nodup {β : Type} {id : β → String} {bs : List β} (hnodup : (bs.map id).Nodup) {b : β}
    (hb : b ∈ bs) : bs.find? (fun c => id c == id b) = some b := by
  induction bs with
  | nil => cases hb
  | cons c rest ih =>
      rw [List.map_cons, List.nodup_cons] at hnodup
      rcases List.mem_cons.mp hb with rfl | hb
      · rw [List.find?_cons_of_pos (by simp)]
      · have hne : id c ≠ id b := fun heq => hnodup.1 (heq ▸ List.mem_map_of_mem hb)
        rw [List.find?_cons_of_neg (by simpa using hne)]
        exact ih hnodup.2 hb

end Document

end BlockDiagram
