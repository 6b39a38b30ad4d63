import BlockDiagram.Proofs.Document.Arena
/-! Feedback: the graph of a built document has a loop just if some variable depends on itself, through
formulas and functions. The temporaries of formulas, the shared normalizers and the limiters that lie on
the way make no difference. -/

namespace BlockDiagram

open Call Draft

variable {α : Type}

namespace Formula

variable {known : List String} {owner : String}

mutual

theorem mentions_known : ∀ (f : Formula α), Document.checkFormula known owner f = .ok () →
    ∀ w ∈ f.mentions, w ∈ known
  | .number _, _, w, hw | .const _, _, w, hw => by simp [mentions] at hw
  | .name id, h, w, hw | .var id, h, w, hw => Document.checkKnown_ok h w hw
  | .apply op args, h, w, hw => mentionsAmong_known args (Document.checkFormulas_of_apply h) w hw

theorem mentionsAmong_known : ∀ (fs : List (Formula α)), Document.checkFormulas known owner fs = .ok () →
    ∀ w ∈ mentionsAmong fs, w ∈ known
  | [], _, w, hw => by simp [mentionsAmong] at hw
  | f :: rest, h, w, hw => by
      obtain ⟨u, hfirst, hrest⟩ := outcome_bind_ok.mp h
      rcases List.mem_append.mp hw with hw | hw
      · exact mentions_known f hfirst w hw
      · exact mentionsAmong_known rest hrest w hw

end

end Formula

variable [Scalar α]

namespace Draft

variable {d : Draft α} {m : Model α} {fs : List (Formula α)} {vs : List String} {i j : Nat}

/-- The blocks of formulas are grounded if the variables are that the formulas name. -/
theorem Lays.grounded (hd : d.Sound) (hm : d.Wired d.blocks.toList m) (h : d.Lays fs vs i j)
    (hmentions : ∀ w ∈ Formula.mentionsAmong fs, d.Grounded w) :
    (∀ v ∈ vs, d.Grounded v) ∧
      ∀ p, i ≤ p → p < j → ∃ k ws v, d.Puts k ws v p ∧ d.Grounded v := by
  induction h with
  | nil i => exact ⟨nofun, fun p hi hj => absurd hj (Nat.not_lt.mpr hi)⟩
  | @reference f fs w vs i j hf hrest ih =>
      obtain ⟨hvs, hblocks⟩ := ih fun u hu => hmentions u (List.mem_append_right _ hu)
      have hw : d.Grounded w := by
        refine hmentions w (List.mem_append_left _ ?_)
        rcases hf with rfl | rfl <;> simp [Formula.mentions]
      exact ⟨List.forall_mem_cons.mpr ⟨hw, hvs⟩, hblocks⟩
  | @literal f fs x v vs i j hf hv hputs hrest ih =>
      obtain ⟨hvs, hblocks⟩ := ih fun u hu => hmentions u (List.mem_append_right _ hu)
      have hgrounded := hm.grounded hd hputs.produces fun w hw => by cases hw
      refine ⟨List.forall_mem_cons.mpr ⟨hgrounded, hvs⟩, fun p hi hj => ?_⟩
      rcases Nat.eq_or_lt_of_le hi with rfl | hi
      · exact ⟨_, _, v, hputs, hgrounded⟩
      · exact hblocks p hi hj
  | @apply op args fs us v vs i k j hv hputs hargs hrest ihargs ih =>
      obtain ⟨hvs, hblocks⟩ := ih fun u hu => hmentions u (List.mem_append_right _ hu)
      obtain ⟨hus, hinner⟩ := ihargs fun u hu => hmentions u (List.mem_append_left _ hu)
      have hgrounded := hm.grounded hd hputs.produces hus
      refine ⟨List.forall_mem_cons.mpr ⟨hgrounded, hvs⟩, fun p hi hj => ?_⟩
      rcases Nat.eq_or_lt_of_le hi with rfl | hi
      · exact ⟨_, _, v, hputs, hgrounded⟩
      · rcases Nat.lt_or_ge p k with hk | hk
        · exact hinner p hi hk
        · exact hblocks p hk hj

/-- What formulas name is needed, in the end, by the variables that carry them. -/
theorem Lays.reaches (h : d.Lays fs vs i j) :
    ∀ w ∈ Formula.mentionsAmong fs, ∃ v ∈ vs, Relation.ReflTransGen d.Needs v w := by
  induction h with
  | nil i => simp [Formula.mentionsAmong]
  | @reference f fs u vs i j hf hrest ih =>
      intro w hw
      rcases List.mem_append.mp hw with hw | hw
      · have hsame : w = u := by rcases hf with rfl | rfl <;> simpa [Formula.mentions] using hw
        exact ⟨u, List.mem_cons_self, hsame ▸ .refl⟩
      · obtain ⟨v, hv, hpath⟩ := ih w hw
        exact ⟨v, List.mem_cons_of_mem u hv, hpath⟩
  | @literal f fs x v vs i j hf hv hputs hrest ih =>
      intro w hw
      rcases List.mem_append.mp hw with hw | hw
      · rcases hf with rfl | rfl <;> simp [Formula.mentions] at hw
      · obtain ⟨u, hu, hpath⟩ := ih w hw
        exact ⟨u, List.mem_cons_of_mem v hu, hpath⟩
  | @apply op args fs us v vs i k j hv hputs hargs hrest ihargs ih =>
      intro w hw
      rcases List.mem_append.mp hw with hw | hw
      · obtain ⟨u, hu, hpath⟩ := ihargs w hw
        exact ⟨v, List.mem_cons_self, .head ⟨_, us, hputs.produces, hu⟩ hpath⟩
      · obtain ⟨u, hu, hpath⟩ := ih w hw
        exact ⟨u, List.mem_cons_of_mem v hu, hpath⟩

end Draft

namespace Document

variable {doc : Document α} {d : Draft α} {m : Model α} {vars : List (Variable α)} {i j : Nat}

/-- The blocks of the formula of a variable: its root and, from there up to position `k`, the others. -/
structure Rooted (d : Draft α) (v : Variable α) (f : Formula α) (ws : List String) (i k : Nat) : Prop where
  calculation : v.calculation = some f
  root : d.Puts f.head.1 ws v.varId i
  arguments : d.Lays f.head.2 ws (i + 1) k

theorem Spreads.rooted (h : Spreads d vars i j) {v : Variable α} (hv : v ∈ vars) {f : Formula α}
    (hf : v.calculation = some f) : ∃ ws p k, Rooted d v f ws p k := by
  induction h with
  | nil i => cases hv
  | @free w vars i j hnone hrest ih =>
      rcases List.mem_cons.mp hv with rfl | hv
      · cases hnone.symm.trans hf
      · exact ih hv
  | @formula w vars g ws i k j hg hputs hlays hrest ih =>
      rcases List.mem_cons.mp hv with rfl | hv
      · cases hg.symm.trans hf
        exact ⟨ws, i, k, hg, hputs, hlays⟩
      · exact ih hv

theorem Spreads.block (h : Spreads d vars i j) {p : Nat} (hi : i ≤ p) (hj : p < j) :
    ∃ v ∈ vars, ∃ f ws q k, Rooted d v f ws q k ∧ (p = q ∨ q + 1 ≤ p ∧ p < k) := by
  induction h with
  | nil i => exact absurd hj (Nat.not_lt.mpr hi)
  | @free w vars i j hnone hrest ih =>
      obtain ⟨v, hv, hrooted⟩ := ih hi hj
      exact ⟨v, List.mem_cons_of_mem w hv, hrooted⟩
  | @formula w vars f ws i k j hf hputs hlays hrest ih =>
      rcases Nat.lt_or_ge p k with hk | hk
      · refine ⟨w, List.mem_cons_self, f, ws, i, k, ⟨hf, hputs, hlays⟩, ?_⟩
        omega
      · obtain ⟨v, hv, hrooted⟩ := ih hk hj
        exact ⟨v, List.mem_cons_of_mem w hv, hrooted⟩

/-- A block of the formula of a variable reads what the formula names or what the library has made. -/
theorem Rooted.block {v : Variable α} {f : Formula α} {ws : List String} {k p : Nat}
    (h : Rooted d v f ws i k) (hp : p = i ∨ i + 1 ≤ p ∧ p < k) :
    ∃ (g : Formula α) (us : List String) (u : String), d.Puts g.head.1 us u p ∧
      ∀ w ∈ us, w ∈ f.mentions ∨ d.Derived w := by
  rw [← f.mentions_head]
  rcases hp with rfl | ⟨hi, hk⟩
  · exact ⟨f, ws, v.varId, h.root, h.arguments.carried⟩
  · exact h.arguments.block hi hk

/-- A block of a lowered document belongs to a function, or to the formula of a variable. -/
theorem Arranged.block_cases (h : doc.Arranged d) {p : Nat} {b : DraftBlock α}
    (hb : d.blocks[p]? = some b) : doc.GridBlock b ∨
      ∃ v ∈ doc.vars, ∃ f ws q k, Rooted d v f ws q k ∧ (p = q ∨ q + 1 ≤ p ∧ p < k) := by
  obtain ⟨n, hgrid, hspreads⟩ := h.blocks
  rcases Nat.lt_or_ge p n with hp | hp
  · exact .inl (hgrid p b hp hb)
  · exact .inr (hspreads.block hp (Array.getElem?_eq_some_iff.mp hb).1)

section Grounded

variable (hdoc : doc.Valid) (hlowered : doc.Lowered d) (harranged : doc.Arranged d)
  (hm : d.Wired d.blocks.toList m)
include hdoc hlowered harranged hm

/-- A variable is grounded if all are that it depends on. -/
theorem grounded_step {v : Variable α} (hv : v ∈ doc.vars)
    (ih : ∀ w ∈ doc.vars.map Variable.varId, doc.DependsOn v.varId w → d.Grounded w) :
    d.Grounded v.varId := by
  have hd := hlowered.sound
  obtain ⟨n, -, hspreads⟩ := harranged.blocks
  cases hcalculation : v.calculation with
  | some f =>
      obtain ⟨ws, p, k, hrooted⟩ := hspreads.rooted hv hcalculation
      refine hm.grounded hd hrooted.root.produces (hrooted.arguments.grounded hd hm fun w hw => ?_).1
      rw [f.mentions_head] at hw
      have hknown := f.mentions_known (hdoc.formulas v hv f hcalculation) w hw
      exact ih w hknown (.inl ⟨v, hv, rfl, f, hcalculation, hw⟩)
  | none =>
      by_cases hfunction : ∃ f ∈ doc.functions, f.output = v.varId
      · obtain ⟨f, hf, hout⟩ := hfunction
        obtain ⟨axes, values, t, -, -, -, -, tableId, t', cs, -, -, -, hproduces, hcs⟩ :=
          hlowered.functions f hf
        rw [← hout] at ih ⊢
        refine hm.grounded hd hproduces fun c hc => ?_
        obtain ⟨p, hp, set, s, -, -, -, hlocates⟩ := forall₂_exists hcs.flip c hc
        have hin : p.2 ∈ f.inputs := (List.of_mem_zip hp).2
        refine hm.grounded hd hlocates fun w hw => ?_
        rw [List.mem_singleton.mp hw]
        exact ih p.2 (hdoc.inputs hf p.2 hin) (.inr ⟨f, hf, rfl, hin⟩)
      · refine .intro _ fun w hneeds => ?_
        obtain ⟨k, ws, ⟨p, b, r, hb, -, -, hr, hname⟩, -⟩ := hneeds
        exact absurd ⟨p, b, r, hb, hr, hname⟩
          (hlowered.free v hv hcalculation fun f hf hout => hfunction ⟨f, hf, hout⟩)

theorem grounded_variable (hno : ¬ doc.Cyclic) :
    ∀ v ∈ doc.vars.map Variable.varId, d.Grounded v := by
  have hS : ∀ v w, doc.DependsOn v w → v ∈ doc.vars.map Variable.varId := by
    rintro v w (⟨x, hx, rfl, -⟩ | ⟨f, hf, rfl, -⟩)
    · exact List.mem_map_of_mem hx
    · exact hdoc.output hf
  intro v
  induction acc_of_no_cycle hS hno v with
  | intro v _ ih =>
      intro hv
      obtain ⟨x, hx, rfl⟩ := List.mem_map.mp hv
      exact grounded_step hdoc hlowered harranged hm hx fun w hw hdepends => ih w hdepends hw

/-- Where no variable depends on itself, every block rests on blocks that read nothing. -/
theorem grounded_block (hno : ¬ doc.Cyclic) {p : Nat} {b : DraftBlock α} (hb : d.blocks[p]? = some b) :
    ∃ ws, b.inputs = slots ws ∧ ∀ v, d.outputName? b = some v → d.Grounded v := by
  have hd := hlowered.sound
  have hvariable := grounded_variable hdoc hlowered harranged hm hno
  have hputs : ∀ {k ws v}, d.Puts k ws v p → d.Grounded v →
      ∃ ws, b.inputs = slots ws ∧ ∀ v, d.outputName? b = some v → d.Grounded v := by
    rintro k ws v ⟨b', r, hb', -, hinputs, hr, hname⟩ hv
    cases hb.symm.trans hb'
    refine ⟨ws, hinputs, fun u hu => ?_⟩
    rw [outputName?, hr, Option.bind_some, hname] at hu
    exact Option.some.inj hu ▸ hv
  rcases harranged.block_cases hb with
    ⟨f, hf, ⟨w, hw, -, hinputs⟩ | ⟨-, ⟨ws, hinputs⟩, hout⟩⟩ |
    ⟨v, hv, f, ws, q, k, hrooted, rfl | ⟨hq, hk⟩⟩
  · refine ⟨[w], hinputs, fun v hv => ?_⟩
    obtain ⟨r, hr, hname⟩ := Option.bind_eq_some_iff.mp hv
    refine hm.grounded hd ⟨p, b, r, hb, rfl, hinputs, hr, hname⟩ fun u hu => ?_
    rw [List.mem_singleton.mp hu]
    exact hvariable w (hdoc.inputs hf w hw)
  · exact hputs ⟨b, _, hb, rfl, hinputs, hout, rfl⟩ (hvariable _ (hdoc.output hf))
  · exact hputs hrooted.root (hvariable _ (List.mem_map_of_mem hv))
  · have hmentions : ∀ w ∈ Formula.mentionsAmong f.head.2, d.Grounded w := by
      intro w hw
      rw [f.mentions_head] at hw
      exact hvariable w (f.mentions_known (hdoc.formulas v hv f hrooted.calculation) w hw)
    obtain ⟨k', ws', u, hu, hgrounded⟩ := (hrooted.arguments.grounded hd hm hmentions).2 p hq hk
    exact hputs hu hgrounded

end Grounded

/-- What a variable depends on is needed for it. -/
theorem needs_of_dependsOn (hlowered : doc.Lowered d) (harranged : doc.Arranged d) {v w : String}
    (h : doc.DependsOn v w) : Relation.TransGen d.Needs v w := by
  rcases h with ⟨x, hx, rfl, f, hf, hw⟩ | ⟨f, hf, rfl, hw⟩
  · obtain ⟨n, -, hspreads⟩ := harranged.blocks
    obtain ⟨ws, p, k, hrooted⟩ := hspreads.rooted hx hf
    obtain ⟨u, hu, hpath⟩ := hrooted.arguments.reaches w (by rwa [f.mentions_head])
    exact .head' ⟨_, ws, hrooted.root.produces, hu⟩ hpath
  · obtain ⟨axes, values, t, -, -, -, hlength, tableId, t', cs, -, -, -, hproduces, hcs⟩ :=
      hlowered.functions f hf
    obtain ⟨i, hi, rfl⟩ := List.mem_iff_getElem.mp hw
    have hi' : i < t.axes.length := hlength ▸ hi
    have hzip : (t.axes[i], f.inputs[i]) ∈ t.axes.zip f.inputs :=
      List.mem_iff_getElem.mpr ⟨i, by simpa using ⟨hi', hi⟩, List.getElem_zip⟩
    obtain ⟨c, hc, set, s, -, -, -, hlocates⟩ := forall₂_exists hcs _ hzip
    exact .head ⟨_, cs, hproduces, hc⟩ (.single ⟨_, _, hlocates, List.mem_singleton_self _⟩)

/-- The graph of a built document has a loop just if some variable depends on itself. -/
theorem loop_iff_cyclic (hdoc : doc.Valid) (hdraft : doc.draft = .ok d) (hbuild : d.build = .ok m) :
    (∃ c, Relation.TransGen m.Reads c c) ↔ doc.Cyclic := by
  have hlowered := lowered_of_draft hdoc hdraft
  have harranged := arranged_of_draft hdoc hdraft
  have hd := hlowered.sound
  obtain ⟨w, -, hw, -, hext, -⟩ := Draft.build_ok hd hbuild
  constructor
  · intro hloop
    by_contra hno
    have hblock := fun p b => grounded_block hdoc hlowered harranged hw hno (p := p) (b := b)
    refine Model.no_loop_of_extends hw.edges hext ?_ hloop
    refine hw.no_loop hd (fun p b hb => ?_) ?_
    · obtain ⟨ws, hinputs, -⟩ := hblock p b hb
      exact ⟨ws, hinputs⟩
    · rintro k ws v ⟨p, b, r, hb, -, -, hr, hname⟩
      obtain ⟨-, -, hgrounded⟩ := hblock p b hb
      exact hgrounded v (Option.bind_eq_some_iff.mpr ⟨r, hr, hname⟩)
  · rintro ⟨v, hv⟩
    obtain ⟨holder, hrealized⟩ := realized_of_built hd hbuild rfl
    have hneeds : ∀ {u}, Relation.TransGen doc.DependsOn v u → Relation.TransGen d.Needs v u := by
      intro u hvu
      induction hvu with
      | single h => exact needs_of_dependsOn hlowered harranged h
      | tail _ h ih => exact ih.trans (needs_of_dependsOn hlowered harranged h)
    exact hrealized.loop_of_needs hd (Model.edges_of_extends hext hw.edges) (hneeds hv)

end Document

end BlockDiagram
