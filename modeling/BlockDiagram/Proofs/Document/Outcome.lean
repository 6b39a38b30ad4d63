import BlockDiagram.Proofs.Document.Declaration
import BlockDiagram.Proofs.Document.Progress
import BlockDiagram.Proofs.Draft.Wirable
import BlockDiagram.Proofs.Model.Reachable
import BlockDiagram.Scalar.Double
/-! The outcome of building a valid document: its first fault, if it has one, or a variable that is
defined twice, or else a model. No name a document uses can get in the way of a name that lowering
makes up. -/

namespace BlockDiagram

open Call Draft

variable {α : Type} [Scalar α]

namespace Document

variable {doc : Document α} {d d' : Draft α} {used : Nat}

/-- The draft has all that functions refer to. Which numbers are left for the tables of their own, from
`used` on, is up to the shared tables. -/
structure Ready (doc : Document α) (used : Nat) (d : Draft α) : Prop where
  sound : d.Sound
  located : d.Located
  closed : d.Closed
  sets : ∀ b ∈ doc.breakpoints, HasSet b d
  tables : ∀ g ∈ doc.tables, HasTable g d
  vars : ∀ v ∈ doc.vars.map Variable.varId, v ∈ d.varIds
  anonymous : d.anonymous = used
  numbers : ∀ n, used < n →
    (s!"anon_table_{n}" ∈ d.tableIds ↔ s!"anon_table_{n}" ∈ doc.tables.map Grid.id)

theorem Declared.ready (h : doc.Declared d) : doc.Ready 0 d where
  sound := h.blank.sound
  located := h.blank.located
  closed := h.blank.closed
  sets := h.sets
  tables := h.tables
  vars := fun v hv => by
    obtain ⟨w, hw, rfl⟩ := List.mem_map.mp hv
    obtain ⟨i, hi⟩ := h.signals w hw
    exact mem_varIds.mpr ⟨i, _, hi, rfl⟩
  anonymous := h.anonymous
  numbers := fun n _ => by rw [h.tableIds]

theorem Ready.nextAnonymous_eq (h : doc.Ready used d) : d.nextAnonymous =
    firstFree (fun n => s!"anon_table_{n}") (doc.tables.map Grid.id) (used + 1) := by
  rw [nextAnonymous, h.anonymous]
  exact firstFree_congr (numbered_injective "anon_table_") fun n hn => h.numbers n hn

/-- A table of a function's own takes the next number. -/
theorem Ready.register (h : doc.Ready used d) {axes : List String} {values : Array α} {table : TableId}
    {t : Table α} (hrun : (registerTable none axes values).run d = .ok table d')
    (hid : t.id = d.claimedId none) (hd' : d' = { d.claimed none with tables := d.tables.push t }) :
    doc.Ready d.nextAnonymous d' ∧ d.Adds [] d' := by
  obtain ⟨hgrows, hsame, -⟩ := registerTable_ok hrun
  have hadds : d.Adds [] d' := by
    refine (Adds.of_blocks d' h.closed (by rw [hd']; rfl) (fun v => hgrows.varIds) fun r v => ?_).1
    exact hgrows.nameOf?
  refine ⟨⟨(keeps_registerTable _ _ _).ok h.sound hrun, h.located.grows hgrows hsame, hadds.closed,
    fun b hb => hasSet_grows hgrows (h.sets b hb), fun g hg => hasTable_grows hgrows (h.tables g hg),
    fun v hv => hadds.varIds v (h.vars v hv), by rw [hd']; rfl, fun n hn => ?_⟩, hadds⟩
  have hused : used < n := by
    have hle := start_le_firstFree (fun n => s!"anon_table_{n}") d.tableIds (d.anonymous + 1)
    rw [h.anonymous] at hle
    exact Nat.lt_of_lt_of_le (Nat.lt_of_succ_le hle) (Nat.le_of_lt (h.anonymous ▸ hn))
  have hother : s!"anon_table_{n}" ≠ t.id := by
    rw [hid]
    intro heq
    exact Nat.ne_of_gt hn (numbered_injective "anon_table_" heq)
  have hids : d'.tableIds = d.tableIds ++ [t.id] := by
    rw [hd', tableIds, tableIds, Array.toList_push, List.map_append]
    rfl
  rw [hids, List.mem_append, List.mem_singleton, ← h.numbers n hused]
  exact or_iff_left hother

theorem addFunction_concludes (hdoc : doc.Valid) (h : doc.Ready used d) {f : Function α}
    (hf : f ∈ doc.functions) {i : Nat} {t : Table α} (ht : d.tables[i]? = some t) :
    Concludes (do let _ ← addFunction f.name t.id f.inputs f.output : Drafting α Unit) d
      (rankFault? f (t.axes.map Axis.id)) fun _ d' => doc.Ready used d' ∧ d.Adds [f.output] d' := by
  refine Concludes.discard ?_
  rw [rankFault?, show (t.axes.map Axis.id).length = t.rank from List.length_map _]
  by_cases hrank : t.rank = f.inputs.length
  · obtain ⟨id, d', hrun, hadds⟩ := addFunction_adds h.closed h.sound h.located ht f.name hrank
      (fun w hw => h.vars w (hdoc.inputs hf w hw)) (h.vars _ (hdoc.output hf))
    obtain ⟨hgrows, hlocated, -⟩ := addFunction_ok hrun h.sound h.located
    obtain ⟨hids, hused⟩ := (stable_tableIds.addFunction _ _ _ _).ok (s := d) ⟨rfl, rfl⟩ hrun
    rw [if_pos hrank]
    refine ⟨id, d', hrun, ⟨(keeps_addFunction _ _ _ _).ok h.sound hrun, hlocated, hadds.closed,
      fun b hb => hasSet_grows hgrows (h.sets b hb), fun g hg => hasTable_grows hgrows (h.tables g hg),
      fun v hv => hadds.varIds v (h.vars v hv), hused.trans h.anonymous, fun n hn => ?_⟩, hadds⟩
    rw [hids]
    exact h.numbers n hn
  · rw [if_neg hrank]
    exact ⟨d, addFunction_misfit h.sound ht hrank⟩

theorem lowerFunction_concludes (hdoc : doc.Valid) (hcount : doc.Countable) (h : doc.Ready used d)
    {f : Function α} (hf : f ∈ doc.functions) :
    Concludes (lowerFunction f) d (doc.functionFault? s!"anon_table_{doc.tableNumber used f}" f)
      fun _ d' => doc.Ready (doc.tableNumber used f) d' ∧ d.Adds [f.output] d' := by
  have hvalid := hdoc.table hf
  unfold lowerFunction functionFault? tableNumber
  cases htable : f.table with
  | shared id =>
      rw [htable] at hvalid
      obtain ⟨g, hg, rfl⟩ := List.mem_map.mp hvalid
      obtain ⟨i, t, ht, hid, haxes, -⟩ := h.tables g hg
      have hgrid : doc.grid? (.shared g.id) = some (g.axes, g.values) := by
        rw [grid?, find?_of_nodup hdoc.tables hg]
        rfl
      have hadd := addFunction_concludes hdoc h hf ht
      rw [hid, haxes] at hadd
      rw [hgrid]
      exact hadd
  | own axes values =>
      rw [htable] at hvalid
      obtain ⟨hne, haxes⟩ := hvalid
      dsimp only
      rw [← h.nextAnonymous_eq]
      refine (registerTable_concludes hdoc h.sound h.sets none (by rintro ⟨i, ⟨⟩, -⟩) hne haxes
        (hcount.own f hf axes values htable)).bind ?_
      rintro _ d₁ hregister ⟨t, hid, hids, rfl, hd₁⟩
      obtain ⟨hready, hadds⟩ := h.register hregister hid hd₁
      have ht : d₁.tables[d.tables.size]? = some t := by
        rw [hd₁]
        exact Array.getElem?_push_size
      have hadd := addFunction_concludes hdoc hready hf ht
      rw [hids] at hadd
      refine (hadd.of_run ?_).imp fun _ d₂ _ hd₂ => ⟨hd₂.1, hadds.trans hd₂.2⟩
      simp only [EStateM.run_bind, EStateM.run_get, run_lift, entry_eq_ok.mpr ht, EStateM.run_pure]

theorem functions_conclude (hdoc : doc.Valid) (hcount : doc.Countable) {fs : List (Function α)}
    (hfs : ∀ f ∈ fs, f ∈ doc.functions) (h : doc.Ready used d) :
    Concludes (forEach lowerFunction fs) d (doc.functionsFault? used fs) fun _ d' =>
      (∃ used', doc.Ready used' d') ∧ d.Adds (fs.map Function.output) d' := by
  induction fs generalizing used d with
  | nil => exact ⟨(), d, rfl, ⟨used, h⟩, .refl h.closed⟩
  | cons f rest ih =>
      refine (lowerFunction_concludes hdoc hcount h (hfs f List.mem_cons_self)).bind ?_
      rintro _ d₁ - ⟨h₁, hadds⟩
      refine (ih (fun g hg => hfs g (List.mem_cons_of_mem f hg)) h₁).imp ?_
      rintro _ d₂ - ⟨h₂, hadds₂⟩
      exact ⟨h₂, hadds.trans hadds₂⟩

theorem lowerFormulas_adds {known : List String} {vars : List (Variable α)} (h : d.Closed)
    (hknown : ∀ v ∈ known, v ∈ d.varIds)
    (hvars : ∀ v ∈ vars, v.varId ∈ known ∧ ∀ f, v.calculation = some f →
      checkFormula known v.varId f = .ok ()) :
    ∃ d', (forEach (fun v : Variable α => v.calculation.forM (lowerFormula v.varId)) vars).run d =
      .ok () d' ∧ d.Adds (calculated vars) d' := by
  induction vars generalizing d with
  | nil => exact ⟨d, rfl, .refl h⟩
  | cons v rest ih =>
      obtain ⟨hin, hformula⟩ := hvars v List.mem_cons_self
      obtain ⟨d₁, hfirst, hadds₁⟩ : ∃ d₁, (v.calculation.forM (lowerFormula v.varId)).run d = .ok () d₁ ∧
          d.Adds (calculated [v]) d₁ := by
        cases hcalculation : v.calculation with
        | none =>
            refine ⟨d, rfl, ?_⟩
            rw [calculated, List.filter_cons_of_neg (by rw [hcalculation]; exact Bool.false_ne_true)]
            exact .refl h
        | some f =>
            rw [calculated, List.filter_cons_of_pos (by rw [hcalculation]; rfl)]
            exact lowerFormula_adds f h hknown (hformula f hcalculation) (hknown _ hin)
      obtain ⟨d₂, hrest, hadds₂⟩ := ih hadds₁.closed (fun w hw => hadds₁.varIds w (hknown w hw))
        fun w hw => hvars w (List.mem_cons_of_mem v hw)
      have hsplit : calculated (v :: rest) = calculated [v] ++ calculated rest := by
        rw [calculated, calculated, calculated, ← List.map_append, ← List.filter_append]
        rfl
      rw [hsplit]
      exact ⟨d₂, run_bind_ok.mpr ⟨(), d₁, hfirst, hrest⟩, hadds₁.trans hadds₂⟩

/-- A valid document can be lowered unless it has a fault, and its draft can be wired unless a variable
is defined twice. -/
theorem lower_concludes (hdoc : doc.Valid) (hcount : doc.Countable) :
    Concludes doc.lower (empty doc.name) doc.fault? fun _ d =>
      d.Sound ∧ d.Closed ∧ ∀ v, 1 < d.outputNames.count v ↔ doc.DefinedTwice v := by
  have hfault : doc.fault? = (doc.breakpoints.findSome? descentFault?).or
      ((doc.tables.findSome? fun t => doc.shapeFault? t.id t.axes t.values).or
        (Option.or none ((doc.functionsFault? 0 doc.functions).or none))) := by
    rw [Option.none_or, Option.or_none]
    rfl
  rw [hfault]
  refine (sets_conclude hdoc).bind ?_
  rintro _ d₁ - ⟨hd₁, hsets, htables, hsignals, hunused⟩
  refine (tables_conclude hdoc hcount hd₁ hsets htables hsignals hunused).bind ?_
  rintro _ d₂ - ⟨hd₂, hsets, htables, hids, hsignals, hunused⟩
  refine (vars_conclude hdoc hd₂ hsets htables hids hsignals hunused).bind ?_
  rintro _ d₃ - hdeclared
  refine (functions_conclude hdoc hcount (fun f hf => hf) hdeclared.ready).bind ?_
  rintro _ d₄ - ⟨⟨used, hready⟩, hadds₄⟩
  obtain ⟨d₅, hrun, hadds₅⟩ := lowerFormulas_adds hready.closed hready.vars
    fun v hv => ⟨List.mem_map_of_mem hv, hdoc.formulas v hv⟩
  have hadds : d₃.Adds doc.defined d₅ := hadds₄.trans hadds₅
  have hnone : d₃.outputNames = [] := by
    rw [outputNames, hdeclared.blank.blocks]
    rfl
  refine ⟨(), d₅, hrun, (formulas_ok hrun hready.sound).2.1, hadds.closed, fun v => ?_⟩
  rw [hadds.one_lt_count hnone fun w hw => hdeclared.ready.vars w (hdoc.defined w hw)]
  exact one_lt_count_defined hdoc

theorem build_of_lowered (h : doc.lower.run (empty doc.name) = .ok () d) : doc.build = d.build := by
  rw [build, draft, h]
  rfl

theorem build_of_fault {e : ModelError α} (h : doc.lower.run (empty doc.name) = .error e d) :
    doc.build = .error e := by
  rw [build, draft, h]
  rfl

/-- Whether there is a fault or a variable defined twice decides how building ends. -/
theorem build_cases (hdoc : doc.Valid) (hcount : doc.Countable) :
    (∃ e, doc.fault? = some e ∧ doc.build = .error e) ∨
    doc.fault? = none ∧
      ((∃ v first second, doc.DefinedTwice v ∧
          doc.build = .error (.duplicateSource v first second)) ∨
        (∀ v, ¬ doc.DefinedTwice v) ∧ ∃ m, doc.build = .ok m) := by
  have h := lower_concludes hdoc hcount
  cases hfault : doc.fault? with
  | some e =>
      rw [hfault] at h
      obtain ⟨d, hrun⟩ := h
      exact .inl ⟨e, rfl, build_of_fault hrun⟩
  | none =>
      rw [hfault] at h
      obtain ⟨_, d, hrun, hsound, hclosed, htwice⟩ := h
      refine .inr ⟨rfl, ?_⟩
      rw [build_of_lowered hrun]
      rcases wire_outcome hsound hclosed with ⟨⟨m₀, hwire⟩, honce⟩ | ⟨v, first, second, hwire, hmore⟩
      · exact .inr ⟨fun v hv => Nat.not_lt.mpr (honce v) ((htwice v).mpr hv), build_of_wire hsound hwire⟩
      · exact .inl ⟨v, first, second, (htwice v).mp hmore, outcome_bind_error.mpr (.inl hwire)⟩

/-- A valid document with tables that can be counted fails to build for its first fault, if it has one;
else, just if some variable is defined twice, for a duplicate source; and never for another reason. -/
theorem build_outcome (hdoc : doc.check = .ok ()) (hcount : doc.Countable) :
    (∀ e, doc.fault? = some e → doc.build = .error e) ∧
    ((∃ v first second, doc.build = .error (.duplicateSource v first second)) ↔
      doc.fault? = none ∧ ∃ v, doc.DefinedTwice v) ∧
    (∀ v first second, doc.build = .error (.duplicateSource v first second) → doc.DefinedTwice v) ∧
    (doc.fault? = none → (∀ v, ¬ doc.DefinedTwice v) → ∃ m, doc.build = .ok m) ∧
    ∀ e, doc.build = .error e →
      e.kind ∈ ["NonMonotonicBreakpoints", "TableShape", "ArityMismatch", "DuplicateSource"] := by
  rcases build_cases (check_ok hdoc) hcount with
    ⟨e, hfault, hbuild⟩ | ⟨hfault, ⟨v, first, second, hv, hbuild⟩ | ⟨hv, m, hbuild⟩⟩
  · have hkind := fault?_kind hfault
    have hother : ∀ v first second, doc.build ≠ .error (.duplicateSource v first second) := by
      intro v first second hsame
      cases hbuild.symm.trans hsame
      change "DuplicateSource" ∈ _ at hkind
      exact absurd hkind (by decide)
    refine ⟨fun e' he' => ?_, ⟨?_, ?_⟩, fun v first second hsame => ?_, fun hnone => ?_, fun e' he' => ?_⟩
    · cases hfault.symm.trans he'
      exact hbuild
    · rintro ⟨v, first, second, hsame⟩
      exact absurd hsame (hother v first second)
    · rintro ⟨hnone, -⟩
      cases hfault.symm.trans hnone
    · exact absurd hsame (hother v first second)
    · cases hfault.symm.trans hnone
    · cases hbuild.symm.trans he'
      exact List.mem_append_left ["DuplicateSource"] hkind
  · refine ⟨fun e he => ?_, ⟨fun _ => ⟨hfault, v, hv⟩, fun _ => ⟨v, first, second, hbuild⟩⟩, ?_,
      fun _ honce => absurd hv (honce v), fun e he => ?_⟩
    · cases hfault.symm.trans he
    · intro v' first' second' hsame
      cases hbuild.symm.trans hsame
      exact hv
    · cases hbuild.symm.trans he
      change "DuplicateSource" ∈ _
      decide
  · refine ⟨fun e he => ?_, ⟨?_, ?_⟩, fun v first second hsame => ?_, fun _ _ => ⟨m, hbuild⟩,
      fun e he => ?_⟩
    · cases hfault.symm.trans he
    · rintro ⟨v, first, second, hsame⟩
      cases hbuild.symm.trans hsame
    · rintro ⟨-, v, htwice⟩
      exact absurd htwice (hv v)
    · cases hbuild.symm.trans hsame
    · cases hbuild.symm.trans he

/-- A document full of names that lowering makes up itself, with a variable that has both a formula and a
function. -/
def mimic : Document Float where
  version := 1
  name := "mimic"
  vars :=
    [ { varId := "x", min := some 0, roles := { input := true } }, { varId := "x_x_grid" },
      { varId := "x_unlim" }, { varId := "y_t1" }, { varId := "w" },
      { varId := "y", calculation := some (.apply .plus [.name "y_t1", .number 1]) } ]
  breakpoints := [{ id := "grid", values := [0, 1] }]
  tables := [{ id := "anon_table_1", axes := ["grid"], values := [0, 1] }]
  functions :=
    [ { name := "f", inputs := ["x"], output := "w", table := .own ["grid"] [10, 20] },
      { name := "g", inputs := ["x_x_grid"], output := "y", table := .shared "anon_table_1" } ]

theorem mimic_defined_twice :
    ∃ v first second, mimic.build = .error (.duplicateSource v first second) ∧ mimic.DefinedTwice v := by
  have hvalid : mimic.check.toOption.any (fun _ => true) = true := by decide +kernel
  have hfault : mimic.fault?.isNone = true := by decide +kernel
  have hcount : mimic.Countable := by
    refine ⟨by decide +kernel, fun f hf axes values htable => ?_⟩
    rcases List.mem_cons.mp hf with rfl | hf
    · cases htable
      decide +kernel
    · cases List.mem_singleton.mp hf
      cases htable
  have htwice : mimic.DefinedTwice "y" :=
    .inr ⟨⟨_, List.mem_cons_of_mem _ List.mem_cons_self, rfl⟩, _, List.getLast_mem (List.cons_ne_nil _ _),
      rfl, rfl⟩
  obtain ⟨u, hcheck, -⟩ := outcome_of_any hvalid
  obtain ⟨-, hsource, hsound, -⟩ := build_outcome hcheck hcount
  obtain ⟨v, first, second, hbuild⟩ := hsource.mpr ⟨Option.isNone_iff_eq_none.mp hfault, "y", htwice⟩
  exact ⟨v, first, second, hbuild, hsound v first second hbuild⟩

end Document

end BlockDiagram
