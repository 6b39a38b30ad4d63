import BlockDiagram.Proofs.Draft.Names
import BlockDiagram.Proofs.Draft.Progress
import BlockDiagram.Scalar.Double
/-! Atomicity: a failed call leaves a draft as it was, but for the counter of anonymous tables. A call
that is made of several others can fail in what it checks first only; all that follows succeeds. -/

namespace BlockDiagram

open Call

namespace Draft

variable {α : Type} {d d' : Draft α}

section Success

variable {id : BlockId} {b : DraftBlock α}

theorem addBlock_of_inRange (name : String) {k : BlockKind α}
    (hk : k.InRange d.breakpoints.size d.tables.size) :
    ∃ id d', (addBlock name k).run d = .ok id d' := by
  obtain ⟨d₁, henlist⟩ := enlist_of_inRange ⟨d.blocks.size⟩ hk
  rw [addBlock_run, henlist]
  exact ⟨_, _, rfl⟩

theorem bindInput_of_block (hb : d.blocks[id.index]? = some b) (slot : Nat) {r : Reference}
    (hr : d.checkReference r = .ok ()) :
    (bindInput id slot r).run d = .ok () (d.put id (b.bind slot r)) := by
  rw [bindInput_run, bindable_ok.mpr ⟨hr, hb⟩]
  rfl

theorem bindOutput_of_block (hb : d.blocks[id.index]? = some b) (hkind : b.kind.hasOutput = true)
    {r : Reference} (hr : d.checkReference r = .ok ()) :
    (bindOutput id r).run d = .ok () (d.put id { b with output := some r }) := by
  rw [bindOutput_run, bindable_ok.mpr ⟨hr, hb⟩]
  exact if_pos hkind

/-- The slots of a block that come next are bound whatever the variables are. -/
theorem bindVariables_of_block (hb : d.blocks[id.index]? = some b) (vs : List String) :
    (bindVariables id b.inputs.length vs).run d =
      .ok () (d.put id { b with inputs := b.inputs ++ slots vs }) := by
  induction vs generalizing d b with
  | nil =>
      rw [slots, List.map_nil, List.append_nil, put_self hb]
      rfl
  | cons v vs ih =>
      have hfirst := bindInput_of_block hb b.inputs.length (r := .variable v) rfl
      rw [bind_next rfl] at hfirst
      have hrest := ih (put_block_self (Array.getElem?_eq_some_iff.mp hb).1
        (b := { b with inputs := b.inputs ++ [some (.variable v)] }))
      rw [List.length_append, List.length_singleton, put_put] at hrest
      refine run_bind_ok.mpr ⟨(), _, hfirst, hrest.trans ?_⟩
      simp only [slots, List.map_cons, List.append_assoc, List.singleton_append]

theorem addLookup_of_table {i : Nat} {t : Table α} (ht : d.tables[i]? = some t)
    (name : String) (coordinates : List String) (output : String) :
    ∃ id d', (addLookup name t.id coordinates output).run d = .ok id d' := by
  obtain ⟨table, htable, hrange⟩ := tableId?_of_table ht
  obtain ⟨id, d₁, hblock⟩ := addBlock_of_inRange name (k := .lookup table) hrange
  obtain ⟨-, ⟨b, hb, hkind, hinputs, -⟩, -⟩ := addBlock_ok hblock
  have hvariables := bindVariables_of_block hb coordinates
  rw [hinputs] at hvariables
  have houtput := bindOutput_of_block (put_block_self (Array.getElem?_eq_some_iff.mp hb).1
    (b := { b with inputs := [] ++ slots coordinates })) (by rw [hkind]; rfl)
    (r := .variable output) rfl
  refine exists_run_bind rfl (exists_run_bind (run_lift_ok.mpr ⟨htable, rfl⟩) ?_)
  exact exists_run_bind hblock (exists_run_bind hvariables (exists_run_bind houtput ⟨id, _, rfl⟩))

variable [Scalar α]

/-- The variable of a new normalizer has a free name, its block an output, and its set is there. -/
theorem addNormalizer_of_set {i : Nat} {s : BreakpointSet α} (hs : d.breakpoints[i]? = some s)
    (input : String) : ∃ c d', (addNormalizer s.id input).run d = .ok c d' := by
  obtain ⟨set, hset, hrange⟩ := breakpointsId?_of_set hs
  refine exists_run_bind rfl (exists_run_bind (run_lift_ok.mpr ⟨hset, rfl⟩) ?_)
  cases hlookup : d.normalizers.lookup ⟨set, input⟩ with
  | some c =>
      simp only [hlookup]
      exact ⟨c, d, rfl⟩
  | none =>
      simp only [hlookup]
      have hfree := freshName_not_mem d.varIds s!"{input}_x_{s.id}"
      generalize freshName d.varIds s!"{input}_x_{s.id}" = v at hfree
      have hsignal := addSignal_run (Signal.derive v) d
      rw [if_neg (show (Signal.derive v : Signal α).varId ∉ d.varIds from hfree)] at hsignal
      obtain ⟨block, d₂, hblock⟩ := addBlock_of_inRange
        (d := { d with signals := d.signals.push (Signal.derive v).unwired }) s!"{v}_bp"
        (k := .normalizer set) hrange
      obtain ⟨-, ⟨b, hb, hkind, -, hopen⟩, hput⟩ := addBlock_ok hblock
      have hgrows := hput [] b fun r w hr => by
        rw [hopen] at hr
        cases hr
      have hrange₂ : d.signals.size < d₂.signals.size :=
        (Array.getElem?_eq_some_iff.mp (hgrows.signals _ _ Array.getElem?_push_size)).1
      have hinput := bindInput_of_block hb 0 (r := .variable input) rfl
      have houtput := bindOutput_of_block (put_block_self (Array.getElem?_eq_some_iff.mp hb).1
        (b := b.bind 0 (.variable input))) (show b.kind.hasOutput = true by rw [hkind]; rfl)
        (r := .signal ⟨d.signals.size⟩) (checkReference_ok.mpr hrange₂)
      refine exists_run_bind hsignal (exists_run_bind hblock ?_)
      exact exists_run_bind hinput (exists_run_bind houtput ⟨v, _, rfl⟩)

omit [Scalar α] in
/-- What adds signals and blocks takes no breakpoint set away. -/
theorem stable_set {id : String} : Stable fun d : Draft α => ∃ s ∈ d.breakpoints, s.id = id := by
  apply stable_of_enlist
  · intro d d' hsets _ _ hd
    rw [hsets]
    exact hd
  · rintro d d' user k h ⟨s, hs, hid⟩
    obtain ⟨i, hi⟩ := Array.mem_iff_getElem?.mp hs
    obtain ⟨-, -, -, hsets, -⟩ := enlist_ok h
    obtain ⟨s', hs', hid', -⟩ := hsets i s hi
    exact ⟨s', Array.mem_of_getElem? hs', hid'.trans hid⟩

/-- Normalizers are added one after the other, and the sets that are still to come stay there. -/
theorem addNormalizers_of_sets (ps : List (Axis × String))
    (hps : ∀ p ∈ ps, ∃ s ∈ d.breakpoints, s.id = p.1.id) :
    ∃ cs d', (ps.mapM fun (p : Axis × String) =>
      match p with | (axis, input) => addNormalizer axis.id input).run d = .ok cs d' := by
  induction ps generalizing d with
  | nil => exact ⟨[], d, rfl⟩
  | cons p ps ih =>
      obtain ⟨s, hs, hid⟩ := hps p List.mem_cons_self
      obtain ⟨i, hi⟩ := Array.mem_iff_getElem?.mp hs
      obtain ⟨c, d₁, hfirst⟩ := addNormalizer_of_set hi p.2
      rw [hid] at hfirst
      obtain ⟨cs, d₂, hrest⟩ := ih (d := d₁) fun q hq =>
        (stable_set.addNormalizer _ _).ok (hps q (List.mem_cons_of_mem p hq)) hfirst
      rw [List.mapM_cons]
      exact exists_run_bind hfirst (exists_run_bind hrest ⟨c :: cs, d₂, rfl⟩)

/-- A table that has an axis for each input is all that a function of it needs: its axes lie along sets
that are there, and adding their normalizers leaves the table there. -/
theorem addFunction_of_table (hd : d.Sound) {i : Nat} {t : Table α} (ht : d.tables[i]? = some t)
    (name : String) {inputs : List String} (output : String) (hrank : t.rank = inputs.length) :
    ∃ id d', (addFunction name t.id inputs output).run d = .ok id d' := by
  obtain ⟨cs, d₁, hcoordinates⟩ := addNormalizers_of_sets (t.axes.zip inputs) fun p hp => by
    obtain ⟨s, hs, hid, -⟩ := hd.grids.axes i t ht p.1 (List.of_mem_zip hp).1
    exact ⟨s, Array.mem_of_getElem? hs, hid⟩
  have htable : t.id ∈ d₁.tableIds := by
    have hsame := (keeps_mapM (fun _ => stable_tableIds.addNormalizer _ _) _).ok ⟨rfl, rfl⟩
      hcoordinates
    rw [hsame.1]
    exact mem_tableIds.mpr ⟨i, t, ht, rfl⟩
  obtain ⟨j, t', ht', hid⟩ := mem_tableIds.mp htable
  obtain ⟨id, d₂, hlookup⟩ := addLookup_of_table ht' name cs output
  rw [hid] at hlookup
  refine exists_run_bind rfl (exists_run_bind (run_lift_ok.mpr ⟨tableNamed_of_table hd ht, rfl⟩) ?_)
  rw [if_neg (not_not.mpr hrank)]
  exact exists_run_bind hcoordinates ⟨id, d₂, hlookup⟩

end Success

section Failure

variable {e : ModelError α}

theorem breakpointsId?_of_missing {id : String} (h : ∀ s ∈ d.breakpoints, s.id ≠ id) :
    d.breakpointsId? id = .error (.missingBreakpoints id) := by
  have hnone : (d.breakpoints.findIdx? fun s => s.id == id) = none :=
    Array.findIdx?_eq_none_iff.mpr fun s hs => beq_eq_false_iff_ne.mpr (h s hs)
  rw [breakpointsId?, hnone]

theorem tableId?_of_missing {id : String} (h : ∀ t ∈ d.tables, t.id ≠ id) :
    d.tableId? id = .error (.missingTable id) := by
  have hnone : (d.tables.findIdx? fun t => t.id == id) = none :=
    Array.findIdx?_eq_none_iff.mpr fun t ht => beq_eq_false_iff_ne.mpr (h t ht)
  rw [tableId?, hnone]

theorem addLookup_error {name table output : String} {coordinates : List String} :
    (addLookup name table coordinates output).run d = .error e d' ↔
      (∀ t ∈ d.tables, t.id ≠ table) ∧ e = .missingTable table ∧ d' = d := by
  by_cases hmissing : ∀ t ∈ d.tables, t.id ≠ table
  · have hrun : (addLookup name table coordinates output).run d = .error (.missingTable table) d := by
      refine run_bind_error.mpr (.inr ⟨d, d, rfl, run_bind_error.mpr (.inl ?_)⟩)
      rw [run_lift, tableId?_of_missing hmissing]
    rw [hrun]
    constructor
    · rintro ⟨⟩
      exact ⟨hmissing, rfl, rfl⟩
    · rintro ⟨-, rfl, rfl⟩
      rfl
  · push Not at hmissing
    obtain ⟨t, ht, rfl⟩ := hmissing
    obtain ⟨i, hi⟩ := Array.mem_iff_getElem?.mp ht
    obtain ⟨id, d₁, hrun⟩ := addLookup_of_table hi name coordinates output
    rw [hrun]
    exact ⟨nofun, fun ⟨hall, _⟩ => absurd rfl (hall t ht)⟩

variable [Scalar α]

theorem addNormalizer_error {set input : String} :
    (addNormalizer set input).run d = .error e d' ↔
      (∀ s ∈ d.breakpoints, s.id ≠ set) ∧ e = .missingBreakpoints set ∧ d' = d := by
  by_cases hmissing : ∀ s ∈ d.breakpoints, s.id ≠ set
  · have hrun : (addNormalizer set input).run d = .error (.missingBreakpoints set) d := by
      refine run_bind_error.mpr (.inr ⟨d, d, rfl, run_bind_error.mpr (.inl ?_)⟩)
      rw [run_lift, breakpointsId?_of_missing hmissing]
    rw [hrun]
    constructor
    · rintro ⟨⟩
      exact ⟨hmissing, rfl, rfl⟩
    · rintro ⟨-, rfl, rfl⟩
      rfl
  · push Not at hmissing
    obtain ⟨s, hs, rfl⟩ := hmissing
    obtain ⟨i, hi⟩ := Array.mem_iff_getElem?.mp hs
    obtain ⟨c, d₁, hrun⟩ := addNormalizer_of_set hi input
    rw [hrun]
    exact ⟨nofun, fun ⟨hall, _⟩ => absurd rfl (hall s hs)⟩

theorem addFunction_error (hd : d.Sound) {name table output : String} {inputs : List String} :
    (addFunction name table inputs output).run d = .error e d' ↔
      ((∀ t ∈ d.tables, t.id ≠ table) ∧ e = .missingTable table ∨
        ∃ t ∈ d.tables, t.id = table ∧ t.rank ≠ inputs.length ∧
          e = .arity name "table" (.exactly t.rank) inputs.length) ∧ d' = d := by
  by_cases hmissing : ∀ t ∈ d.tables, t.id ≠ table
  · have hrun : (addFunction name table inputs output).run d = .error (.missingTable table) d := by
      refine run_bind_error.mpr (.inr ⟨d, d, rfl, run_bind_error.mpr (.inl ?_)⟩)
      rw [run_lift, tableNamed, tableId?_of_missing hmissing, outcome_error_bind]
    rw [hrun]
    constructor
    · rintro ⟨⟩
      exact ⟨.inl ⟨hmissing, rfl⟩, rfl⟩
    · rintro ⟨⟨-, rfl⟩ | ⟨t, ht, hid, -⟩, rfl⟩
      · rfl
      · exact absurd hid (hmissing t ht)
  · push Not at hmissing
    obtain ⟨t, ht, rfl⟩ := hmissing
    obtain ⟨i, hi⟩ := Array.mem_iff_getElem?.mp ht
    have hunique : ∀ t' ∈ d.tables, t'.id = t.id → t' = t := by
      intro t' ht' hid
      obtain ⟨j, hj⟩ := Array.mem_iff_getElem?.mp ht'
      have hsame := hd.grids.tableIds j i t' t hj hi hid
      rw [hsame] at hj
      exact Option.some.inj (hj.symm.trans hi)
    by_cases hrank : t.rank = inputs.length
    · obtain ⟨id, d₁, hrun⟩ := addFunction_of_table hd hi name output hrank
      rw [hrun]
      refine ⟨nofun, ?_⟩
      rintro ⟨⟨hall, -⟩ | ⟨t', ht', hid, hmisfit, -⟩, -⟩
      · exact absurd rfl (hall t ht)
      · rw [hunique t' ht' hid] at hmisfit
        exact absurd hrank hmisfit
    · rw [addFunction_misfit hd hi hrank]
      constructor
      · rintro ⟨⟩
        exact ⟨.inr ⟨t, ht, rfl, hrank, rfl⟩, rfl⟩
      · rintro ⟨⟨hall, -⟩ | ⟨t', ht', hid, -, rfl⟩, rfl⟩
        · exact absurd rfl (hall t ht)
        · rw [hunique t' ht' hid]

end Failure

section Trace

variable {e : ModelError α}

theorem anonymous_lt_nextAnonymous (d : Draft α) : d.anonymous < d.nextAnonymous :=
  start_le_firstFree _ _ _

variable [Scalar α]

/-- A failed call changes at most the counter of anonymous tables. -/
theorem Sound.unchanged_of_error (hd : d.Sound) {c : DraftCall α} (h : c.run.run d = .error e d') :
    d' = d ∨ ∃ axes values, c = .table none axes values ∧ d' = d.claimed none := by
  cases c with
  | signal s => exact .inl (addSignal_error (run_discard_error.mp h))
  | block name kind => exact .inl (addBlock_error (run_discard_error.mp h))
  | input id slot r => exact .inl (bindInput_error h)
  | output id r => exact .inl (bindOutput_error h)
  | breakpoints id values => exact .inl (registerBreakpoints_error (run_discard_error.mp h))
  | table id axes values =>
      rcases registerTable_error (run_discard_error.mp h) with rfl | rfl
      · exact .inl rfl
      · cases id with
        | none => exact .inr ⟨axes, values, rfl, rfl⟩
        | some id => exact .inl rfl
  | normalizer set v => exact .inl (addNormalizer_error.mp (run_discard_error.mp h)).2.2
  | lookup name t vs out => exact .inl (addLookup_error.mp (run_discard_error.mp h)).2.2
  | function name t vs out => exact .inl ((addFunction_error hd).mp (run_discard_error.mp h)).2

/-- A failed call on a reachable draft changes nothing, the name tables kept beside it included, but that
a table refused without an ID of its own leaves the counter of anonymous tables advanced. The calls that
are made of others fail in their first check, for the reasons it gives, and for no other. -/
theorem Reachable.failed_calls_leave_no_trace (hd : d.Reachable) :
    (∀ (c : DraftCall α) (e : ModelError α) (d' : Draft α), c.run.run d = .error e d' →
      (d' = d ∨ ∃ axes values n, c = .table none axes values ∧ d.anonymous < n ∧
        d' = { d with anonymous := n }) ∧
      ∀ x, d'.Recorded x ↔ d.Recorded x) ∧
    (∀ (set input : String) (e : ModelError α) (d' : Draft α),
      (addNormalizer set input).run d = .error e d' ↔
        (∀ s ∈ d.breakpoints, s.id ≠ set) ∧ e = .missingBreakpoints set ∧ d' = d) ∧
    (∀ (name table : String) (coordinates : List String) (output : String) (e : ModelError α)
        (d' : Draft α), (addLookup name table coordinates output).run d = .error e d' ↔
      (∀ t ∈ d.tables, t.id ≠ table) ∧ e = .missingTable table ∧ d' = d) ∧
    ∀ (name table : String) (inputs : List String) (output : String) (e : ModelError α)
        (d' : Draft α), (addFunction name table inputs output).run d = .error e d' ↔
      ((∀ t ∈ d.tables, t.id ≠ table) ∧ e = .missingTable table ∨
        ∃ t ∈ d.tables, t.id = table ∧ t.rank ≠ inputs.length ∧
          e = .arity name "table" (.exactly t.rank) inputs.length) ∧ d' = d := by
  refine ⟨?_, fun _ _ _ _ => addNormalizer_error, fun _ _ _ _ _ _ => addLookup_error,
    fun _ _ _ _ _ _ => addFunction_error hd.sound⟩
  intro c e d' h
  rcases hd.sound.unchanged_of_error h with rfl | ⟨axes, values, rfl, rfl⟩
  · exact ⟨.inl rfl, fun _ => .rfl⟩
  · refine ⟨.inr ⟨axes, values, _, rfl, d.anonymous_lt_nextAnonymous, rfl⟩, fun x => ⟨?_, ?_⟩⟩
    · exact fun hx => hx.noted d.normalizers d.anonymous
    · exact fun hx => hx.noted d.normalizers d.nextAnonymous

/-- A table with one axis, which has the first number for an ID. -/
def numbered : Draft Float :=
  .after "numbered" [ .breakpoints "A" [0, 1], .table (some "anon_table_1") ["A"] #[1, 2] ]

/-- A table without values takes the second number with it, and a second input to the one axis leaves no
normalizer of the first behind. -/
theorem numbered_failures :
    (∃ e d', (DraftCall.table none ["A"] #[]).run.run numbered = .error e d' ∧
      numbered.anonymous = 0 ∧ d'.anonymous = 2 ∧ d'.tableIds = ["anon_table_1"]) ∧
    (addFunction "f" "anon_table_1" ["u", "v"] "y").run numbered =
      .error (.arity "f" "table" (.exactly 1) 2) numbered := by
  obtain ⟨htrace, -, -, hfunction⟩ := Reachable.failed_calls_leave_no_trace
    (show numbered.Reachable from reachable_after _ _)
  have hids : numbered.tableIds = ["anon_table_1"] := by decide +kernel
  constructor
  · have hfails : (match (DraftCall.table none ["A"] #[]).run.run numbered with
        | .ok _ _ => false
        | .error _ d' => d'.anonymous == 2) = true := by decide +kernel
    cases hrun : (DraftCall.table none ["A"] #[]).run.run numbered with
    | ok u d' =>
        rw [hrun] at hfails
        cases hfails
    | error e d' =>
        rw [hrun] at hfails
        refine ⟨e, d', rfl, by decide +kernel, beq_iff_eq.mp hfails, ?_⟩
        rcases (htrace _ e d' hrun).1 with rfl | ⟨-, -, n, -, -, rfl⟩
        · exact hids
        · exact hids
  · have htable : numbered.tables[0]?.map (fun t => (t.id, t.rank)) = some ("anon_table_1", 1) := by
      decide +kernel
    obtain ⟨t, ht, hpair⟩ := Option.map_eq_some_iff.mp htable
    obtain ⟨hid, hrank⟩ := Prod.mk.inj hpair
    refine (hfunction _ _ _ _ _ _).mpr ⟨.inr ⟨t, Array.mem_of_getElem? ht, hid, ?_, ?_⟩, rfl⟩
    · rw [hrank]
      decide
    · rw [hrank]
      rfl

end Trace

end Draft

end BlockDiagram
