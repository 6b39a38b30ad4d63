import BlockDiagram.Proofs.Draft.Closed
/-! Progress: on a closed draft, adding a function of a table succeeds as soon as the table is there, has
an axis for each input, and all variables are declared. -/

namespace BlockDiagram

open Call

namespace Draft

variable {α : Type} {d d' : Draft α}

section Tables

theorem enlist_tableIds {id : BlockId} {k : BlockKind α} (h : d.enlist id k = .ok d') :
    d'.tableIds = d.tableIds ∧ d'.anonymous = d.anonymous := by
  unfold enlist at h
  split at h
  · split at h
    · cases h
      exact ⟨rfl, rfl⟩
    · cases h
  · split at h
    · cases h
      refine ⟨?_, rfl⟩
      apply List.ext_getElem?
      intro i
      simp only [tableIds, List.getElem?_map, Array.getElem?_toList, Array.getElem?_modify]
      split
      · rw [Option.map_map]
        rfl
      · rfl
    · cases h
  · cases h
    exact ⟨rfl, rfl⟩

/-- A property of the grid data alone is stable if listing a user never takes it away. -/
theorem stable_of_enlist {P : Draft α → Prop}
    (hgrids : ∀ d d' : Draft α, d'.breakpoints = d.breakpoints → d'.tables = d.tables →
      d'.anonymous = d.anonymous → P d → P d')
    (henlist : ∀ (d d' : Draft α) (id : BlockId) (k : BlockKind α), d.enlist id k = .ok d' →
      P d → P d') : Stable P where
  signal := fun s d hd => by
    unfold final
    rw [addSignal_run]
    by_cases h : s.varId ∈ d.varIds
    · rw [if_pos h]
      exact hd
    · rw [if_neg h]
      exact hgrids d _ rfl rfl rfl hd
  block := fun name kind d hd => by
    unfold final
    rw [addBlock_run]
    cases h : d.enlist ⟨d.blocks.size⟩ kind with
    | error e => exact hd
    | ok d₁ => exact hgrids d₁ _ rfl rfl rfl (henlist d d₁ _ kind h hd)
  input := fun id slot r d hd => by
    unfold final
    rw [bindInput_run]
    cases d.bindable id r with
    | error e => exact hd
    | ok b => exact hgrids d _ rfl rfl rfl hd
  output := fun id r d hd => by
    unfold final
    rw [bindOutput_run]
    cases d.bindable id r with
    | error e => exact hd
    | ok b =>
        dsimp only
        cases b.kind.hasOutput with
        | false => exact hd
        | true => exact hgrids d _ rfl rfl rfl hd
  normalizers := fun d _ hd => hgrids d _ rfl rfl rfl hd

/-- What adds signals and blocks registers no table. -/
theorem stable_tableIds {ids : List String} {n : Nat} :
    Stable fun d : Draft α => d.tableIds = ids ∧ d.anonymous = n := by
  apply stable_of_enlist
  · rintro d d' - htables hused ⟨hids, hn⟩
    exact ⟨by rw [tableIds, htables]; exact hids, hused.trans hn⟩
  · rintro d d' id k h ⟨hids, hn⟩
    obtain ⟨hids', hused⟩ := enlist_tableIds h
    exact ⟨hids'.trans hids, hused.trans hn⟩

end Tables

theorem breakpointsId?_of_set {i : Nat} {s : BreakpointSet α} (hs : d.breakpoints[i]? = some s) :
    ∃ set, d.breakpointsId? s.id = .ok set ∧ set.index < d.breakpoints.size := by
  obtain ⟨j, hj⟩ : ∃ j, (d.breakpoints.findIdx? fun x => x.id == s.id) = some j := findIdx_isSome hs rfl
  obtain ⟨s', hs', -⟩ := entry_of_findIdx hj
  refine ⟨⟨j⟩, ?_, (Array.getElem?_eq_some_iff.mp hs').1⟩
  rw [breakpointsId?, hj]

theorem axis_of_set (hd : d.Sound) {i : Nat} {s : BreakpointSet α} (hs : d.breakpoints[i]? = some s) :
    ∃ a, d.axis s.id = .ok a ∧ a.length = s.values.length := by
  obtain ⟨set, hset, hrange⟩ := breakpointsId?_of_set hs
  obtain ⟨t, ht, hid⟩ := breakpointsId?_ok hset
  have hsame := hd.grids.setIds i _ s t hs ht hid.symm
  rw [← hsame] at ht
  cases hs.symm.trans ht
  refine ⟨{ set, id := s.id, length := s.values.length }, ?_, rfl⟩
  exact outcome_bind_ok.mpr ⟨set, hset, outcome_bind_ok.mpr ⟨s, entry_eq_ok.mpr (hsame ▸ hs), rfl⟩⟩

/-- The names are those of breakpoint sets, with as many points as the lengths say. -/
def AxisLengths (d : Draft α) (names : List String) (lengths : List Nat) : Prop :=
  List.Forall₂ (fun name length => ∃ s ∈ d.breakpoints, s.id = name ∧ s.values.length = length) names
    lengths

theorem AxisLengths.pos (hd : d.Sound) {names : List String} {lengths : List Nat}
    (h : d.AxisLengths names lengths) : ∀ n ∈ lengths, 0 < n := by
  induction h with
  | nil => exact fun n hn => absurd hn List.not_mem_nil
  | cons hfirst hrest ih =>
      intro n hn
      rcases List.mem_cons.mp hn with rfl | hn
      · obtain ⟨s, hs, -, rfl⟩ := hfirst
        obtain ⟨i, hi⟩ := Array.getElem?_of_mem hs
        exact List.length_pos_iff.mpr (hd.grids.setValues i s hi)
      · exact ih n hn

theorem axesNamed_of_lengths (hd : d.Sound) {names : List String} {lengths : List Nat}
    (h : d.AxisLengths names lengths) :
    ∃ axes, d.axesNamed names = .ok axes ∧ axes.map Axis.length = lengths := by
  induction h with
  | nil => exact ⟨[], rfl, rfl⟩
  | cons hfirst hrest ih =>
      obtain ⟨s, hs, rfl, rfl⟩ := hfirst
      obtain ⟨i, hi⟩ := Array.getElem?_of_mem hs
      obtain ⟨a, ha, hlength⟩ := axis_of_set hd hi
      obtain ⟨axes, haxes, hlengths⟩ := ih
      refine ⟨a :: axes, ?_, by rw [List.map_cons, hlength, hlengths]⟩
      rw [axesNamed, List.mapM_cons]
      exact outcome_bind_ok.mpr ⟨a, ha, outcome_bind_ok.mpr ⟨axes, haxes, rfl⟩⟩

/-- Of a table over axes of known lengths, it is the number of values that decides, once the nodes have been
counted. -/
theorem registerTable_eq (hd : d.Sound) {id : Option String} {names : List String} {lengths : List Nat}
    (values : Array α) (hid : ¬ ∃ i ∈ id, i ∈ d.tableIds) (hne : names ≠ [])
    (hlengths : d.AxisLengths names lengths) :
    ∃ t : Table α, t.id = d.claimedId id ∧ t.axes.map Axis.id = names ∧ t.dims = lengths ∧
      t.values = values ∧ (registerTable id names values).run d =
        match nodeCount lengths with
        | .error e => .error e (d.claimed id)
        | .ok count =>
          if values.size = count then
            .ok ⟨d.tables.size⟩ { d.claimed id with tables := d.tables.push t }
          else .error (.tableShape (d.claimedId id) count values.size) (d.claimed id) := by
  obtain ⟨axes, haxes, hmap⟩ := axesNamed_of_lengths hd hlengths
  obtain ⟨hids, -⟩ := axesNamed_ok haxes
  have hsome : axes.isEmpty = false := by
    rw [List.isEmpty_eq_false_iff]
    rintro rfl
    exact hne hids.symm
  refine ⟨{ id := d.claimedId id, axes, values }, rfl, hids, hmap, rfl, ?_⟩
  rw [registerTable_run, if_neg hid, haxes, outcome_ok_bind, Table.ofValues, hsome, hmap,
    if_neg Bool.false_ne_true]
  cases (nodeCount lengths : Except (ModelError α) Nat) with
  | error e => rfl
  | ok count =>
      rw [outcome_ok_bind]
      by_cases hfits : values.size = count
      · rw [if_pos hfits]
        dsimp only
        rw [if_pos hfits]
      · rw [if_neg hfits]
        dsimp only
        rw [if_neg hfits]

theorem tableId?_of_table {i : Nat} {t : Table α} (ht : d.tables[i]? = some t) :
    ∃ table, d.tableId? t.id = .ok table ∧ table.index < d.tables.size := by
  obtain ⟨j, hj⟩ : ∃ j, (d.tables.findIdx? fun x => x.id == t.id) = some j := findIdx_isSome ht rfl
  obtain ⟨t', ht', -⟩ := entry_of_findIdx hj
  refine ⟨⟨j⟩, ?_, (Array.getElem?_eq_some_iff.mp ht').1⟩
  rw [tableId?, hj]

theorem bindVariables_adds {id : BlockId} {b : DraftBlock α} (h : d.Closed)
    (hb : d.blocks[id.index]? = some b) {ws : List String} (hws : ∀ w ∈ ws, w ∈ d.varIds) :
    ∃ d', (bindVariables id b.inputs.length ws).run d = .ok () d' ∧ d.Adds [] d' ∧
      d'.blocks[id.index]? = some { b with inputs := b.inputs ++ slots ws } := by
  induction ws generalizing d b with
  | nil => exact ⟨d, rfl, .refl h, by rw [slots, List.map_nil, List.append_nil]; exact hb⟩
  | cons w ws ih =>
      obtain ⟨d₁, hbind, hadds, -, hb₁⟩ := bindInput_adds h hb (hws w List.mem_cons_self)
      obtain ⟨d', hrun, hadds', hb'⟩ := ih hadds.closed hb₁
        fun v hv => hadds.varIds v (hws v (List.mem_cons_of_mem w hv))
      rw [List.length_append, List.length_singleton] at hrun
      refine ⟨d', run_bind_ok.mpr ⟨(), d₁, hbind, hrun⟩, hadds.trans hadds', ?_⟩
      rw [hb']
      simp only [slots, List.map_cons, List.append_assoc, List.singleton_append]

theorem addLookup_adds (h : d.Closed) {i : Nat} {t : Table α} (ht : d.tables[i]? = some t)
    (name : String) {ws : List String} {output : String} (hws : ∀ w ∈ ws, w ∈ d.varIds)
    (hout : output ∈ d.varIds) :
    ∃ id d', (addLookup name t.id ws output).run d = .ok id d' ∧ d.Adds [output] d' := by
  obtain ⟨table, htable, hrange⟩ := tableId?_of_table ht
  obtain ⟨id, d₁, n, hblock, hadds₁, -, hb₁⟩ :=
    addBlock_adds h name (k := .lookup table) hrange
  obtain ⟨d₂, hvariables, hadds₂, hb₂⟩ :=
    bindVariables_adds hadds₁.closed hb₁ fun w hw => hadds₁.varIds w (hws w hw)
  obtain ⟨d₃, houtput, hadds₃⟩ := bindOutput_adds hadds₂.closed hb₂ rfl rfl (r := .variable output)
    rfl rfl (hadds₂.varIds _ (hadds₁.varIds output hout))
  refine ⟨id, d₃, ?_, (hadds₁.trans hadds₂).trans hadds₃⟩
  refine run_bind_ok.mpr ⟨d, d, rfl, run_bind_ok.mpr ⟨table, d, run_lift_ok.mpr ⟨htable, rfl⟩, ?_⟩⟩
  refine run_bind_ok.mpr ⟨id, d₁, hblock, run_bind_ok.mpr ⟨(), d₂, hvariables, ?_⟩⟩
  exact run_bind_ok.mpr ⟨(), d₃, houtput, rfl⟩

variable [Scalar α]

/-- A normalizer under a name that is free. -/
theorem newNormalizer_adds (h : d.Closed) {set : BreakpointId} (hrange : set.index < d.breakpoints.size)
    {w v : String} (hw : w ∈ d.varIds) (hnew : v ∉ d.varIds) :
    ∃ d', (do
        let signal ← addSignal (Signal.derive v)
        let block ← addBlock s!"{v}_bp" (.normalizer set)
        bindInput block 0 (.variable w)
        bindOutput block (.signal signal)
        modify fun d => { d with normalizers := (⟨set, w⟩, v) :: d.normalizers }
        return v : Drafting α String).run d = .ok v d' ∧ d.Adds [] d' ∧ v ∈ d'.varIds := by
  obtain ⟨signal, d₁, hsignal, hadds, hsame, hin, hget⟩ := addSignal_adds h (s := Signal.derive v) hnew
  have hrange₁ : (BlockKind.normalizer set : BlockKind α).InRange d₁.breakpoints.size d₁.tables.size := by
    obtain ⟨-, -, rfl⟩ := addSignal_ok hsignal
    exact hrange
  obtain ⟨block, d₂, n, hblock, hadds₂, hsignals₂, hb₂⟩ := addBlock_adds hadds.closed s!"{v}_bp" hrange₁
  obtain ⟨d₃, hinput, hadds₃, hsignals₃, hb₃⟩ :=
    bindInput_adds hadds₂.closed hb₂ (hadds₂.varIds w (hadds.varIds w hw))
  rw [← hsignals₂, ← hsignals₃] at hget
  obtain ⟨d₄, houtput, hadds₄⟩ := bindOutput_adds hadds₃.closed hb₃ rfl rfl (r := .signal signal)
    (checkReference_ok.mpr (Array.getElem?_eq_some_iff.mp hget).1)
    (Option.map_eq_some_iff.mpr ⟨_, hget, rfl⟩) (hadds₃.varIds _ (hadds₂.varIds _ hin))
  obtain ⟨hadds₅, -⟩ := Adds.of_blocks { d₄ with normalizers := (⟨set, w⟩, v) :: d₄.normalizers }
    hadds₄.closed rfl (fun _ hv => hv) (by rintro (_ | _) v hr <;> exact hr)
  have hall := ((hadds₂.trans hadds₃).trans hadds₄).trans hadds₅
  refine ⟨_, ?_, hall.derived hadds.varIds hsame hin hnew, hall.varIds _ hin⟩
  refine run_bind_ok.mpr ⟨signal, d₁, hsignal, run_bind_ok.mpr ⟨block, d₂, hblock, ?_⟩⟩
  exact run_bind_ok.mpr ⟨(), d₃, hinput, run_bind_ok.mpr ⟨(), d₄, houtput, rfl⟩⟩

/-- A normalizer that is there is found, and another is added. -/
theorem addNormalizer_adds (h : d.Closed) (hlocated : d.Located) {i : Nat} {s : BreakpointSet α}
    (hs : d.breakpoints[i]? = some s) {w : String} (hw : w ∈ d.varIds) :
    ∃ c d', (addNormalizer s.id w).run d = .ok c d' ∧ d.Adds [] d' ∧ c ∈ d'.varIds := by
  obtain ⟨set, hset, hrange⟩ := breakpointsId?_of_set hs
  cases hlookup : d.normalizers.lookup ⟨set, w⟩ with
  | some c =>
      obtain ⟨l₁, l₂, heq, -⟩ := List.lookup_eq_some_iff.mp hlookup
      obtain ⟨⟨j, hj⟩, -⟩ := hlocated ⟨set, w⟩ c (heq ▸ List.mem_append_right _ List.mem_cons_self)
      refine ⟨c, d, ?_, .refl h, mem_varIds.mpr ⟨j, _, hj, rfl⟩⟩
      refine run_bind_ok.mpr ⟨d, d, rfl, run_bind_ok.mpr ⟨set, d, run_lift_ok.mpr ⟨hset, rfl⟩, ?_⟩⟩
      simp only [hlookup]
      rfl
  | none =>
      obtain ⟨d', hrun, hadds, hin⟩ := newNormalizer_adds h hrange hw (freshName_not_mem d.varIds _)
      refine ⟨_, d', ?_, hadds, hin⟩
      refine run_bind_ok.mpr ⟨d, d, rfl, run_bind_ok.mpr ⟨set, d, run_lift_ok.mpr ⟨hset, rfl⟩, ?_⟩⟩
      simp only [hlookup]
      exact hrun

theorem addNormalizers_adds (ps : List (Axis × String)) (h : d.Closed) (hlocated : d.Located)
    (hps : ∀ p ∈ ps, (∃ (i : Nat) (s : BreakpointSet α), d.breakpoints[i]? = some s ∧ s.id = p.1.id) ∧
      p.2 ∈ d.varIds) :
    ∃ cs d', (ps.mapM fun (p : Axis × String) =>
        match p with | (axis, input) => addNormalizer axis.id input).run d = .ok cs d' ∧
      d.Adds [] d' ∧ ∀ c ∈ cs, c ∈ d'.varIds := by
  induction ps generalizing d with
  | nil => exact ⟨[], d, rfl, .refl h, fun c hc => by cases hc⟩
  | cons p ps ih =>
      obtain ⟨⟨i, s, hs, hid⟩, hw⟩ := hps p List.mem_cons_self
      obtain ⟨c, d₁, hfirst, hadds₁, hc⟩ := addNormalizer_adds h hlocated hs hw
      rw [hid] at hfirst
      obtain ⟨hgrows, hlocated₁, -⟩ := addNormalizer_ok hfirst hlocated
      obtain ⟨cs, d₂, hrest, hadds₂, hcs⟩ := ih hadds₁.closed hlocated₁ fun q hq => by
        obtain ⟨⟨j, x, hx, hxid⟩, hqw⟩ := hps q (List.mem_cons_of_mem p hq)
        obtain ⟨x', hx', hxid', -⟩ := hgrows.sets j x hx
        exact ⟨⟨j, x', hx', hxid'.trans hxid⟩, hadds₁.varIds _ hqw⟩
      refine ⟨c :: cs, d₂, ?_, hadds₁.trans hadds₂, ?_⟩
      · rw [List.mapM_cons]
        exact run_bind_ok.mpr ⟨c, d₁, hfirst, run_bind_ok.mpr ⟨cs, d₂, hrest, rfl⟩⟩
      · intro x hx
        rcases List.mem_cons.mp hx with rfl | hx
        · exact hadds₂.varIds _ hc
        · exact hcs x hx

omit [Scalar α] in
theorem tableNamed_of_table (hd : d.Sound) {i : Nat} {t : Table α} (ht : d.tables[i]? = some t) :
    d.tableNamed t.id = .ok t := by
  obtain ⟨table, htable, hrange⟩ := tableId?_of_table ht
  obtain ⟨t', ht', hid⟩ := tableId?_ok htable
  have hsame := hd.grids.tableIds _ _ t' t ht' ht hid
  rw [hsame] at ht'
  refine outcome_bind_ok.mpr ⟨table, htable, ?_⟩
  rw [entry_eq_ok, hsame]
  exact ht

theorem addFunction_misfit (hd : d.Sound) {i : Nat} {t : Table α} (ht : d.tables[i]? = some t)
    {name output : String} {inputs : List String} (hrank : t.rank ≠ inputs.length) :
    (addFunction name t.id inputs output).run d =
      .error (.arity name "table" (.exactly t.rank) inputs.length) d := by
  refine run_bind_error.mpr (.inr ⟨d, d, rfl, run_bind_error.mpr (.inr ⟨t, d, ?_, ?_⟩)⟩)
  · exact run_lift_ok.mpr ⟨tableNamed_of_table hd ht, rfl⟩
  · rw [if_pos hrank]
    rfl

/-- The coordinates on the axes come first, then the lookup. -/
theorem addFunction_adds (h : d.Closed) (hd : d.Sound) (hlocated : d.Located) {i : Nat} {t : Table α}
    (ht : d.tables[i]? = some t) (name : String) {inputs : List String} {output : String}
    (hrank : t.rank = inputs.length) (hinputs : ∀ w ∈ inputs, w ∈ d.varIds) (hout : output ∈ d.varIds) :
    ∃ id d', (addFunction name t.id inputs output).run d = .ok id d' ∧ d.Adds [output] d' := by
  obtain ⟨cs, d₁, hcoordinates, hadds₁, hcs⟩ :=
    addNormalizers_adds (t.axes.zip inputs) h hlocated fun p hp => by
      obtain ⟨haxis, hinput⟩ := List.of_mem_zip hp
      obtain ⟨s, hs, hid, -⟩ := hd.grids.axes i t ht p.1 haxis
      exact ⟨⟨_, s, hs, hid⟩, hinputs _ hinput⟩
  obtain ⟨hgrows, -⟩ := addNormalizers_ok hcoordinates hlocated
  obtain ⟨t', ht', hid, -⟩ := hgrows.tables i t ht
  obtain ⟨id, d₂, hlookup, hadds₂⟩ :=
    addLookup_adds hadds₁.closed ht' name hcs (hadds₁.varIds _ hout)
  rw [hid] at hlookup
  refine ⟨id, d₂, run_bind_ok.mpr ⟨d, d, rfl, run_bind_ok.mpr ⟨t, d, ?_, ?_⟩⟩, hadds₁.trans hadds₂⟩
  · exact run_lift_ok.mpr ⟨tableNamed_of_table hd ht, rfl⟩
  · rw [if_neg (not_not.mpr hrank)]
    exact run_bind_ok.mpr ⟨cs, d₁, hcoordinates, hlookup⟩

end Draft

end BlockDiagram
