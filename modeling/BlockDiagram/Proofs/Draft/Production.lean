import BlockDiagram.Proofs.Draft.Growth
/-! Production: which variables the blocks of a draft compute, and from which. Normalizers are shared,
so a function may rely on blocks that an earlier one has added. -/

namespace BlockDiagram

open Call

namespace Draft

variable {α : Type}

/-- A block of the given kind computes `v` from the variables `ws`. -/
def Produces (d : Draft α) (k : BlockKind α) (ws : List String) (v : String) : Prop :=
  ∃ (i : Nat) (b : DraftBlock α) (r : Reference), d.blocks[i]? = some b ∧ b.kind = k ∧
    b.inputs = slots ws ∧ b.output = some r ∧ d.nameOf? r = some v

/-- The block in position `i` computes `v` from the variables `ws`. -/
def Puts (d : Draft α) (k : BlockKind α) (ws : List String) (v : String) (i : Nat) : Prop :=
  ∃ (b : DraftBlock α) (r : Reference),
    d.blocks[i]? = some b ∧ b.kind = k ∧ b.inputs = slots ws ∧ b.output = some r ∧ d.nameOf? r = some v

theorem Puts.produces {d : Draft α} {k : BlockKind α} {ws : List String} {v : String} {i : Nat}
    (h : d.Puts k ws v i) : d.Produces k ws v := ⟨i, h⟩

theorem Puts.grows {made : List String} {d d' : Draft α} {k : BlockKind α} {ws : List String}
    {v : String} {i : Nat} (h : d.Puts k ws v i) (hgrows : d.Grows made d') : d'.Puts k ws v i := by
  obtain ⟨b, r, hb, hkind, hinputs, hr, hname⟩ := h
  exact ⟨b, r, hgrows.blocks i b hb, hkind, hinputs, hr, hgrows.nameOf? hname⟩

theorem Produces.grows {made : List String} {d d' : Draft α} {k : BlockKind α} {ws : List String}
    {v : String} (h : d.Produces k ws v) (hgrows : d.Grows made d') : d'.Produces k ws v := by
  obtain ⟨i, hputs⟩ := h
  exact (Puts.grows hputs hgrows).produces

theorem addBlock_produces {name : String} {k : BlockKind α} {id : BlockId} {d d' : Draft α}
    (h : (addBlock name k).run d = .ok id d') (b : DraftBlock α) (ws : List String) (v : String)
    {r : Reference} (hkind : b.kind = k) (hinputs : b.inputs = slots ws) (hr : b.output = some r)
    (hname : d.nameOf? r = some v) : d.Grows [v] (d'.put id b) ∧ (d'.put id b).Produces k ws v := by
  obtain ⟨-, ⟨b₀, hb₀, -⟩, hput⟩ := addBlock_ok h
  have hgrows : d.Grows [v] (d'.put id b) := by
    refine hput [v] b fun q w hq hw => ?_
    cases hr.symm.trans hq
    cases hname.symm.trans hw
    exact List.mem_singleton_self v
  exact ⟨hgrows, id.index, b, r, put_block_self (Array.getElem?_eq_some_iff.mp hb₀).1, hkind, hinputs,
    hr, hgrows.nameOf? hname⟩

section Derived

variable [Scalar α] {made : List String} {d d' : Draft α}

/-- The variable is of the library's own making. -/
def Derived (d : Draft α) (v : String) : Prop := ∃ i : Nat, d.signals[i]? = some (Signal.derive v)

theorem Derived.grows {v : String} (h : d.Derived v) (hgrows : d.Grows made d') : d'.Derived v := by
  obtain ⟨i, hi⟩ := h
  exact ⟨i, hgrows.signals i _ hi⟩

/-- The variable `c` is the position of `w` on a breakpoint set. -/
def Locates (d : Draft α) (set : BreakpointId) (w c : String) : Prop :=
  d.Derived c ∧ d.Produces (.normalizer set) [w] c

theorem Locates.grows {set : BreakpointId} {w c : String} (h : d.Locates set w c)
    (hgrows : d.Grows made d') : d'.Locates set w c :=
  ⟨h.1.grows hgrows, h.2.grows hgrows⟩

/-- The normalizers that the draft has listed are there. -/
def Located (d : Draft α) : Prop :=
  ∀ key c, (key, c) ∈ d.normalizers → d.Locates key.breakpoints key.input c

theorem Located.grows (h : d.Located) (hgrows : d.Grows made d')
    (hsame : d'.normalizers = d.normalizers) : d'.Located := by
  intro key c hin
  rw [hsame] at hin
  exact (h key c hin).grows hgrows

/-- The variable `c` is the position of `w` on the breakpoint set with the given ID. -/
def LocatesNamed (d : Draft α) (id w c : String) : Prop :=
  ∃ set s, d.breakpoints[set.index]? = some s ∧ s.id = id ∧ d.Locates set w c

theorem LocatesNamed.grows {id w c : String} (h : d.LocatesNamed id w c) (hgrows : d.Grows made d') :
    d'.LocatesNamed id w c := by
  obtain ⟨set, s, hs, hid, hloc⟩ := h
  obtain ⟨s', hs', hid', -⟩ := hgrows.sets _ s hs
  exact ⟨set, s', hs', hid'.trans hid, hloc.grows hgrows⟩

/-- The draft `d'` has got a normalizer of `w`, with a variable `c` of its own. -/
structure AddsNormalizer (d : Draft α) (set : BreakpointId) (w c : String) (d' : Draft α) : Prop where
  fresh : c ∉ d.varIds
  grows : d.Grows [] d'
  signals : d'.signals = d.signals.push (Signal.derive c)
  blocks : ∃ b, d'.blocks = d.blocks.push b ∧ b.kind = .normalizer set ∧ b.inputs = slots [w] ∧
    b.output = some (.signal ⟨d.signals.size⟩)
  normalizers : d'.normalizers = (⟨set, w⟩, c) :: d.normalizers

namespace AddsNormalizer

variable {set : BreakpointId} {w c : String}

theorem derived (h : d.AddsNormalizer set w c d') : d'.Derived c :=
  ⟨d.signals.size, by rw [h.signals]; exact Array.getElem?_push_size⟩

theorem puts (h : d.AddsNormalizer set w c d') : d'.Puts (.normalizer set) [w] c d.blocks.size := by
  obtain ⟨b, hb, hkind, hinputs, hout⟩ := h.blocks
  refine ⟨b, _, ?_, hkind, hinputs, hout, ?_⟩
  · rw [hb]
    exact Array.getElem?_push_size
  · rw [nameOf?, h.signals, Array.getElem?_push_size]
    rfl

theorem locates (h : d.AddsNormalizer set w c d') : d'.Locates set w c := ⟨h.derived, h.puts.produces⟩

end AddsNormalizer

/-- A normalizer that is listed is found and nothing changes; else one is added. -/
theorem addNormalizer_cases {id w c : String} (h : (addNormalizer id w).run d = .ok c d') :
    ∃ set, d.breakpointsId? id = .ok set ∧
      (((⟨set, w⟩ : NormalizerKey), c) ∈ d.normalizers ∧ d' = d ∨
        (∀ v, ((⟨set, w⟩ : NormalizerKey), v) ∉ d.normalizers) ∧ d.AddsNormalizer set w c d') := by
  obtain ⟨d₀, d₀', hget, h⟩ := run_bind_ok.mp h
  cases hget
  obtain ⟨set, d₁, hset, h⟩ := run_bind_ok.mp h
  obtain ⟨hset, rfl⟩ := run_lift_ok.mp hset
  refine ⟨set, hset, ?_⟩
  dsimp only at h
  split at h
  · rename_i v hlookup
    cases h
    obtain ⟨l₁, l₂, heq, -⟩ := List.lookup_eq_some_iff.mp hlookup
    refine .inl ⟨?_, rfl⟩
    rw [heq]
    exact List.mem_append_right _ List.mem_cons_self
  · rename_i hnone
    refine .inr ⟨fun v hin => ?_, ?_⟩
    · exact absurd (List.lookup_eq_none_iff.mp hnone _ hin) (by simp)
    obtain ⟨signal, d₂, hsignal, h⟩ := run_bind_ok.mp h
    obtain ⟨block, d₃, hblock, h⟩ := run_bind_ok.mp h
    obtain ⟨u₁, d₄, hinput, h⟩ := run_bind_ok.mp h
    obtain ⟨u₂, d₅, houtput, h⟩ := run_bind_ok.mp h
    obtain ⟨u₃, d₆, hmodify, h⟩ := run_bind_ok.mp h
    cases hmodify
    cases h
    have hgrows₂ := grows_addSignal hsignal
    obtain ⟨hfresh, rfl, rfl⟩ := addSignal_ok hsignal
    have hsignals := addBlock_signals hblock
    obtain ⟨hnormalizers, ⟨b₀, hb₀, hkind, hinputs, -⟩, hput⟩ := addBlock_ok hblock
    obtain ⟨-, -, hpush⟩ := addBlock_put hblock
    obtain ⟨b₁, hb₁, rfl⟩ := bindInput_ok hinput
    cases hb₀.symm.trans hb₁
    rw [bind_next (by rw [hinputs]; rfl), hinputs] at houtput
    obtain ⟨b₂, hb₂, rfl⟩ := bindOutput_ok houtput
    rw [put_block_self (Array.getElem?_eq_some_iff.mp hb₀).1] at hb₂
    cases hb₂
    rw [put_put]
    obtain ⟨hgrows₃, -⟩ := addBlock_produces hblock { b₀ with
        inputs := [some (.variable w)], output := some (.signal ⟨d₁.signals.size⟩) }
      [w] (freshName d₁.varIds s!"{w}_x_{id}") hkind rfl rfl
      (by rw [nameOf?, Array.getElem?_push_size]; rfl)
    have hgrows := (hgrows₂.trans hgrows₃).fresh hfresh
    constructor
    · exact hfresh
    · exact ⟨hgrows.signals, hgrows.blocks, hgrows.sets, hgrows.tables, hgrows.produced⟩
    · exact hsignals
    · exact ⟨_, hpush _, hkind, rfl, rfl⟩
    · exact congrArg _ hnormalizers

theorem addNormalizer_ok {id w c : String} (h : (addNormalizer id w).run d = .ok c d')
    (hlocated : d.Located) : d.Grows [] d' ∧ d'.Located ∧ d'.LocatesNamed id w c := by
  obtain ⟨set, hset, hcases⟩ := addNormalizer_cases h
  obtain ⟨s, hs, hid⟩ := breakpointsId?_ok hset
  rcases hcases with ⟨hin, rfl⟩ | ⟨-, hadds⟩
  · exact ⟨.refl d', hlocated, set, s, hs, hid, hlocated _ c hin⟩
  · obtain ⟨s', hs', hid', -⟩ := hadds.grows.sets _ s hs
    refine ⟨hadds.grows, ?_, set, s', hs', hid'.trans hid, hadds.locates⟩
    intro key v hin
    rw [hadds.normalizers] at hin
    rcases List.mem_cons.mp hin with heq | hold
    · cases heq
      exact hadds.locates
    · exact (hlocated key v hold).grows hadds.grows

theorem addNormalizers_ok {ps : List (Axis × String)} {cs : List String}
    (h : (ps.mapM fun (p : Axis × String) =>
      match p with | (axis, input) => addNormalizer axis.id input).run d = .ok cs d')
    (hlocated : d.Located) :
    d.Grows [] d' ∧ d'.Located ∧
      List.Forall₂ (fun (p : Axis × String) c => d'.LocatesNamed p.1.id p.2 c) ps cs := by
  induction ps generalizing d cs with
  | nil =>
      cases h
      exact ⟨.refl d', hlocated, .nil⟩
  | cons p ps ih =>
      rw [List.mapM_cons] at h
      obtain ⟨c, d₁, hfirst, h⟩ := run_bind_ok.mp h
      obtain ⟨cs', d₂, hrest, h⟩ := run_bind_ok.mp h
      cases h
      obtain ⟨hgrows₁, hlocated₁, hc⟩ := addNormalizer_ok hfirst hlocated
      obtain ⟨hgrows₂, hlocated₂, hcs⟩ := ih hrest hlocated₁
      exact ⟨hgrows₁.trans hgrows₂, hlocated₂, .cons (hc.grows hgrows₂) hcs⟩

omit [Scalar α] in
/-- A lookup is one block more, which reads the coordinates and is bound to the output. -/
theorem addLookup_push {name table output : String} {cs : List String} {id : BlockId}
    (h : (addLookup name table cs output).run d = .ok id d') :
    id = ⟨d.blocks.size⟩ ∧ d.Grows [output] d' ∧ d'.normalizers = d.normalizers ∧
      d'.signals = d.signals ∧ ∃ tableId t b,
      d.tables[tableId.index]? = some t ∧ t.id = table ∧ d'.blocks = d.blocks.push b ∧
        b.kind = .lookup tableId ∧ b.inputs = slots cs ∧ b.output = some (.variable output) := by
  obtain ⟨d₀, d₀', hget, hcalls⟩ := run_bind_ok.mp h
  cases hget
  obtain ⟨tableId, d₁, hlift, hblocks⟩ := run_bind_ok.mp hcalls
  obtain ⟨htable, rfl⟩ := run_lift_ok.mp hlift
  obtain ⟨t, ht, htid⟩ := tableId?_ok htable
  obtain ⟨block, d₂, hblock, hbinds⟩ := run_bind_ok.mp hblocks
  obtain ⟨u₁, d₃, hvariables, hlast⟩ := run_bind_ok.mp hbinds
  obtain ⟨u₂, d₄, houtput, hpure⟩ := run_bind_ok.mp hlast
  cases hpure
  obtain ⟨hnormalizers, ⟨b₀, hb₀, hkind, hinputs, -⟩, hput⟩ := addBlock_ok hblock
  obtain ⟨hindex, -, hpush⟩ := addBlock_put hblock
  obtain rfl := bindVariables_ok hvariables hb₀ (by rw [hinputs]; rfl)
  obtain ⟨b₁, hb₁, rfl⟩ := bindOutput_ok houtput
  rw [put_block_self (Array.getElem?_eq_some_iff.mp hb₀).1] at hb₁
  cases hb₁
  rw [put_put]
  refine ⟨Handle.eq_mk hindex, hput [output] _ ?_, hnormalizers, (addBlock_signals hblock :), tableId, t,
    _, ht, htid, hpush _, hkind, by rw [hinputs]; rfl, rfl⟩
  rintro r v ⟨⟩ ⟨⟩
  exact List.mem_singleton_self output

omit [Scalar α] in
theorem addLookup_ok {name table output : String} {cs : List String} {id : BlockId}
    (h : (addLookup name table cs output).run d = .ok id d') :
    d.Grows [output] d' ∧ d'.normalizers = d.normalizers ∧ ∃ tableId t,
      d.tables[tableId.index]? = some t ∧ t.id = table ∧ d'.Produces (.lookup tableId) cs output := by
  obtain ⟨-, hgrows, hsame, -, tableId, t, b, ht, hid, hblocks, hkind, hinputs, hout⟩ := addLookup_push h
  refine ⟨hgrows, hsame, tableId, t, ht, hid, d.blocks.size, b, _, ?_, hkind, hinputs, hout, rfl⟩
  rw [hblocks]
  exact Array.getElem?_push_size

/-- The variable `output` is what the table gives at the positions of the inputs on its axes. -/
def Tabulates (d : Draft α) (t : Table α) (inputs : List String) (output : String) : Prop :=
  t.axes.length = inputs.length ∧ ∃ tableId t' cs, d.tables[tableId.index]? = some t' ∧
    t'.axes = t.axes ∧ t'.values = t.values ∧ d.Produces (.lookup tableId) cs output ∧
    List.Forall₂ (fun (p : Axis × String) c => d.LocatesNamed p.1.id p.2 c) (t.axes.zip inputs) cs

theorem Tabulates.grows {t : Table α} {inputs : List String} {output : String}
    (h : d.Tabulates t inputs output) (hgrows : d.Grows made d') : d'.Tabulates t inputs output := by
  obtain ⟨hlength, tableId, t', cs, ht', haxes, hvalues, hproduces, hcs⟩ := h
  obtain ⟨t'', ht'', -, haxes', hvalues'⟩ := hgrows.tables _ t' ht'
  exact ⟨hlength, tableId, t'', cs, ht'', haxes'.trans haxes, hvalues'.trans hvalues,
    hproduces.grows hgrows, forall₂_imp hcs fun _ _ _ hc => hc.grows hgrows⟩

/-- A function is made of the normalizers of its inputs on the axes of its table, then of a lookup. -/
theorem addFunction_split {name table output : String} {inputs : List String} {id : BlockId}
    (h : (addFunction name table inputs output).run d = .ok id d') :
    ∃ t cs d₁, d.tableNamed table = .ok t ∧ t.rank = inputs.length ∧
      ((t.axes.zip inputs).mapM fun (p : Axis × String) =>
        match p with | (axis, input) => addNormalizer axis.id input).run d = .ok cs d₁ ∧
      (addLookup name table cs output).run d₁ = .ok id d' := by
  obtain ⟨d₀, d₀', hget, hcalls⟩ := run_bind_ok.mp h
  cases hget
  obtain ⟨t, d₁, hlift, hrest⟩ := run_bind_ok.mp hcalls
  obtain ⟨htable, rfl⟩ := run_lift_ok.mp hlift
  dsimp only at hrest
  split at hrest
  · obtain ⟨u, d₂, hthrow, -⟩ := run_bind_ok.mp hrest
    cases hthrow
  · rename_i hrank
    obtain ⟨cs, d₂, hnormalizers, hlookup⟩ := run_bind_ok.mp hrest
    exact ⟨t, cs, d₂, htable, Decidable.not_not.mp hrank, hnormalizers, hlookup⟩

omit [Scalar α] in
theorem tableNamed_ok {id : String} {t : Table α} (h : d.tableNamed id = .ok t) :
    ∃ i : Nat, d.tables[i]? = some t ∧ t.id = id := by
  obtain ⟨tableId, hid, ht⟩ := outcome_bind_ok.mp h
  rw [entry_eq_ok] at ht
  obtain ⟨t₀, ht₀, htid⟩ := tableId?_ok hid
  cases ht.symm.trans ht₀
  exact ⟨_, ht, htid⟩

omit [Scalar α] in
/-- A table that has been registered under an ID remains the one with that ID. -/
theorem Sound.table_grown (hd' : d'.Sound) (hgrows : d.Grows made d') {i j : Nat} {t t' : Table α}
    (ht : d.tables[i]? = some t) (ht' : d'.tables[j]? = some t') (hid : t'.id = t.id) :
    t'.axes = t.axes ∧ t'.values = t.values := by
  obtain ⟨t'', ht'', hid'', haxes, hvalues⟩ := hgrows.tables i t ht
  have hsingle := hd'.grids.tableIds j i t' t'' ht' ht'' (hid.trans hid''.symm)
  cases ht'.symm.trans (hsingle ▸ ht'')
  exact ⟨haxes, hvalues⟩

theorem addFunction_ok {name table output : String} {inputs : List String} {id : BlockId}
    (h : (addFunction name table inputs output).run d = .ok id d') (hd : d.Sound)
    (hlocated : d.Located) : d.Grows [output] d' ∧ d'.Located ∧ ∃ (i : Nat) (t : Table α),
      d.tables[i]? = some t ∧ t.id = table ∧ d'.Tabulates t inputs output := by
  obtain ⟨t, cs, d₂, htable, hrank, hnormalizers, hlookup⟩ := addFunction_split h
  obtain ⟨i, ht, htid⟩ := tableNamed_ok htable
  obtain ⟨hgrows₁, hlocated₁, hcs⟩ := addNormalizers_ok hnormalizers hlocated
  obtain ⟨hgrows₂, hsame, tableId', t', ht', htid', hproduces⟩ := addLookup_ok hlookup
  have hd₂ : d₂.Sound := (keeps_mapM (fun _ => keeps_addNormalizer _ _) _).ok hd hnormalizers
  obtain ⟨haxes, hvalues⟩ := hd₂.table_grown hgrows₁ ht ht' (htid'.trans htid.symm)
  obtain ⟨t₃, ht₃, -, haxes₃, hvalues₃⟩ := hgrows₂.tables _ t' ht'
  refine ⟨hgrows₁.trans hgrows₂, hlocated₁.grows hgrows₂ hsame, i, t, ht, htid, ?_⟩
  exact ⟨hrank, tableId', t₃, cs, ht₃, haxes₃.trans haxes, hvalues₃.trans hvalues, hproduces,
    forall₂_imp hcs fun _ _ _ hc => hc.grows hgrows₂⟩

end Derived

end Draft

end BlockDiagram
