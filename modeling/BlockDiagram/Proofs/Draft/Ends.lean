import BlockDiagram.Proofs.Draft.Faults
/-! Ends: which variables of a draft have a producer, which have a consumer, and what that makes of their
signals once the draft is wired. The calls that lower a document give both to every variable they derive. -/

namespace BlockDiagram

open Call

namespace Draft

variable {α : Type} {d d' : Draft α}

/-- Some block reads the variable. -/
def Consumed (d : Draft α) (v : String) : Prop :=
  ∃ (i : Nat) (b : DraftBlock α) (r : Reference),
    d.blocks[i]? = some b ∧ some r ∈ b.inputs ∧ d.nameOf? r = some v

theorem Puts.consumed {k : BlockKind α} {ws : List String} {v w : String} {i : Nat} (h : d.Puts k ws v i)
    (hw : w ∈ ws) : d.Consumed w := by
  obtain ⟨b, r, hb, -, hinputs, -⟩ := h
  exact ⟨i, b, .variable w, hb, by rw [hinputs]; exact List.mem_map_of_mem hw, rfl⟩

theorem Puts.produced {k : BlockKind α} {ws : List String} {v : String} {i : Nat} (h : d.Puts k ws v i) :
    d.Produced v := by
  obtain ⟨b, r, hb, -, -, hr, hname⟩ := h
  exact ⟨i, b, r, hb, hr, hname⟩

section Widens

/-- All that is bound in `d` is bound in `d'`. -/
structure Widens (d d' : Draft α) : Prop where
  signals : ∀ (i : Nat) (s : Signal α), d.signals[i]? = some s → d'.signals[i]? = some s
  blocks : ∀ (i : Nat) (b : DraftBlock α), d.blocks[i]? = some b → ∃ b', d'.blocks[i]? = some b' ∧
    (∀ r, b.output = some r → b'.output = some r) ∧ ∀ r, some r ∈ b.inputs → some r ∈ b'.inputs

theorem Grows.widens {made : List String} (h : d.Grows made d') : d.Widens d' :=
  ⟨h.signals, fun i b hb => ⟨b, h.blocks i b hb, fun _ hr => hr, fun _ hr => hr⟩⟩

theorem widens_put {id : BlockId} {b b' : DraftBlock α} (hb : d.blocks[id.index]? = some b)
    (houtput : ∀ r, b.output = some r → b'.output = some r)
    (hinputs : ∀ r, some r ∈ b.inputs → some r ∈ b'.inputs) : d.Widens (d.put id b') := by
  refine ⟨fun _ _ hs => hs, fun i c hc => ?_⟩
  by_cases hi : i = id.index
  · subst hi
    cases hb.symm.trans hc
    exact ⟨b', put_block_self (Array.getElem?_eq_some_iff.mp hb).1, houtput, hinputs⟩
  · exact ⟨c, (put_block_ne hi).trans hc, fun _ hr => hr, fun _ hr => hr⟩

namespace Widens

theorem nameOf? (h : d.Widens d') {r : Reference} {v : String} (hr : d.nameOf? r = some v) :
    d'.nameOf? r = some v := by
  rcases r with id | w
  · obtain ⟨s, hs, rfl⟩ := Option.map_eq_some_iff.mp hr
    exact Option.map_eq_some_iff.mpr ⟨s, h.signals _ s hs, rfl⟩
  · exact hr

theorem produced (h : d.Widens d') {v : String} (hv : d.Produced v) : d'.Produced v := by
  obtain ⟨i, b, r, hb, hr, hname⟩ := hv
  obtain ⟨b', hb', houtput, -⟩ := h.blocks i b hb
  exact ⟨i, b', r, hb', houtput r hr, h.nameOf? hname⟩

theorem consumed (h : d.Widens d') {v : String} (hv : d.Consumed v) : d'.Consumed v := by
  obtain ⟨i, b, r, hb, hr, hname⟩ := hv
  obtain ⟨b', hb', -, hinputs⟩ := h.blocks i b hb
  exact ⟨i, b', r, hb', hinputs r hr, h.nameOf? hname⟩

end Widens

end Widens

section Backed

variable [Scalar α] {n : Nat} {us vs : List String} {v : String}

/-- The signals from position `n` on are of the library's own making. They have a producer, but for those of
`us`, and a consumer, but for those of `vs`. -/
def Backed (d : Draft α) (n : Nat) (us vs : List String) : Prop :=
  ∀ (i : Nat) (s : Signal α), n ≤ i → d.signals[i]? = some s →
    ∃ v, s = Signal.derive v ∧ (v ∈ us ∨ d.Produced v) ∧ (v ∈ vs ∨ d.Consumed v)

namespace Backed

theorem mono {us' vs' : List String} (h : d.Backed n us vs) (hus : ∀ v ∈ us, v ∈ us' ∨ d.Produced v)
    (hvs : ∀ v ∈ vs, v ∈ vs' ∨ d.Consumed v) : d.Backed n us' vs' := by
  intro i s hi hs
  obtain ⟨v, hv, hproduced, hconsumed⟩ := h i s hi hs
  exact ⟨v, hv, hproduced.elim (hus v) .inr, hconsumed.elim (hvs v) .inr⟩

/-- A variable that has got a producer is done in this respect. -/
theorem produced (h : d.Backed n (v :: us) vs) (hv : d.Produced v) : d.Backed n us vs := by
  refine h.mono (fun w hw => ?_) fun _ hw => .inl hw
  rcases List.mem_cons.mp hw with rfl | hw
  · exact .inr hv
  · exact .inl hw

/-- A variable that has got a consumer is done in this respect. -/
theorem consumed (h : d.Backed n us (v :: vs)) (hv : d.Consumed v) : d.Backed n us vs := by
  refine h.mono (fun _ hw => .inl hw) fun w hw => ?_
  rcases List.mem_cons.mp hw with rfl | hw
  · exact .inr hv
  · exact .inl hw

theorem widens (h : d.Backed n us vs) (hwidens : d.Widens d') (hsame : d'.signals = d.signals) :
    d'.Backed n us vs := by
  intro i s hi hs
  obtain ⟨v, hv, hproduced, hconsumed⟩ := h i s hi (hsame ▸ hs)
  exact ⟨v, hv, hproduced.imp_right hwidens.produced, hconsumed.imp_right hwidens.consumed⟩

/-- A variable that is derived has neither end yet. -/
theorem push (h : d.Backed n us vs) (hwidens : d.Widens d')
    (hpush : d'.signals = d.signals.push (Signal.derive v)) : d'.Backed n (v :: us) (v :: vs) := by
  intro i s hi hs
  rw [hpush, Array.getElem?_push] at hs
  split at hs
  · cases hs
    exact ⟨v, rfl, .inl List.mem_cons_self, .inl List.mem_cons_self⟩
  · obtain ⟨w, hw, hproduced, hconsumed⟩ := h i s hi hs
    exact ⟨w, hw, hproduced.imp (List.mem_cons_of_mem v) hwidens.produced,
      hconsumed.imp (List.mem_cons_of_mem v) hwidens.consumed⟩

theorem addBlock {name : String} {k : BlockKind α} {id : BlockId} (h : d.Backed n us vs)
    (hrun : (addBlock name k).run d = .ok id d') : d'.Backed n us vs := by
  obtain ⟨-, ⟨b, hb, -, -, hopen⟩, hput⟩ := addBlock_ok hrun
  have hgrows := hput [] b fun r v hr => by rw [hopen] at hr; cases hr
  rw [put_self hb] at hgrows
  exact h.widens hgrows.widens (addBlock_signals hrun)

/-- The next slot of a block is bound to a variable. -/
theorem bindNext {id : BlockId} {b : DraftBlock α} (h : d.Backed n us (v :: vs))
    (hb : d.blocks[id.index]? = some b) :
    (d.put id { b with inputs := b.inputs ++ [some (.variable v)] }).Backed n us vs := by
  have hput := put_block_self (b := { b with inputs := b.inputs ++ [some (.variable v)] })
    (Array.getElem?_eq_some_iff.mp hb).1
  have hwidens : d.Widens (d.put id { b with inputs := b.inputs ++ [some (.variable v)] }) :=
    widens_put hb (fun _ hr => hr) fun _ hr => List.mem_append_left _ hr
  exact (h.widens hwidens rfl).consumed
    ⟨_, _, .variable v, hput, List.mem_append_right _ List.mem_cons_self, rfl⟩

/-- A block that produces nothing yet is bound to a variable. -/
theorem bindOutput {id : BlockId} {b : DraftBlock α} (h : d.Backed n (v :: us) vs)
    (hb : d.blocks[id.index]? = some b) (hopen : b.output = none) :
    (d.put id { b with output := some (.variable v) }).Backed n us vs := by
  have hput := put_block_self (b := { b with output := some (Reference.variable v) })
    (Array.getElem?_eq_some_iff.mp hb).1
  have hwidens : d.Widens (d.put id { b with output := some (.variable v) }) :=
    widens_put hb (fun r hr => by rw [hopen] at hr; cases hr) fun _ hr => hr
  exact (h.widens hwidens rfl).produced ⟨_, _, .variable v, hput, rfl, rfl⟩

theorem addNormalizer {id w c : String} (h : d.Backed n us vs)
    (hrun : (addNormalizer id w).run d = .ok c d') : d'.Backed n us (c :: vs) := by
  obtain ⟨set, -, ⟨-, rfl⟩ | ⟨-, hadds⟩⟩ := addNormalizer_cases hrun
  · exact h.mono (fun _ hw => .inl hw) fun v hv => .inl (List.mem_cons_of_mem c hv)
  · exact (h.push hadds.grows.widens hadds.signals).produced hadds.puts.produced

theorem addNormalizers {ps : List (Axis × String)} {cs : List String} (h : d.Backed n us vs)
    (hrun : (ps.mapM fun (p : Axis × String) =>
      match p with | (axis, input) => Draft.addNormalizer axis.id input).run d = .ok cs d') :
    d'.Backed n us (cs ++ vs) := by
  induction ps generalizing d cs vs with
  | nil =>
      cases hrun
      exact h
  | cons p ps ih =>
      rw [List.mapM_cons] at hrun
      obtain ⟨c, d₁, hfirst, hrun⟩ := run_bind_ok.mp hrun
      obtain ⟨cs', d₂, hrest, hrun⟩ := run_bind_ok.mp hrun
      cases hrun
      refine (ih (h.addNormalizer hfirst) hrest).mono (fun _ hw => .inl hw) fun v hv => .inl ?_
      simpa [or_left_comm] using hv

/-- The lookup of a function reads what the normalizers of the function produce. -/
theorem addFunction {name table output : String} {inputs : List String} {id : BlockId}
    (h : d.Backed n us vs) (hrun : (addFunction name table inputs output).run d = .ok id d') :
    d'.Backed n us vs := by
  obtain ⟨t, cs, d₁, -, -, hnormalizers, hlookup⟩ := addFunction_split hrun
  obtain ⟨-, hgrows, -, hsignals, tableId, t', b, -, -, hpush, -, hinputs, -⟩ := addLookup_push hlookup
  refine ((h.addNormalizers hnormalizers).widens hgrows.widens hsignals).mono
    (fun _ hw => .inl hw) fun v hv => ?_
  rcases List.mem_append.mp hv with hc | hold
  · refine .inr ⟨d₁.blocks.size, b, .variable v, ?_, ?_, rfl⟩
    · rw [hpush]
      exact Array.getElem?_push_size
    · rw [hinputs]
      exact List.mem_map_of_mem hc
  · exact .inl hold

end Backed

end Backed

section Wired

variable [Scalar α] {m : Model α} {id : SignalId} {t : Signal α}

theorem Wired.mem_varIds {done : List (DraftBlock α)} (hm : d.Wired done m) {v : String} :
    v ∈ m.varIds ↔ v ∈ d.varIds := by
  rw [Model.mem_varIds, Draft.mem_varIds]
  constructor
  · rintro ⟨id, t, ht, rfl⟩
    exact ⟨id.index, _, hm.signal? ht, rfl⟩
  · rintro ⟨i, s, hs, rfl⟩
    have hs : d.signals[(⟨i⟩ : SignalId).index]? = some s := hs
    obtain ⟨t, ht, rfl⟩ := hm.exists_signal hs
    exact ⟨_, t, ht, rfl⟩

omit [Scalar α] in
/-- A reference stands for a signal just if it names the variable of the signal. -/
theorem denotes_iff_nameOf? (hd : d.Sound) {s : Signal α} (hs : d.signals[id.index]? = some s)
    {r : Reference} : d.Denotes r id ↔ d.nameOf? r = some s.varId := by
  rcases r with i | v
  · constructor
    · rintro ⟨⟩
      exact Option.map_eq_some_iff.mpr ⟨s, hs, rfl⟩
    · intro hname
      obtain ⟨x, hx, hid⟩ := Option.map_eq_some_iff.mp hname
      exact Handle.eq_mk (hd.distinct _ _ x s hx hs hid)
  · constructor
    · rintro ⟨x, hx, rfl⟩
      cases hs.symm.trans hx
      rfl
    · rintro ⟨⟩
      exact ⟨s, hs, rfl⟩

/-- A signal of the wired model has a source just if its variable has a producer in the draft. -/
theorem Wired.source_isNone_iff (hd : d.Sound) (hm : d.Wired d.blocks.toList m)
    (ht : m.signal? id = some t) : t.source = none ↔ ¬ d.Produced t.varId := by
  refine ⟨?_, hm.source_eq_none hd ht⟩
  rintro hnone ⟨i, b₀, r, hb₀, hr, hname⟩
  obtain ⟨b, hb, hres⟩ := hm.blocks i b₀ (by rw [Array.getElem?_toList]; exact hb₀)
  have houtput := hres.output
  rw [hr] at houtput
  obtain ⟨x, hx, hsome⟩ := outcome_map_ok.mp houtput
  have hid := ((resolve_eq_ok hd).mp hx).unique hd ((denotes_iff_nameOf? hd (hm.signal? ht)).mpr hname)
  have hsource := (hm.edges.source id t ht ⟨⟨i⟩, 0⟩).mpr ⟨rfl, b, hb, hid ▸ hsome.symm⟩
  rw [hnone] at hsource
  cases hsource

/-- A signal of the wired model has sinks just if its variable has a consumer in the draft. -/
theorem Wired.sinks_eq_nil_iff (hd : d.Sound) (hm : d.Wired d.blocks.toList m)
    (ht : m.signal? id = some t) : t.sinks = [] ↔ ¬ d.Consumed t.varId := by
  have hs := hm.signal? ht
  constructor
  · rintro hnil ⟨i, b₀, r, hb₀, hr, hname⟩
    obtain ⟨b, hb, hres⟩ := hm.blocks i b₀ (by rw [Array.getElem?_toList]; exact hb₀)
    obtain ⟨k, hk, hget⟩ := List.mem_iff_getElem.mp hr
    obtain ⟨hlength, hall⟩ := List.forall₂_iff_get.mp (resolveSlots_forall₂ hd hres.inputs)
    obtain ⟨r', hr', hdenotes⟩ := hall k hk (hlength ▸ hk)
    cases hget.symm.trans hr'
    have hid := hdenotes.unique hd ((denotes_iff_nameOf? hd hs).mpr hname)
    have hin := (hm.edges.sinks id t ht ⟨⟨i⟩, k⟩).mpr
      ⟨b, hb, List.getElem?_eq_some_iff.mpr ⟨hlength ▸ hk, hid⟩⟩
    rw [hnil] at hin
    cases hin
  · intro hfree
    refine List.eq_nil_iff_forall_not_mem.mpr fun e he => hfree ?_
    obtain ⟨b, hb, hin⟩ := (hm.edges.sinks id t ht e).mp he
    obtain ⟨b₀, hb₀, hres⟩ := hm.block? hb
    obtain ⟨x, hx, r, rfl, hdenotes⟩ :=
      forall₂_exists (resolveSlots_forall₂ hd hres.inputs).flip id (List.mem_of_getElem? hin)
    exact ⟨_, b₀, r, by rwa [Array.getElem?_toList] at hb₀, hx,
      (denotes_iff_nameOf? hd hs).mp hdenotes⟩

end Wired

end Draft

end BlockDiagram
