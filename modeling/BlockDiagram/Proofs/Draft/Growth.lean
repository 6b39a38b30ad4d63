import BlockDiagram.Proofs.Draft.Reachable
/-! Growth: successful calls add to a draft and leave what it has, but for the one block whose slots
are being bound. -/

namespace BlockDiagram

open Call

namespace Draft

variable {α : Type}

/-- The variable a reference stands for. -/
def nameOf? (d : Draft α) : Reference → Option String
  | .variable v => some v
  | .signal id => d.signals[id.index]?.map Signal.varId

/-- The variable a block produces. -/
def outputName? (d : Draft α) (b : DraftBlock α) : Option String := b.output.bind d.nameOf?

/-- Some block has been made the producer of the variable. -/
def Produced (d : Draft α) (v : String) : Prop :=
  ∃ (i : Nat) (b : DraftBlock α) (r : Reference),
    d.blocks[i]? = some b ∧ b.output = some r ∧ d.nameOf? r = some v

/-- The draft with another block in a position. -/
def put (d : Draft α) (id : BlockId) (b : DraftBlock α) : Draft α :=
  { d with blocks := d.blocks.setIfInBounds id.index b }

/-- All that `d` has is in `d'`, but for the lists of users. Of the variables of `d` none but those in
`made` have got a producer. -/
structure Grows (made : List String) (d d' : Draft α) : Prop where
  signals : ∀ (i : Nat) (s : Signal α), d.signals[i]? = some s → d'.signals[i]? = some s
  blocks : ∀ (i : Nat) (b : DraftBlock α), d.blocks[i]? = some b → d'.blocks[i]? = some b
  sets : ∀ (i : Nat) (s : BreakpointSet α), d.breakpoints[i]? = some s →
    ∃ s', d'.breakpoints[i]? = some s' ∧ s'.id = s.id ∧ s'.values = s.values
  tables : ∀ (i : Nat) (t : Table α), d.tables[i]? = some t →
    ∃ t', d'.tables[i]? = some t' ∧ t'.id = t.id ∧ t'.axes = t.axes ∧ t'.values = t.values
  produced : ∀ v ∈ d.varIds, d'.Produced v → v ∈ made ∨ d.Produced v

theorem put_put {d : Draft α} {id : BlockId} {b c : DraftBlock α} :
    (d.put id b).put id c = d.put id c := by
  simp only [put, Array.setIfInBounds_setIfInBounds]

theorem put_block_self {d : Draft α} {id : BlockId} {b : DraftBlock α} (h : id.index < d.blocks.size) :
    (d.put id b).blocks[id.index]? = some b := by
  rw [put, Array.getElem?_setIfInBounds, if_pos rfl, if_pos h]

theorem put_block_ne {d : Draft α} {id : BlockId} {b : DraftBlock α} {i : Nat} (h : i ≠ id.index) :
    (d.put id b).blocks[i]? = d.blocks[i]? := by
  rw [put, Array.getElem?_setIfInBounds, if_neg (Ne.symm h)]

theorem put_self {d : Draft α} {id : BlockId} {b : DraftBlock α} (h : d.blocks[id.index]? = some b) :
    d.put id b = d := by
  have hsame : d.blocks.setIfInBounds id.index b = d.blocks := by
    apply Array.ext_getElem?
    intro i
    rw [Array.getElem?_setIfInBounds]
    split
    · rename_i hi
      rw [if_pos (Array.getElem?_eq_some_iff.mp h).1, ← hi, h]
    · rfl
  rw [put, hsame]

theorem put_nameOf? {d : Draft α} {id : BlockId} {b : DraftBlock α} (r : Reference) :
    (d.put id b).nameOf? r = d.nameOf? r := by
  cases r <;> rfl

namespace Grows

variable {made made' : List String} {d d' d'' : Draft α}

theorem refl (d : Draft α) : d.Grows [] d where
  signals := fun _ _ hs => hs
  blocks := fun _ _ hb => hb
  sets := fun _ s hs => ⟨s, hs, rfl, rfl⟩
  tables := fun _ t ht => ⟨t, ht, rfl, rfl, rfl⟩
  produced := fun _ _ hv => .inr hv

theorem varIds (h : d.Grows made d') {v : String} (hv : v ∈ d.varIds) : v ∈ d'.varIds := by
  obtain ⟨i, s, hs, rfl⟩ := mem_varIds.mp hv
  exact mem_varIds.mpr ⟨i, s, h.signals i s hs, rfl⟩

theorem nameOf? (h : d.Grows made d') {r : Reference} {v : String} (hr : d.nameOf? r = some v) :
    d'.nameOf? r = some v := by
  rcases r with id | w
  · obtain ⟨s, hs, rfl⟩ := Option.map_eq_some_iff.mp hr
    exact Option.map_eq_some_iff.mpr ⟨s, h.signals _ s hs, rfl⟩
  · exact hr

theorem trans (h : d.Grows made d') (h' : d'.Grows made' d'') : d.Grows (made ++ made') d'' := by
  constructor
  · exact fun i s hs => h'.signals i s (h.signals i s hs)
  · exact fun i b hb => h'.blocks i b (h.blocks i b hb)
  · intro i s hs
    obtain ⟨s', hs', hid, hvalues⟩ := h.sets i s hs
    obtain ⟨s'', hs'', hid', hvalues'⟩ := h'.sets i s' hs'
    exact ⟨s'', hs'', hid'.trans hid, hvalues'.trans hvalues⟩
  · intro i t ht
    obtain ⟨t', ht', hid, haxes, hvalues⟩ := h.tables i t ht
    obtain ⟨t'', ht'', hid', haxes', hvalues'⟩ := h'.tables i t' ht'
    exact ⟨t'', ht'', hid'.trans hid, haxes'.trans haxes, hvalues'.trans hvalues⟩
  · intro v hv hproduced
    rw [List.mem_append]
    rcases h'.produced v (h.varIds hv) hproduced with hmade | hold
    · exact .inl (.inr hmade)
    · rcases h.produced v hv hold with hmade | hold
      · exact .inl (.inl hmade)
      · exact .inr hold

theorem mono (h : d.Grows made d') (hmade : ∀ v ∈ made, v ∈ d.varIds → v ∈ made') :
    d.Grows made' d' :=
  { h with produced := fun v hv hproduced => (h.produced v hv hproduced).imp_left (hmade v · hv) }

/-- A variable of the library's own making does not count among the variables of before. -/
theorem fresh {v : String} (h : d.Grows [v] d') (hv : v ∉ d.varIds) : d.Grows [] d' := by
  refine h.mono fun w hw hin => ?_
  rw [List.mem_singleton.mp hw] at hin
  exact absurd hin hv

/-- Growth leaves room for a change to a block that was there before and produces nothing yet. -/
theorem put (h : d.Grows made d') {id : BlockId} {b b₀ : DraftBlock α}
    (hb₀ : d.blocks[id.index]? = some b₀) (hopen : b₀.output = none)
    (hout : ∀ s, b.output ≠ some (.signal s)) : (d.put id b).Grows made (d'.put id b) := by
  have hid := (Array.getElem?_eq_some_iff.mp hb₀).1
  have hid' := (Array.getElem?_eq_some_iff.mp (h.blocks _ _ hb₀)).1
  refine ⟨h.signals, ?_, h.sets, h.tables, ?_⟩
  · intro i c hc
    by_cases hi : i = id.index
    · subst hi
      rw [put_block_self hid] at hc
      rw [put_block_self hid']
      exact hc
    · rw [put_block_ne hi] at hc ⊢
      exact h.blocks i c hc
  · rintro v hv ⟨i, c, r, hc, hr, hname⟩
    rw [put_nameOf?] at hname
    by_cases hi : i = id.index
    · subst hi
      rw [put_block_self hid'] at hc
      cases hc
      rcases r with s | w
      · exact absurd hr (hout s)
      · exact .inr ⟨_, b, _, put_block_self hid, hr, hname⟩
    · rw [put_block_ne hi] at hc
      refine (h.produced v hv ⟨i, c, r, hc, hr, hname⟩).imp_right ?_
      rintro ⟨j, e, q, he, hq, hqname⟩
      have hj : j ≠ id.index := by
        rintro rfl
        cases hb₀.symm.trans he
        rw [hopen] at hq
        cases hq
      exact ⟨j, e, q, by rw [put_block_ne hj]; exact he, hq, by rw [put_nameOf?]; exact hqname⟩

end Grows

section Calls

variable {d d' : Draft α}

theorem addSignal_ok {s : Signal α} {id : SignalId} (h : (addSignal s).run d = .ok id d') :
    s.varId ∉ d.varIds ∧ id = ⟨d.signals.size⟩ ∧
      d' = { d with signals := d.signals.push s.unwired } := by
  rw [addSignal_run] at h
  split at h
  · cases h
  · cases h
    exact ⟨‹_›, rfl, rfl⟩

theorem grows_addSignal {s : Signal α} {id : SignalId} (h : (addSignal s).run d = .ok id d') :
    d.Grows [] d' := by
  obtain ⟨hfresh, -, rfl⟩ := addSignal_ok h
  have hsignals : ∀ (i : Nat) (x : Signal α), d.signals[i]? = some x →
      (d.signals.push s.unwired)[i]? = some x := by
    intro i x hx
    rw [Array.getElem?_push, if_neg (Nat.ne_of_lt (Array.getElem?_eq_some_iff.mp hx).1)]
    exact hx
  refine { Grows.refl d with signals := hsignals, produced := ?_ }
  rintro v hv ⟨i, b, r, hb, hr, hname⟩
  refine .inr ⟨i, b, r, hb, hr, ?_⟩
  rcases r with j | w
  · obtain ⟨x, hx, rfl⟩ := Option.map_eq_some_iff.mp hname
    change (d.signals.push s.unwired)[j.index]? = some x at hx
    rw [Array.getElem?_push] at hx
    split at hx
    · cases hx
      exact absurd hv hfresh
    · exact Option.map_eq_some_iff.mpr ⟨x, hx, rfl⟩
  · exact hname

theorem enlist_ok {id : BlockId} {k : BlockKind α} (h : d.enlist id k = .ok d') :
    d'.signals = d.signals ∧ d'.blocks = d.blocks ∧ d'.normalizers = d.normalizers ∧
      (∀ (i : Nat) (s : BreakpointSet α), d.breakpoints[i]? = some s →
        ∃ s', d'.breakpoints[i]? = some s' ∧ s'.id = s.id ∧ s'.values = s.values) ∧
      ∀ (i : Nat) (t : Table α), d.tables[i]? = some t →
        ∃ t', d'.tables[i]? = some t' ∧ t'.id = t.id ∧ t'.axes = t.axes ∧ t'.values = t.values := by
  unfold enlist at h
  split at h
  · split at h
    · cases h
      refine ⟨rfl, rfl, rfl, ?_, fun i t ht => ⟨t, ht, rfl, rfl, rfl⟩⟩
      intro i s hs
      rw [Array.getElem?_modify, hs]
      split
      · exact ⟨_, rfl, rfl, rfl⟩
      · exact ⟨s, rfl, rfl, rfl⟩
    · cases h
  · split at h
    · cases h
      refine ⟨rfl, rfl, rfl, fun i s hs => ⟨s, hs, rfl, rfl⟩, ?_⟩
      intro i t ht
      rw [Array.getElem?_modify, ht]
      split
      · exact ⟨_, rfl, rfl, rfl, rfl⟩
      · exact ⟨t, rfl, rfl, rfl, rfl⟩
    · cases h
  · cases h
    exact ⟨rfl, rfl, rfl, fun i s hs => ⟨s, hs, rfl, rfl⟩, fun i t ht => ⟨t, ht, rfl, rfl, rfl⟩⟩

/-- A new block is bound to nothing. Whatever it is bound to later, the draft has only grown. -/
theorem addBlock_ok {name : String} {k : BlockKind α} {id : BlockId}
    (h : (addBlock name k).run d = .ok id d') :
    d'.normalizers = d.normalizers ∧
      (∃ b₀, d'.blocks[id.index]? = some b₀ ∧ b₀.kind = k ∧ b₀.inputs = [] ∧ b₀.output = none) ∧
      ∀ made (b : DraftBlock α), (∀ r v, b.output = some r → d.nameOf? r = some v → v ∈ made) →
        d.Grows made (d'.put id b) := by
  rw [addBlock_run] at h
  split at h
  · cases h
  · rename_i d₁ henlist
    cases h
    obtain ⟨hsignals, hblocks, hnormalizers, hsets, htables⟩ := enlist_ok henlist
    have hlast : ∀ b : DraftBlock α, (d₁.blocks.push b)[d.blocks.size]? = some b := by
      intro b
      rw [← hblocks]
      exact Array.getElem?_push_size
    refine ⟨hnormalizers, ⟨_, hlast _, rfl, rfl, rfl⟩, ?_⟩
    intro made b hmade
    have hblock : ∀ (i : Nat) (c : DraftBlock α),
        ((d₁.blocks.push { name := freshName d₁.blockNames name, kind := k }).setIfInBounds
          d.blocks.size b)[i]? = some c ↔ d.blocks[i]? = some c ∨ i = d.blocks.size ∧ c = b := by
      intro i c
      rw [Array.getElem?_setIfInBounds, Array.getElem?_push, Array.size_push, hblocks]
      by_cases hi : d.blocks.size = i
      · subst hi
        simp [eq_comm]
      · simp [hi, Ne.symm hi]
    constructor
    · intro i s hs
      change d₁.signals[i]? = some s
      rw [hsignals]
      exact hs
    · exact fun i c hc => (hblock i c).mpr (.inl hc)
    · exact hsets
    · exact htables
    · rintro v hv ⟨i, c, r, hc, hr, hname⟩
      have hname₀ : d.nameOf? r = some v := by
        rcases r with j | w
        · change (d₁.signals[j.index]?).map Signal.varId = some v at hname
          rw [hsignals] at hname
          exact hname
        · exact hname
      rcases (hblock i c).mp hc with hold | ⟨-, hnew⟩
      · exact .inr ⟨i, c, r, hold, hr, hname₀⟩
      · exact .inl (hmade r v (hnew ▸ hr) hname₀)

theorem addBlock_signals {name : String} {k : BlockKind α} {id : BlockId}
    (h : (addBlock name k).run d = .ok id d') : d'.signals = d.signals := by
  rw [addBlock_run] at h
  split at h
  · cases h
  · rename_i d₁ henlist
    cases h
    exact (enlist_ok henlist).1

theorem addBlock_put {name : String} {k : BlockKind α} {id : BlockId}
    (h : (addBlock name k).run d = .ok id d') :
    id.index = d.blocks.size ∧ d'.blocks.size = d.blocks.size + 1 ∧
      ∀ b, (d'.put id b).blocks = d.blocks.push b := by
  rw [addBlock_run] at h
  split at h
  · cases h
  · rename_i d₁ henlist
    cases h
    obtain ⟨-, hblocks, -⟩ := enlist_ok henlist
    refine ⟨rfl, by simp [hblocks], fun b => ?_⟩
    apply Array.ext_getElem?
    intro i
    simp only [put, hblocks, Array.getElem?_setIfInBounds, Array.getElem?_push, Array.size_push]
    by_cases hi : d.blocks.size = i
    · simp [hi]
    · simp [hi, Ne.symm hi]

theorem bindInput_ok {id : BlockId} {slot : Nat} {r : Reference} {u : Unit}
    (h : (bindInput id slot r).run d = .ok u d') :
    ∃ b, d.blocks[id.index]? = some b ∧ d' = d.put id (b.bind slot r) := by
  rw [bindInput_run] at h
  split at h
  · cases h
  · rename_i b hb
    cases h
    exact ⟨b, (bindable_ok.mp hb).2, rfl⟩

theorem bindOutput_ok {id : BlockId} {r : Reference} {u : Unit}
    (h : (bindOutput id r).run d = .ok u d') :
    ∃ b, d.blocks[id.index]? = some b ∧ d' = d.put id { b with output := some r } := by
  rw [bindOutput_run] at h
  split at h
  · cases h
  · rename_i b hb
    split at h
    · cases h
      exact ⟨b, (bindable_ok.mp hb).2, rfl⟩
    · cases h

theorem bind_next {b : DraftBlock α} {slot : Nat} {r : Reference} (h : b.inputs.length = slot) :
    b.bind slot r = { b with inputs := b.inputs ++ [some r] } := by
  subst h
  rw [DraftBlock.bind, Nat.add_sub_cancel_left, List.replicate_one, List.set_append_right]
  · rw [Nat.sub_self, List.set_cons_zero]
  · exact Nat.le_refl _

/-- The slots that read the given variables. -/
def slots (vs : List String) : List (Option Reference) := vs.map fun v => some (.variable v)

theorem bindVariables_ok {id : BlockId} {slot : Nat} {vs : List String} {u : Unit} {b : DraftBlock α}
    (h : (bindVariables id slot vs).run d = .ok u d') (hb : d.blocks[id.index]? = some b)
    (hslot : b.inputs.length = slot) :
    d' = d.put id { b with inputs := b.inputs ++ slots vs } := by
  induction vs generalizing d slot b with
  | nil =>
      cases h
      rw [slots, List.map_nil, List.append_nil, put_self hb]
  | cons v vs ih =>
      obtain ⟨u₁, d₁, hfirst, hrest⟩ := run_bind_ok.mp h
      obtain ⟨b', hb', rfl⟩ := bindInput_ok hfirst
      cases hb.symm.trans hb'
      rw [bind_next hslot] at hrest
      rw [ih hrest (put_block_self (Array.getElem?_eq_some_iff.mp hb).1)
        (by rw [List.length_append, List.length_singleton, hslot]), put_put]
      simp only [slots, List.map_cons, List.append_assoc, List.singleton_append]

theorem registerTable_ok {id : Option String} {axes : List String} {values : Array α} {table : TableId}
    (h : (registerTable id axes values).run d = .ok table d') :
    d.Grows [] d' ∧ d'.normalizers = d.normalizers ∧ d'.blocks = d.blocks ∧
      ∃ t, d'.tables[table.index]? = some t ∧ (∀ i ∈ id, t.id = i) ∧ t.axes.map Axis.id = axes ∧
        t.values = values := by
  rw [registerTable_run] at h
  split at h
  · cases h
  · split at h
    · cases h
    · rename_i t ht
      cases h
      obtain ⟨as, has, ht⟩ := outcome_bind_ok.mp ht
      have hclaimed : (d.claimed id).signals = d.signals ∧ (d.claimed id).blocks = d.blocks ∧
          (d.claimed id).breakpoints = d.breakpoints ∧
          (d.claimed id).normalizers = d.normalizers := by
        cases id <;> exact ⟨rfl, rfl, rfl, rfl⟩
      obtain ⟨hsignals, hblocks, hsets, hnormalizers⟩ := hclaimed
      refine ⟨⟨?_, ?_, ?_, ?_, ?_⟩, hnormalizers, hblocks, t, Array.getElem?_push_size, ?_, ?_⟩
      · intro i s hs
        change (d.claimed id).signals[i]? = some s
        rw [hsignals]
        exact hs
      · intro i b hb
        change (d.claimed id).blocks[i]? = some b
        rw [hblocks]
        exact hb
      · intro i s hs
        refine ⟨s, ?_, rfl, rfl⟩
        change (d.claimed id).breakpoints[i]? = some s
        rw [hsets]
        exact hs
      · intro i x hx
        refine ⟨x, ?_, rfl, rfl, rfl⟩
        rw [Array.getElem?_push, if_neg (Nat.ne_of_lt (Array.getElem?_eq_some_iff.mp hx).1)]
        exact hx
      · rintro v hv ⟨i, b, r, hb, hr, hname⟩
        change (d.claimed id).blocks[i]? = some b at hb
        rw [hblocks] at hb
        refine .inr ⟨i, b, r, hb, hr, ?_⟩
        rcases r with j | w
        · change ((d.claimed id).signals[j.index]?).map Signal.varId = some v at hname
          rw [hsignals] at hname
          exact hname
        · exact hname
      · rintro i ⟨⟩
        exact (Table.ofValues_ok ht).1
      · obtain ⟨-, haxes, hvalues, -⟩ := Table.ofValues_ok ht
        exact ⟨haxes ▸ (axesNamed_ok has).1, hvalues⟩

theorem registerBreakpoints_ok [Arithmetic α] {id : String} {values : List α} {set : BreakpointId}
    (h : (registerBreakpoints id values).run d = .ok set d') :
    d.Grows [] d' ∧ d'.normalizers = d.normalizers ∧ d'.blocks = d.blocks ∧
      ∃ s, d'.breakpoints[set.index]? = some s ∧ s.id = id ∧ s.values = values := by
  rw [registerBreakpoints_run] at h
  split at h
  · cases h
  · split at h
    · cases h
    · rename_i s hs
      cases h
      obtain ⟨hid, hvalues, -⟩ := BreakpointSet.ofValues_ok hs
      refine ⟨{ Grows.refl d with sets := ?_ }, rfl, rfl, s, Array.getElem?_push_size, hid, hvalues⟩
      intro i x hx
      refine ⟨x, ?_, rfl, rfl⟩
      rw [Array.getElem?_push, if_neg (Nat.ne_of_lt (Array.getElem?_eq_some_iff.mp hx).1)]
      exact hx

end Calls

end Draft

end BlockDiagram
