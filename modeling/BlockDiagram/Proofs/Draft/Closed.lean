import BlockDiagram.Proofs.Draft.Production
import Mathlib.Data.List.Nodup
import Mathlib.Data.List.Perm.Basic
/-! Closed drafts: every slot is bound, and to a declared variable. Calls on a closed draft that name
what there is succeed and leave it closed, and what they make produced is accounted for: each variable
of the library's own making once, any other as often as asked for. -/

namespace BlockDiagram

open Call

namespace Draft

variable {α : Type} {d d' d'' d₁ d₂ : Draft α}

/-- The reference stands for a declared variable. -/
def Resolves (d : Draft α) (r : Reference) : Prop := ∃ v ∈ d.varIds, d.nameOf? r = some v

structure Closed (d : Draft α) : Prop where
  inputs : ∀ (i : Nat) (b : DraftBlock α), d.blocks[i]? = some b →
    ∀ slot ∈ b.inputs, ∃ r, slot = some r ∧ d.Resolves r
  outputs : ∀ (i : Nat) (b : DraftBlock α), d.blocks[i]? = some b →
    ∀ r, b.output = some r → d.Resolves r

/-- The variables that blocks produce, with an entry for each block. -/
def outputNames (d : Draft α) : List String :=
  d.blocks.toList.filterMap d.outputName?

/-- Successful calls lead from `d` to the closed draft `d'`. The variables in `made` have got a producer
each, and so has any new variable that has got one at all. -/
structure Adds (made : List String) (d d' : Draft α) : Prop where
  closed : d'.Closed
  varIds : ∀ v ∈ d.varIds, v ∈ d'.varIds
  outputs : ∃ fresh : List String, fresh.Nodup ∧ (∀ v ∈ fresh, v ∈ d'.varIds ∧ v ∉ d.varIds) ∧
    d'.outputNames.Perm (fresh ++ made ++ d.outputNames)

namespace Adds

variable {made made' : List String} {v : String}

theorem refl (h : d.Closed) : d.Adds [] d :=
  ⟨h, fun _ hv => hv, [], List.nodup_nil, fun _ hv => (by cases hv), .refl _⟩

theorem trans (h : d.Adds made d') (h' : d'.Adds made' d'') : d.Adds (made ++ made') d'' := by
  obtain ⟨fresh, hnodup, hfresh, houtputs⟩ := h.outputs
  obtain ⟨fresh', hnodup', hfresh', houtputs'⟩ := h'.outputs
  refine ⟨h'.closed, fun v hv => h'.varIds v (h.varIds v hv), fresh ++ fresh', ?_, ?_, ?_⟩
  · refine List.nodup_append.mpr ⟨hnodup, hnodup', ?_⟩
    rintro v hv _ hv' rfl
    exact (hfresh' v hv').2 (hfresh v hv).1
  · intro v hv
    rcases List.mem_append.mp hv with hv | hv
    · exact ⟨h'.varIds v (hfresh v hv).1, (hfresh v hv).2⟩
    · exact ⟨(hfresh' v hv).1, fun hin => (hfresh' v hv).2 (h.varIds v hin)⟩
  · rw [List.perm_iff_count] at houtputs houtputs' ⊢
    intro v
    rw [houtputs' v]
    simp only [List.count_append, houtputs v]
    omega

/-- A variable that has just been declared counts as one of the library's own making. -/
theorem derived (hvars : ∀ w ∈ d.varIds, w ∈ d₁.varIds) (houtputs : d₁.outputNames = d.outputNames)
    (hin : v ∈ d₁.varIds) (hnew : v ∉ d.varIds) (h : d₁.Adds [v] d₂) : d.Adds [] d₂ := by
  obtain ⟨fresh, hnodup, hfresh, hperm⟩ := h.outputs
  refine ⟨h.closed, fun w hw => h.varIds w (hvars w hw), v :: fresh, ?_, ?_, ?_⟩
  · exact List.nodup_cons.mpr ⟨fun hv => (hfresh v hv).2 hin, hnodup⟩
  · intro w hw
    rcases List.mem_cons.mp hw with rfl | hw
    · exact ⟨h.varIds w hin, hnew⟩
    · exact ⟨(hfresh w hw).1, fun hold => (hfresh w hw).2 (hvars w hold)⟩
  · rw [houtputs] at hperm
    refine hperm.trans ?_
    simp only [List.append_assoc, List.cons_append, List.nil_append, List.append_nil]
    exact List.perm_middle

/-- Where nothing was produced before, a variable is produced twice just if it was made so twice. -/
theorem one_lt_count (h : d.Adds made d') (hnone : d.outputNames = [])
    (hmade : ∀ w ∈ made, w ∈ d.varIds) : 1 < d'.outputNames.count v ↔ 1 < made.count v := by
  obtain ⟨fresh, hnodup, hfresh, hperm⟩ := h.outputs
  have hcount := hperm.count_eq v
  rw [hnone, List.append_nil, List.count_append] at hcount
  have hle := List.nodup_iff_count_le_one.mp hnodup v
  have hapart : 0 < made.count v → fresh.count v = 0 := by
    intro hpos
    refine List.count_eq_zero.mpr fun hv => (hfresh v hv).2 ?_
    exact hmade v (List.count_pos_iff.mp hpos)
  omega

end Adds

/-- Nothing a block is bound to depends on more than the names of the signals. -/
theorem Adds.of_blocks (d' : Draft α) (h : d.Closed) (hblocks : d'.blocks = d.blocks)
    (hvars : ∀ v ∈ d.varIds, v ∈ d'.varIds)
    (hnames : ∀ r v, d.nameOf? r = some v → d'.nameOf? r = some v) :
    d.Adds [] d' ∧ d'.outputNames = d.outputNames := by
  have hresolves : ∀ r, d.Resolves r → d'.Resolves r := by
    rintro r ⟨v, hv, hr⟩
    exact ⟨v, hvars v hv, hnames r v hr⟩
  have houtputs : d'.outputNames = d.outputNames := by
    rw [outputNames, outputNames, hblocks]
    refine List.filterMap_congr fun b hb => ?_
    rw [outputName?, outputName?]
    cases hr : b.output with
    | none => rfl
    | some r =>
        obtain ⟨i, hi⟩ := List.mem_iff_getElem?.mp hb
        rw [Array.getElem?_toList] at hi
        obtain ⟨v, -, hname⟩ := h.outputs i b hi r hr
        rw [Option.bind_some, Option.bind_some, hname, hnames r v hname]
  refine ⟨⟨⟨?_, ?_⟩, hvars, [], List.nodup_nil, fun _ hv => (by cases hv), ?_⟩, houtputs⟩
  · intro i b hb slot hslot
    rw [hblocks] at hb
    obtain ⟨r, hr, hres⟩ := h.inputs i b hb slot hslot
    exact ⟨r, hr, hresolves r hres⟩
  · intro i b hb r hr
    rw [hblocks] at hb
    exact hresolves r (h.outputs i b hb r hr)
  · rw [houtputs]
    exact .refl _

section Put

variable {id : BlockId} {b c : DraftBlock α}

theorem Closed.put (h : d.Closed) (hb : d.blocks[id.index]? = some b)
    (hinputs : ∀ slot ∈ c.inputs, ∃ r, slot = some r ∧ d.Resolves r)
    (houtput : ∀ r, c.output = some r → d.Resolves r) : (d.put id c).Closed := by
  have hid := (Array.getElem?_eq_some_iff.mp hb).1
  have hresolves : ∀ r, d.Resolves r → (d.put id c).Resolves r := by
    rintro r ⟨v, hv, hr⟩
    exact ⟨v, hv, by rw [put_nameOf?]; exact hr⟩
  have hentry : ∀ (i : Nat) (x : DraftBlock α), (d.put id c).blocks[i]? = some x →
      x = c ∨ d.blocks[i]? = some x := by
    intro i x hx
    by_cases hi : i = id.index
    · subst hi
      rw [put_block_self hid] at hx
      exact .inl (Option.some.inj hx).symm
    · rw [put_block_ne hi] at hx
      exact .inr hx
  constructor
  · intro i x hx slot hslot
    obtain ⟨r, hr, hres⟩ : ∃ r, slot = some r ∧ d.Resolves r := by
      rcases hentry i x hx with rfl | hx
      · exact hinputs slot hslot
      · exact h.inputs i x hx slot hslot
    exact ⟨r, hr, hresolves r hres⟩
  · intro i x hx r hr
    rcases hentry i x hx with rfl | hx
    · exact hresolves r (houtput r hr)
    · exact hresolves r (h.outputs i x hx r hr)

/-- What another block in a position does to what is produced. -/
theorem put_outputNames (hb : d.blocks[id.index]? = some b) : ∃ rest,
    d.outputNames.Perm ((d.outputName? b).toList ++ rest) ∧
      (d.put id c).outputNames.Perm ((d.outputName? c).toList ++ rest) := by
  rw [← Array.getElem?_toList] at hb
  obtain ⟨hid, hget⟩ := List.getElem?_eq_some_iff.mp hb
  generalize hpre : d.blocks.toList.take id.index = pre
  generalize hpost : d.blocks.toList.drop (id.index + 1) = post
  have hset : ∀ x, d.blocks.toList.set id.index x = pre ++ x :: post := by
    intro x
    rw [List.set_eq_take_append_cons_drop, if_pos hid, hpre, hpost]
  have hsplit : d.blocks.toList = pre ++ b :: post := by
    rw [← hset, ← hget, List.set_getElem_self]
  have hput : (d.put id c).blocks.toList = pre ++ c :: post := by
    rw [put, Array.toList_setIfInBounds, hset]
  have hnames : (d.put id c).outputName? = d.outputName? := by
    funext x
    rw [outputName?, outputName?, funext put_nameOf?]
  have hone : ∀ x : DraftBlock α, ((pre ++ x :: post).filterMap d.outputName?).Perm
      ((d.outputName? x).toList ++ (pre ++ post).filterMap d.outputName?) := by
    intro x
    refine (List.perm_middle.filterMap _).trans ?_
    rw [List.filterMap_cons]
    cases d.outputName? x with
    | none => exact .refl _
    | some v => exact .refl _
  refine ⟨(pre ++ post).filterMap d.outputName?, ?_, ?_⟩
  · rw [outputNames, hsplit]
    exact hone b
  · rw [outputNames, hput, hnames]
    exact hone c

end Put

section Calls

variable {id : BlockId} {b : DraftBlock α} {w : String}

theorem addSignal_adds (h : d.Closed) {s : Signal α} (hs : s.varId ∉ d.varIds) :
    ∃ id d₁, (addSignal s).run d = .ok id d₁ ∧ d.Adds [] d₁ ∧ d₁.outputNames = d.outputNames ∧
      s.varId ∈ d₁.varIds ∧ d₁.signals[id.index]? = some s.unwired := by
  obtain ⟨id, d₁, hrun⟩ : ∃ id d₁, (addSignal s).run d = .ok id d₁ := by
    rw [addSignal_run, if_neg hs]
    exact ⟨_, _, rfl⟩
  have hgrows := grows_addSignal hrun
  obtain ⟨-, rfl, rfl⟩ := addSignal_ok hrun
  obtain ⟨hadds, houtputs⟩ :=
    Adds.of_blocks { d with signals := d.signals.push s.unwired } h rfl
      (fun _ => hgrows.varIds) fun _ _ => hgrows.nameOf?
  exact ⟨_, _, hrun, hadds, houtputs,
    mem_varIds.mpr ⟨_, s.unwired, Array.getElem?_push_size, rfl⟩, Array.getElem?_push_size⟩

theorem enlist_of_inRange (id : BlockId) {k : BlockKind α}
    (hk : k.InRange d.breakpoints.size d.tables.size) :
    ∃ d₁, d.enlist id k = .ok d₁ := by
  unfold enlist
  split
  · exact ⟨_, if_pos hk⟩
  · exact ⟨_, if_pos hk⟩
  · exact ⟨d, rfl⟩

theorem addBlock_adds (h : d.Closed) (name : String) {k : BlockKind α}
    (hk : k.InRange d.breakpoints.size d.tables.size) :
    ∃ id d₁ n, (addBlock name k).run d = .ok id d₁ ∧ d.Adds [] d₁ ∧ d₁.signals = d.signals ∧
      d₁.blocks[id.index]? = some { name := n, kind := k } := by
  obtain ⟨d₁, henlist⟩ := enlist_of_inRange ⟨d.blocks.size⟩ hk
  have hrun : (addBlock name k).run d = .ok ⟨d.blocks.size⟩
      { d₁ with blocks := d₁.blocks.push { name := freshName d₁.blockNames name, kind := k } } := by
    rw [addBlock_run, henlist]
  obtain ⟨hsignals, hblocks, -⟩ := enlist_ok henlist
  have hlast : ∀ b : DraftBlock α, (d₁.blocks.push b)[d.blocks.size]? = some b := by
    intro b
    rw [← hblocks]
    exact Array.getElem?_push_size
  have hvars : d₁.varIds = d.varIds := by rw [varIds, varIds, hsignals]
  have hnames : d₁.nameOf? = d.nameOf? := by
    funext r
    rcases r with i | v
    · rw [nameOf?, nameOf?, hsignals]
    · rfl
  have hresolves : ∀ r, d.Resolves r → d₁.Resolves r := by
    rintro r ⟨v, hv, hr⟩
    exact ⟨v, hvars ▸ hv, hnames ▸ hr⟩
  refine ⟨_, _, _, hrun, ⟨⟨?_, ?_⟩, fun v hv => ?_, [], List.nodup_nil, fun _ hv => (by cases hv), ?_⟩,
    hsignals, hlast _⟩
  · intro i x hx slot hslot
    rw [Array.getElem?_push] at hx
    split at hx
    · cases hx
      cases hslot
    · rw [hblocks] at hx
      obtain ⟨r, hr, hres⟩ := h.inputs i x hx slot hslot
      exact ⟨r, hr, hresolves r hres⟩
  · intro i x hx r hr
    rw [Array.getElem?_push] at hx
    split at hx
    · cases hx
      cases hr
    · rw [hblocks] at hx
      exact hresolves r (h.outputs i x hx r hr)
  · exact hvars ▸ hv
  · have houtputs : ∀ x, outputName? { d₁ with blocks := x } = d.outputName? := by
      intro x
      funext b
      exact congrArg b.output.bind hnames
    rw [outputNames, houtputs, Array.toList_push, List.filterMap_append, hblocks,
      List.filterMap_cons_none rfl, List.filterMap_nil, List.append_nil]
    exact .refl _

/-- The next slot of a block is bound. -/
theorem bindInput_adds (h : d.Closed) (hb : d.blocks[id.index]? = some b) (hw : w ∈ d.varIds) :
    ∃ d₁, (bindInput id b.inputs.length (.variable w)).run d = .ok () d₁ ∧ d.Adds [] d₁ ∧
      d₁.signals = d.signals ∧
      d₁.blocks[id.index]? = some { b with inputs := b.inputs ++ [some (.variable w)] } := by
  refine ⟨d.put id { b with inputs := b.inputs ++ [some (.variable w)] }, ?_, ?_, rfl,
    put_block_self (Array.getElem?_eq_some_iff.mp hb).1⟩
  · rw [bindInput_run, bindable_ok.mpr ⟨rfl, hb⟩]
    dsimp only
    rw [bind_next rfl]
    rfl
  · obtain ⟨rest, hbefore, hafter⟩ := put_outputNames hb
      (c := { b with inputs := b.inputs ++ [some (.variable w)] })
    refine ⟨h.put hb ?_ (h.outputs _ b hb), fun v hv => hv, [], List.nodup_nil,
      fun _ hv => (by cases hv), hafter.trans hbefore.symm⟩
    intro slot hslot
    rcases List.mem_append.mp hslot with hold | hnew
    · exact h.inputs _ b hb slot hold
    · exact ⟨.variable w, List.mem_singleton.mp hnew, w, hw, rfl⟩

/-- A block that produced nothing becomes a producer. -/
theorem bindOutput_adds (h : d.Closed) (hb : d.blocks[id.index]? = some b) (hopen : b.output = none)
    (hkind : b.kind.hasOutput = true) {r : Reference} (hr : d.checkReference r = .ok ())
    (hname : d.nameOf? r = some w) (hw : w ∈ d.varIds) :
    ∃ d₁, (bindOutput id r).run d = .ok () d₁ ∧ d.Adds [w] d₁ := by
  refine ⟨d.put id { b with output := some r }, ?_, ?_⟩
  · rw [bindOutput_run, bindable_ok.mpr ⟨hr, hb⟩]
    dsimp only
    rw [if_pos hkind]
    rfl
  · obtain ⟨rest, hbefore, hafter⟩ := put_outputNames hb
      (c := { b with output := some r })
    rw [outputName?, hopen] at hbefore
    rw [outputName?, Option.bind_some, hname] at hafter
    refine ⟨h.put hb (h.inputs _ b hb) ?_, fun v hv => hv, [], List.nodup_nil,
      fun _ hv => (by cases hv), hafter.trans (hbefore.symm.cons w)⟩
    rintro r' ⟨⟩
    exact ⟨w, hw, hname⟩

end Calls

end Draft

end BlockDiagram
