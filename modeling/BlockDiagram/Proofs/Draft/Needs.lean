import BlockDiagram.Proofs.Draft.Solution
import BlockDiagram.Proofs.Model.Runnable
/-! Needs: which variables of a draft are computed from which. The model that is built of the draft has a
loop just if some variable is computed, in the end, from itself. -/

namespace BlockDiagram

open Call

section Rank

variable {β : Type} {R : β → β → Prop}

/-- Where no walk comes round, and all walks stay in a finite list, a member is ranked by the number of
members it leads to. -/
theorem exists_rank {S : List β} (hS : ∀ x y, R x y → y ∈ S) (hno : ¬ ∃ c, Relation.TransGen R c c) :
    ∃ rank : β → Nat, ∀ x y, R x y → rank y < rank x := by
  classical
  refine ⟨fun x => (S.toFinset.filter (Relation.TransGen R x)).card, fun x y hxy => ?_⟩
  refine Finset.card_lt_card ((Finset.ssubset_iff_of_subset ?_).mpr ⟨y, ?_, ?_⟩)
  · intro z hz
    rw [Finset.mem_filter] at hz ⊢
    exact ⟨hz.1, hz.2.head hxy⟩
  · rw [Finset.mem_filter, List.mem_toFinset]
    exact ⟨hS x y hxy, .single hxy⟩
  · rw [Finset.mem_filter]
    exact fun hy => hno ⟨y, hy.2⟩

theorem not_transGen_of_acc {x : β} (h : Acc (fun y x => R x y) x) : ¬ Relation.TransGen R x x := by
  induction h with
  | intro x _ ih =>
      intro hcycle
      obtain ⟨y, hxy, hyx⟩ := Relation.TransGen.head'_iff.mp hcycle
      refine ih y hxy ?_
      rcases Relation.reflTransGen_iff_eq_or_transGen.mp hyx with rfl | hyx
      · exact .single hxy
      · exact hyx.tail hxy

/-- Where no walk comes round, and only the members of a finite list lead anywhere, all walks end. -/
theorem acc_of_no_cycle {S : List β} (hS : ∀ x y, R x y → x ∈ S)
    (hno : ¬ ∃ c, Relation.TransGen R c c) (x : β) : Acc (fun y x => R x y) x := by
  classical
  by_contra hx
  have hnext : ∀ z, ¬ Acc (fun y x => R x y) z → ∃ y, R z y ∧ ¬ Acc (fun y x => R x y) y := by
    intro z hz
    by_contra hnone
    refine hz (.intro z fun y hy => ?_)
    by_contra hnot
    exact hnone ⟨y, hy, hnot⟩
  obtain ⟨c, -, hcycle⟩ : ∃ c, Relation.ReflTransGen R x c ∧ Relation.TransGen R c c := by
    refine exists_cycle (S := S.filter fun z => ¬ Acc (fun y x => R x y) z) ?_ ?_
    · intro z hz
      obtain ⟨y, hzy, hy⟩ := hnext z (by simpa using (List.mem_filter.mp hz).2)
      obtain ⟨u, hyu, -⟩ := hnext y hy
      exact ⟨y, List.mem_filter.mpr ⟨hS y u hyu, by simpa using hy⟩, hzy⟩
    · obtain ⟨y, hxy, -⟩ := hnext x hx
      exact List.mem_filter.mpr ⟨hS x y hxy, by simpa using hx⟩
  exact hno ⟨c, hcycle⟩

end Rank

variable {α : Type}

namespace Draft

theorem slots_injective {ws ws' : List String} (h : slots ws = slots ws') : ws = ws' := by
  refine List.map_injective_iff.mpr ?_ h
  intro v w heq
  cases heq
  rfl

/-- Some block computes `v` from `w` and maybe other variables. -/
def Needs (d : Draft α) (v w : String) : Prop := ∃ k ws, d.Produces k ws v ∧ w ∈ ws

/-- The variable `v` does not rest on an endless chain of needs. -/
def Grounded (d : Draft α) (v : String) : Prop := Acc (fun w v => d.Needs v w) v

section Wired

variable [Scalar α] {d : Draft α} {m : Model α} {k k' : BlockKind α} {ws ws' : List String}
  {v u : String} {i j : Nat}

/-- Every variable has one producer at most. -/
theorem Wired.puts_unique (hd : d.Sound) (hm : d.Wired d.blocks.toList m) (h : d.Puts k ws v i)
    (h' : d.Puts k' ws' v j) : i = j ∧ k = k' ∧ ws = ws' := by
  obtain ⟨c, id, hc, -, hout, hid, -⟩ := hm.puts hd h
  obtain ⟨c', id', hc', -, hout', hid', -⟩ := hm.puts hd h'
  cases hid.symm.trans hid'
  cases hm.edges.output_unique hc hc' hout hout'
  obtain ⟨b, r, hb, rfl, hinputs, -⟩ := h
  obtain ⟨b', r', hb', rfl, hinputs', -⟩ := h'
  cases hb.symm.trans hb'
  exact ⟨rfl, rfl, slots_injective (hinputs.symm.trans hinputs')⟩

theorem Wired.needs_iff (hd : d.Sound) (hm : d.Wired d.blocks.toList m) (h : d.Produces k ws v) :
    d.Needs v u ↔ u ∈ ws := by
  constructor
  · rintro ⟨k', ws', ⟨j, hj⟩, hu⟩
    obtain ⟨i, hi⟩ := h
    obtain ⟨-, -, rfl⟩ := hm.puts_unique hd hi hj
    exact hu
  · exact fun hu => ⟨k, ws, h, hu⟩

/-- What is computed from grounded variables is grounded. -/
theorem Wired.grounded (hd : d.Sound) (hm : d.Wired d.blocks.toList m) (h : d.Produces k ws v)
    (hws : ∀ w ∈ ws, d.Grounded w) : d.Grounded v :=
  .intro v fun w hw => hws w ((hm.needs_iff hd h).mp hw)

/-- A block that reads another one computes its variable from the variable of the other. -/
theorem Wired.needs_of_reads (hd : d.Sound) (hm : d.Wired d.blocks.toList m)
    (hbound : ∀ (i : Nat) (b : DraftBlock α), d.blocks[i]? = some b → ∃ ws, b.inputs = slots ws)
    {p q : BlockId} (h : m.Reads p q) {b : DraftBlock α} (hb : d.blocks[p.index]? = some b)
    (hv : d.outputName? b = some v) :
    ∃ c u, d.blocks[q.index]? = some c ∧ d.outputName? c = some u ∧ d.Needs v u := by
  obtain ⟨x, id, hx, hid, hq⟩ := h
  obtain ⟨r, hr, hname⟩ := Option.bind_eq_some_iff.mp hv
  obtain ⟨ws, hinputs⟩ := hbound _ b hb
  have hputs : d.Puts b.kind ws v p.index := ⟨b, r, hb, rfl, hinputs, hr, hname⟩
  obtain ⟨x', -, hx', -, -, -, hws⟩ := hm.puts hd hputs
  cases hx.symm.trans hx'
  obtain ⟨w, hw, hwid⟩ := forall₂_exists hws.flip id hid
  obtain ⟨y, hy, hyout⟩ := hm.edges.block_of_producer hq
  obtain ⟨c, hc, hres⟩ := hm.block? hy
  obtain ⟨s, hs, rfl⟩ := (signalId?_eq_some hd).mp hwid
  rw [Array.getElem?_toList] at hc
  exact ⟨c, s.varId, hc, hres.outputName? hd hyout hs, _, ws, hputs.produces, hw⟩

/-- A loop of blocks is a variable that is computed from itself. -/
theorem Wired.no_loop (hd : d.Sound) (hm : d.Wired d.blocks.toList m)
    (hbound : ∀ (i : Nat) (b : DraftBlock α), d.blocks[i]? = some b → ∃ ws, b.inputs = slots ws)
    (hgrounded : ∀ k ws v, d.Produces k ws v → d.Grounded v) :
    ¬ ∃ c, Relation.TransGen m.Reads c c := by
  rintro ⟨c, hcycle⟩
  have hpath : ∀ {p q}, Relation.TransGen m.Reads p q → ∀ {b v}, d.blocks[p.index]? = some b →
      d.outputName? b = some v →
      ∃ c u, d.blocks[q.index]? = some c ∧ d.outputName? c = some u ∧
        Relation.TransGen d.Needs v u := by
    intro p q hpq b v hb hv
    induction hpq with
    | single hr =>
        obtain ⟨c, u, hc, hu, hneeds⟩ := hm.needs_of_reads hd hbound hr hb hv
        exact ⟨c, u, hc, hu, .single hneeds⟩
    | tail _ hr ih =>
        obtain ⟨c, u, hc, hu, hneeds⟩ := ih
        obtain ⟨c', u', hc', hu', hneeds'⟩ := hm.needs_of_reads hd hbound hr hc hu
        exact ⟨c', u', hc', hu', hneeds.tail hneeds'⟩
  -- The block that is read on the way round has a variable, and so has the one it is read by.
  obtain ⟨p, -, x, id, hx, hid, hc⟩ := Relation.TransGen.tail'_iff.mp hcycle
  obtain ⟨y, hy, hyout⟩ := hm.edges.block_of_producer hc
  obtain ⟨b, hb, hres⟩ := hm.block? hy
  rw [Array.getElem?_toList] at hb
  obtain ⟨t, ht⟩ := Model.exists_signal (hm.edges.outputs c y hy id hyout)
  have hv := hres.outputName? hd hyout (hm.signal? ht)
  obtain ⟨b', v, hb', hv', hneeds⟩ := hpath hcycle hb hv
  cases hb.symm.trans hb'
  cases hv.symm.trans hv'
  obtain ⟨w, ⟨k, ws, hproduces, -⟩, -⟩ := Relation.TransGen.head'_iff.mp hneeds
  exact not_transGen_of_acc (hgrounded k ws _ hproduces) hneeds

end Wired

end Draft

namespace Model

variable [Scalar α] {m m' : Model α}

omit [Scalar α] in
theorem ranked_of_no_loop (hm : m.EdgesAgree) (h : ¬ ∃ c, Relation.TransGen m.Reads c c) : m.Ranked :=
  exists_rank (S := m.blockIds) (fun _ _ hr => Handle.mem_all.mpr (hr.lt hm)) h

theorem no_loop_of_extends (hm : m.EdgesAgree) (hext : Relation.ReflTransGen Extends m m')
    (h : ¬ ∃ c, Relation.TransGen m.Reads c c) : ¬ ∃ c, Relation.TransGen m'.Reads c c := by
  have hranked : m'.EdgesAgree ∧ m'.Ranked :=
    extends_keeps (P := fun n => n.EdgesAgree ∧ n.Ranked)
      (fun _ _ hstep hn => ⟨hstep.edges hn.1, hn.2.extends hn.1 hstep⟩) hext ⟨hm, ranked_of_no_loop hm h⟩
  exact hranked.2.no_loop

end Model

namespace Draft.Realized

variable [Scalar α] {d : Draft α} {f : Model α} {holder : SignalId → SignalId} {v u : String}

/-- The block that shows the variable to the blocks that read it. -/
def Stands (d : Draft α) (f : Model α) (holder : SignalId → SignalId) (v : String) (p : BlockId) :
    Prop :=
  ∃ id, d.signalId? v = some id ∧ f.producer? (holder id) = some p

omit [Scalar α] in
theorem Stands.unique {p q : BlockId} (hp : Stands d f holder v p) (hq : Stands d f holder v q) :
    p = q := by
  obtain ⟨id, hid, hp⟩ := hp
  obtain ⟨id', hid', hq⟩ := hq
  cases hid.symm.trans hid'
  exact Option.some.inj (hp.symm.trans hq)

/-- A need becomes a path, through the limiter of the variable if it has one. -/
theorem path_of_needs (h : d.Realized f holder) (hd : d.Sound) (hf : f.EdgesAgree)
    (hneeds : d.Needs v u) :
    ∃ p q, Stands d f holder v p ∧ Stands d f holder u q ∧ Relation.TransGen f.Reads p q := by
  obtain ⟨k, ws, hproduces, hu⟩ := hneeds
  obtain ⟨p, c, id, ids, hc, -, hinputs, hout, hid, hids⟩ := h.blocks k ws v hproduces
  obtain ⟨i, hi, hui⟩ := forall₂_exists hids u hu
  obtain ⟨s, hs, -⟩ := (signalId?_eq_some hd).mp hui
  obtain ⟨t, ht, -⟩ := h.named i s hs
  obtain ⟨e, he⟩ := h.sourced _ t ht
  have hq : f.producer? (holder i) = some e.block := Model.producer?_eq_some.mpr ⟨t, e, ht, he, rfl⟩
  have hreads : f.Reads p e.block := ⟨c, holder i, hc, hinputs ▸ List.mem_map_of_mem hi, hq⟩
  have hp : f.producer? id = some p := hf.producer?_of_output hc hout
  obtain ⟨x, hx, -⟩ := (signalId?_eq_some hd).mp hid
  cases hneed : x.needsLimiter with
  | false =>
      have hfree := h.free id x hx hneed
      exact ⟨p, e.block, ⟨id, hid, hfree.symm ▸ hp⟩, ⟨i, hui, hq⟩, .single hreads⟩
  | true =>
      obtain ⟨l, b, hb, -, hslots, hlout⟩ := h.limited id x hx hneed
      have hfirst : f.Reads l p := ⟨b, id, hb, hslots ▸ List.mem_singleton_self id, hp⟩
      exact ⟨l, e.block, ⟨id, hid, hf.producer?_of_output hb hlout⟩, ⟨i, hui, hq⟩,
        .head hfirst (.single hreads)⟩

/-- A variable that is computed from itself makes a loop of blocks. -/
theorem loop_of_needs (h : d.Realized f holder) (hd : d.Sound) (hf : f.EdgesAgree)
    (hcycle : Relation.TransGen d.Needs v v) : ∃ c, Relation.TransGen f.Reads c c := by
  have hpath : ∀ {u}, Relation.TransGen d.Needs v u →
      ∃ p q, Stands d f holder v p ∧ Stands d f holder u q ∧ Relation.TransGen f.Reads p q := by
    intro u hvu
    induction hvu with
    | single hneeds => exact h.path_of_needs hd hf hneeds
    | tail _ hneeds ih =>
        obtain ⟨p, q, hp, hq, hpq⟩ := ih
        obtain ⟨q', r, hq', hr, hqr⟩ := h.path_of_needs hd hf hneeds
        obtain rfl := hq.unique hq'
        exact ⟨p, r, hp, hr, hpq.trans hqr⟩
  obtain ⟨p, q, hp, hq, hpq⟩ := hpath hcycle
  obtain rfl := hp.unique hq
  exact ⟨p, hpq⟩

end Draft.Realized

end BlockDiagram
