import BlockDiagram.Proofs.Model.Extension
import Mathlib.Data.List.Perm.Basic
/-! Census: the blocks of a model, told by their kinds and by what they read. Completion keeps an account:
a block that it adds is one that was due, so what is there and what is due add up to the same throughout.
-/

namespace BlockDiagram

variable {α : Type}

/-- A block as a census counts it: its kind and, slot by slot, the variable that it reads. What the library
has made for itself goes without a name. -/
structure Row (α : Type) where
  kind : BlockKind α
  reads : List (Option String) := []
  deriving DecidableEq, Repr

/-- Where two lists agree but for one position, they count the same but for the entries there. -/
theorem flatMap_exchange {β γ δ : Type} {f : β → List δ} {g : γ → List δ} {l : List β} {l' : List γ}
    {i : Nat} {x : β} {y : γ} (hx : l[i]? = some x) (hy : l'[i]? = some y)
    (hlength : l'.length = l.length)
    (hother : ∀ j a b, j ≠ i → l[j]? = some a → l'[j]? = some b → g b = f a) :
    (l'.flatMap g ++ f x).Perm (l.flatMap f ++ g y) := by
  induction l generalizing l' i with
  | nil => cases hx
  | cons a as ih =>
      obtain ⟨b, bs, rfl⟩ := List.exists_cons_of_length_eq_add_one (hlength.trans List.length_cons)
      rw [List.flatMap_cons, List.flatMap_cons]
      cases i with
      | zero =>
          cases hx
          cases hy
          have hrest : bs.map g = as.map f := by
            refine List.ext_getElem (by simpa using hlength) fun j hj hj' => ?_
            rw [List.getElem_map, List.getElem_map]
            rw [List.length_map] at hj hj'
            exact hother (j + 1) _ _ (Nat.succ_ne_zero j) (List.getElem?_eq_getElem hj')
              (List.getElem?_eq_getElem hj)
          have hflat : bs.flatMap g = as.flatMap f := by
            rw [List.flatMap_def, hrest, ← List.flatMap_def]
          rw [hflat]
          refine List.perm_append_comm.trans ?_
          rw [List.append_assoc]
          exact List.Perm.append_left _ List.perm_append_comm
      | succ i =>
          have hhead : g b = f a := hother 0 a b (Nat.succ_ne_zero i).symm rfl rfl
          rw [hhead, List.append_assoc, List.append_assoc]
          refine List.Perm.append_left _ (ih hx hy (by simpa using hlength) fun j a b hj => ?_)
          exact hother (j + 1) a b fun h => hj (Nat.succ.inj h)

namespace Signal

/-- The variable the signal stands for, if it has been declared. -/
def label? (s : Signal α) : Option String := if s.roles.derived then none else some s.varId

/-- What is to produce the signal if no block does. -/
def sourceKind (s : Signal α) : BlockKind α :=
  match s.initial with
  | some value => if s.roles.isExternal then .input else .constant value
  | none => .input

theorem feeder_kind [Scalar α] (s : Signal α) (id : SignalId) : (s.feeder id).kind = s.sourceKind := by
  unfold feeder sourceKind
  cases s.initial with
  | none => rfl
  | some value => cases s.roles.isExternal <;> rfl

end Signal

namespace Model

def label? (m : Model α) (id : SignalId) : Option String := (m.signal? id).bind Signal.label?

def row (m : Model α) (b : Block α) : Row α := ⟨b.kind, b.inputs.map m.label?⟩

/-- The census of a model: a row for each block, in the order of the arena. -/
def rows (m : Model α) : List (Row α) := m.blocks.toList.map m.row

variable [Scalar α]

/-- The rows of the blocks that are due for a signal: its limiter, its source and its tap. -/
def owed (m : Model α) (s : Signal α) : List (Row α) :=
  (if s.needsLimiter then [⟨.limiterBetween s.lower s.upper, [none]⟩] else []) ++
    ((if s.source.isNone then [⟨s.sourceKind, []⟩] else []) ++
      if m.needsTap s then [⟨.output, [s.label?]⟩] else [])

def dues (m : Model α) : List (Row α) := m.signals.toList.flatMap m.owed

variable {m m' : Model α} {id : SignalId} {s : Signal α} {b : Block α}

section Rows

omit [Scalar α]

theorem label?_of_signal (hs : m.signal? id = some s) : m.label? id = s.label? := by
  rw [label?, hs, Option.bind_some]

theorem attach_label? : (m.attach b).label? = m.label? := by
  funext id
  rw [label?, attach_signal?, label?]
  cases m.signal? id with
  | none => rfl
  | some s => rfl

theorem attach_rows : (m.attach b).rows = m.rows ++ [m.row b] := by
  have hrow : (m.attach b).row = m.row := by
    funext c
    rw [row, attach_label?, row]
  have hblocks : (m.attach b).blocks =
      m.blocks.push { b with name := freshName m.blockNames b.name } := rfl
  rw [rows, hrow, hblocks, Array.toList_push, List.map_append]
  rfl

/-- A slot that has been moved to the second half of a signal reads the same variable there. -/
theorem split_label? (hs : m.signal? id = some s) {j : SignalId} (hj : j.index < m.signals.size) :
    (m.split id s).label? (if j = id then ⟨m.signals.size⟩ else j) = m.label? j := by
  by_cases h : j = id
  · subst h
    rw [if_pos rfl, label?_of_signal split_signal?_new, label?_of_signal hs]
    rfl
  · rw [if_neg h, label?, split_signal?_other h (Nat.ne_of_lt hj), label?]

theorem split_rows (h : m.EdgesAgree) (hs : m.signal? id = some s) : (m.split id s).rows = m.rows := by
  have hblocks : (m.split id s).blocks = m.blocks.map fun b => b.redirect id ⟨m.signals.size⟩ := rfl
  rw [rows, hblocks, Array.toList_map, List.map_map, rows]
  refine List.map_congr_left fun b hb => ?_
  obtain ⟨i, hi⟩ := List.mem_iff_getElem?.mp hb
  rw [Array.getElem?_toList] at hi
  have hreads : (b.redirect id ⟨m.signals.size⟩).inputs.map (m.split id s).label? =
      b.inputs.map m.label? := by
    rw [Block.redirect, List.map_map]
    exact List.map_congr_left fun j hj => split_label? hs (h.inputs ⟨i⟩ b hi j hj)
  exact congrArg (Row.mk b.kind) hreads

end Rows

theorem splice_rows (h : m.EdgesAgree) (hs : m.signal? id = some s) :
    (m.splice id s).rows = m.rows ++ [⟨.limiterBetween s.lower s.upper, [none]⟩] := by
  have hfront : (m.split id s).label? id = none := by
    rw [label?_of_signal (split_signal?_old (signal?_lt hs))]
    rfl
  have hlimiter : (m.split id s).row (s.limiter id ⟨m.signals.size⟩) =
      ⟨.limiterBetween s.lower s.upper, [none]⟩ := by
    rw [row, Signal.limiter, List.map_singleton, hfront]
  rw [splice, attach_rows, split_rows h hs, hlimiter]

section Owed

omit [Scalar α] in
theorem hasTap_congr (h : ∀ e ∈ s.sinks, m'.kindOf? e.block = m.kindOf? e.block) :
    m'.hasTap s = m.hasTap s := by
  rw [hasTap, hasTap, Bool.eq_iff_iff, List.any_eq_true, List.any_eq_true]
  exact exists_congr fun e => and_congr_right fun he => by rw [h e he]

omit [Scalar α] in
theorem needsTap_congr (h : ∀ e ∈ s.sinks, m'.kindOf? e.block = m.kindOf? e.block) :
    m'.needsTap s = m.needsTap s := by
  rw [needsTap, needsTap, hasTap_congr h]

theorem owed_congr (h : ∀ e ∈ s.sinks, m'.kindOf? e.block = m.kindOf? e.block) :
    m'.owed s = m.owed s := by
  rw [owed, owed, needsTap_congr h]

omit [Scalar α] in
theorem attach_kindOf? (h : m.EdgesAgree) (hs : m.signal? id = some s) {e : Endpoint}
    (he : e ∈ s.sinks) : (m.attach b).kindOf? e.block = m.kindOf? e.block := by
  obtain ⟨c, hc, -⟩ := (h.sinks id s hs e).mp he
  rw [kindOf?, attach_block?_of_some hc, kindOf?, hc]

theorem splice_kindOf? (h : m.EdgesAgree) {j : SignalId} {x : Signal α} (hx : m.signal? j = some x)
    {e : Endpoint} (he : e ∈ x.sinks) : (m.splice id s).kindOf? e.block = m.kindOf? e.block := by
  obtain ⟨c, hc, -⟩ := (h.sinks j x hx e).mp he
  rw [kindOf?, splice_block?, if_neg (Nat.ne_of_lt (block?_lt hc)), hc, kindOf?, hc]
  rfl

/-- The account of a change: what has been added was owed for one signal, for which the rest is still due. -/
theorem account {r : Row α} {left : List (Row α)} (hrows : m'.rows = m.rows ++ [r])
    (hdues : (m'.dues ++ m.owed s).Perm (m.dues ++ left)) (howed : (m.owed s).Perm (r :: left)) :
    (m'.rows ++ m'.dues).Perm (m.rows ++ m.dues) := by
  have hcancel : (m'.dues ++ [r]).Perm m.dues := by
    refine (List.perm_append_right_iff left).mp ?_
    rw [List.append_assoc]
    exact (List.Perm.append_left _ howed.symm).trans hdues
  rw [hrows, List.append_assoc]
  exact List.Perm.append_left _ (List.perm_append_comm.trans hcancel)

/-- A block that touches one signal only leaves what is owed for the others. -/
theorem attach_dues (h : m.EdgesAgree) (hs : m.signal? id = some s)
    (hother : ∀ (j : SignalId) (x : Signal α), j ≠ id → x.joined j ⟨m.blocks.size⟩ b = x) :
    ((m.attach b).dues ++ m.owed s).Perm
      (m.dues ++ (m.attach b).owed (s.joined id ⟨m.blocks.size⟩ b)) := by
  refine flatMap_exchange (i := id.index) ?_ ?_ ?_ fun j x y hj hx hy => ?_
  · rw [Array.getElem?_toList]
    exact hs
  · rw [Array.getElem?_toList]
    exact attach_signal?_of_some hs
  · rw [Array.length_toList, Array.length_toList, attach_signals_size]
  · rw [Array.getElem?_toList] at hx hy
    have hx : m.signal? ⟨j⟩ = some x := hx
    cases hy.symm.trans (attach_signal?_of_some hx)
    rw [hother ⟨j⟩ x fun heq => hj (congrArg Handle.index heq)]
    exact owed_congr fun e he => attach_kindOf? h hx he

theorem feed_account (h : m.EdgesAgree) (hs : m.signal? id = some s) (hsource : s.source = none) :
    ((m.attach (s.feeder id)).rows ++ (m.attach (s.feeder id)).dues).Perm (m.rows ++ m.dues) := by
  have hjoined : s.joined id ⟨m.blocks.size⟩ (s.feeder id) =
      { s with source := some ⟨⟨m.blocks.size⟩, 0⟩ } := by
    rw [Signal.joined, s.feeder_inputs, s.feeder_output, if_pos rfl]
    simp [Draft.readingSlots]
  have hdues := attach_dues (b := s.feeder id) h hs fun j x hj => by
    rw [Signal.joined, s.feeder_inputs, s.feeder_output, if_neg (Ne.symm (by simpa using hj))]
    simp [Draft.readingSlots]
  have hleft : (m.attach (s.feeder id)).needsTap { s with source := some ⟨⟨m.blocks.size⟩, 0⟩ } =
      m.needsTap s :=
    needsTap_congr fun e he => attach_kindOf? h hs he
  refine account (r := ⟨s.sourceKind, []⟩) ?_ hdues ?_
  · rw [attach_rows, row, s.feeder_kind, s.feeder_inputs, List.map_nil]
  · rw [hjoined, owed, owed, hleft, hsource]
    exact List.perm_middle

theorem tap_account (h : m.EdgesAgree) (hs : m.signal? id = some s) (hneed : m.needsTap s = true) :
    ((m.attach (s.tap id)).rows ++ (m.attach (s.tap id)).dues).Perm (m.rows ++ m.dues) := by
  have hjoined : s.joined id ⟨m.blocks.size⟩ (s.tap id) =
      { s with sinks := s.sinks ++ [⟨⟨m.blocks.size⟩, 0⟩] } := by
    simp [Signal.joined, Signal.tap, Draft.readingSlots]
  have hdues := attach_dues (b := s.tap id) h hs fun j x hj => by
    simp [Signal.joined, Signal.tap, Draft.readingSlots, Ne.symm hj]
  have hleft : (m.attach (s.tap id)).needsTap (s.joined id ⟨m.blocks.size⟩ (s.tap id)) = false :=
    needsTap_tapped
  rw [hjoined] at hleft hdues
  refine account (r := ⟨.output, [s.label?]⟩) ?_ hdues ?_
  · rw [attach_rows, row, Signal.tap, List.map_singleton, label?_of_signal hs]
  · rw [owed, owed, hleft, hneed]
    simp only [Bool.false_eq_true, if_true, if_false, List.append_nil, ← List.append_assoc]
    exact List.perm_append_comm

/-- In front of its limiter a signal is owed its source at most. -/
theorem owed_beforeLimiter {varId : String} {limiter : BlockId} :
    m.owed (s.beforeLimiter varId limiter) =
      if s.source.isNone then [⟨s.sourceKind, []⟩] else [] := by
  have htap : m.needsTap (s.beforeLimiter varId limiter) = false := by
    simp [needsTap, Signal.beforeLimiter]
  have hlimited : (s.beforeLimiter varId limiter).needsLimiter = false := rfl
  rw [owed, htap, hlimited]
  simp only [Bool.false_eq_true, if_false, List.append_nil, List.nil_append]
  rfl

/-- Behind its limiter a signal is owed its tap at most. -/
theorem owed_afterLimiter (h : m.EdgesAgree) (hs : m.signal? id = some s) {limiter : BlockId} :
    (m.splice id s).owed (s.afterLimiter limiter) =
      if m.needsTap s then [⟨.output, [s.label?]⟩] else [] := by
  have htap : (m.splice id s).needsTap (s.afterLimiter limiter) = m.needsTap s :=
    needsTap_congr (s := s) fun e he => splice_kindOf? h hs he
  rw [owed, htap]
  rfl

/-- The two halves of a signal share what it was owed, but for its limiter. -/
theorem splice_dues (h : m.EdgesAgree) (hs : m.signal? id = some s) :
    ((m.splice id s).dues ++ m.owed s).Perm
      (m.dues ++ ((if s.source.isNone then [⟨s.sourceKind, []⟩] else []) ++
        if m.needsTap s then [⟨.output, [s.label?]⟩] else [])) := by
  have hexchange := flatMap_exchange (f := m.owed) (g := (m.splice id s).owed) (l := m.signals.toList)
    (i := id.index) (x := s)
    (y := s.beforeLimiter (freshName m.varIds (s.varId ++ "_unlim")) ⟨m.blocks.size⟩)
    (by rw [Array.getElem?_toList]; exact hs)
    (by rw [Array.getElem?_toList, Array.getElem?_setIfInBounds, if_pos rfl, if_pos (signal?_lt hs)])
    (by rw [Array.length_toList, Array.length_toList, Array.size_setIfInBounds])
    fun j x y hj hx hy => by
      rw [Array.getElem?_toList] at hx hy
      rw [Array.getElem?_setIfInBounds, if_neg (Ne.symm hj)] at hy
      cases hx.symm.trans hy
      have hx : m.signal? ⟨j⟩ = some x := hx
      exact owed_congr fun e he => splice_kindOf? h hx he
  rw [owed_beforeLimiter] at hexchange
  rw [dues, splice_signals hs, Array.toList_push, List.flatMap_append, List.flatMap_singleton,
    owed_afterLimiter h hs, List.append_assoc, ← List.append_assoc (dues m)]
  refine (List.Perm.append_left _ List.perm_append_comm).trans ?_
  rw [← List.append_assoc]
  exact hexchange.append_right _

theorem splice_account (h : m.EdgesAgree) (hs : m.signal? id = some s) (hneed : s.needsLimiter = true) :
    ((m.splice id s).rows ++ (m.splice id s).dues).Perm (m.rows ++ m.dues) := by
  refine account (splice_rows h hs) (splice_dues h hs) ?_
  rw [owed, hneed, if_pos rfl]
  exact List.Perm.refl _

end Owed

section Account

theorem Extends.account (h : Extends m m') (hm : m.EdgesAgree) :
    (m'.rows ++ m'.dues).Perm (m.rows ++ m.dues) := by
  cases h with
  | limit hs hneed => exact splice_account hm hs hneed
  | feed hs hsource => exact feed_account hm hs hsource
  | tap hs hneed => exact tap_account hm hs hneed

/-- However many changes completion makes, what is there and what is due add up to the same. -/
theorem account_of_extends (h : Relation.ReflTransGen Extends m m') (hm : m.EdgesAgree) :
    (m'.rows ++ m'.dues).Perm (m.rows ++ m.dues) :=
  (extends_keeps (P := fun n => n.EdgesAgree ∧ (n.rows ++ n.dues).Perm (m.rows ++ m.dues))
    (fun _ _ hstep hn => ⟨hstep.edges hn.1, (hstep.account hn.1).trans hn.2⟩) h
    ⟨hm, .refl _⟩).2

/-- A complete model owes nothing. -/
theorem Complete.dues_eq_nil (h : m.Complete) : m.dues = [] := by
  refine List.flatMap_eq_nil_iff.mpr fun s hs => ?_
  obtain ⟨i, hi⟩ := List.mem_iff_getElem?.mp hs
  rw [Array.getElem?_toList] at hi
  obtain ⟨e, hsource⟩ := h.fed ⟨i⟩ s hi
  rw [owed, h.limited ⟨i⟩ s hi, hsource, h.tapped ⟨i⟩ s hi]
  rfl

/-- Completion adds the blocks that were due to begin with, and no others. -/
theorem Complete.rows_perm (h : m'.Complete) (hext : Relation.ReflTransGen Extends m m')
    (hm : m.EdgesAgree) : m'.rows.Perm (m.rows ++ m.dues) := by
  have haccount := account_of_extends hext hm
  rwa [h.dues_eq_nil, List.append_nil] at haccount

end Account

end Model

end BlockDiagram
