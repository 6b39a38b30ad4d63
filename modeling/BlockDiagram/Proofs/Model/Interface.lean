import BlockDiagram.Proofs.Model.Holder
import BlockDiagram.Proofs.Model.Records
/-! Interface: the input and output records of a model that has just been completed, read off the signals
it had before. Limiters give some of the inputs new names and move some of the outputs to the end. -/

namespace BlockDiagram

open Call

/-- Members that are taken or left alike, and mapped to the same, in front of lists of which that holds. -/
theorem map_filter_cons {β γ δ : Type} {p : β → Bool} {q : γ → Bool} {f : β → δ} {g : γ → δ} {x : β} {y : γ}
    {xs : List β} {ys : List γ} (hpq : p x = q y) (hfg : f x = g y)
    (h : (xs.filter p).map f = (ys.filter q).map g) :
    ((x :: xs).filter p).map f = ((y :: ys).filter q).map g := by
  rw [List.filter_cons, List.filter_cons, hpq]
  split
  · rw [List.map_cons, List.map_cons, hfg, h]
  · exact h

theorem map_filter_of_forall₂ {β γ δ : Type} {R : β → γ → Prop} {p : β → Bool} {q : γ → Bool} {f : β → δ}
    {g : γ → δ} {xs : List β} {ys : List γ} (h : List.Forall₂ R xs ys)
    (hR : ∀ x y, R x y → p x = q y ∧ f x = g y) : (xs.filter p).map f = (ys.filter q).map g := by
  induction h with
  | nil => rfl
  | cons hxy _ ih => exact map_filter_cons (hR _ _ hxy).1 (hR _ _ hxy).2 ih

variable {α : Type}

namespace Signal

/-- The signal under the names it has in front of its limiter. -/
def ahead (s : Signal α) (varId : String) : Signal α := { s with varId, name := s.name ++ "_unlim" }

theorem isOpen_ahead (s : Signal α) (varId : String) : (s.ahead varId).isOpen = s.isOpen := rfl

variable [Scalar α]

/-- The signals as they stand in front of their limiters, where those that have one go by a fresh variable
ID. -/
def fronts : List String → List (Signal α) → List (Signal α)
  | _, [] => []
  | taken, s :: rest =>
    if s.needsLimiter then
      let varId := freshName taken (s.varId ++ "_unlim")
      s.ahead varId :: fronts (varId :: taken) rest
    else s :: fronts taken rest

theorem fronts_cons_limited (taken : List String) {s : Signal α} (h : s.needsLimiter = true)
    (rest : List (Signal α)) :
    fronts taken (s :: rest) =
      s.ahead (freshName taken (s.varId ++ "_unlim")) ::
        fronts (freshName taken (s.varId ++ "_unlim") :: taken) rest := by
  rw [fronts, if_pos h]

theorem fronts_cons_free (taken : List String) {s : Signal α} (h : s.needsLimiter = false)
    (rest : List (Signal α)) : fronts taken (s :: rest) = s :: fronts taken rest := by
  rw [fronts, if_neg (by rw [h]; exact Bool.false_ne_true)]

theorem length_fronts (taken : List String) (ss : List (Signal α)) :
    (fronts taken ss).length = ss.length := by
  induction ss generalizing taken with
  | nil => rfl
  | cons s rest ih =>
      cases hneed : s.needsLimiter with
      | true => rw [fronts_cons_limited taken hneed, List.length_cons, ih, List.length_cons]
      | false => rw [fronts_cons_free taken hneed, List.length_cons, ih, List.length_cons]

/-- Only which IDs are taken matters. -/
theorem fronts_congr {taken taken' : List String} (h : ∀ v, v ∈ taken ↔ v ∈ taken')
    (ss : List (Signal α)) : fronts taken ss = fronts taken' ss := by
  induction ss generalizing taken taken' with
  | nil => rfl
  | cons s rest ih =>
      cases hneed : s.needsLimiter with
      | true =>
          have hcons : ∀ w v, v ∈ w :: taken ↔ v ∈ w :: taken' := fun w v => by
            rw [List.mem_cons, List.mem_cons, h]
          rw [fronts_cons_limited taken hneed, fronts_cons_limited taken' hneed, freshName_congr h,
            ih (hcons _)]
      | false => rw [fronts_cons_free taken hneed, fronts_cons_free taken' hneed, ih h]

theorem fronts_closed {taken : List String} {ss : List (Signal α)} (h : ∀ s ∈ ss, s.isOpen = false) :
    (fronts taken ss).filter isOpen = [] := by
  induction ss generalizing taken with
  | nil => rfl
  | cons s rest ih =>
      obtain ⟨hs, hrest⟩ := List.forall_mem_cons.mp h
      cases hneed : s.needsLimiter with
      | true =>
          rw [fronts_cons_limited taken hneed, List.filter_cons, isOpen_ahead, hs]
          exact ih hrest
      | false =>
          rw [fronts_cons_free taken hneed, List.filter_cons, hs]
          exact ih hrest

/-- The ID of a signal in front of its limiter is a new one, and else the ID is kept. -/
theorem mem_fronts {taken : List String} {ss : List (Signal α)} {v : String}
    (h : v ∈ (fronts taken ss).map varId) : v ∉ taken ∨ v ∈ ss.map varId := by
  induction ss generalizing taken with
  | nil => cases h
  | cons s rest ih =>
      cases hneed : s.needsLimiter with
      | true =>
          rw [fronts_cons_limited taken hneed, List.map_cons] at h
          rcases List.mem_cons.mp h with rfl | h
          · exact .inl (freshName_not_mem _ _)
          · exact (ih h).imp (fun hnot hin => hnot (List.mem_cons_of_mem _ hin))
              fun hin => List.mem_cons_of_mem _ hin
      | false =>
          rw [fronts_cons_free taken hneed, List.map_cons] at h
          rcases List.mem_cons.mp h with rfl | h
          · exact .inr List.mem_cons_self
          · exact (ih h).imp_right fun hin => List.mem_cons_of_mem _ hin

/-- No two signals go by one ID in front of their limiters, if no two have one ID. -/
theorem nodup_fronts {taken : List String} {ss : List (Signal α)} (hnodup : (ss.map varId).Nodup)
    (htaken : ∀ v ∈ ss.map varId, v ∈ taken) : ((fronts taken ss).map varId).Nodup := by
  induction ss generalizing taken with
  | nil => exact List.nodup_nil
  | cons s rest ih =>
      rw [List.map_cons, List.nodup_cons] at hnodup
      have hrest : ∀ v ∈ rest.map varId, v ∈ taken := fun v hv => htaken v (List.mem_cons_of_mem _ hv)
      cases hneed : s.needsLimiter with
      | true =>
          rw [fronts_cons_limited taken hneed, List.map_cons]
          refine List.nodup_cons.mpr ⟨fun hin => ?_, ih hnodup.2 fun v hv =>
            List.mem_cons_of_mem _ (hrest v hv)⟩
          rcases mem_fronts hin with hnot | hold
          · exact hnot List.mem_cons_self
          · exact freshName_not_mem _ _ (hrest _ hold)
      | false =>
          rw [fronts_cons_free taken hneed, List.map_cons]
          refine List.nodup_cons.mpr ⟨fun hin => ?_, ih hnodup.2 hrest⟩
          rcases mem_fronts hin with hnot | hold
          · exact hnot (htaken _ List.mem_cons_self)
          · exact hnodup.1 hold

end Signal

namespace Model

section Limit

variable [Scalar α] {m m' : Model α} {id : SignalId} {s : Signal α} {ids : List SignalId}
  {ss : List (Signal α)} {taken : List String}

theorem mem_splice_varIds (hs : m.signal? id = some s) {v : String} :
    v ∈ (m.splice id s).varIds ↔ v = freshName m.varIds (s.varId ++ "_unlim") ∨ v ∈ m.varIds := by
  simp only [mem_varIds]
  constructor
  · rintro ⟨j, x, hx, rfl⟩
    rcases splice_signal_cases hs hx with ⟨-, rfl⟩ | ⟨-, rfl⟩ | ⟨-, hx⟩
    · exact .inl rfl
    · exact .inr ⟨id, s, hs, rfl⟩
    · exact .inr ⟨j, x, hx, rfl⟩
  · rintro (rfl | ⟨j, x, hx, rfl⟩)
    · exact ⟨id, _, splice_signal?_front hs, rfl⟩
    · by_cases hj : j = id
      · subst hj
        cases hs.symm.trans hx
        exact ⟨_, _, splice_signal?_back hs, rfl⟩
      · exact ⟨j, x, splice_signal?_of_ne hs hj hx, rfl⟩

/-- A splice makes neither inputs nor outputs. -/
theorem splice_lists (m : Model α) (id : SignalId) (s : Signal α) :
    (m.splice id s).inputs = m.inputs ∧ (m.splice id s).outputs = m.outputs := by
  have hkind : (s.limiter id ⟨m.signals.size⟩).kind.isInput = false ∧
      (s.limiter id ⟨m.signals.size⟩).kind.isOutput = false := by
    simp only [Signal.limiter, BlockKind.limiterBetween]
    split <;> exact ⟨rfl, rfl⟩
  exact ⟨if_neg (by rw [hkind.1]; exact Bool.false_ne_true),
    if_neg (by rw [hkind.2]; exact Bool.false_ne_true)⟩

/-- What becomes of a model when those of the signals are limited that need it. Each stays where it was
as the half in front of its limiter; the halves behind the limiters follow upon all signals. -/
structure Limited (m : Model α) (taken : List String) (ids : List SignalId) (ss : List (Signal α))
    (m' : Model α) : Prop where
  edges : m'.EdgesAgree
  enrolled : m'.Enrolled
  inputs : m'.inputs = m.inputs
  outputs : m'.outputs = m.outputs
  results : m'.results = m.results
  others : ∀ j x, j ∉ ids → m.signal? j = some x → m'.signal? j = some x
  before : ∃ ts, m'.Bears ids ts ∧
    (ts.filter Signal.isOpen).map Signal.atInput =
      ((Signal.fronts taken ss).filter Signal.isOpen).map Signal.atInput ∧
    (ts.filter Signal.isExposed).map Signal.atOutput =
      (ss.filter fun s => s.isExposed && !s.needsLimiter).map Signal.atOutput
  closed : (m'.signals.toList.drop m.signals.size).filter Signal.isOpen = []
  behind : ((m'.signals.toList.drop m.signals.size).filter Signal.isExposed).map Signal.atOutput =
    (ss.filter fun s => s.isExposed && s.needsLimiter).map Signal.atOutput

theorem limited_nil (h : m.EdgesAgree) (henrolled : m.Enrolled) : m.Limited taken [] [] m := by
  have hdrop : m.signals.toList.drop m.signals.size = [] := by simp
  refine ⟨h, henrolled, rfl, rfl, rfl, fun _ _ _ hx => hx, ⟨[], .nil, rfl, rfl⟩, ?_, ?_⟩
  · rw [hdrop]
    rfl
  · rw [hdrop]
    rfl

theorem Limited.free (h : m.Limited taken ids ss m') (hid : id ∉ ids) (hs : m.signal? id = some s)
    (hfree : s.needsLimiter = false) : m.Limited taken (id :: ids) (s :: ss) m' := by
  obtain ⟨ts, hts, hopen, hexposed⟩ := h.before
  refine { h with others := ?_, before := ⟨s :: ts, .cons (h.others id s hid hs) hts, ?_, ?_⟩, behind := ?_ }
  · exact fun j x hj => h.others j x fun hin => hj (List.mem_cons_of_mem id hin)
  · rw [Signal.fronts_cons_free taken hfree]
    exact map_filter_cons rfl rfl hopen
  · exact map_filter_cons (by rw [hfree, Bool.not_false, Bool.and_true]) rfl hexposed
  · rw [List.filter_cons_of_neg (by rw [hfree, Bool.and_false]; exact Bool.false_ne_true)]
    exact h.behind

theorem Limited.limited {varId : String} (hvarId : varId = freshName m.varIds (s.varId ++ "_unlim"))
    (h : (m.splice id s).Limited (varId :: taken) ids ss m') (hid : id ∉ ids)
    (hids : ∀ j ∈ ids, j.index < m.signals.size) (hs : m.signal? id = some s)
    (hneed : s.needsLimiter = true) (htaken : ∀ v, v ∈ taken ↔ v ∈ m.varIds) :
    m.Limited taken (id :: ids) (s :: ss) m' := by
  subst hvarId
  obtain ⟨hinputs, houtputs⟩ := splice_lists m id s
  obtain ⟨ts, hts, hopen, hexposed⟩ := h.before
  have hfront := h.others id _ hid (splice_signal?_front hs)
  have hback : m'.signals.toList[m.signals.size]? = some (s.afterLimiter ⟨m.blocks.size⟩) := by
    rw [Array.getElem?_toList]
    refine h.others ⟨m.signals.size⟩ _ (fun hin => ?_) (splice_signal?_back hs)
    exact Nat.lt_irrefl _ (hids _ hin)
  have hdrop : m'.signals.toList.drop m.signals.size =
      s.afterLimiter ⟨m.blocks.size⟩ :: m'.signals.toList.drop (m.splice id s).signals.size := by
    obtain ⟨hlt, hget⟩ := List.getElem?_eq_some_iff.mp hback
    rw [List.drop_eq_getElem_cons hlt, hget, splice_signals_size]
  refine ⟨h.edges, h.enrolled, h.inputs.trans hinputs, h.outputs.trans houtputs, h.results, ?_,
    ⟨_, .cons hfront hts, ?_, ?_⟩, ?_, ?_⟩
  · intro j x hj hx
    have hne : j ≠ id := fun heq => hj (heq ▸ List.mem_cons_self)
    exact h.others j x (fun hin => hj (List.mem_cons_of_mem id hin)) (splice_signal?_of_ne hs hne hx)
  · rw [Signal.fronts_cons_limited taken hneed, freshName_congr htaken]
    exact map_filter_cons rfl rfl hopen
  · rw [List.filter_cons_of_neg (by simp [Signal.isExposed, Signal.beforeLimiter]), hexposed,
      List.filter_cons_of_neg (by simp [hneed])]
  · rw [hdrop, List.filter_cons_of_neg (by simp [Signal.isOpen, Signal.afterLimiter]), h.closed]
  · rw [hdrop]
    refine map_filter_cons ?_ rfl h.behind
    rw [hneed, Bool.and_true]
    rfl

/-- Limiting takes the signals in their order. -/
theorem limitSignals_records (h : m.EdgesAgree) (henrolled : m.Enrolled) (hnodup : ids.Nodup)
    (hs : m.Bears ids ss) (htaken : ∀ v, v ∈ taken ↔ v ∈ m.varIds) :
    ∃ m', (limitSignals (ids.filter fun id => (m.signal? id).any Signal.needsLimiter)).run m =
      .ok () m' ∧ m.Limited taken ids ss m' := by
  induction ids generalizing m ss taken with
  | nil =>
      cases hs
      exact ⟨m, rfl, limited_nil h henrolled⟩
  | cons id ids ih =>
      obtain ⟨s, rest, hid, hrest, rfl⟩ := List.forall₂_cons_left_iff.mp hs
      obtain ⟨hnew, hnodup⟩ := List.nodup_cons.mp hnodup
      rw [List.filter_cons, hid, Option.any_some]
      cases hneed : s.needsLimiter with
      | false =>
          obtain ⟨m', hrun, hlimited⟩ := ih h henrolled hnodup hrest htaken
          exact ⟨m', hrun, hlimited.free hnew hid hneed⟩
      | true =>
          have hkept : ∀ j ∈ ids, ∀ x, m.signal? j = some x → (m.splice id s).signal? j = some x := by
            intro j hj x hx
            exact splice_signal?_of_ne hid (fun heq => hnew (heq ▸ hj)) hx
          have hdue : (ids.filter fun j => (m.signal? j).any Signal.needsLimiter) =
              ids.filter fun j => ((m.splice id s).signal? j).any Signal.needsLimiter := by
            refine List.filter_congr fun j hj => ?_
            obtain ⟨x, -, hx⟩ := forall₂_exists hrest j hj
            rw [hkept j hj x hx, hx]
          have htaken' : ∀ v, v ∈ freshName m.varIds (s.varId ++ "_unlim") :: taken ↔
              v ∈ (m.splice id s).varIds := fun v => by
            rw [List.mem_cons, mem_splice_varIds hid, htaken]
          obtain ⟨m', hrun, hlimited⟩ :=
            ih (h.splice hid) (henrolled.split.attach _) hnodup (Bears.congr hrest hkept) htaken'
          refine ⟨m', ?_, hlimited.limited rfl hnew (fun j hj => ?_) hid hneed htaken⟩
          · rw [if_pos rfl, hdue]
            exact run_bind_ok.mpr ⟨(), _, limitSignal_run h hid, hrun⟩
          · obtain ⟨x, -, hx⟩ := forall₂_exists hrest j hj
            exact signal?_lt hx

end Limit

section Complete

variable [Scalar α] {m f : Model α}

/-- The interface of a completed model that had none before. The inputs are the open signals as they stand
in front of their limiters, in the order of the arena; the outputs are the exposed signals, those without
limiter in front of those with one. -/
theorem complete_interface (h : m.EdgesAgree) (henrolled : m.Enrolled) (hinputs : m.inputs = [])
    (houtputs : m.outputs = []) (hresults : m.results = []) (hrun : complete.run m = .ok () f) :
    f.inputVector =
      ((Signal.fronts m.varIds m.signals.toList).filter Signal.isOpen).map Signal.atInput ∧
    f.outputVector =
      (m.signals.toList.filter fun s => s.isExposed && !s.needsLimiter).map Signal.atOutput ++
        (m.signals.toList.filter fun s => s.isExposed && s.needsLimiter).map Signal.atOutput := by
  have htaken : ∀ v, v ∈ m.varIds ↔ v ∈ m.varIds := fun _ => Iff.rfl
  obtain ⟨m₁, hrun₁, h₁⟩ :=
    limitSignals_records h henrolled (Handle.nodup_all _) m.bears_signalIds htaken
  obtain ⟨m₂, hrun₂, h₂, hinputs₂⟩ := feedSignals_records h₁.edges h₁.enrolled
  obtain ⟨m₃, hrun₃, hinputs₃, houtputs₃⟩ := tapSignals_records h₂.edges h₂.enrolled
    (h₂.outputs.trans (h₁.outputs.trans houtputs)) (h₂.results.trans (h₁.results.trans hresults))
  have hrun' : complete.run m = .ok () m₃ :=
    run_bind_ok.mpr ⟨m, m, rfl, run_bind_ok.mpr ⟨(), m₁, hrun₁, run_bind_ok.mpr ⟨m₁, m₁, rfl,
      run_bind_ok.mpr ⟨(), m₂, hrun₂, run_bind_ok.mpr ⟨m₂, m₂, rfl, hrun₃⟩⟩⟩⟩⟩
  cases hrun.symm.trans hrun'
  obtain ⟨ts, hts, hopen, hexposed⟩ := h₁.before
  have hsplit : m₁.signals.toList = ts ++ m₁.signals.toList.drop m.signals.size := by
    rw [hts.eq_take, List.take_append_drop]
  constructor
  · rw [hinputs₃, hinputs₂, inputVector, h₁.inputs, hinputs, hsplit, List.filter_append, h₁.closed,
      List.append_nil, hopen]
    rfl
  · rw [houtputs₃, exposed_of_sourceless h₂.signals, hsplit, List.filter_append, List.map_append,
      hexposed, h₁.behind]

end Complete

end Model

end BlockDiagram
