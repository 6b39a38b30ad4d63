import BlockDiagram.Failure
import Mathlib.Data.List.Forall2
/-! Calls: what a call on a state returns and what it leaves behind, read off its parts. -/

namespace BlockDiagram

variable {ε σ β γ : Type}

@[simp] theorem outcome_ok_bind (b : β) (f : β → Except ε γ) : (Except.ok b >>= f) = f b := rfl

@[simp] theorem outcome_error_bind (e : ε) (f : β → Except ε γ) :
    (Except.error e >>= f) = Except.error e := rfl

theorem outcome_bind_ok {x : Except ε β} {f : β → Except ε γ} {c : γ} :
    (x >>= f) = .ok c ↔ ∃ b, x = .ok b ∧ f b = .ok c := by
  constructor
  · intro h
    cases x with
    | ok b => exact ⟨b, rfl, h⟩
    | error e => cases h
  · rintro ⟨b, rfl, h⟩
    exact h

theorem outcome_bind_error {x : Except ε β} {f : β → Except ε γ} {e : ε} :
    (x >>= f) = .error e ↔ x = .error e ∨ ∃ b, x = .ok b ∧ f b = .error e := by
  constructor
  · intro h
    cases x with
    | ok b => exact .inr ⟨b, rfl, h⟩
    | error e => cases h; exact .inl rfl
  · rintro (rfl | ⟨b, rfl, h⟩)
    · rfl
    · exact h

theorem outcome_map_ok {x : Except ε β} {f : β → γ} {c : γ} :
    (f <$> x) = .ok c ↔ ∃ b, x = .ok b ∧ f b = c := by
  constructor
  · intro h
    cases x with
    | ok b => exact ⟨b, rfl, by cases h; rfl⟩
    | error e => cases h
  · rintro ⟨b, rfl, rfl⟩
    rfl

theorem outcome_mapError_ok {ε' : Type} {x : Except ε β} {f : ε → ε'} {b : β} :
    x.mapError f = .ok b ↔ x = .ok b := by
  cases x with
  | ok c => exact Iff.of_eq (by rw [Except.mapError, Except.ok.injEq, Except.ok.injEq])
  | error e => exact ⟨nofun, nofun⟩

theorem outcome_of_any {x : Except ε β} {p : β → Bool} (h : x.toOption.any p = true) :
    ∃ b, x = .ok b ∧ p b = true := by
  cases x with
  | ok b => exact ⟨b, rfl, h⟩
  | error e => cases h

theorem outcome_mapM_ok {f : β → Except ε γ} {xs : List β} {ys : List γ} :
    xs.mapM f = .ok ys ↔ List.Forall₂ (fun x y => f x = .ok y) xs ys := by
  induction xs generalizing ys with
  | nil =>
      rw [List.mapM_nil, List.forall₂_nil_left_iff]
      constructor
      · intro h
        cases h
        rfl
      · rintro rfl
        rfl
  | cons x xs ih =>
      rw [List.mapM_cons, outcome_bind_ok]
      constructor
      · rintro ⟨y, hy, h⟩
        obtain ⟨zs, hzs, h⟩ := outcome_bind_ok.mp h
        cases h
        exact .cons hy (ih.mp hzs)
      · intro h
        cases h with
        | cons hy hrest => exact ⟨_, hy, outcome_bind_ok.mpr ⟨_, ih.mpr hrest, rfl⟩⟩

theorem outcome_mapM_error {f : β → Except ε γ} {xs : List β} {e : ε}
    (h : xs.mapM f = .error e) : ∃ x ∈ xs, f x = .error e := by
  induction xs with
  | nil => cases h
  | cons x xs ih =>
      rw [List.mapM_cons] at h
      rcases outcome_bind_error.mp h with hx | ⟨y, -, h⟩
      · exact ⟨x, List.mem_cons_self, hx⟩
      · rcases outcome_bind_error.mp h with hrest | ⟨ys, -, h⟩
        · obtain ⟨z, hz, hfail⟩ := ih hrest
          exact ⟨z, List.mem_cons_of_mem x hz, hfail⟩
        · cases h

theorem outcome_findM? {f : β → Except ε Bool} {p : β → Bool} {xs : List β}
    (h : ∀ x ∈ xs, f x = .ok (p x)) : xs.findM? f = .ok (xs.find? p) := by
  induction xs with
  | nil => rfl
  | cons x xs ih =>
      rw [List.findM?, h x List.mem_cons_self, outcome_ok_bind]
      cases hx : p x with
      | true =>
          rw [List.find?_cons_of_pos hx]
          rfl
      | false =>
          rw [List.find?_cons_of_neg (by rw [hx]; exact Bool.false_ne_true)]
          exact ih fun y hy => h y (List.mem_cons_of_mem x hy)

theorem option_mapM_eq_some {f : β → Option γ} {xs : List β} {ys : List γ} :
    xs.mapM f = some ys ↔ List.Forall₂ (fun x y => f x = some y) xs ys := by
  induction xs generalizing ys with
  | nil =>
      rw [List.mapM_nil, List.forall₂_nil_left_iff]
      constructor
      · intro h
        cases h
        rfl
      · rintro rfl
        rfl
  | cons x xs ih =>
      rw [List.mapM_cons, Option.bind_eq_bind, Option.bind_eq_some_iff]
      constructor
      · rintro ⟨y, hy, h⟩
        obtain ⟨zs, hzs, h⟩ := Option.bind_eq_some_iff.mp h
        cases h
        exact .cons hy (ih.mp hzs)
      · intro h
        cases h with
        | cons hy hrest => exact ⟨_, hy, Option.bind_eq_some_iff.mpr ⟨_, ih.mpr hrest, rfl⟩⟩

theorem forall₂_exists {R : β → γ → Prop} {xs : List β} {ys : List γ}
    (h : List.Forall₂ R xs ys) : ∀ x ∈ xs, ∃ y, y ∈ ys ∧ R x y := by
  induction h with
  | nil => exact fun x hx => by cases hx
  | cons hxy _ ih =>
      intro x hx
      rcases List.mem_cons.mp hx with rfl | hx
      · exact ⟨_, List.mem_cons_self, hxy⟩
      · obtain ⟨y, hy, hr⟩ := ih x hx
        exact ⟨y, List.mem_cons_of_mem _ hy, hr⟩

theorem forall₂_imp {R S : β → γ → Prop} {xs : List β} {ys : List γ} (h : List.Forall₂ R xs ys)
    (himp : ∀ x ∈ xs, ∀ y, R x y → S x y) : List.Forall₂ S xs ys :=
  ((List.forall₂_and_left xs ys).mpr ⟨fun _ hx => hx, h⟩).imp fun x y h => himp x h.1 y h.2

theorem forall₂_comp {δ : Type} {R : β → γ → Prop} {S : γ → δ → Prop} {T : β → δ → Prop}
    {xs : List β} {ys : List γ} {zs : List δ} (h : List.Forall₂ R xs ys) (h' : List.Forall₂ S ys zs)
    (himp : ∀ x y z, R x y → S y z → T x z) : List.Forall₂ T xs zs := by
  induction h generalizing zs with
  | nil =>
      cases h'
      exact .nil
  | cons hxy _ ih =>
      cases h' with
      | cons hyz hrest => exact .cons (himp _ _ _ hxy hyz) (ih hrest)

/-- The failure is not one of a number that is beyond its bound. -/
def ModelError.InBounds {α : Type} (e : ModelError α) : Prop := ∀ i n, e ≠ .outOfBounds i n

@[simp] theorem entry_eq_ok {α : Type} {xs : Array β} {i : Nat} {x : β} :
    (entry xs i : Except (ModelError α) β) = .ok x ↔ xs[i]? = some x := by
  unfold entry
  cases xs[i]? with
  | some y => simp
  | none => simp

theorem entry_error {α : Type} {xs : Array β} {i : Nat} {e : ModelError α}
    (h : entry xs i = .error e) : ∃ i n, e = .outOfBounds i n := by
  unfold entry at h
  split at h
  · cases h
  · cases h
    exact ⟨_, _, rfl⟩

namespace Call

theorem run_bind_ok {x : EStateM ε σ β} {f : β → EStateM ε σ γ} {s s' : σ} {c : γ} :
    (x >>= f).run s = .ok c s' ↔ ∃ b t, x.run s = .ok b t ∧ (f b).run t = .ok c s' := by
  rw [EStateM.run_bind]
  constructor
  · intro h
    cases hx : x.run s with
    | ok b t => exact ⟨b, t, rfl, by rwa [hx] at h⟩
    | error e t => rw [hx] at h; cases h
  · rintro ⟨b, t, hx, h⟩
    rw [hx]
    exact h

/-- A call that succeeds in its first part succeeds if the rest does from there. -/
theorem exists_run_bind {x : EStateM ε σ β} {f : β → EStateM ε σ γ} {s t : σ} {b : β}
    (hx : x.run s = .ok b t) (hf : ∃ c u, (f b).run t = .ok c u) :
    ∃ c u, (x >>= f).run s = .ok c u := by
  obtain ⟨c, u, hrun⟩ := hf
  exact ⟨c, u, run_bind_ok.mpr ⟨b, t, hx, hrun⟩⟩

theorem run_bind_error {x : EStateM ε σ β} {f : β → EStateM ε σ γ} {s s' : σ} {e : ε} :
    (x >>= f).run s = .error e s' ↔
      x.run s = .error e s' ∨ ∃ b t, x.run s = .ok b t ∧ (f b).run t = .error e s' := by
  rw [EStateM.run_bind]
  constructor
  · intro h
    cases hx : x.run s with
    | ok b t => exact .inr ⟨b, t, rfl, by rwa [hx] at h⟩
    | error e t => rw [hx] at h; cases h; exact .inl rfl
  · rintro (hx | ⟨b, t, hx, h⟩)
    · rw [hx]
    · rw [hx]
      exact h

@[simp] theorem run_lift (x : Except ε β) (s : σ) :
    (liftM x : EStateM ε σ β).run s =
      match x with
      | .ok b => .ok b s
      | .error e => .error e s := by
  cases x <;> rfl

theorem run_lift_ok {x : Except ε β} {s s' : σ} {b : β} :
    (liftM x : EStateM ε σ β).run s = .ok b s' ↔ x = .ok b ∧ s' = s := by
  rw [run_lift]
  cases x with
  | ok c =>
      constructor
      · intro h
        cases h
        exact ⟨rfl, rfl⟩
      · rintro ⟨⟨⟩, rfl⟩
        rfl
  | error e =>
      constructor
      · intro h
        cases h
      · rintro ⟨⟨⟩, -⟩

theorem run_discard_error {x : EStateM ε σ β} {s s' : σ} {e : ε} :
    (do let _ ← x : EStateM ε σ Unit).run s = .error e s' ↔ x.run s = .error e s' := by
  rw [run_bind_error]
  constructor
  · rintro (h | ⟨b, t, -, h⟩)
    · exact h
    · cases h
  · exact .inl

@[simp] theorem run_map (f : β → γ) (x : EStateM ε σ β) (s : σ) :
    (f <$> x).run s =
      match x.run s with
      | .ok b t => .ok (f b) t
      | .error e t => .error e t := by
  change (EStateM.map f x) s = _
  unfold EStateM.map EStateM.run
  cases x s <;> rfl

/-- The call fails for the given reason or, where there is none, succeeds with a result as described. -/
def Concludes (x : EStateM ε σ β) (s : σ) (failure? : Option ε) (P : β → σ → Prop) : Prop :=
  match failure? with
  | some e => ∃ t, x.run s = .error e t
  | none => ∃ b t, x.run s = .ok b t ∧ P b t

theorem Concludes.imp {x : EStateM ε σ β} {s : σ} {failure? : Option ε} {P Q : β → σ → Prop}
    (h : Concludes x s failure? P) (himp : ∀ b t, x.run s = .ok b t → P b t → Q b t) :
    Concludes x s failure? Q := by
  cases failure? with
  | some e => exact h
  | none =>
      obtain ⟨b, t, hrun, ht⟩ := h
      exact ⟨b, t, hrun, himp b t hrun ht⟩

theorem Concludes.of_run {x y : EStateM ε σ β} {s : σ} {failure? : Option ε} {P : β → σ → Prop}
    (h : Concludes y s failure? P) (hrun : x.run s = y.run s) : Concludes x s failure? P := by
  unfold Concludes
  rw [hrun]
  exact h

/-- The first part that fails decides. -/
theorem Concludes.bind {x : EStateM ε σ β} {f : β → EStateM ε σ γ} {s : σ}
    {first? second? : Option ε} {P : β → σ → Prop} {Q : γ → σ → Prop} (h : Concludes x s first? P)
    (hf : ∀ b t, x.run s = .ok b t → P b t → Concludes (f b) t second? Q) :
    Concludes (x >>= f) s (first?.or second?) Q := by
  cases first? with
  | some e =>
      obtain ⟨t, hrun⟩ := h
      exact ⟨t, run_bind_error.mpr (.inl hrun)⟩
  | none =>
      obtain ⟨b, t, hrun, ht⟩ := h
      have hrest := hf b t hrun ht
      rw [Option.none_or]
      cases second? with
      | some e =>
          obtain ⟨u, hfail⟩ := hrest
          exact ⟨u, run_bind_error.mpr (.inr ⟨b, t, hrun, hfail⟩)⟩
      | none =>
          obtain ⟨c, u, hok, hu⟩ := hrest
          exact ⟨c, u, run_bind_ok.mpr ⟨b, t, hrun, hok⟩, hu⟩

theorem Concludes.discard {x : EStateM ε σ β} {s : σ} {failure? : Option ε} {P : σ → Prop}
    (h : Concludes x s failure? fun _ => P) :
    Concludes (do let _ ← x : EStateM ε σ Unit) s failure? fun _ => P := by
  rw [← Option.or_none (o := failure?)]
  exact h.bind fun _ t _ ht => ⟨(), t, rfl, ht⟩

/-- The state a call ends in, whether it succeeds or fails. -/
def final (x : EStateM ε σ β) (s : σ) : σ :=
  match x.run s with
  | .ok _ t => t
  | .error _ t => t

theorem final_of_ok {x : EStateM ε σ β} {s t : σ} {b : β} (h : x.run s = .ok b t) :
    final x s = t := by
  rw [final, h]

theorem final_of_error {x : EStateM ε σ β} {s t : σ} {e : ε} (h : x.run s = .error e t) :
    final x s = t := by
  rw [final, h]

/-- The call never leads from a state with the property to one without it. -/
def Keeps (P : σ → Prop) (x : EStateM ε σ β) : Prop := ∀ s, P s → P (final x s)

section Keeps

variable {P : σ → Prop}

theorem keeps_of_run {x : EStateM ε σ β} (hok : ∀ s b t, P s → x.run s = .ok b t → P t)
    (herror : ∀ s e t, P s → x.run s = .error e t → P t) : Keeps P x := by
  intro s hs
  unfold final
  cases h : x.run s with
  | ok b t => exact hok s b t hs h
  | error e t => exact herror s e t hs h

theorem Keeps.ok {x : EStateM ε σ β} (hx : Keeps P x) {s t : σ} {b : β} (hs : P s)
    (h : x.run s = .ok b t) : P t := by
  have ht := hx s hs
  rwa [final_of_ok h] at ht

theorem Keeps.error {x : EStateM ε σ β} (hx : Keeps P x) {s t : σ} {e : ε} (hs : P s)
    (h : x.run s = .error e t) : P t := by
  have ht := hx s hs
  rwa [final_of_error h] at ht

theorem keeps_pure (b : β) : Keeps P (pure b : EStateM ε σ β) := fun _ hs => hs

theorem keeps_fail (e : ε) : Keeps P (throw e : EStateM ε σ β) := fun _ hs => hs

theorem keeps_lift (x : Except ε β) : Keeps P (liftM x : EStateM ε σ β) := by
  intro s hs
  cases x with
  | ok b => exact hs
  | error e => exact hs

theorem keeps_get : Keeps P (get : EStateM ε σ σ) := fun _ hs => hs

theorem keeps_modify {f : σ → σ} (h : ∀ s, P s → P (f s)) :
    Keeps P (modify f : EStateM ε σ PUnit) := h

theorem keeps_bind {x : EStateM ε σ β} {f : β → EStateM ε σ γ} (hx : Keeps P x)
    (hf : ∀ b, Keeps P (f b)) : Keeps P (x >>= f) := by
  apply keeps_of_run
  · intro s c t hs h
    obtain ⟨b, u, hb, hc⟩ := run_bind_ok.mp h
    exact (hf b).ok (hx.ok hs hb) hc
  · intro s e t hs h
    rcases run_bind_error.mp h with hb | ⟨b, u, hb, hc⟩
    · exact hx.error hs hb
    · exact (hf b).error (hx.ok hs hb) hc

theorem keeps_mapM {f : β → EStateM ε σ γ} (hf : ∀ b, Keeps P (f b)) (xs : List β) :
    Keeps P (xs.mapM f) := by
  induction xs with
  | nil => exact keeps_pure []
  | cons x xs ih =>
      rw [List.mapM_cons]
      exact keeps_bind (hf x) fun b => keeps_bind ih fun bs => keeps_pure (b :: bs)

end Keeps

section FailsOnly

variable {P : ε → Prop}

/-- From whatever state it starts, the call fails for reasons of the described kind only. -/
def FailsOnly (P : ε → Prop) (x : EStateM ε σ β) : Prop := ∀ s e t, x.run s = .error e t → P e

theorem failsOnly_pure (b : β) : FailsOnly P (pure b : EStateM ε σ β) := by
  intro s e t h
  cases h

theorem failsOnly_fail {e : ε} (he : P e) : FailsOnly P (throw e : EStateM ε σ β) := by
  intro s e' t h
  cases h
  exact he

theorem failsOnly_get : FailsOnly P (get : EStateM ε σ σ) := by
  intro s e t h
  cases h

theorem failsOnly_modify (f : σ → σ) : FailsOnly P (modify f : EStateM ε σ PUnit) := by
  intro s e t h
  cases h

theorem failsOnly_lift {x : Except ε β} (hx : ∀ e, x = .error e → P e) :
    FailsOnly P (liftM x : EStateM ε σ β) := by
  intro s e t h
  cases x with
  | ok b => cases h
  | error e' =>
      cases h
      exact hx e rfl

theorem failsOnly_bind {x : EStateM ε σ β} {f : β → EStateM ε σ γ} (hx : FailsOnly P x)
    (hf : ∀ b, FailsOnly P (f b)) : FailsOnly P (x >>= f) := by
  intro s e t h
  rcases run_bind_error.mp h with hfirst | ⟨b, u, -, hsecond⟩
  · exact hx s e t hfirst
  · exact hf b u e t hsecond

theorem failsOnly_mapM {f : β → EStateM ε σ γ} (hf : ∀ b, FailsOnly P (f b)) (xs : List β) :
    FailsOnly P (xs.mapM f) := by
  induction xs with
  | nil => exact failsOnly_pure []
  | cons x xs ih =>
      rw [List.mapM_cons]
      exact failsOnly_bind (hf x) fun b => failsOnly_bind ih fun bs => failsOnly_pure (b :: bs)

end FailsOnly

section Respects

variable {R : σ → σ → Prop}

/-- From related states the call answers alike, and leads to related states. -/
def Respects (R : σ → σ → Prop) (x : EStateM ε σ β) : Prop :=
  ∀ s t, R s t → (∃ b s' t', x.run s = .ok b s' ∧ x.run t = .ok b t' ∧ R s' t') ∨
    ∃ e s' t', x.run s = .error e s' ∧ x.run t = .error e t' ∧ R s' t'

theorem Respects.final {x : EStateM ε σ β} (hx : Respects R x) {s t : σ} (h : R s t) :
    R (final x s) (final x t) := by
  rcases hx s t h with ⟨b, s', t', hs, ht, h'⟩ | ⟨e, s', t', hs, ht, h'⟩
  · rwa [final_of_ok hs, final_of_ok ht]
  · rwa [final_of_error hs, final_of_error ht]

theorem respects_pure (b : β) : Respects R (pure b : EStateM ε σ β) :=
  fun s t h => .inl ⟨b, s, t, rfl, rfl, h⟩

theorem respects_fail (e : ε) : Respects R (throw e : EStateM ε σ β) :=
  fun s t h => .inr ⟨e, s, t, rfl, rfl, h⟩

theorem respects_lift (x : Except ε β) : Respects R (liftM x : EStateM ε σ β) := by
  cases x with
  | ok b => exact respects_pure b
  | error e => exact respects_fail e

/-- What is read from the state has to be the same in related states. -/
theorem respects_get {f : σ → EStateM ε σ β} (hsame : ∀ s t, R s t → f t = f s)
    (hf : ∀ s, Respects R (f s)) : Respects R (get >>= f) := by
  intro s t h
  have hs : (get >>= f).run s = (f s).run s := rfl
  have ht : (get >>= f).run t = (f t).run t := rfl
  rw [hs, ht, hsame s t h]
  exact hf s s t h

theorem respects_modify {f : σ → σ} (h : ∀ s t, R s t → R (f s) (f t)) :
    Respects R (modify f : EStateM ε σ PUnit) :=
  fun s t hst => .inl ⟨⟨⟩, f s, f t, rfl, rfl, h s t hst⟩

theorem respects_bind {x : EStateM ε σ β} {f : β → EStateM ε σ γ} (hx : Respects R x)
    (hf : ∀ b, Respects R (f b)) : Respects R (x >>= f) := by
  intro s t h
  rcases hx s t h with ⟨b, s', t', hs, ht, h'⟩ | ⟨e, s', t', hs, ht, h'⟩
  · rcases hf b s' t' h' with ⟨c, s'', t'', hs', ht', h''⟩ | ⟨e, s'', t'', hs', ht', h''⟩
    · exact .inl ⟨c, s'', t'', run_bind_ok.mpr ⟨b, s', hs, hs'⟩, run_bind_ok.mpr ⟨b, t', ht, ht'⟩, h''⟩
    · exact .inr ⟨e, s'', t'', run_bind_error.mpr (.inr ⟨b, s', hs, hs'⟩),
        run_bind_error.mpr (.inr ⟨b, t', ht, ht'⟩), h''⟩
  · exact .inr ⟨e, s', t', run_bind_error.mpr (.inl hs), run_bind_error.mpr (.inl ht), h'⟩

theorem respects_mapM {f : β → EStateM ε σ γ} (hf : ∀ b, Respects R (f b)) (xs : List β) :
    Respects R (xs.mapM f) := by
  induction xs with
  | nil => exact respects_pure []
  | cons x xs ih =>
      rw [List.mapM_cons]
      exact respects_bind (hf x) fun b => respects_bind ih fun bs => respects_pure (b :: bs)

end Respects

end Call

end BlockDiagram
