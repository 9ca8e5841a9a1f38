import Mathlib

/-!
# Weakest preconditions for state with exceptions

`EStateM ε σ` keeps the state when an exception is raised: what was assigned before the raise stays
assigned. `wp m Q E s` says that `m`, run from `s`, ends in `Q` when it returns and in `E` when it
raises. `wp_bind`, `wp_tryCatch`, `wp_forM` and `wp_foldlM` are the rules for sequencing, handlers
and loops; `Leaves R m` is the two-state form, for a relation `R` between the states before and
after.
-/

namespace OpenBmc

variable {ε σ α β γ : Type}

def wp (m : EStateM ε σ α) (Q : α → σ → Prop) (E : ε → σ → Prop) (s : σ) : Prop :=
  match m s with
  | .ok a s' => Q a s'
  | .error e s' => E e s'

/-- The state an outcome leaves, returned or raised. -/
def outState : EStateM.Result ε σ α → σ
  | .ok _ s => s
  | .error _ s => s

/-- The run returned, it did not raise. -/
def returned : EStateM.Result ε σ α → Bool
  | .ok _ _ => true
  | .error _ _ => false

theorem returned_iff {r : EStateM.Result ε σ Unit} : returned r ↔ r = .ok () (outState r) := by
  cases r <;> simp [returned, outState]

section Rules
variable {Q Q' : α → σ → Prop} {E E' : ε → σ → Prop} {s : σ}

theorem wp_of_eq_ok {m : EStateM ε σ α} {a : α} {s' : σ} (h : m s = .ok a s') :
    wp m Q E s ↔ Q a s' := by simp [wp, h]

theorem wp_of_eq_error {m : EStateM ε σ α} {e : ε} {s' : σ} (h : m s = .error e s') :
    wp m Q E s ↔ E e s' := by simp [wp, h]

theorem wp.of_ok {m : EStateM ε σ α} {a : α} {s' : σ} (h : wp m Q E s) (hm : m s = .ok a s') :
    Q a s' := (wp_of_eq_ok hm).1 h

theorem wp.of_error {m : EStateM ε σ α} {e : ε} {s' : σ} (h : wp m Q E s)
    (hm : m s = .error e s') : E e s' := (wp_of_eq_error hm).1 h

theorem wp.outState {m : EStateM ε σ α} {P : σ → Prop} (h : wp m (fun _ => P) (fun _ => P) s) :
    P (outState (m s)) := by
  unfold wp at h
  unfold OpenBmc.outState
  split at h <;> simp_all

theorem wp_of_outState {m : EStateM ε σ α} {P : σ → Prop} (h : P (OpenBmc.outState (m s))) :
    wp m (fun _ => P) (fun _ => P) s := by
  unfold OpenBmc.outState at h
  unfold wp
  split at h <;> simp_all

theorem wp.mono {m : EStateM ε σ α} (h : wp m Q E s) (hQ : ∀ a s', Q a s' → Q' a s')
    (hE : ∀ e s', E e s' → E' e s') : wp m Q' E' s := by
  unfold wp at h ⊢
  split at h
  · exact hQ _ _ h
  · exact hE _ _ h

theorem wp.and {m : EStateM ε σ α} (h : wp m Q E s) (h' : wp m Q' E' s) :
    wp m (fun a s => Q a s ∧ Q' a s) (fun e s => E e s ∧ E' e s) s := by
  unfold wp at h h' ⊢
  split at h <;> simp_all

/-- What is known of the outcome may be assumed when proving more about it. -/
theorem wp.mp {m : EStateM ε σ α} (h : wp m Q E s)
    (h' : wp m (fun a s => Q a s → Q' a s) (fun e s => E e s → E' e s) s) : wp m Q' E' s :=
  (h'.and h).mono (fun _ _ h => h.1 h.2) fun _ _ h => h.1 h.2

@[simp] theorem wp_pure {a : α} : wp (pure a) Q E s ↔ Q a s := Iff.rfl

@[simp] theorem wp_throw {e : ε} : wp (throw e : EStateM ε σ α) Q E s ↔ E e s := Iff.rfl

@[simp] theorem wp_get {Q : σ → σ → Prop} : wp (get : EStateM ε σ σ) Q E s ↔ Q s s := Iff.rfl

@[simp] theorem wp_set {s' : σ} {Q : PUnit → σ → Prop} :
    wp (set s' : EStateM ε σ PUnit) Q E s ↔ Q ⟨⟩ s' := Iff.rfl

@[simp] theorem wp_modify {f : σ → σ} {Q : PUnit → σ → Prop} :
    wp (modify f : EStateM ε σ PUnit) Q E s ↔ Q ⟨⟩ (f s) := Iff.rfl

@[simp] theorem wp_modifyGet {f : σ → α × σ} :
    wp (modifyGet f : EStateM ε σ α) Q E s ↔ Q (f s).1 (f s).2 := Iff.rfl

theorem bind_eq (m : EStateM ε σ α) (f : α → EStateM ε σ β) (s : σ) :
    (m >>= f) s = match m s with
      | .ok a s' => f a s'
      | .error e s' => .error e s' := rfl

theorem get_bind (f : σ → EStateM ε σ β) (s : σ) : (get >>= f) s = f s s := rfl

theorem bind_ok_iff {m : EStateM ε σ α} {f : α → EStateM ε σ β} {s' : σ} {b : β} :
    (m >>= f) s = .ok b s' ↔ ∃ a t, m s = .ok a t ∧ f a t = .ok b s' := by
  rw [bind_eq]
  cases m s with
  | ok a t =>
    constructor
    · exact fun h => ⟨a, t, rfl, h⟩
    · rintro ⟨a', t', h, h'⟩
      cases h
      exact h'
  | error e t =>
    refine ⟨nofun, ?_⟩
    rintro ⟨a', t', h, -⟩
    cases h

theorem pure_ok_iff {a b : α} {s' : σ} :
    (pure a : EStateM ε σ α) s = .ok b s' ↔ b = a ∧ s' = s := by
  constructor
  · rintro ⟨⟩
    exact ⟨rfl, rfl⟩
  · rintro ⟨rfl, rfl⟩
    rfl

@[simp] theorem wp_bind {m : EStateM ε σ α} {f : α → EStateM ε σ β} {Q : β → σ → Prop} :
    wp (m >>= f) Q E s ↔ wp m (fun a => wp (f a) Q E) E s := by
  unfold wp
  rw [bind_eq]
  cases m s <;> rfl

@[simp] theorem wp_map {m : EStateM ε σ α} {f : α → β} {Q : β → σ → Prop} :
    wp (f <$> m) Q E s ↔ wp m (fun a => Q (f a)) E s := by
  rw [map_eq_pure_bind, wp_bind]
  rfl

@[simp] theorem wp_ite {c : Prop} [Decidable c] {m m' : EStateM ε σ α} :
    wp (if c then m else m') Q E s ↔ (c → wp m Q E s) ∧ (¬ c → wp m' Q E s) := by
  split <;> simp [*]

@[simp] theorem wp_tryCatch {m : EStateM ε σ α} {h : ε → EStateM ε σ α} :
    wp (tryCatch m h) Q E s ↔ wp m Q (fun e => wp (h e) Q E) s := by
  have : (tryCatch m h : EStateM ε σ α) s = match m s with
      | .ok a s' => .ok a s'
      | .error e s' => h e s' := by
    show EStateM.tryCatch m h s = _
    unfold EStateM.tryCatch
    cases m s <;> rfl
  unfold wp
  rw [this]
  cases m s <;> rfl

/-- `x` itself is a value or an exception: lifting it changes no state. -/
def liftExcept : Except ε α → EStateM ε σ α
  | .ok a => pure a
  | .error e => throw e

theorem liftExcept_ok_iff {x : Except ε α} {s' : σ} {a : α} :
    (liftExcept x : EStateM ε σ α) s = .ok a s' ↔ x = .ok a ∧ s' = s := by
  cases x with
  | error e => exact ⟨nofun, fun h => nomatch h.1⟩
  | ok b =>
    constructor
    · rintro ⟨⟩
      exact ⟨rfl, rfl⟩
    · rintro ⟨⟨⟩, rfl⟩
      rfl

theorem bindExcept_ok_iff {x : Except ε α} {f : α → Except ε β} {b : β} :
    x >>= f = .ok b ↔ ∃ a, x = .ok a ∧ f a = .ok b := by
  cases x with
  | error e => exact ⟨nofun, fun h => nomatch h⟩
  | ok a => exact ⟨fun h => ⟨a, rfl, h⟩, fun ⟨_, h, h'⟩ => by cases h; exact h'⟩

/-- The value is the one that `getD` finds, whatever the default. -/
theorem ok_iff_toOption {x : Except ε α} {a d : α} :
    x = .ok a ↔ (∃ b, x = .ok b) ∧ a = x.toOption.getD d := by
  cases x with
  | error e => exact ⟨nofun, fun h => nomatch h.1⟩
  | ok b =>
    constructor
    · rintro ⟨⟩
      exact ⟨⟨a, rfl⟩, rfl⟩
    · rintro ⟨-, rfl⟩
      rfl

@[simp] theorem wp_liftExcept {x : Except ε α} :
    wp (liftExcept x : EStateM ε σ α) Q E s ↔
      (∀ a, x = .ok a → Q a s) ∧ (∀ e, x = .error e → E e s) := by
  cases x <;> simp [liftExcept]

/-- A loop keeps what each of its bodies keeps, whether it runs to the end or raises midway. -/
theorem wp_forM {l : List α} {f : α → EStateM ε σ PUnit} {I : List α → σ → Prop}
    {E : ε → σ → Prop} (h0 : I l s)
    (hstep : ∀ a rest s, I (a :: rest) s → wp (f a) (fun _ => I rest) E s) :
    wp (forM l f) (fun _ => I []) E s := by
  induction l generalizing s with
  | nil => exact h0
  | cons a rest ih =>
    rw [List.forM_cons, wp_bind]
    exact (hstep a rest s h0).mono (fun _ _ h => ih h) fun _ _ h => h

/-- `wp_forM` for a loop that carries a value from body to body. -/
theorem wp_foldlM {l : List α} {f : β → α → EStateM ε σ β} {b : β} {I : List α → β → σ → Prop}
    {E : ε → σ → Prop} (h0 : I l b s)
    (hstep : ∀ a rest b s, I (a :: rest) b s → wp (f b a) (I rest) E s) :
    wp (l.foldlM f b) (I []) E s := by
  induction l generalizing b s with
  | nil => exact h0
  | cons a rest ih =>
    rw [List.foldlM_cons, wp_bind]
    exact (hstep a rest b s h0).mono (fun _ _ h => ih h) fun _ _ h => h

end Rules

/-! ### Two-state relations -/

/-- Whatever the outcome of `m`, the states before and after are related by `R`. -/
def Leaves (R : σ → σ → Prop) (m : EStateM ε σ α) : Prop :=
  ∀ s, wp m (fun _ => R s) (fun _ => R s) s

namespace Leaves
variable {R : σ → σ → Prop}

theorem outState {m : EStateM ε σ α} (h : Leaves R m) (s : σ) : R s (outState (m s)) :=
  (h s).outState

theorem mono {R' : σ → σ → Prop} {m : EStateM ε σ α} (h : Leaves R m)
    (hR : ∀ s s', R s s' → R' s s') : Leaves R' m :=
  fun s => (h s).mono (fun _ _ => hR _ _) fun _ _ => hR _ _

theorem pure [IsPreorder σ R] (a : α) : Leaves R (pure a : EStateM ε σ α) := fun s => refl_of R s

theorem throw [IsPreorder σ R] (e : ε) : Leaves R (throw e : EStateM ε σ α) := fun s => refl_of R s

theorem get [IsPreorder σ R] : Leaves R (MonadState.get : EStateM ε σ σ) := fun s => refl_of R s

theorem liftExcept [IsPreorder σ R] (x : Except ε α) : Leaves R (OpenBmc.liftExcept x : EStateM ε σ α) := by
  cases x
  · exact throw _
  · exact pure _

theorem modify {f : σ → σ} (h : ∀ s, R s (f s)) : Leaves R (modify f : EStateM ε σ PUnit) := h

theorem bind [IsPreorder σ R] {m : EStateM ε σ α} {f : α → EStateM ε σ β} (hm : Leaves R m)
    (hf : ∀ a, Leaves R (f a)) : Leaves R (m >>= f) := fun s => by
  rw [wp_bind]
  exact (hm s).mono
    (fun a s' h => (hf a s').mono (fun _ _ h' => trans_of R h h') fun _ _ h' => trans_of R h h')
    fun _ _ h => h

theorem bindExcept [IsPreorder σ R] {x : Except ε α} {f : α → EStateM ε σ β}
    (hf : ∀ a, x = .ok a → Leaves R (f a)) : Leaves R (OpenBmc.liftExcept x >>= f) := by
  cases x with
  | error e => exact throw e
  | ok a => exact hf a rfl

theorem ite {c : Prop} [Decidable c] {m m' : EStateM ε σ α} (h : Leaves R m) (h' : Leaves R m') :
    Leaves R (if c then m else m') := by split <;> assumption

theorem tryCatch [IsPreorder σ R] {m : EStateM ε σ α} {h : ε → EStateM ε σ α} (hm : Leaves R m)
    (hh : ∀ e, Leaves R (h e)) : Leaves R (tryCatch m h) := fun s => by
  rw [wp_tryCatch]
  exact (hm s).mono (fun _ _ h => h)
    fun e s' h => (hh e s').mono (fun _ _ h' => trans_of R h h') fun _ _ h' => trans_of R h h'

theorem forM [IsPreorder σ R] {l : List α} {f : α → EStateM ε σ PUnit}
    (h : ∀ a ∈ l, Leaves R (f a)) : Leaves R (forM l f) := by
  induction l with
  | nil => exact pure _
  | cons a rest ih =>
    rw [List.forM_cons]
    exact bind (h a (by simp)) fun _ => ih fun b hb => h b (by simp [hb])

end Leaves

/-! ### What the end of a program ensures -/

/-- From any state, `m` returns only to states that satisfy `Q`. -/
def Ends (Q : σ → Prop) (m : EStateM ε σ α) : Prop :=
  ∀ s, wp m (fun _ => Q) (fun _ _ => True) s

namespace Ends
variable {Q : σ → Prop}

/-- The last statement decides. -/
theorem bind {m : EStateM ε σ α} {f : α → EStateM ε σ β} (h : ∀ a, Ends Q (f a)) :
    Ends Q (m >>= f) := fun s => by
  rw [wp_bind]
  unfold wp
  split
  · exact h _ _
  · trivial

theorem throw (e : ε) : Ends Q (throw e : EStateM ε σ α) := fun _ => trivial

theorem ite {c : Prop} [Decidable c] {m m' : EStateM ε σ α} (h : Ends Q m) (h' : Ends Q m') :
    Ends Q (if c then m else m') := by split <;> assumption

/-- The statements after `m` keep what it ensures. -/
theorem bind_leaves {m : EStateM ε σ α} {f : α → EStateM ε σ β} {R : σ → σ → Prop} (hm : Ends Q m)
    (hf : ∀ a, Leaves R (f a)) (hR : ∀ s s', Q s → R s s' → Q s') : Ends Q (m >>= f) := fun s => by
  rw [wp_bind]
  exact (hm s).mono (fun a s' hq => (hf a s').mono (fun _ _ => hR _ _ hq) fun _ _ _ => trivial)
    fun _ _ _ => trivial

end Ends

end OpenBmc
