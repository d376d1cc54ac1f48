import Mathlib.Logic.Basic
import Mathlib.Tactic.Common

/-! Programs over a mutable state that may fail. A failed program still leaves a state: the
one its last completed step reached. -/

/-- A state transformer with an error result. -/
structure Prog (ε σ α : Type) where
  run : σ → Except ε α × σ

namespace Prog
variable {ε σ τ α β : Type}

instance : Monad (Prog ε σ) where
  pure a := ⟨fun s => (.ok a, s)⟩
  bind x f := ⟨fun s =>
    match x.run s with
    | (.ok a, s') => (f a).run s'
    | (.error e, s') => (.error e, s')⟩

def state : Prog ε σ σ := ⟨fun s => (.ok s, s)⟩

def update (f : σ → σ) : Prog ε σ Unit := ⟨fun s => (.ok (), f s)⟩

def fail (e : ε) : Prog ε σ α := ⟨fun s => (.error e, s)⟩

/-- The result of `x`, an error included, as a value. -/
def attempt (x : Prog ε σ α) : Prog ε σ (Except ε α) := ⟨fun s =>
  match x.run s with
  | (r, s') => (.ok r, s')⟩

/-- A result computed without the state. -/
def lift (r : Except ε α) : Prog ε σ α := ⟨fun s => (r, s)⟩

/-- `x` on the part of the state that `part` reads and `put` writes back. -/
def zoom (part : σ → τ) (put : τ → σ → σ) (x : Prog ε τ α) : Prog ε σ α := ⟨fun s =>
  match x.run (part s) with
  | (r, t) => (r, put t s)⟩

/-- Run `f` on every element in order, stopping at the first error. -/
def each (f : α → Prog ε σ Unit) : List α → Prog ε σ Unit
  | [] => pure ()
  | a :: as => do
    f a
    each f as

/-- Run `f` on every element in order and collect the results. -/
def collect (f : α → Prog ε σ β) : List α → Prog ε σ (List β)
  | [] => pure []
  | a :: as => do
    let b ← f a
    let bs ← collect f as
    pure (b :: bs)

@[simp] theorem pure_run (a : α) (s : σ) : (pure a : Prog ε σ α).run s = (.ok a, s) := rfl

@[simp] theorem bind_run (x : Prog ε σ α) (f : α → Prog ε σ β) (s : σ) :
    (x >>= f).run s = match x.run s with
      | (.ok a, s') => (f a).run s'
      | (.error e, s') => (.error e, s') := rfl

@[simp] theorem state_run (s : σ) : (state : Prog ε σ σ).run s = (.ok s, s) := rfl

@[simp] theorem update_run (f : σ → σ) (s : σ) :
    (update f : Prog ε σ Unit).run s = (.ok (), f s) := rfl

@[simp] theorem fail_run (e : ε) (s : σ) : (fail e : Prog ε σ α).run s = (.error e, s) := rfl

@[simp] theorem attempt_run (x : Prog ε σ α) (s : σ) :
    (attempt x).run s = (.ok (x.run s).1, (x.run s).2) := rfl

@[simp] theorem lift_run (r : Except ε α) (s : σ) : (lift r : Prog ε σ α).run s = (r, s) := rfl

@[simp] theorem zoom_run (part : σ → τ) (put : τ → σ → σ) (x : Prog ε τ α) (s : σ) :
    (zoom part put x).run s = ((x.run (part s)).1, put (x.run (part s)).2 s) := rfl

/-- Run from `s`, `x` ends in `Q` when it succeeds and in `E` when it fails. -/
def Sat (x : Prog ε σ α) (s : σ) (Q : α → σ → Prop) (E : ε → σ → Prop) : Prop :=
  match x.run s with
  | (.ok a, s') => Q a s'
  | (.error e, s') => E e s'

variable {x : Prog ε σ α} {f : α → Prog ε σ β} {s : σ}

theorem sat_pure {a : α} {Q : α → σ → Prop} {E : ε → σ → Prop} (h : Q a s) :
    Sat (pure a) s Q E := h

theorem sat_fail {e : ε} {Q : α → σ → Prop} {E : ε → σ → Prop} (h : E e s) :
    Sat (fail e) s Q E := h

theorem Sat.mono {Q Q' : α → σ → Prop} {E E' : ε → σ → Prop} (h : Sat x s Q E)
    (hQ : ∀ a s', Q a s' → Q' a s') (hE : ∀ e s', E e s' → E' e s') : Sat x s Q' E' := by
  unfold Sat at *
  split at h <;> simp_all

theorem Sat.and {Q Q' : α → σ → Prop} {E E' : ε → σ → Prop} (h : Sat x s Q E) (h' : Sat x s Q' E') :
    Sat x s (fun a s' => Q a s' ∧ Q' a s') (fun e s' => E e s' ∧ E' e s') := by
  unfold Sat at *
  split at h <;> simp_all

/-- The state a program ends in is the one its run gives. -/
theorem Sat.self {Q : α → σ → Prop} {E : ε → σ → Prop} (h : Sat x s Q E) :
    Sat x s (fun a s' => Q a s' ∧ s' = (x.run s).2) (fun e s' => E e s' ∧ s' = (x.run s).2) := by
  unfold Sat at h ⊢
  rcases hr : x.run s with ⟨_ | a, s'⟩ <;> rw [hr] at h <;> exact ⟨h, rfl⟩

theorem Sat.of_ok {Q : α → σ → Prop} {E : ε → σ → Prop} {a : α} {s' : σ} (h : Sat x s Q E) (hr : x.run s = (.ok a, s')) :
    Q a s' := by
  unfold Sat at h
  rw [hr] at h
  exact h

theorem Sat.of_error {Q : α → σ → Prop} {E : ε → σ → Prop} {e : ε} {s' : σ} (h : Sat x s Q E)
    (hr : x.run s = (.error e, s')) : E e s' := by
  unfold Sat at h
  rw [hr] at h
  exact h

/-- What holds after both outcomes holds of the state the run leaves. -/
theorem Sat.final {P : σ → Prop} (h : Sat x s (fun _ s' => P s') (fun _ s' => P s')) : P (x.run s).2 := by
  unfold Sat at h
  rcases hr : x.run s with ⟨_ | a, s'⟩ <;> rw [hr] at h <;> exact h

theorem sat_of_final {P : σ → Prop} (h : P (x.run s).2) : Sat x s (fun _ s' => P s') fun _ s' => P s' := by
  unfold Sat
  rcases hr : x.run s with ⟨_ | a, s'⟩ <;> rw [hr] at h <;> exact h

theorem sat_bind {R : α → σ → Prop} {Q : β → σ → Prop} {E : ε → σ → Prop}
    (hx : Sat x s R E) (hf : ∀ a s', R a s' → Sat (f a) s' Q E) : Sat (x >>= f) s Q E := by
  unfold Sat at hx ⊢
  rw [bind_run]
  rcases hr : x.run s with ⟨_ | a, s'⟩ <;> rw [hr] at hx
  · exact hx
  · exact hf a s' hx

theorem sat_state {f : σ → Prog ε σ β} {Q : β → σ → Prop} {E : ε → σ → Prop} (h : Sat (f s) s Q E) :
    Sat (state >>= f) s Q E := h

theorem sat_update {g : σ → σ} {f : Unit → Prog ε σ β} {Q : β → σ → Prop} {E : ε → σ → Prop}
    (h : Sat (f ()) (g s) Q E) : Sat (update g >>= f) s Q E := h

theorem sat_run {a : α} {t : σ} {Q : β → σ → Prop} {E : ε → σ → Prop} (hx : x.run s = (.ok a, t))
    (h : Sat (f a) t Q E) : Sat (x >>= f) s Q E := by
  unfold Sat at h ⊢
  rw [bind_run, hx]
  exact h

/-- `x` runs in one case only, then `f` goes on. -/
theorem sat_when {b : Prop} [Decidable b] {x : Prog ε σ Unit} {f : Unit → Prog ε σ β} {R : σ → Prop}
    {Q : β → σ → Prop} {E : ε → σ → Prop} (hx : b → Sat x s (fun _ s' => R s') E) (hs : ¬ b → R s)
    (hf : ∀ s', R s' → Sat (f ()) s' Q E) : Sat (if b then x >>= f else f ()) s Q E := by
  split
  next hb => exact sat_bind (hx hb) fun _ s' hr => hf s' hr
  next hb => exact hf s (hs hb)

/-- Both outcomes of `x` go on. -/
theorem sat_try {f : Except ε α → Prog ε σ β} {R : α → σ → Prop} {F : ε → σ → Prop}
    {Q : β → σ → Prop} {E : ε → σ → Prop} (hx : Sat x s R F)
    (hok : ∀ a s', R a s' → Sat (f (.ok a)) s' Q E)
    (herr : ∀ e s', F e s' → Sat (f (.error e)) s' Q E) : Sat (attempt x >>= f) s Q E := by
  unfold Sat at hx
  rcases hr : x.run s with ⟨e | a, s'⟩ <;> rw [hr] at hx
  · exact sat_run (by rw [attempt_run, hr]) (herr e s' hx)
  · exact sat_run (by rw [attempt_run, hr]) (hok a s' hx)

/-- Every element keeps `I` and leaves its own fact `P`. -/
theorem sat_each {f : α → Prog ε σ Unit} {I : σ → Prop} {P : α → Prop} {E : ε → σ → Prop} {xs : List α}
    (hf : ∀ x ∈ xs, ∀ s, I s → Sat (f x) s (fun _ s' => I s' ∧ P x) E) :
    ∀ {s : σ}, I s → Sat (each f xs) s (fun _ s' => I s' ∧ ∀ x ∈ xs, P x) E := by
  induction xs with
  | nil => intro s h; exact sat_pure ⟨h, by simp⟩
  | cons x xs ih =>
    intro s h
    refine sat_bind (hf x (by simp) s h) fun _ s₁ h₁ => ?_
    refine (ih (fun y hy => hf y (by simp [hy])) h₁.1).mono (fun _ s₂ h₂ => ⟨h₂.1, ?_⟩) fun _ _ he => he
    simpa using ⟨h₁.2, h₂.2⟩

theorem sat_attempt {Q : Except ε α → σ → Prop} {E : ε → σ → Prop}
    (h : Sat x s (fun a s' => Q (.ok a) s') (fun e s' => Q (.error e) s')) :
    Sat (attempt x) s Q E := by
  unfold Sat at h ⊢
  rw [attempt_run]
  rcases hr : x.run s with ⟨_ | a, s'⟩ <;> simpa [hr] using h

/-- Whatever the state, `x` succeeds with a result in `P` or fails with an error in `E`. -/
def Always (P : α → Prop) (E : ε → Prop) (x : Prog ε σ α) : Prop := ∀ s, Sat x s (fun a _ => P a) fun e _ => E e

section Always

variable {P : α → Prop} {R : β → Prop} {E : ε → Prop}

theorem Always.mono {P' : α → Prop} {E' : ε → Prop} (h : Always P E x) (hP : ∀ a, P a → P' a)
    (hE : ∀ e, E e → E' e) : Always P' E' x := fun s => (h s).mono (fun a _ => hP a) fun e _ => hE e

theorem Always.error (h : Always P E x) {e : ε} (hr : (x.run s).1 = .error e) : E e := by
  have hs := h s
  unfold Sat at hs
  rcases hx : x.run s with ⟨e' | a, s'⟩ <;> rw [hx] at hs hr <;> cases hr
  exact hs

theorem Always.ok (h : Always P E x) {a : α} (hr : (x.run s).1 = .ok a) : P a := by
  have hs := h s
  unfold Sat at hs
  rcases hx : x.run s with ⟨e | a', s'⟩ <;> rw [hx] at hs hr <;> cases hr
  exact hs

/-- The result of a run, whatever it leaves. -/
theorem always_of_fst (hok : ∀ s a, (x.run s).1 = .ok a → P a) (herr : ∀ s e, (x.run s).1 = .error e → E e) :
    Always P E x := by
  intro s
  unfold Sat
  rcases hx : x.run s with ⟨e | a, s'⟩
  · exact herr s e (by rw [hx])
  · exact hok s a (by rw [hx])

theorem always_pure {a : α} (h : P a) : Always P E (pure a : Prog ε σ α) := fun _ => h

theorem always_fail {e : ε} (h : E e) : Always P E (fail e : Prog ε σ α) := fun _ => h

theorem always_update (g : σ → σ) : Always (fun _ => True) E (update g : Prog ε σ Unit) := fun _ => trivial

theorem always_lift {r : Except ε α} (hok : ∀ a, r = .ok a → P a) (herr : ∀ e, r = .error e → E e) :
    Always P E (lift r : Prog ε σ α) := by
  intro s
  unfold Sat
  rw [lift_run]
  cases r with
  | error e => exact herr e rfl
  | ok a => exact hok a rfl

theorem always_bind (hx : Always P E x) (hf : ∀ a, P a → Always R E (f a)) : Always R E (x >>= f) := fun s =>
  sat_bind (hx s) fun a s' ha => hf a ha s'

theorem always_state {f : σ → Prog ε σ β} (hf : ∀ s, Always R E (f s)) : Always R E (state >>= f) := fun s =>
  sat_state (hf s s)

/-- Nothing follows a failure. -/
theorem always_stop {e : ε} {f : α → Prog ε σ β} (h : E e) : Always R E (fail e >>= f) := fun _ => h

/-- A failure of `x` is a result. -/
theorem always_attempt {f : Except ε α → Prog ε σ β} (hf : ∀ r, Always R E (f r)) : Always R E (attempt x >>= f) :=
  always_bind (P := fun _ => True) (fun _ => trivial) fun r _ => hf r

theorem always_zoom {part : σ → τ} {put : τ → σ → σ} {x : Prog ε τ α} (h : Always P E x) :
    Always P E (zoom part put x) := by
  intro s
  have hx := h (part s)
  unfold Sat at hx ⊢
  rw [zoom_run]
  rcases hr : x.run (part s) with ⟨e | a, t⟩ <;> rw [hr] at hx <;> exact hx

theorem always_each {f : α → Prog ε σ Unit} (hf : ∀ a, Always (fun _ => True) E (f a)) (xs : List α) :
    Always (fun _ => True) E (each f xs) := by
  induction xs with
  | nil => exact always_pure trivial
  | cons x xs ih => exact always_bind (hf x) fun _ _ => ih

theorem always_collect {f : α → Prog ε σ β} (hf : ∀ a, Always (fun _ => True) E (f a)) (xs : List α) :
    Always (fun ys => ys.length = xs.length) E (collect f xs) := by
  induction xs with
  | nil => exact always_pure rfl
  | cons x xs ih =>
    refine always_bind (hf x) fun b _ => always_bind ih fun bs hlen => always_pure ?_
    rw [List.length_cons, List.length_cons, hlen]

end Always

/-- Wherever `I` holds, `x` keeps it, however it ends. -/
def Steady (I : σ → Prop) (x : Prog ε σ α) : Prop := ∀ s, I s → Sat x s (fun _ s' => I s') fun _ s' => I s'

section Steady

variable {I : σ → Prop}

theorem Steady.after (h : Steady I x) (hs : I s) : I (x.run s).2 := (h s hs).final

theorem steady_pure (a : α) : Steady I (pure a : Prog ε σ α) := fun _ h => h

theorem steady_fail (e : ε) : Steady I (fail e : Prog ε σ α) := fun _ h => h

theorem steady_lift (r : Except ε α) : Steady I (lift r : Prog ε σ α) := by
  intro s h
  unfold Sat
  rw [lift_run]
  cases r <;> exact h

theorem steady_update {g : σ → σ} (hg : ∀ s, I s → I (g s)) : Steady I (update g : Prog ε σ Unit) := fun s h => hg s h

theorem Steady.bind (hx : Steady I x) (hf : ∀ a, Steady I (f a)) : Steady I (x >>= f) := fun s h =>
  sat_bind (hx s h) fun a s' h' => hf a s' h'

theorem steady_state {f : σ → Prog ε σ β} (hf : ∀ s, Steady I (f s)) : Steady I (state >>= f) := fun s h => hf s s h

theorem Steady.attempt (h : Steady I x) : Steady I (attempt x) := fun s hs => sat_attempt (h s hs)

theorem steady_ite {b : Prop} [Decidable b] {x y : Prog ε σ α} (hx : Steady I x) (hy : Steady I y) :
    Steady I (if b then x else y) := by
  split
  · exact hx
  · exact hy

theorem steady_each {f : α → Prog ε σ Unit} (hf : ∀ a, Steady I (f a)) (xs : List α) : Steady I (each f xs) := by
  induction xs with
  | nil => exact steady_pure ()
  | cons x xs ih => exact (hf x).bind fun _ => ih

theorem steady_collect {f : α → Prog ε σ β} (hf : ∀ a, Steady I (f a)) (xs : List α) : Steady I (collect f xs) := by
  induction xs with
  | nil => exact steady_pure []
  | cons x xs ih => exact (hf x).bind fun b => ih.bind fun bs => steady_pure _

theorem steady_zoom {part : σ → τ} {put : τ → σ → σ} {x : Prog ε τ α}
    (h : ∀ s, I s → Sat x (part s) (fun _ t => I (put t s)) fun _ t => I (put t s)) : Steady I (zoom part put x) := by
  intro s hs
  have hx := h s hs
  unfold Sat at hx ⊢
  rw [zoom_run]
  rcases hr : x.run (part s) with ⟨e | a, t⟩ <;> rw [hr] at hx <;> exact hx

theorem steady_exists {ι : Type} {J : ι → σ → Prop} (h : ∀ i, Steady (J i) x) : Steady (fun s => ∃ i, J i s) x := by
  intro s ⟨i, hs⟩
  exact (h i s hs).mono (fun _ _ hs' => ⟨i, hs'⟩) fun _ _ hs' => ⟨i, hs'⟩

end Steady

end Prog
