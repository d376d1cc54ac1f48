import Manifestus.Prog

/-! Programs that do not see a difference between two states: from related states they give one result and
leave related states. -/
namespace Prog

variable {ε σ τ α β : Type}

/-- From states related by `R`, `x` gives the same result and leaves states related by `R`. -/
def Parallel (R : σ → σ → Prop) (x : Prog ε σ α) : Prop :=
  ∀ s t, R s t → (x.run t).1 = (x.run s).1 ∧ R (x.run s).2 (x.run t).2

section Rules

variable {R : σ → σ → Prop} {x y : Prog ε σ α} {s t : σ}

/-- The same run from the other state. -/
theorem Parallel.run (h : Parallel R x) (hst : R s t) {res : Except ε α} {s' : σ} (hrun : x.run s = (res, s')) :
    ∃ t', x.run t = (res, t') ∧ R s' t' := by
  obtain ⟨hres, hafter⟩ := h s t hst
  rw [hrun] at hres hafter
  exact ⟨(x.run t).2, Prod.ext hres rfl, hafter⟩

theorem parallel_pure (a : α) : Parallel R (pure a : Prog ε σ α) := fun _ _ h => ⟨rfl, h⟩

theorem parallel_fail (e : ε) : Parallel R (fail e : Prog ε σ α) := fun _ _ h => ⟨rfl, h⟩

/-- What follows a failure does not run. -/
theorem parallel_stop (e : ε) {f : α → Prog ε σ β} : Parallel R (fail e >>= f) := fun _ _ h => ⟨rfl, h⟩

theorem parallel_lift (r : Except ε α) : Parallel R (lift r : Prog ε σ α) := fun _ _ h => ⟨rfl, h⟩

theorem Parallel.bind {f : α → Prog ε σ β} (hx : Parallel R x) (hf : ∀ a, Parallel R (f a)) : Parallel R (x >>= f) := by
  intro s t hst
  obtain ⟨hres, hafter⟩ := hx s t hst
  rw [bind_run, bind_run]
  rcases hs : x.run s with ⟨rs, s'⟩
  rcases ht : x.run t with ⟨rt, t'⟩
  rw [hs, ht] at hres hafter
  obtain rfl : rt = rs := hres
  cases rt with
  | error e => exact ⟨rfl, hafter⟩
  | ok a => exact hf a s' t' hafter

theorem Parallel.attempt (h : Parallel R x) : Parallel R (attempt x) := by
  intro s t hst
  obtain ⟨hres, hafter⟩ := h s t hst
  exact ⟨congrArg Except.ok hres, hafter⟩

theorem parallel_ite {b : Prop} [Decidable b] (hx : Parallel R x) (hy : Parallel R y) :
    Parallel R (if b then x else y) := by
  split
  · exact hx
  · exact hy

/-- `x` runs in one case only, then `f` goes on. -/
theorem parallel_when {b : Prop} [Decidable b] {x : Prog ε σ Unit} {f : Unit → Prog ε σ β} (hx : Parallel R x)
    (hf : ∀ u, Parallel R (f u)) : Parallel R (if b then x >>= f else f ()) := by
  split
  · exact hx.bind hf
  · exact hf ()

theorem parallel_each {f : α → Prog ε σ Unit} (hf : ∀ a, Parallel R (f a)) (xs : List α) : Parallel R (each f xs) := by
  induction xs with
  | nil => exact parallel_pure ()
  | cons x xs ih => exact (hf x).bind fun _ => ih

theorem parallel_collect {f : α → Prog ε σ β} (hf : ∀ a, Parallel R (f a)) (xs : List α) : Parallel R (collect f xs) := by
  induction xs with
  | nil => exact parallel_pure []
  | cons x xs ih => exact (hf x).bind fun _ => ih.bind fun _ => parallel_pure _

theorem parallel_update {g : σ → σ} (hg : ∀ s t, R s t → R (g s) (g t)) : Parallel R (update g : Prog ε σ Unit) :=
  fun s t h => ⟨rfl, hg s t h⟩

/-- What follows depends on nothing that the relation lets differ. -/
theorem parallel_state {f : σ → Prog ε σ β} (hf : ∀ s t, R s t → f t = f s) (h : ∀ s, Parallel R (f s)) :
    Parallel R (state >>= f) := by
  intro s t hst
  show ((f t).run t).1 = ((f s).run s).1 ∧ R ((f s).run s).2 ((f t).run t).2
  rw [hf s t hst]
  exact h s s t hst

/-- Work on a part of the state, where the relation of the whole is one of the parts. -/
theorem parallel_zoom {Q : τ → τ → Prop} {part : σ → τ} {put : τ → σ → σ} {x : Prog ε τ α} (hx : Parallel Q x)
    (hin : ∀ s t, R s t → Q (part s) (part t)) (hout : ∀ s t a b, R s t → Q a b → R (put a s) (put b t)) :
    Parallel R (zoom part put x) := by
  intro s t hst
  obtain ⟨hres, hafter⟩ := hx _ _ (hin s t hst)
  exact ⟨hres, hout s t _ _ hst hafter⟩

end Rules

/-- Related by `S` in one part, and otherwise the same. -/
def Beside (part : σ → τ) (put : τ → σ → σ) (S : τ → τ → Prop) (s t : σ) : Prop := ∃ b, S (part s) b ∧ t = put b s

section Beside

variable {part : σ → τ} {put : τ → σ → σ} {S : τ → τ → Prop}

/-- What follows does not look at the part. -/
theorem parallel_view {f : σ → Prog ε σ β} (hf : ∀ s b, f (put b s) = f s) (h : ∀ s, Parallel (Beside part put S) (f s)) :
    Parallel (Beside part put S) (state >>= f) := by
  apply parallel_state
  · intro s t hst
    obtain ⟨b, -, rfl⟩ := hst
    exact hf s b
  · exact h

/-- Nor does the step before it. -/
theorem parallel_view_then {x : σ → Prog ε σ α} {f : σ → α → Prog ε σ β} (hx : ∀ s b, x (put b s) = x s)
    (hf : ∀ s b, f (put b s) = f s) (h : ∀ s, Parallel (Beside part put S) (x s))
    (hrest : ∀ s a, Parallel (Beside part put S) (f s a)) : Parallel (Beside part put S) (state >>= fun s => x s >>= f s) := by
  apply parallel_view
  · intro s b
    rw [hx, hf]
  · exact fun s => (h s).bind (hrest s)

/-- A change beside the part. -/
theorem parallel_tweak {g : σ → σ} (hpart : ∀ s, part (g s) = part s) (hput : ∀ s b, g (put b s) = put b (g s)) :
    Parallel (Beside part put S) (update g : Prog ε σ Unit) := by
  apply parallel_update
  intro s t hst
  obtain ⟨b, hb, rfl⟩ := hst
  exists b
  rw [hpart, hput]
  exact ⟨hb, rfl⟩

/-- Work on the part itself. -/
theorem parallel_part {x : Prog ε τ α} (hx : Parallel S x) (hpart : ∀ s b, part (put b s) = b)
    (hput : ∀ s a b, put b (put a s) = put b s) : Parallel (Beside part put S) (zoom part put x) := by
  apply parallel_zoom hx
  · intro s t hst
    obtain ⟨b, hb, rfl⟩ := hst
    rwa [hpart]
  · intro s t a b hst hab
    obtain ⟨c, -, rfl⟩ := hst
    exists b
    rw [hpart, hput, hput]
    exact ⟨hab, rfl⟩

end Beside

/-! ### Results that hold the state -/

/-- From states related by `S` the runs leave states related by `T`, and the results are the same but for the
state left, which they hold. -/
def Carries (part : α → σ) (put : σ → α → α) (S T : σ → σ → Prop) (x : Prog ε σ α) : Prop :=
  ∀ ⦃s t res s'⦄, S s t → x.run s = (res, s') →
    ∃ t', T s' t' ∧ x.run t = (res.map (put t'), t') ∧ ∀ a, res = .ok a → part a = s'

section Carries

variable {part : α → σ} {put : σ → α → α} {part' : β → σ} {put' : σ → β → β} {S T U : σ → σ → Prop}

theorem Carries.bind {x : Prog ε σ α} {f : α → Prog ε σ β} (hx : Carries part put S U x) (hUT : ∀ s t, U s t → T s t)
    (hf : ∀ a t res s', U (part a) t → (f a).run (part a) = (res, s') →
      ∃ t', T s' t' ∧ (f (put t a)).run t = (res.map (put' t'), t') ∧ ∀ b, res = .ok b → part' b = s') :
    Carries part' put' S T (x >>= f) := by
  intro s t res s' hst hrun
  rw [bind_run] at hrun
  rcases hs : x.run s with ⟨e | a, s₁⟩
  · obtain ⟨t₁, h₁, ht, -⟩ := hx hst hs
    rw [hs] at hrun
    cases hrun
    rw [bind_run, ht]
    exact ⟨t₁, hUT _ _ h₁, rfl, fun _ hb => by cases hb⟩
  · obtain ⟨t₁, h₁, ht, hpart⟩ := hx hst hs
    rw [hs] at hrun
    obtain rfl := hpart a rfl
    rw [bind_run, ht]
    exact hf a t₁ res s' h₁ hrun

end Carries

end Prog
