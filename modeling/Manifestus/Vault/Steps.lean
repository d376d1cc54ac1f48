import Manifestus.Vault.Ladder

/-! The steps of a settled vault, one list for every operation: what the steps keep, every operation
keeps. -/
set_option linter.unusedSectionVars false

namespace Manifestus
open Prog

variable {H : Type} [Crates H] {m₀ : Mirror H} {k r : Nat} {allowed : Map → Prop} {v v' : Vault H} {com cur : Map}

/-- A step as a program. -/
def Step.prog : Step → Prog Error (Vault H) Unit
  | .get key => do
    let _ ← Vault.get key
    pure ()
  | .check key value => do
    let _ ← Vault.holdsCommitted key value
    pure ()
  | .put key value => do
    let v ← state
    Vault.onStore (Hamt.put v.live.liveness key value)
  | .delete key => do
    let v ← state
    let _ ← Vault.onStore (Hamt.delete key v.policy)
    pure ()
  | .commit now => Vault.commitWithin 0 now
  | .beat now => Vault.appendHeartbeat now
  | .stage w => Vault.reapStaged w
  | .waive => Vault.setFence none
  | .refence => Vault.refence
  | .reload reason => Vault.reloadHead reason
  | .lengthen n => do
    let v ← state
    if n ≤ v.tract.len then pure () else Vault.lengthen n

/-- The vault after a step, whatever it returned. -/
def Step.after (x : Step) (v : Vault H) : Vault H := (x.prog.run v).2

/-- The vault after steps in order. -/
def exec (xs : List Step) (v : Vault H) : Vault H := xs.foldl (fun v x => x.after v) v

@[simp] theorem exec_nil (v : Vault H) : exec [] v = v := rfl

@[simp] theorem exec_cons (x : Step) (xs : List Step) (v : Vault H) : exec (x :: xs) v = exec xs (x.after v) := rfl

theorem exec_append (xs ys : List Step) (v : Vault H) : exec (xs ++ ys) v = exec ys (exec xs v) := by
  simp [exec]

theorem exec_snoc (xs : List Step) (x : Step) (v : Vault H) : exec (xs ++ [x]) v = x.after (exec xs v) := by
  simp [exec]

/-- Run from `v`, `x` ends where a list of steps does. -/
def Stepwise {α : Type} (x : Prog Error (Vault H) α) (v : Vault H) : Prop := ∃ xs : List Step, (x.run v).2 = exec xs v

namespace Stepwise

variable {α β : Type} {x y : Prog Error (Vault H) α} {f : α → Prog Error (Vault H) β} {v : Vault H}

theorem pure (a : α) : Stepwise (Pure.pure a) v := ⟨[], rfl⟩

theorem fail (e : Error) : Stepwise (Prog.fail e : Prog Error (Vault H) α) v := ⟨[], rfl⟩

theorem step (s : Step) : Stepwise s.prog v := ⟨[s], rfl⟩

theorem bind (hx : Stepwise x v) (hf : ∀ a u, Stepwise (f a) u) : Stepwise (x >>= f) v := by
  obtain ⟨xs, hxs⟩ := hx
  unfold Stepwise
  rw [bind_run]
  rcases hr : x.run v with ⟨_ | a, u⟩ <;> rw [hr] at hxs
  · exact ⟨xs, hxs⟩
  · obtain ⟨ys, hys⟩ := hf a u
    exact ⟨xs ++ ys, by rw [exec_append, ← hxs]; exact hys⟩

theorem state {f : Vault H → Prog Error (Vault H) β} (h : Stepwise (f v) v) : Stepwise (Prog.state >>= f) v := h

theorem attempt (h : Stepwise x v) : Stepwise (Prog.attempt x) v := h

theorem ite {b : Prop} [Decidable b] (hx : Stepwise x v) (hy : Stepwise y v) : Stepwise (if b then x else y) v := by
  split
  · exact hx
  · exact hy

/-- `x` runs in one case only, then `f` goes on. -/
theorem when {b : Prop} [Decidable b] {x : Prog Error (Vault H) Unit} {f : Unit → Prog Error (Vault H) β}
    (hx : Stepwise x v) (hf : ∀ u, Stepwise (f ()) u) : Stepwise (if b then x >>= f else f ()) v :=
  ite (bind hx fun _ u => hf u) (hf v)

/-- A step whose result is dropped. -/
theorem dropped (h : Stepwise (do let _ ← x; Pure.pure ()) v) : Stepwise x v := by
  obtain ⟨xs, hxs⟩ := h
  refine ⟨xs, ?_⟩
  rw [← hxs, bind_run]
  rcases x.run v with ⟨_ | a, u⟩ <;> rfl

theorem get (key : Key) : Stepwise (Vault.get key) v := (step (.get key)).dropped

theorem holdsCommitted (key : Key) (value : Bytes) : Stepwise (Vault.holdsCommitted key value) v :=
  (step (.check key value)).dropped

theorem put (key : Key) (value : Bytes) :
    Stepwise (Vault.onStore (Hamt.put v.live.liveness key value)) v := step (.put key value)

theorem delete (key : Key) : Stepwise (Vault.onStore (Hamt.delete key v.policy)) v :=
  dropped (step (.delete key))

/-- A commit is tries of one flush and heartbeats between them. -/
theorem commitWithin (now : Int) (attempts : Nat) : ∀ v : Vault H, Stepwise (Vault.commitWithin attempts now) v := by
  induction attempts with
  | zero => exact fun v => step (.commit now)
  | succ attempts ih =>
    intro v
    have hone : ∀ r u, Vault.flushOnce.run v = (r, u) → (Step.commit now).after v =
        match r with
        | .ok root => ((Vault.sealIndex now root).run u).2
        | .error _ => u := by
      intro r u hr
      show ((Vault.flushOnce >>= Vault.sealIndex now).run v).2 = _
      rw [bind_run, hr]
      cases r <;> rfl
    unfold Stepwise Vault.commitWithin Vault.flushIndex
    rcases hr : Vault.flushOnce.run v with ⟨err | root, u⟩
    · have hu := hone _ _ hr
      cases err with
      | fenced plow =>
        obtain ⟨xs, hxs⟩ := bind (x := Vault.appendHeartbeat now) (f := fun _ => Vault.commitWithin attempts now)
          (step (v := u) (.beat now)) fun _ w => ih w
        refine ⟨.commit now :: xs, ?_⟩
        rw [exec_cons, hu, ← hxs]
        simp only [bind_run, attempt_run, hr, Vault.commitWithin]
        rcases (Vault.appendHeartbeat now).run u with ⟨_ | _, w⟩ <;> rfl
      | _ =>
        refine ⟨[.commit now], ?_⟩
        rw [exec_cons, hu]
        simp [hr]
    · refine ⟨[.commit now], ?_⟩
      rw [exec_cons, hone _ _ hr]
      simp [hr]

theorem commitNow (now : Int) : Stepwise (Vault.commitNow now) v := commitWithin now _ v

theorem growNow (n : Nat) (now : Int) : Stepwise (Vault.growNow n now) v := by
  have hlong : Stepwise (Vault.lengthen n >>= fun _ => Vault.commitNow now) v ∨ n ≤ v.tract.len := by
    by_cases hn : n ≤ v.tract.len
    · exact .inr hn
    · refine .inl (bind ?_ fun _ _ => commitNow now)
      obtain ⟨xs, hxs⟩ := step (v := v) (.lengthen n)
      refine ⟨xs, ?_⟩
      rw [← hxs, Step.prog, bind_run, state_run]
      simp only [if_neg hn]
  unfold Stepwise
  rw [Vault.growNow_run]
  split
  · exact pure _
  next hn => exact hlong.resolve_right hn

end Stepwise

/-- The vault is in use with these maps committed and in memory. -/
def Serves (m₀ : Mirror H) (k : Nat) (allowed : Map → Prop) (r : Nat) (v : Vault H) (com cur : Map) : Prop :=
  ∃ d e T C, InUse m₀ k allowed r v d e T C ∧ com = T.map ∧ cur = C.map

/-- Any step anywhere. -/
abbrev Freely : Vault H → Step → Prop := fun _ _ => True

theorem serves_keeps (m₀ : Mirror H) (k : Nat) (allowed : Map → Prop) (r : Nat) :
    Keeps allowed (Serves m₀ k allowed r) where
  put := by
    rintro v _ _ ⟨d, e, T, C, h, rfl, rfl⟩ key value
    refine (h.put_sat (G := Freely) key value).mono ?_ ?_
    · rintro _ v' ⟨C', h', hmap, -⟩
      exact ⟨d, e, T, C', h', rfl, hmap.symm⟩
    · rintro _ v' ⟨-, h', -⟩
      exact ⟨d, e, T, C, h', rfl, rfl⟩
  delete := by
    rintro v _ _ ⟨d, e, T, C, h, rfl, rfl⟩ key
    refine (h.delete_sat (G := Freely) key).mono ?_ fun _ _ hf => hf
    rintro _ v' ⟨hex, C', h', hmap, -⟩
    exact ⟨hex, d, e, T, C', h', rfl, hmap.symm⟩
  held := by
    rintro v _ _ ⟨d, e, T, C, h, rfl, rfl⟩ key value
    refine (h.holdsCommitted_sat (G := Freely) key value).mono ?_ fun _ _ hf => hf
    rintro _ v' ⟨hheld, h', -⟩
    exact ⟨hheld, d, e, T, C, h', rfl, rfl⟩
  commit := by
    rintro v _ _ ⟨d, e, T, C, h, rfl, rfl⟩ hcur now
    refine (h.commitWithin_sat (G := Freely) _ now hcur).mono ?_ ?_
    · rintro _ v' ⟨d', e', C', h', hmap, -⟩
      exact ⟨d', e', C', C', h', hmap.symm, hmap.symm⟩
    · rintro _ v' ⟨hr, d', e', C', h', hmap, -⟩
      exact ⟨hr, d', e', T, C', h', rfl, hmap.symm⟩
  stage := by
    rintro v _ _ ⟨d, e, T, C, h, rfl, rfl⟩ w
    refine (h.reapStaged_sat (G := Freely) (w := w) trivial).mono ?_ ?_
    · rintro _ v' ⟨C', h', hmap, -⟩
      exact ⟨d, e, T, C', h', rfl, hmap.symm⟩
    · rintro _ v' ⟨-, C', h', hmap, -⟩
      exact ⟨d, e, T, C', h', rfl, hmap.symm⟩
  waive := by
    rintro v _ _ ⟨d, e, T, C, h, rfl, rfl⟩
    exact ⟨d, e, T, C, h.fence none, rfl, rfl⟩
  refence := by
    rintro v _ _ ⟨d, e, T, C, h, rfl, rfl⟩
    exact (h.refence_sat (G := Freely)).mono (fun _ v' h' => ⟨d, e, T, C, h'.1, rfl, rfl⟩) fun _ _ hf => hf
  reload := by
    rintro v _ _ ⟨d, e, T, C, h, rfl, rfl⟩ reason
    exact (h.reloadHead_sat (G := Freely) reason).mono (fun _ v' h' => ⟨d, e, T, T, h'.1, rfl, rfl⟩) fun _ _ hf => hf
  grow := by
    rintro v _ _ ⟨d, e, T, C, h, rfl, rfl⟩ n hn now
    have hlong : Sat (Vault.lengthen n >>= fun _ => Vault.commitNow now) v
        (fun _ v' => Serves m₀ k allowed r v' T.map T.map)
        (fun _ v' => Serves m₀ k allowed r v' T.map C.map ∨ Serves m₀ k allowed r v' T.map T.map) := by
      refine sat_bind ((h.lengthen_sat (G := Freely) hn).mono (fun _ _ hx => hx) ?_) ?_
      · rintro _ v' ⟨d', h', -⟩
        exact .inl ⟨d', e, T, C, h', rfl, rfl⟩
      · rintro _ v₁ ⟨d₁, h₁, -⟩
        refine (h₁.commitWithin_sat (G := Freely) _ now h.allows).mono ?_ ?_
        · rintro _ v' ⟨d', e', C', h', hmap, -⟩
          exact ⟨d', e', C', C', h', hmap.symm, hmap.symm⟩
        · rintro _ v' ⟨-, d', e', C', h', hmap, -⟩
          exact .inr ⟨d', e', T, C', h', rfl, hmap.symm⟩
    unfold Sat at hlong ⊢
    rw [Vault.growNow_run, if_neg (by omega)]
    exact hlong
  long := by
    rintro v _ _ ⟨d, e, T, C, h, rfl, rfl⟩
    exact h.indexed.cursors.pos
  clean := by
    rintro v _ _ ⟨d, e, T, C, h, rfl, rfl⟩ hc
    rw [h.eq_of_clean hc]
  allows := by
    rintro v _ _ ⟨d, e, T, C, h, rfl, rfl⟩
    exact h.allows
  settled := by
    rintro v _ _ ⟨d, e, T, C, h, rfl, rfl⟩
    exact h.settling

/-- What a step leads to: the vault in use, its moves on the way. -/
def Scene.Leads (m₀ : Mirror H) (k : Nat) (allowed : Map → Prop) (G : Vault H → Step → Prop) (r : Nat) (x : Scene H)
    (v : Vault H) : Prop :=
  ∃ y : Scene H, y.vault = v ∧ y.Used m₀ k allowed r ∧ Moves m₀ k allowed G r x y

/-- One step of a vault in use, whatever it returns. -/
theorem InUse.step_leads {d : Dev H} {e : SpineEntry H} {T C : Tree H} {G : Vault H → Step → Prop}
    (h : InUse m₀ k (fun _ => True) r v d e T C) {x : Step} (hG : G v x) :
    Scene.Leads m₀ k (fun _ => True) G r ⟨v, d, e, T, C⟩ (x.after v) := by
  refine Sat.final (x := x.prog) ?_
  cases x with
  | get key =>
    obtain ⟨v', hrun, h', hmoves⟩ := h.get_sat (G := G) key
    exact sat_run hrun (sat_pure ⟨⟨v', d, e, T, C⟩, rfl, h', hmoves⟩)
  | check key value =>
    refine sat_bind ((h.holdsCommitted_sat (G := G) key value).mono (fun _ _ hx => hx) fun _ _ hf => hf.elim) ?_
    rintro _ v' ⟨-, h', hmoves⟩
    exact sat_pure ⟨⟨v', d, e, T, C⟩, rfl, h', hmoves⟩
  | put key value =>
    refine sat_state ((h.put_sat (G := G) key value).mono ?_ ?_)
    · rintro _ v' ⟨C', h', -, hmoves⟩
      exact ⟨⟨v', d, e, T, C'⟩, rfl, h', hmoves⟩
    · rintro _ v' ⟨-, h', hmoves, -⟩
      exact ⟨⟨v', d, e, T, C⟩, rfl, h', hmoves⟩
  | delete key =>
    refine sat_state (sat_bind ((h.delete_sat (G := G) key).mono (fun _ _ hx => hx) fun _ _ hf => hf.elim) ?_)
    rintro _ v' ⟨-, C', h', -, hmoves⟩
    exact sat_pure ⟨⟨v', d, e, T, C'⟩, rfl, h', hmoves⟩
  | commit now =>
    refine (h.commitWithin_sat (G := G) 0 now trivial).mono ?_ ?_
    · rintro _ v' ⟨d', e', C', h', -, hmoves, -⟩
      exact ⟨⟨v', d', e', C', C'⟩, rfl, h', hmoves⟩
    · rintro _ v' ⟨-, d', e', C', h', -, hmoves⟩
      exact ⟨⟨v', d', e', T, C'⟩, rfl, h', hmoves⟩
  | beat now =>
    refine (h.heartbeat_sat (G := G) now).mono ?_ fun _ _ hf => hf.elim
    rintro _ v' ⟨d', e', h', hmoves⟩
    exact ⟨⟨v', d', e', T, C⟩, rfl, h', hmoves⟩
  | stage w =>
    refine (h.reapStaged_sat hG).mono ?_ ?_
    · rintro _ v' ⟨C', h', -, hmoves⟩
      exact ⟨⟨v', d, e, T, C'⟩, rfl, h', hmoves⟩
    · rintro _ v' ⟨-, C', h', -, hmoves⟩
      exact ⟨⟨v', d, e, T, C'⟩, rfl, h', hmoves⟩
  | waive => exact ⟨⟨_, d, e, T, C⟩, rfl, h.fence none, .single ⟨.waive hG, h.fence none⟩⟩
  | refence =>
    refine (h.refence_sat (G := G)).mono ?_ fun _ _ hf => hf.elim
    rintro _ v' ⟨h', hmoves, -⟩
    exact ⟨⟨v', d, e, T, C⟩, rfl, h', hmoves⟩
  | reload reason =>
    refine (h.reloadHead_sat (G := G) reason).mono ?_ fun _ _ hf => hf.elim
    rintro _ v' ⟨h', hmoves⟩
    exact ⟨⟨v', d, e, T, T⟩, rfl, h', hmoves⟩
  | lengthen n =>
    refine sat_state ?_
    split
    · exact sat_pure ⟨⟨v, d, e, T, C⟩, rfl, h, .refl⟩
    next hn =>
      refine (h.lengthen_sat (G := G) (by omega)).mono ?_ ?_
      · rintro _ v' ⟨d', h', hmoves⟩
        exact ⟨⟨v', d', e, T, T⟩, rfl, h', hmoves⟩
      · rintro _ v' ⟨d', h', hmoves⟩
        exact ⟨⟨v', d', e, T, C⟩, rfl, h', hmoves⟩

end Manifestus
