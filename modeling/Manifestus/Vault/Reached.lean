import Manifestus.Vault.Run

/-! States of a fixed vault under way. Every operation, whatever it returns, is a list of steps, so the
states inside an operation are states that steps lead to. -/
set_option linter.unusedSectionVars false

namespace Manifestus
open Prog

variable {H : Type} [Crates H]

namespace Stepwise

variable {v : Vault H} (now : Int)

theorem reapOneWindowCapped (cap : Option Nat) : Stepwise (Vault.reapOneWindowCapped now cap) v := by
  refine state (when (commitNow now) fun u => state (ite (pure _) (ite (pure _) ?_)))
  refine when (commitNow now) fun u => state (ite (pure _) ?_)
  exact bind (step (.stage _)) fun _ _ => bind (commitNow now) fun _ _ => pure _

theorem maybeReap : Stepwise (Vault.maybeReap now) v :=
  state (ite (bind (reapOneWindowCapped now none) fun _ _ => pure _) (pure _))

theorem rescueWindows (left : Nat) : ∀ (windows : Nat) (grown : Bool) (v : Vault H),
    Stepwise (Vault.rescueWindows now left windows grown) v := by
  induction left with
  | zero => intro windows grown v; exact pure _
  | succ left ih =>
    intro windows grown v
    refine state (ite (pure _) (ite (pure _) (ite (ite (fail _) ?_) ?_)))
    · exact bind (growNow _ now) fun _ u => ih windows true u
    · refine bind (step .waive) fun _ _ => bind (step (.stage _)) fun _ _ => ?_
      exact bind (commitNow now) fun _ u => ih (windows + 1) grown u

theorem rescueNow : Stepwise (Vault.rescueNow now) v :=
  state (bind (rescueWindows now _ 0 false _) fun _ _ => bind (step .refence) fun _ _ => pure _)

theorem reclaimAheadNow : Stepwise (Vault.reclaimAheadNow now) v :=
  state (ite (pure _) (ite (pure _) (ite (pure _)
    (bind (reapOneWindowCapped now _) fun _ _ => pure _))))

theorem growInLadder : Stepwise (Vault.growInLadder now) v := state (ite (fail _) (growNow _ now))

theorem rollbackToHead (failed : Bool) : Stepwise (Vault.rollbackToHead now failed) v := by
  refine state ?_
  have hreload : ∀ u : Vault H, Stepwise (Vault.reloadHead "rescue on pre-genesis vault") u := fun u => step (.reload _)
  split
  · split
    · refine bind (fail _) fun _ _ => bind (attempt (commitNow now)) fun res u => ?_
      rcases res with e | _
      · cases e <;> exact bind (fail _) fun _ u => hreload u
      · exact hreload u
    · refine bind (attempt (commitNow now)) fun res u => ?_
      rcases res with e | _
      · cases e <;> exact bind (fail _) fun _ u => hreload u
      · exact hreload u
  · exact hreload v

theorem rescueFromCommittedHead : Stepwise (Vault.rescueFromCommittedHead now) v := by
  refine bind (step (.reload _)) fun _ u => bind (attempt (rescueNow now)) fun res u => ?_
  rcases res with e | _
  · cases e <;> first | exact fail _ | exact state (growNow _ now)
  · exact pure _

theorem ladderRescue (grew : Bool) : Stepwise (Vault.ladderRescue now grew) v := by
  refine bind (attempt (rescueNow now)) fun res u => ?_
  rcases res with e | _
  · cases e <;> first | exact fail _ | exact ite (fail _) (bind (growInLadder now) fun _ _ => pure _)
  · exact pure _

theorem putAttempts (key : Key) (value : Bytes) (left : Nat) : ∀ (grew : Bool) (v : Vault H),
    Stepwise (Vault.putAttempts key value now left grew) v := by
  induction left with
  | zero => intro grew v; exact pure _
  | succ left ih =>
    intro grew v
    have hrescue : ∀ (failed grew : Bool) (u : Vault H), Stepwise (do
        Vault.rollbackToHead now failed
        let grew ← Vault.ladderRescue now grew
        Vault.putAttempts key value now left grew) u := fun failed grew u =>
      bind (rollbackToHead now failed) fun _ _ => bind (ladderRescue now grew) fun grew u => ih grew u
    refine state (bind (attempt (put key value)) fun res u => ?_)
    rcases res with e | _
    · cases e with
      | fenced plow =>
        refine bind (attempt (commitNow now)) fun res u => ?_
        rcases res with e | _
        · cases e <;> first | exact ih grew u | exact hrescue true grew u
        · exact ih grew u
      | tractFull =>
        exact bind (reapOneWindowCapped now none) fun reaped u => ite (ih grew u) (hrescue false grew u)
      | _ => exact fail _
    · exact pure _

theorem putNoCommit (key : Key) (value : Bytes) : Stepwise (Vault.putNoCommit key value now) v := by
  refine state (bind (putAttempts now key value _ false _) fun res _ => ?_)
  obtain ⟨landed, grew⟩ := res
  refine ite (pure _) (ite (fail _) (bind (growInLadder now) fun _ _ => state ?_))
  exact bind (putAttempts now key value _ true _) fun res _ => ite (pure _) (fail _)

theorem deleteAttempts (key : Key) (left : Nat) : ∀ v : Vault H,
    Stepwise (Vault.deleteAttempts key now left) v := by
  induction left with
  | zero => intro v; exact fail _
  | succ left ih =>
    intro v
    refine state (bind (attempt (delete key)) fun res u => ?_)
    rcases res with e | _
    · cases e <;> first | exact fail _ | exact bind (commitNow now) fun _ u => ih u
    · exact pure _

theorem applyItems (items : List (Key × Option Bytes)) : ∀ v : Vault H,
    Stepwise (Vault.applyItems now items) v := by
  induction items with
  | nil => intro v; exact pure _
  | cons x items ih =>
    intro v
    obtain ⟨key, _ | value⟩ := x
    · exact bind (deleteAttempts now key 2 _) fun _ _ => bind (ih _) fun _ _ => pure _
    · refine bind (holdsCommitted key value) fun held _ => ite (ih _) ?_
      exact bind (putNoCommit now key value) fun _ _ => bind (ih _) fun _ _ => pure _

theorem applyGrowing (items : List (Key × Option Bytes)) : Stepwise (Vault.applyGrowing items now) v := by
  refine bind (attempt (applyItems now items _)) fun res u => ?_
  rcases res with e | _
  · cases e <;>
      first
      | exact fail _
      | exact state (bind (growNow _ now) fun _ _ => bind (applyItems now items _) fun _ _ => pure _)
  · exact pure _

theorem applyBatchNow (items : List (Key × Option Bytes)) : Stepwise (Vault.applyBatchNow items now) v := by
  have hroom : ∀ u : Vault H, Stepwise (Vault.applyBatchNow.commitOrMakeRoom now) u := by
    intro u
    refine bind (attempt (commitNow now)) fun res u => ?_
    rcases res with e | _
    · cases e <;>
        first
        | exact fail _
        | exact state (bind (growNow _ now) fun _ _ => pure _)
        | exact bind (rescueFromCommittedHead now) fun _ _ => pure _
    · exact pure _
  refine ite (pure _) (bind (applyGrowing now items) fun dirty u => ite (pure _) ?_)
  refine bind (hroom u) fun replay u => ?_
  cases replay with
  | false => exact maybeReap now
  | true =>
    exact bind (applyItems now items _) fun _ _ =>
      bind (commitNow now) fun _ _ => maybeReap now

theorem deleteNow (key : Key) : Stepwise (Vault.deleteNow key now) v := by
  refine state (bind (delete key) fun existed u => ?_)
  cases existed with
  | false => exact pure _
  | true => exact bind (commitNow now) fun _ _ => bind (maybeReap now) fun _ _ => pure _

end Stepwise

/-- An operation of a settled vault is a list of steps. -/
theorem Op.stepwise (op : Op) {v : Vault H} (h : v.settling = none) : Stepwise op.prog v := by
  have hsettle : ∀ {α : Type} {f : Unit → Prog Error (Vault H) α}, Stepwise (f ()) v → Stepwise (Vault.settle >>= f) v := by
    intro α f hf
    obtain ⟨xs, hxs⟩ := hf
    refine ⟨xs, ?_⟩
    rw [bind_run, settle_run h]
    exact hxs
  cases op with
  | put key value now => exact hsettle (Stepwise.applyBatchNow now _)
  | putBatch items now => exact hsettle (Stepwise.applyBatchNow now _)
  | applyBatch items now => exact hsettle (Stepwise.applyBatchNow now _)
  | delete key now =>
    obtain ⟨xs, hxs⟩ := hsettle (f := fun _ => Vault.deleteNow key now) (Stepwise.deleteNow now key)
    exact Stepwise.bind ⟨xs, hxs⟩ fun _ _ => Stepwise.pure _
  | commit now => exact hsettle (Stepwise.commitNow now)
  | reapOneWindow now =>
    exact Stepwise.bind (hsettle (f := fun _ => Vault.reapOneWindowCapped now none) (Stepwise.reapOneWindowCapped now none))
      fun _ _ => Stepwise.pure _
  | reclaimAhead now =>
    exact Stepwise.bind (hsettle (f := fun _ => Vault.reclaimAheadNow now) (Stepwise.reclaimAheadNow now)) fun _ _ => Stepwise.pure _
  | rescue now =>
    exact Stepwise.bind (hsettle (f := fun _ => Vault.rescueNow now) (Stepwise.rescueNow now)) fun _ _ => Stepwise.pure _
  | grow n now => exact hsettle (Stepwise.growNow n now)

section Serving

variable {m₀ : Mirror H} {k r : Nat} {allowed allowed' : Map → Prop} {v : Vault H} {com cur : Map}

/-- More maps may be allowed. -/
theorem Serves.mono (h : Serves m₀ k allowed r v com cur) (hall : ∀ c, allowed c → allowed' c) :
    Serves m₀ k allowed' r v com cur := by
  obtain ⟨d, e, T, C, h, rfl, rfl⟩ := h
  refine ⟨d, e, T, C, { h with attached := ⟨h.attached.toSession, fun m' hc => ?_⟩, allows := hall _ h.allows }, rfl, rfl⟩
  obtain ⟨d', hsess, e', T', hs, hn, hm⟩ := h.attached.covers m' hc
  exact ⟨d', hsess, e', T', hs, hn, hall _ hm⟩

/-- One step of a vault in use, whatever it returns. -/
theorem Serves.step (h : Serves m₀ k (fun _ => True) r v com cur) (x : Step) :
    Somehow (Serves m₀ k (fun _ => True) r) (x.after v) := by
  obtain ⟨d, e, T, C, h, -⟩ := h
  obtain ⟨⟨v', d', e', T', C'⟩, hv', h', -⟩ := h.step_leads (G := Freely) (x := x) trivial
  exact ⟨T'.map, C'.map, d', e', T', C', hv' ▸ h', rfl, rfl⟩

end Serving

/-- A vault under way on error-free devices: steps in any order, whatever they return, cold reopens, and
opens of what a power loss leaves. The session started from the devices `m`, and the vault stands
since mark `k` of it. -/
inductive Reached : Mirror H → Nat → Vault H → Prop where
  | start {m m' : Mirror H} {v : Vault H} {ringLog2 : Nat} {now : Int} (hm : ErrorFree m)
      (hblank : ∀ x, m.a = some x ∨ m.b = some x → x.Blank) (h₁ : 1 ≤ ringLog2) (h₂ : ringLog2 ≤ 32)
      (hopen : (Vault.open ringLog2 now .unlinkOnly).run m = (.ok v, m')) : Reached m v.ring.mirror.marks.length v
  | step {m : Mirror H} {k : Nat} {v : Vault H} (h : Reached m k v) (x : Step) : Reached m k (x.after v)
  | reopen {m m' : Mirror H} {k : Nat} {v v' : Vault H} {ringLog2 : Nat} {now : Int} (h : Reached m k v)
      (hopen : (Vault.open ringLog2 now .unlinkOnly).run v.ring.mirror.reattach = (.ok v', m')) :
      Reached v.ring.mirror.reattach 0 v'
  | crash {m m₁ m₂ : Mirror H} {k : Nat} {v v' : Vault H} {ringLog2 : Nat} {now : Int} (h : Reached m k v)
      (hcrash : m.Crashes k v.ring.mirror m₁)
      (hopen : (Vault.open ringLog2 now .unlinkOnly).run m₁ = (.ok v', m₂)) : Reached m₁ 0 v'

namespace Reached

variable {m : Mirror H} {k : Nat} {v v' : Vault H}

theorem exec (h : Reached m k v) (xs : List Step) : Reached m k (Manifestus.exec xs v) := by
  induction xs generalizing v with
  | nil => exact h
  | cons x xs ih => exact ih (h.step x)

theorem serves (h : Reached m k v) : ∃ r com cur, Serves m k (fun _ => True) r v com cur := by
  induction h with
  | start hm hblank h₁ h₂ hopen =>
    obtain ⟨d, hsess⟩ := hm.session
    obtain ⟨-, d', e, huse, -⟩ := open_blank hm.parts hsess hblank h₁ h₂ hopen
    exact ⟨_, _, _, d', e, .empty, .empty, huse.restart (fun _ => True) trivial, rfl, rfl⟩
  | step h x ih =>
    obtain ⟨r, com, cur, hs⟩ := ih
    obtain ⟨com', cur', hs'⟩ := hs.step x
    exact ⟨r, com', cur', hs'⟩
  | reopen h hopen ih =>
    obtain ⟨r, com, cur, hs⟩ := ih
    obtain ⟨w, hrun, hw⟩ := hs.reopen (fun _ => True) trivial _ _
    rw [hrun] at hopen
    cases hopen
    exact ⟨r, _, _, hw⟩
  | crash h hcrash hopen ih =>
    obtain ⟨r, com, cur, hs⟩ := ih
    obtain ⟨w, c, hrun, -, hw⟩ := hs.crash hcrash _ _
    rw [hrun] at hopen
    cases hopen
    exact ⟨r, c, c, hw.mono fun _ _ => trivial⟩

/-- An operation, whatever it returns. -/
theorem op (h : Reached m k v) (op : Op) : Reached m k (op.prog.run v).2 := by
  obtain ⟨r, com, cur, hs⟩ := h.serves
  obtain ⟨xs, hxs⟩ := op.stepwise ((serves_keeps m k (fun _ => True) r).settled hs)
  rw [hxs]
  exact h.exec xs

/-- A first session of operations. -/
theorem session {ringLog2 : Nat} {ops : List Op} (hm : ErrorFree m)
    (hblank : ∀ x, m.a = some x ∨ m.b = some x → x.Blank) (h₁ : 1 ≤ ringLog2) (h₂ : ringLog2 ≤ 32)
    (h : m.session ringLog2 ops = some v) : ∃ k, Reached m k v := by
  have hops : ∀ (ops : List Op) {k : Nat} {u : Vault H}, Reached m k u → Op.runs ops u = some v → Reached m k v := by
    intro ops
    induction ops with
    | nil =>
      intro k u hu hv
      cases hv
      exact hu
    | cons x ops ih =>
      intro k u hu hv
      rw [Op.runs] at hv
      rcases hr : x.prog.run u with ⟨_ | ⟨⟩, u'⟩ <;> rw [hr] at hv
      · cases hv
      · have hu' := hu.op x
        rw [hr] at hu'
        exact ih hu' hv
  unfold Mirror.session at h
  rcases hr : (Vault.open ringLog2 0 .unlinkOnly).run m with ⟨_ | w, m'⟩ <;> rw [hr] at h
  · cases h
  · exact ⟨_, hops ops (.start hm hblank h₁ h₂ hr) h⟩

end Reached

end Manifestus
