import Manifestus.Index.Unseen
import Manifestus.Vault.Run

/-! What the calls of a vault do not see of its mirror: where no access shows a difference between two mirrors, no
call of the vaults on them does. -/
set_option linter.unusedSectionVars false

namespace Manifestus
open Prog

variable {H : Type} [Crates H]

/-- The same ring on mirrors with a difference in `S`. -/
abbrev Ring.Beside (S : Mirror H → Mirror H → Prop) : Ring H → Ring H → Prop :=
  Prog.Beside Ring.mirror (fun m q => { q with mirror := m }) S

/-- The vault on another mirror. -/
def Vault.onto (m : Mirror H) (v : Vault H) : Vault H := { v with ring := { v.ring with mirror := m } }

/-! Whatever the mirror, the bounds of a rescue are the same. -/

section Onto

variable (m : Mirror H) (v : Vault H)

theorem Vault.tract_onto : (v.onto m).tract = v.tract := by
  cases v
  rfl

theorem Vault.live_onto : (v.onto m).live = v.live := by
  cases v
  rfl

theorem Vault.rescueTime_onto : (v.onto m).rescueTime = v.rescueTime := by
  cases v
  rfl

theorem Vault.reapWindow_onto : (v.onto m).reapWindow = v.reapWindow := by
  unfold Vault.reapWindow
  rw [Vault.tract_onto]

theorem Vault.putBound_onto : (v.onto m).putBound = v.putBound := by
  unfold Vault.putBound
  rw [Vault.tract_onto, Vault.reapWindow_onto]

theorem Vault.comfortable_onto : (v.onto m).comfortable = v.comfortable := by
  unfold Vault.comfortable Vault.budget
  rw [Vault.tract_onto, Vault.reapWindow_onto]

theorem Vault.rescueWindow_onto (maxW : Nat) : (v.onto m).rescueWindow maxW = v.rescueWindow maxW := by
  have hgo : ∀ left surv i, Vault.rescueWindow.go (v.onto m) surv left i = Vault.rescueWindow.go v surv left i := by
    intro left
    induction left with
    | zero => exact fun _ _ => rfl
    | succ left ih =>
      intro surv i
      unfold Vault.rescueWindow.go
      rw [Vault.tract_onto, Vault.live_onto]
      simp only [ih]
  exact hgo maxW 0 0

end Onto

/-- The same vault on mirrors with a difference in `S`. -/
abbrev Vault.Abreast (S : Mirror H → Mirror H → Prop) : Vault H → Vault H → Prop :=
  Prog.Beside (fun v : Vault H => v.ring.mirror) Vault.onto S

namespace Unseen

variable {S : Mirror H → Mirror H → Prop} (h : Unseen S)
include h

/-! ### The ring -/

theorem ringMirror {α : Type} {x : Prog Error (Mirror H) α} (hx : Parallel S x) : Parallel (Ring.Beside S) (Ring.onMirror x) :=
  parallel_part hx (fun _ _ => rfl) fun _ _ _ => rfl

theorem genAt (slot : Nat) : Parallel (Ring.Beside S) (Ring.genAt (H := H) slot) :=
  parallel_view (fun _ _ => rfl) fun _ => (h.ringMirror (h.read _)).bind fun _ => parallel_pure _

theorem append (entry : SpineEntry H) : Parallel (Ring.Beside S) (Ring.append entry) := by
  apply parallel_view
  · exact fun _ _ => rfl
  intro q
  have hwrite : Parallel (Ring.Beside S) (do
      Ring.onMirror (Mirror.writeVerified (q.base + entry.gen % q.n) entry.encode)
      update fun r => { r with head := some (entry.gen % q.n, entry) }) :=
    (h.ringMirror (h.writeVerified _ _)).bind fun _ => parallel_tweak (fun _ => rfl) fun _ _ => rfl
  have hchain : ∀ {b c : Prop} [Decidable b] [Decidable c] {e e' : Error}, Parallel (Ring.Beside S) (do
      if b then fail e
      if c then fail e'
      if entry.ringLog2 ≠ q.ringLog2 then fail (.corrupt "entry geometry does not match ring")
      Ring.onMirror (Mirror.writeVerified (q.base + entry.gen % q.n) entry.encode)
      update fun r => { r with head := some (entry.gen % q.n, entry) }) := fun {_ _ _ _ _ _} =>
    parallel_when (parallel_fail _) fun _ => parallel_when (parallel_fail _) fun _ =>
      parallel_when (parallel_fail _) fun _ => hwrite
  dsimp only
  split
  · exact hchain
  · exact hchain

theorem recentFences (k : Nat) : Parallel (Ring.Beside S) (Ring.recentFences (H := H) k) := by
  have hentry : ∀ n gen, Parallel (Ring.Beside S) (Ring.recentEntries.entryOf (H := H) n gen) := by
    intro n gen
    apply (h.genAt _).bind
    intro c
    split
    · exact parallel_pure _
    · exact parallel_pure _
  apply Parallel.bind
  · apply parallel_view
    · exact fun _ _ => rfl
    intro q
    split
    · exact parallel_pure _
    · exact parallel_collect (hentry _) _
  · exact fun _ => parallel_pure _

theorem zeroRingAt (ringLog2 base : Nat) : Parallel S (Manifestus.zeroRingAt (H := H) ringLog2 base) :=
  parallel_each (fun _ => h.writeVerified _ _) _

theorem appendRoot (root : RootEntry H) : Parallel S (Manifestus.appendRoot root) := h.writeVerified _ _

/-! ### Commits -/

theorem vaultStore {α : Type} {x : Prog Error (Store H) α} (hx : Parallel (Store.Beside S) x) :
    Parallel (Vault.Abreast S) (Vault.onStore x) := by
  apply parallel_zoom hx
  · intro v v' hv
    obtain ⟨m, hm, rfl⟩ := hv
    exact ⟨m, hm, rfl⟩
  · intro v v' s s' hv hs
    obtain ⟨_, _, rfl⟩ := hv
    obtain ⟨m, hm, rfl⟩ := hs
    exact ⟨m, hm, rfl⟩

theorem vaultRing {α : Type} {x : Prog Error (Ring H) α} (hx : Parallel (Ring.Beside S) x) :
    Parallel (Vault.Abreast S) (Vault.onRing x) := by
  apply parallel_zoom hx
  · intro v v' hv
    obtain ⟨m, hm, rfl⟩ := hv
    exact ⟨m, hm, rfl⟩
  · intro v v' q q' hv hq
    obtain ⟨_, _, rfl⟩ := hv
    obtain ⟨m, hm, rfl⟩ := hq
    exact ⟨m, hm, rfl⟩

theorem vaultMirror {α : Type} {x : Prog Error (Mirror H) α} (hx : Parallel S x) : Parallel (Vault.Abreast S) (Vault.onMirror x) :=
  h.vaultRing (h.ringMirror hx)

omit h in
theorem change {f : Vault H → Vault H} (hmirror : ∀ v : Vault H, (f v).ring.mirror = v.ring.mirror)
    (hf : ∀ (v : Vault H) m, f (v.onto m) = (f v).onto m) : Parallel (Vault.Abreast S) (update f : Prog Error (Vault H) Unit) :=
  parallel_tweak hmirror hf

omit h in
theorem changeThen {α : Type} {f : Vault H → Vault H} {x : Unit → Prog Error (Vault H) α}
    (hx : ∀ u, Parallel (Vault.Abreast S) (x u)) (hmirror : ∀ v : Vault H, (f v).ring.mirror = v.ring.mirror)
    (hf : ∀ (v : Vault H) m, f (v.onto m) = (f v).onto m) : Parallel (Vault.Abreast S) (update f >>= x) :=
  (change hmirror hf).bind hx

omit h in
theorem setFence (limit : Option Nat) : Parallel (Vault.Abreast S) (Vault.setFence (H := H) limit) :=
  change (fun _ => rfl) fun _ _ => rfl

omit h in
theorem headOr (reason : String) : Parallel (Vault.Abreast S) (Vault.headOr (H := H) reason) := by
  apply parallel_view
  · exact fun _ _ => rfl
  intro v
  split
  · exact parallel_pure _
  · exact parallel_fail _

theorem refence : Parallel (Vault.Abreast S) (Vault.refence (H := H)) :=
  (h.vaultRing (h.recentFences _)).bind fun _ => setFence _

theorem appendHeartbeat (now : Int) : Parallel (Vault.Abreast S) (Vault.appendHeartbeat (H := H) now) :=
  (headOr _).bind fun _ => parallel_view (fun _ _ => rfl) fun _ => (h.vaultRing (h.append _)).bind fun _ => h.refence

theorem migrateRing (now : Int) : Parallel (Vault.Abreast S) (Vault.migrateRing (H := H) now) := by
  apply parallel_view
  · exact fun _ _ => rfl
  intro v
  split
  · exact parallel_pure _
  · apply (h.vaultMirror (h.zeroRingAt _ _)).bind
    intro _
    apply (h.vaultMirror (h.appendRoot _)).bind
    intro _
    exact change (fun _ => rfl) fun _ _ => rfl

theorem flushOnce : Parallel (Vault.Abreast S) (Vault.flushOnce (H := H)) := by
  apply parallel_view_then
  · exact fun _ _ => rfl
  · exact fun _ _ => rfl
  · exact fun _ => h.vaultStore (h.flush _)
  intro v root
  apply (h.vaultStore h.takeDelta).bind
  intro delta
  exact changeThen (fun _ => parallel_pure _) (fun _ => rfl) fun _ _ => rfl

theorem flushIndex (now : Int) (attempts : Nat) : Parallel (Vault.Abreast S) (Vault.flushIndex (H := H) now attempts) := by
  induction attempts with
  | zero => exact h.flushOnce
  | succ attempts ih =>
    apply h.flushOnce.attempt.bind
    intro res
    split
    · exact parallel_pure _
    · exact (h.appendHeartbeat now).bind fun _ => ih
    · exact parallel_fail _

theorem commitNow (now : Int) : Parallel (Vault.Abreast S) (Vault.commitNow (H := H) now) := by
  apply (h.flushIndex now _).bind
  intro root
  apply Parallel.bind
  · apply change
    · intro v
      unfold Vault.retireReap
      split <;> rfl
    · intro v m
      unfold Vault.retireReap Vault.onto
      dsimp only
      split <;> rfl
  intro _
  apply (headOr _).bind
  intro head
  apply parallel_view
  · exact fun _ _ => rfl
  intro v
  apply (h.vaultRing (h.append _)).bind
  intro _
  apply h.refence.bind
  intro _
  apply parallel_view
  · exact fun _ _ => rfl
  intro v
  split
  · exact parallel_pure _
  · exact parallel_ite (h.migrateRing now) (parallel_pure _)

theorem reloadHead (reason : String) : Parallel (Vault.Abreast S) (Vault.reloadHead (H := H) reason) :=
  (headOr reason).bind fun _ => change (fun _ => rfl) fun _ _ => rfl

theorem rewalk : Parallel (Vault.Abreast S) (Vault.growNow.rewalk (H := H)) := by
  intro v v' hv
  obtain ⟨m, hm, rfl⟩ := hv
  unfold Vault.growNow.rewalk
  rcases hs : Walker.walkTreeCollect.run ⟨v.store, Walk.start v.tract.len []⟩ with ⟨r, w⟩
  obtain ⟨w', ht, m', hm', rfl⟩ := h.walkTreeCollect.run (t := ⟨(v.onto m).store, Walk.start (v.onto m).tract.len []⟩) ⟨m, hm, rfl⟩ hs
  simp only [hs, ht]
  cases r <;> exact ⟨rfl, m', hm', rfl⟩

theorem growNow (n : Nat) (now : Int) : Parallel (Vault.Abreast S) (Vault.growNow (H := H) n now) := by
  apply parallel_view
  · exact fun _ _ => rfl
  intro v
  apply parallel_ite (parallel_pure _)
  apply (h.vaultMirror (h.grow _)).bind
  intro _
  apply (headOr _).bind
  intro head
  apply (h.reloadHead _).bind
  intro _
  have hend : ∀ walk : Walk H, Parallel (Vault.Abreast S) (do
      update fun v => { v with live := LiveSet.ofWalk walk.liveBlocks walk.referenced }
      update fun v => { v with tract := v.tract.realign n }
      Vault.commitNow now) := fun _ =>
    changeThen (fun _ => changeThen (fun _ => h.commitNow now) (fun _ => rfl) fun _ _ => rfl) (fun _ => rfl) fun _ _ => rfl
  exact changeThen (fun _ => h.rewalk.bind hend) (fun _ => rfl) fun _ _ => rfl

theorem growPreservingNow (n : Nat) (now : Int) : Parallel (Vault.Abreast S) (Vault.growPreservingNow (H := H) n now) := by
  apply parallel_view
  · exact fun _ _ => rfl
  intro v
  apply parallel_ite (parallel_pure _)
  apply (h.vaultMirror (h.grow _)).bind
  intro _
  exact changeThen (fun _ => changeThen (fun _ => h.commitNow now) (fun _ => rfl) fun _ _ => rfl) (fun _ => rfl) fun _ _ => rfl

/-! ### Reaps and rescues -/

theorem reapStaged (w : Nat) : Parallel (Vault.Abreast S) (Vault.reapStaged (H := H) w) :=
  parallel_view (fun _ _ => rfl) fun _ => (h.vaultStore (h.reapWindow _ w)).bind fun _ => change (fun _ => rfl) fun _ _ => rfl

theorem reapOneWindowCapped (now : Int) (cap : Option Nat) : Parallel (Vault.Abreast S) (Vault.reapOneWindowCapped (H := H) now cap) := by
  have hreap : ∀ w, Parallel (Vault.Abreast S) (if w = 0 then pure false else do
      Vault.reapStaged w
      Vault.commitNow now
      pure true) := fun w =>
    parallel_ite (parallel_pure _) ((h.reapStaged w).bind fun _ => (h.commitNow now).bind fun _ => parallel_pure _)
  apply parallel_view
  · exact fun _ _ => rfl
  intro v
  apply parallel_when (h.commitNow now)
  intro _
  apply parallel_view
  · exact fun _ _ => rfl
  intro v
  apply parallel_ite (parallel_pure _)
  apply parallel_ite (parallel_pure _)
  apply parallel_when (h.commitNow now)
  intro _
  exact parallel_view (fun _ _ => rfl) fun _ => hreap _

theorem maybeReap (now : Int) : Parallel (Vault.Abreast S) (Vault.maybeReap (H := H) now) :=
  parallel_view (fun _ _ => rfl) fun _ =>
    parallel_ite ((h.reapOneWindowCapped now none).bind fun _ => parallel_pure _) (parallel_pure _)

theorem rescueWindows (now : Int) (left : Nat) : ∀ (windows : Nat) (grown : Bool),
    Parallel (Vault.Abreast S) (Vault.rescueWindows (H := H) now left windows grown) := by
  induction left with
  | zero => exact fun _ _ => parallel_pure _
  | succ left ih =>
    intro windows grown
    apply parallel_view
    · intro v m
      simp only [Vault.tract_onto, Vault.live_onto, Vault.reapWindow_onto, Vault.comfortable_onto, Vault.rescueWindow_onto]
    intro v
    apply parallel_ite (parallel_pure _)
    apply parallel_ite (parallel_pure _)
    apply parallel_ite
    · exact parallel_ite (parallel_fail _) ((h.growNow _ now).bind fun _ => ih _ _)
    · exact (setFence none).bind fun _ => (h.reapStaged _).bind fun _ => (h.commitNow now).bind fun _ => ih _ _

theorem rescueNow (now : Int) : Parallel (Vault.Abreast S) (Vault.rescueNow (H := H) now) :=
  parallel_view (fun _ _ => rfl) fun _ => (h.rescueWindows now _ _ _).bind fun _ => h.refence.bind fun _ => parallel_pure _

theorem reclaimAheadNow (now : Int) : Parallel (Vault.Abreast S) (Vault.reclaimAheadNow (H := H) now) := by
  apply parallel_view
  · exact fun _ _ => rfl
  intro v
  apply parallel_ite (parallel_pure _)
  apply parallel_ite (parallel_pure _)
  apply parallel_ite (parallel_pure _)
  exact (h.reapOneWindowCapped now _).bind fun _ => parallel_pure _

theorem growInLadder (now : Int) : Parallel (Vault.Abreast S) (Vault.growInLadder (H := H) now) :=
  parallel_view (fun _ _ => rfl) fun _ => parallel_ite (parallel_fail _) (h.growNow _ now)

theorem rollbackToHead (now : Int) (failed : Bool) : Parallel (Vault.Abreast S) (Vault.rollbackToHead (H := H) now failed) := by
  apply parallel_view
  · exact fun _ _ => rfl
  intro v
  dsimp only
  split
  · split
    · exact parallel_stop _
    · apply (h.commitNow now).attempt.bind
      intro res
      split
      · exact h.reloadHead _
      · exact parallel_stop _
      · exact parallel_stop _
      · exact parallel_stop _
  · exact h.reloadHead _

theorem rescueFromCommittedHead (now : Int) : Parallel (Vault.Abreast S) (Vault.rescueFromCommittedHead (H := H) now) := by
  apply (h.reloadHead _).bind
  intro _
  apply (h.rescueNow now).attempt.bind
  intro res
  split
  · exact parallel_pure _
  · exact parallel_view (fun _ _ => rfl) fun _ => h.growNow _ now
  · exact parallel_fail _

theorem ladderRescue (now : Int) (grew : Bool) : Parallel (Vault.Abreast S) (Vault.ladderRescue (H := H) now grew) := by
  apply (h.rescueNow now).attempt.bind
  intro res
  split
  · exact parallel_pure _
  · exact parallel_ite (parallel_fail _) ((h.growInLadder now).bind fun _ => parallel_pure _)
  · exact parallel_fail _

/-! ### Values -/

theorem get (key : Key) : Parallel (Vault.Abreast S) (Vault.get (H := H) key) := h.vaultStore (h.lookup key)

theorem putAttempts (key : Key) (value : Bytes) (now : Int) (left : Nat) :
    ∀ grew, Parallel (Vault.Abreast S) (Vault.putAttempts (H := H) key value now left grew) := by
  induction left with
  | zero => exact fun _ => parallel_pure _
  | succ left ih =>
    intro grew
    have hrescue : ∀ failed, Parallel (Vault.Abreast S) (do
        Vault.rollbackToHead (H := H) now failed
        let grew ← Vault.ladderRescue now grew
        Vault.putAttempts key value now left grew) := fun failed =>
      (h.rollbackToHead now failed).bind fun _ => (h.ladderRescue now grew).bind fun grew => ih grew
    apply parallel_view_then
    · exact fun _ _ => rfl
    · exact fun _ _ => rfl
    · exact fun _ => (h.vaultStore (h.put _ key value)).attempt
    intro v res
    split
    · exact parallel_pure _
    · apply (h.commitNow now).attempt.bind
      intro res
      split
      · exact hrescue true
      · exact ih grew
    · exact (h.reapOneWindowCapped now none).bind fun _ => parallel_ite (ih grew) (hrescue false)
    · exact parallel_fail _

theorem putNoCommit (key : Key) (value : Bytes) (now : Int) :
    Parallel (Vault.Abreast S) (Vault.putNoCommit (H := H) key value now) := by
  have hpass : ∀ grew (v : Vault H) m, Vault.putAttempts (H := H) key value now (v.onto m).putBound grew =
      Vault.putAttempts key value now v.putBound grew := by
    intro grew v m
    rw [Vault.putBound_onto]
  apply parallel_view_then
  · exact hpass false
  · exact fun _ _ => rfl
  · exact fun _ => h.putAttempts key value now _ _
  intro v res
  apply parallel_ite (parallel_pure _)
  apply parallel_ite (parallel_fail _)
  apply (h.growInLadder now).bind
  intro _
  apply parallel_view_then
  · exact hpass true
  · exact fun _ _ => rfl
  · exact fun _ => h.putAttempts key value now _ _
  · exact fun _ _ => parallel_ite (parallel_pure _) (parallel_fail _)

theorem holdsCommitted (key : Key) (value : Bytes) : Parallel (Vault.Abreast S) (Vault.holdsCommitted (H := H) key value) := by
  apply (h.vaultStore (h.findLeaf key)).bind
  intro leaf
  split
  · exact parallel_pure _
  · apply parallel_view
    · exact fun _ _ => rfl
    intro v
    apply parallel_ite (parallel_pure _)
    apply (h.get key).attempt.bind
    intro res
    split
    · exact parallel_pure _
    · exact parallel_pure _
    · exact parallel_pure _
    · exact parallel_fail _

theorem deleteAttempts (key : Key) (now : Int) (left : Nat) :
    Parallel (Vault.Abreast S) (Vault.deleteAttempts (H := H) key now left) := by
  induction left with
  | zero => exact parallel_fail _
  | succ left ih =>
    apply parallel_view_then
    · exact fun _ _ => rfl
    · exact fun _ _ => rfl
    · exact fun _ => (h.vaultStore (h.delete key _)).attempt
    intro v res
    split
    · exact parallel_pure _
    · exact (h.commitNow now).bind fun _ => ih
    · exact parallel_fail _

theorem applyItems (now : Int) (items : List (Key × Option Bytes)) :
    Parallel (Vault.Abreast S) (Vault.applyItems (H := H) now items) := by
  induction items with
  | nil => exact parallel_pure _
  | cons item items ih =>
    obtain ⟨key, value⟩ := item
    cases value with
    | none => exact (h.deleteAttempts key now 2).bind fun _ => ih.bind fun _ => parallel_pure _
    | some value =>
      apply (h.holdsCommitted key value).bind
      intro held
      apply parallel_ite ih
      exact (h.putNoCommit key value now).bind fun _ => ih.bind fun _ => parallel_pure _

theorem applyGrowing (items : List (Key × Option Bytes)) (now : Int) :
    Parallel (Vault.Abreast S) (Vault.applyGrowing (H := H) items now) := by
  apply (h.applyItems now items).attempt.bind
  intro res
  split
  · exact parallel_pure _
  · apply parallel_view_then
    · exact fun _ _ => rfl
    · exact fun _ _ => rfl
    · exact fun _ => h.growNow _ now
    · exact fun _ _ => (h.applyItems now items).bind fun _ => parallel_pure _
  · exact parallel_fail _

theorem commitOrMakeRoom (now : Int) : Parallel (Vault.Abreast S) (Vault.applyBatchNow.commitOrMakeRoom (H := H) now) := by
  apply (h.commitNow now).attempt.bind
  intro res
  split
  · exact parallel_pure _
  · exact parallel_view_then (fun _ _ => rfl) (fun _ _ => rfl) (fun _ => h.growNow _ now) fun _ _ => parallel_pure _
  · exact (h.rescueFromCommittedHead now).bind fun _ => parallel_pure _
  · exact parallel_fail _

theorem applyBatchNow (items : List (Key × Option Bytes)) (now : Int) :
    Parallel (Vault.Abreast S) (Vault.applyBatchNow (H := H) items now) := by
  apply parallel_ite (parallel_pure _)
  apply (h.applyGrowing items now).bind
  intro dirty
  apply parallel_ite (parallel_pure _)
  apply (h.commitOrMakeRoom now).bind
  intro replay
  split
  · exact (h.applyItems now items).bind fun _ => (h.commitNow now).bind fun _ => h.maybeReap now
  · exact h.maybeReap now

theorem deleteNow (key : Key) (now : Int) : Parallel (Vault.Abreast S) (Vault.deleteNow (H := H) key now) := by
  apply parallel_view_then
  · exact fun _ _ => rfl
  · exact fun _ _ => rfl
  · exact fun _ => h.vaultStore (h.delete key _)
  intro v existed
  split
  · exact (h.commitNow now).bind fun _ => (h.maybeReap now).bind fun _ => parallel_pure _
  · exact parallel_pure _

/-! ### The tail of an open -/

theorem landPrunes (now : Int) : Parallel (Vault.Abreast S) (Vault.landPrunes (H := H) now) := by
  apply (setFence none).bind
  intro _
  apply (h.commitNow now).attempt.bind
  intro res
  have hend : ∀ b : Bool, Parallel (Vault.Abreast S) (Vault.refence (H := H) >>= fun _ => pure b) := fun _ =>
    h.refence.bind fun _ => parallel_pure _
  split
  · exact hend _
  · exact parallel_view_then (fun _ _ => rfl) (fun _ _ => rfl) (fun _ => (h.growPreservingNow _ _).attempt) fun _ _ => hend _

theorem unwedge (now : Int) : Parallel (Vault.Abreast S) (Vault.unwedge (H := H) now) := by
  apply (h.rescueNow now).attempt.bind
  intro res
  split
  · exact parallel_view_then (fun _ _ => rfl) (fun _ _ => rfl) (fun _ => (h.growNow _ now).attempt) fun _ _ => parallel_pure _
  · exact parallel_pure _

theorem finishOpen (w : Walk H) : Parallel (Vault.Abreast S) (Vault.finishOpen (H := H) w) := by
  apply (parallel_each (fun _ => h.vaultStore (h.prune _ _)) _).bind
  intro _
  apply (parallel_each (fun _ => h.vaultStore (h.prune _ _)) _).bind
  intro _
  apply changeThen
  · intro _
    apply h.refence.bind
    intro _
    apply parallel_view
    · intro v m
      rw [Vault.rescueTime_onto]
    intro v
    have hprobe : ∀ allowed : Bool, Parallel (Vault.Abreast S) (do
        let u ← state
        if allowed ∧ u.wedged then Vault.unwedge v.rescueTime) := fun _ =>
      parallel_view (fun _ _ => rfl) fun _ => parallel_ite (h.unwedge _) (parallel_pure _)
    dsimp only
    apply parallel_ite
    · exact (parallel_pure _).bind hprobe
    · exact (h.landPrunes _).bind hprobe
  · exact fun _ => rfl
  · exact fun _ _ => rfl

theorem stepWalk (w : Walk H) : Parallel (Vault.Abreast S) (Vault.stepWalk w) := by
  intro v v' hv
  obtain ⟨m, hm, rfl⟩ := hv
  unfold Vault.stepWalk
  rcases hs : Walker.walkTreeStep.run ⟨v.store, w⟩ with ⟨r, w'⟩
  obtain ⟨w'', ht, m', hm', rfl⟩ := h.walkTreeStep.run (t := ⟨(v.onto m).store, w⟩) ⟨m, hm, rfl⟩ hs
  simp only [hs, ht]
  cases r <;> exact ⟨rfl, m', hm', rfl⟩

theorem settleStep : Parallel (Vault.Abreast S) (Vault.settleStep (H := H)) := by
  apply parallel_view
  · exact fun _ _ => rfl
  intro v
  split
  · exact parallel_pure _
  · apply changeThen
    · intro _
      apply parallel_ite ((h.finishOpen _).bind fun _ => parallel_pure _)
      apply (h.stepWalk _).bind
      intro w
      apply parallel_ite ((h.finishOpen _).bind fun _ => parallel_pure _)
      exact changeThen (fun _ => parallel_pure _) (fun _ => rfl) fun _ _ => rfl
    · exact fun _ => rfl
    · exact fun _ _ => rfl

theorem settleSteps (fuel : Nat) : Parallel (Vault.Abreast S) (Vault.settleSteps (H := H) fuel) := by
  induction fuel with
  | zero => exact parallel_fail _
  | succ fuel ih => exact h.settleStep.bind fun _ => parallel_ite (parallel_pure _) ih

theorem settle : Parallel (Vault.Abreast S) (Vault.settle (H := H)) := parallel_view (fun _ _ => rfl) fun _ => h.settleSteps _

/-- What waits for the walk. -/
theorem settled {α : Type} {x : Prog Error (Vault H) α} (hx : Parallel (Vault.Abreast S) x) :
    Parallel (Vault.Abreast S) (Vault.settle >>= fun _ => x) := h.settle.bind fun _ => hx

theorem liveKeys : Parallel (Vault.Abreast S) (Vault.liveKeys (H := H)) := by
  intro v v' hv
  obtain ⟨m, hm, rfl⟩ := hv
  unfold Vault.liveKeys
  rcases hs : Walker.walkKeys.run ⟨v.store, Walk.start v.tract.len []⟩ with ⟨r, w⟩
  obtain ⟨w', ht, m', hm', rfl⟩ := h.walkKeys.run (t := ⟨(v.onto m).store, Walk.start (v.onto m).tract.len []⟩) ⟨m, hm, rfl⟩ hs
  simp only [hs, ht]
  cases r <;> exact ⟨rfl, m', hm', rfl⟩

theorem liveMapDivergenceNow : Parallel (Vault.Abreast S) (Vault.liveMapDivergenceNow (H := H)) := by
  intro v v' hv
  obtain ⟨m, hm, rfl⟩ := hv
  unfold Vault.liveMapDivergenceNow
  rcases hs : Walker.walkLiveCollect.run ⟨v.store, Walk.start v.tract.len []⟩ with ⟨r, w⟩
  obtain ⟨w', ht, m', hm', rfl⟩ := h.walkLiveCollect.run (t := ⟨(v.onto m).store, Walk.start (v.onto m).tract.len []⟩) ⟨m, hm, rfl⟩ hs
  simp only [hs, ht]
  cases r <;> exact ⟨rfl, m', hm', rfl⟩

end Unseen

/-- The calls of an open vault. -/
inductive Call where
  | settleStep
  | settle
  | liveKeys
  | get (key : Key)
  | put (key : Key) (value : Bytes) (now : Int)
  | putBatch (items : List (Key × Bytes)) (now : Int)
  | applyBatch (items : List (Key × Option Bytes)) (now : Int)
  | delete (key : Key) (now : Int)
  | grow (newTractBlocks : Nat) (now : Int)
  | commit (now : Int)
  | rescue (now : Int)
  | reclaimAhead (now : Int)
  | reapOneWindow (now : Int)
  | liveMapDivergence

/-- What a call returns. -/
inductive Answer where
  | done
  | bool (b : Bool)
  | keys (ks : List Key)
  | value (x : Option Bytes)
  | windows (n : Nat)
  | reclaim (r : Reclaim)
  | divergence (d : List Nat × List Nat)
  deriving DecidableEq

namespace Call

def prog : Call → Prog Error (Vault H) Answer
  | .settleStep => do pure (.bool (← Vault.settleStep))
  | .settle => do
    Vault.settle
    pure .done
  | .liveKeys => do pure (.keys (← Vault.liveKeys))
  | .get key => do pure (.value (← Vault.get key))
  | .put key value now => do
    Vault.put key value now
    pure .done
  | .putBatch items now => do
    Vault.putBatch items now
    pure .done
  | .applyBatch items now => do
    Vault.applyBatch items now
    pure .done
  | .delete key now => do pure (.bool (← Vault.delete key now))
  | .grow newTractBlocks now => do
    Vault.grow newTractBlocks now
    pure .done
  | .commit now => do
    Vault.commit now
    pure .done
  | .rescue now => do pure (.windows (← Vault.rescue now))
  | .reclaimAhead now => do pure (.reclaim (← Vault.reclaimAhead now))
  | .reapOneWindow now => do pure (.bool (← Vault.reapOneWindow now))
  | .liveMapDivergence => do pure (.divergence (← Vault.liveMapDivergence))

/-- The answers to calls in order, errors included. -/
def answers (cs : List Call) : Prog Error (Vault H) (List (Except Error Answer)) := collect (fun c => attempt c.prog) cs

end Call

namespace Unseen

variable {S : Mirror H → Mirror H → Prop} (h : Unseen S)
include h

theorem call (c : Call) : Parallel (Vault.Abreast S) (c.prog (H := H)) := by
  cases c with
  | settleStep => exact h.settleStep.bind fun _ => parallel_pure _
  | settle => exact h.settle.bind fun _ => parallel_pure _
  | liveKeys => exact h.liveKeys.bind fun _ => parallel_pure _
  | get key => exact (h.get key).bind fun _ => parallel_pure _
  | put key value now => exact (h.settled (h.applyBatchNow _ now)).bind fun _ => parallel_pure _
  | putBatch items now => exact (h.settled (h.applyBatchNow _ now)).bind fun _ => parallel_pure _
  | applyBatch items now => exact (h.settled (h.applyBatchNow _ now)).bind fun _ => parallel_pure _
  | delete key now => exact (h.settled (h.deleteNow key now)).bind fun _ => parallel_pure _
  | grow n now => exact (h.settled (h.growNow n now)).bind fun _ => parallel_pure _
  | commit now => exact (h.settled (h.commitNow now)).bind fun _ => parallel_pure _
  | rescue now => exact (h.settled (h.rescueNow now)).bind fun _ => parallel_pure _
  | reclaimAhead now => exact (h.settled (h.reclaimAheadNow now)).bind fun _ => parallel_pure _
  | reapOneWindow now => exact (h.settled (h.reapOneWindowCapped now none)).bind fun _ => parallel_pure _
  | liveMapDivergence => exact (h.settled h.liveMapDivergenceNow).bind fun _ => parallel_pure _

theorem answers (cs : List Call) : Parallel (Vault.Abreast S) (Call.answers cs) := parallel_collect (fun c => (h.call c).attempt) cs

end Unseen

end Manifestus
