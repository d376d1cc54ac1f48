import Manifestus.Engine.Ring
import Manifestus.Engine.Walk
import Manifestus.Engine.Reap
import Manifestus.Engine.LiveSet

/-! The vault: commit, reap, rescue and grow, and the write ladders over them. The definitions
here are the operations once the open's walk is done; the operations that wait for it are in
`Manifestus.Engine.Open`. -/
namespace Manifestus
open Prog

variable {H : Type} [Crates H]

structure Vault (H : Type) where
  ring : Ring H
  tract : Tract
  hamt : Hamt H
  live : LiveSet H
  root : Option (RootEntry H)
  policy : DeletePolicy
  pendingReap : Option Nat
  settling : Option (Walk H)

/-- `REAP_WINDOW_MIN`. -/
def reapWindowMin : Nat := 2 ^ 4

/-- `RECLAIM_WINDOW_MAX`. -/
def reclaimWindowMax : Nat := 2 ^ 8

/-- `RESERVE`. -/
def reserve : Nat := 4

inductive Reclaim where
  | comfortable
  | reaped
  | liveHeavy
  | stuck
  deriving DecidableEq, Repr

/-- The least budget of the last generations, once there are enough of them. -/
def fenceFrom (budgetsNewestFirst : List Nat) : Option Nat :=
  if budgetsNewestFirst.length < fenceK then none else budgetsNewestFirst.min?

/-- The largest reap whose clean region holds no live block. -/
def deriveReap (plow len : Nat) (live : LiveSet H) : Nat :=
  let clean := live.positions.foldl (fun clean lba => min clean ((lba + len - plow % len) % len)) len
  plow + clean - len

/-- The plow and reap of a tract grown to `newLen`: clean space is exactly what was added. -/
def Tract.realign (t : Tract) (newLen : Nat) : Tract :=
  let plow := t.plow + (t.len + newLen - t.plow % newLen) % newLen
  { t with plow := plow, reap := plow - t.len, len := newLen }

namespace Vault

def store (v : Vault H) : Store H := ⟨v.ring.mirror, v.tract, v.hamt⟩

def withStore (s : Store H) (v : Vault H) : Vault H :=
  { v with ring := { v.ring with mirror := s.mirror }, tract := s.tract, hamt := s.hamt }

def onStore {α : Type} (x : Prog Error (Store H) α) : Prog Error (Vault H) α :=
  zoom store withStore x

def onRing {α : Type} (x : Prog Error (Ring H) α) : Prog Error (Vault H) α :=
  zoom Vault.ring (fun r v => { v with ring := r }) x

def onMirror {α : Type} (x : Prog Error (Mirror H) α) : Prog Error (Vault H) α :=
  onRing (Ring.onMirror x)

def setFence (limit : Option Nat) : Prog Error (Vault H) Unit :=
  update fun v => { v with tract := { v.tract with fenceLimit := limit } }

/-- The committed head entry. -/
def headOr (reason : String) : Prog Error (Vault H) (SpineEntry H) := do
  let v ← state
  match v.ring.headEntry with
  | some head => pure head
  | none => fail (.corrupt reason)

/-- The fence of the last generations on the ring. -/
def refence : Prog Error (Vault H) Unit := do
  let fences ← onRing (Ring.recentFences fenceK)
  setFence (fenceFrom fences)

/-- A generation that changes nothing, to slide the fence. -/
def appendHeartbeat (now : Int) : Prog Error (Vault H) Unit := do
  let head ← headOr "heartbeat on pre-genesis vault"
  let v ← state
  onRing (Ring.append
    { head with
      gen := head.gen + 1
      prevHash := head.bodyHash
      ringLog2 := v.ring.ringLog2
      live := v.live.len
      eagleTime := now })
  refence

/-- Move the spine to the next residence of the band. -/
def migrateRing (now : Int) : Prog Error (Vault H) Unit := do
  let v ← state
  match v.root with
  | none => pure ()
  | some root => do
    let n := 2 ^ root.ringLog2
    let cur := v.ring.base
    let idx := (cur - rootSlots) / n
    let next := rootSlots + (idx + 1) % root.residences * n
    onMirror (zeroRingAt root.ringLog2 next)
    let headGen := (v.ring.headEntry.map SpineEntry.gen).getD 0
    let newRoot : RootEntry H :=
      { gen := root.gen + 1
        prevHash := root.bodyHash
        ringLog2 := root.ringLog2
        base := next
        was := cur
        since := headGen + 1
        residences := root.residences
        residency := root.residency
        eagleTime := now }
    onMirror (appendRoot newRoot)
    update fun v => { v with ring := { v.ring with base := next }, root := some newRoot }

/-- Flush the index and apply what it and the epoch changed to the live set. -/
def flushOnce : Prog Error (Vault H) (H × Nat) := do
  let v ← state
  let root ← onStore (Hamt.flush v.live.liveness)
  let delta ← onStore Hamt.takeDelta
  update fun v => { v with live := v.live.apply delta }
  pure root

/-- Flush with a heartbeat after each fenced try but the last. -/
def flushIndex (now : Int) : Nat → Prog Error (Vault H) (H × Nat)
  | 0 => flushOnce
  | attempts + 1 => do
    match ← attempt flushOnce with
    | .ok root => pure root
    | .error (.fenced _) => do
      appendHeartbeat now
      flushIndex now attempts
    | .error e => fail e

/-- The entry that commits the flushed index. -/
def nextEntry (v : Vault H) (head : SpineEntry H) (root : H × Nat) (now : Int) : SpineEntry H where
  gen := head.gen + 1
  prevHash := head.bodyHash
  ringLog2 := v.ring.ringLog2
  tractBlocks := v.tract.len
  hamtHash := root.1
  hamtLba := root.2
  plow := v.tract.plow
  reap := some v.tract.reap
  live := v.live.len
  eagleTime := now

/-- A staged window is retired. -/
def retireReap (v : Vault H) : Vault H :=
  match v.pendingReap with
  | some r => { v with tract := { v.tract with reap := r }, pendingReap := none }
  | none => v

/-- Flush the index, append the next generation, recompute the fence. -/
def commitNow (now : Int) : Prog Error (Vault H) Unit := do
  let root ← flushIndex now (fenceK + 3)
  update retireReap
  let head ← headOr "commit on pre-genesis vault"
  let v ← state
  let entry := nextEntry v head root now
  onRing (Ring.append entry)
  refence
  let v ← state
  match v.root with
  | none => pure ()
  | some root => if root.residency * 2 ^ v.ring.ringLog2 ≤ entry.gen - root.since then migrateRing now

/-- The index of the committed head, everything provisional dropped. -/
def reloadHead (reason : String) : Prog Error (Vault H) Unit := do
  let head ← headOr reason
  update fun v => { v with hamt := Hamt.fromRoot head.hamtHash head.hamtLba, pendingReap := none }

/-- Grow the tract. A barrier: the committed head is reloaded and walked. -/
def growNow (newTractBlocks : Nat) (now : Int) : Prog Error (Vault H) Unit := do
  let v ← state
  if newTractBlocks ≤ v.tract.len then pure ()
  else do
    onMirror (Mirror.grow (v.tract.base + newTractBlocks))
    let head ← headOr "grow on pre-genesis vault"
    reloadHead "grow on pre-genesis vault"
    update fun v => { v with tract := { v.tract with plow := head.plow } }
    let walk ← rewalk
    update fun v => { v with live := LiveSet.ofWalk walk.liveBlocks walk.referenced }
    update fun v => { v with tract := v.tract.realign newTractBlocks }
    commitNow now
where
  rewalk : Prog Error (Vault H) (Walk H) := ⟨fun v =>
    match Walker.walkTreeCollect.run ⟨v.store, Walk.start v.tract.len []⟩ with
    | (.ok _, w) => (.ok w.walk, v.withStore w.store)
    | (.error e, w) => (.error e, v.withStore w.store)⟩

/-- Grow without the reload, for the repair whose prunes are only in memory. -/
def growPreservingNow (newTractBlocks : Nat) (now : Int) : Prog Error (Vault H) Unit := do
  let v ← state
  if newTractBlocks ≤ v.tract.len then pure ()
  else do
    onMirror (Mirror.grow (v.tract.base + newTractBlocks))
    update fun v => { v with pendingReap := none }
    update fun v => { v with tract := v.tract.realign newTractBlocks }
    commitNow now

def reapWindow (v : Vault H) : Nat := max (v.tract.len / 2 ^ 6) reapWindowMin

/-- One reap window whose retirement waits for the commit. -/
def reapStaged (w : Nat) : Prog Error (Vault H) Unit := do
  let v ← state
  onStore (Hamt.reapWindow v.live.liveness w)
  update fun u => { u with pendingReap := some u.tract.reap, tract := { u.tract with reap := v.tract.reap } }

/-- Blocks the fence still lets the plow use. -/
def budget (v : Vault H) : Option Nat := v.tract.fenceLimit.map (· - v.tract.plow)

/-- Clean one window of at most `cap` blocks and commit; false without progress. -/
def reapOneWindowCapped (now : Int) (cap : Option Nat) : Prog Error (Vault H) Bool := do
  let v ← state
  if v.pendingReap.isSome then commitNow now
  let v ← state
  let occupied := v.tract.plow - v.tract.reap
  if occupied = 0 then pure false
  else do
    let w := min (min (cap.elim v.reapWindow (min v.reapWindow)) occupied)
      (v.tract.cleanBlocks - reserve)
    if w = 0 then pure false
    else do
      if v.budget.any (· < w + reserve) then commitNow now
      let v ← state
      let w := v.budget.elim w fun b => min w (b - reserve)
      if w = 0 then pure false
      else do
        reapStaged w
        commitNow now
        pure true

/-- One reap window while dead space exceeds a quarter of the tract. -/
def maybeReap (now : Int) : Prog Error (Vault H) Unit := do
  let v ← state
  let used := min (v.tract.plow - v.tract.reap) v.tract.len
  let dead := used - v.live.len
  if v.tract.len < dead * 4 then do
    let _ ← reapOneWindowCapped now none
    pure ()

/-- The longest window, up to `maxW`, whose survivors the clean space can stage. -/
def rescueWindow (v : Vault H) (maxW : Nat) : Nat :=
  go 0 maxW 0
where
  go (surv : Nat) : Nat → Nat → Nat
    | 0, i => i
    | left + 1, i =>
      let pos := (v.tract.reap + i) % v.tract.len
      let surv := surv + if v.live.liveness.isReferenced pos then 1 else 0
      if 0 < surv ∧ v.tract.cleanBlocks < surv + reserve then i else go surv left (i + 1)

def comfortable (v : Vault H) : Bool := v.budget.all fun b => v.reapWindow + reserve * 2 ≤ b

/-- The windows of a rescue, at most `left` more. -/
def rescueWindows (now : Int) : Nat → Nat → Bool → Prog Error (Vault H) Nat
  | 0, windows, _ => pure windows
  | left + 1, windows, airlockGrown => do
    let v ← state
    let occupied := v.tract.plow - v.tract.reap
    if occupied = 0 then pure windows
    else if v.comfortable ∧ 0 < windows then pure windows
    else do
      let w := rescueWindow v (min v.reapWindow occupied)
      if w = 0 then
        if airlockGrown then fail .tractFull
        else do
          growNow (if v.tract.len < v.live.len * 2 then v.tract.len * 2
            else v.tract.len + v.reapWindow * 4) now
          rescueWindows now left windows true
      else do
        setFence none
        reapStaged w
        commitNow now
        rescueWindows now left (windows + 1) airlockGrown

/-- The exit of the fence deadlock: reap with the fence waived. -/
def rescueNow (now : Int) : Prog Error (Vault H) Nat := do
  let v ← state
  let windows ← rescueWindows now (max (v.tract.len / reapWindowMin) 8) 0 false
  refence
  pure windows

def reclaimAheadNow (now : Int) : Prog Error (Vault H) Reclaim := do
  let v ← state
  let len := v.tract.len
  let clean := v.tract.cleanBlocks
  let dead := (v.tract.plow - v.tract.reap) - v.live.len
  if ¬ clean < len / 2 ^ 3 ∧ dead * 4 ≤ len then pure .comfortable
  else if clean < len / 2 ^ 3 ∧ len * 3 < v.live.len * 4 then pure .liveHeavy
  else do
    let cap := min reclaimWindowMax (clean / 2)
    if cap = 0 then pure .stuck
    else do
      let reaped ← reapOneWindowCapped now (some cap)
      pure (if reaped then .reaped else .stuck)

/-- The ladder's own grow, refused while earlier work is uncommitted. -/
def growInLadder (now : Int) : Prog Error (Vault H) Unit := do
  let v ← state
  if v.hamt.hasUncommitted then fail .tractFull
  else growNow (v.tract.len * 2) now

/-- Back to the committed head, earlier work landed first. -/
def rollbackToHead (now : Int) (commitFailed : Bool) : Prog Error (Vault H) Unit := do
  let v ← state
  if v.hamt.hasUncommitted then do
    if commitFailed then fail .tractFull
    match ← attempt (commitNow now) with
    | .ok _ => pure ()
    | .error .tractFull => fail .tractFull
    | .error (.fenced _) => fail .tractFull
    | .error e => fail e
  reloadHead "rescue on pre-genesis vault"

/-- The exit of a batch: the committed head, a rescue, one grow if that finds the tract full. -/
def rescueFromCommittedHead (now : Int) : Prog Error (Vault H) Unit := do
  reloadHead "rescue on pre-genesis vault"
  match ← attempt (rescueNow now) with
  | .ok _ => pure ()
  | .error .tractFull => do
    let v ← state
    growNow (v.tract.len * 2) now
  | .error e => fail e

/-- A rescue inside the put ladder; true once the tract has grown. -/
def ladderRescue (now : Int) (grew : Bool) : Prog Error (Vault H) Bool := do
  match ← attempt (rescueNow now) with
  | .ok _ => pure grew
  | .error .tractFull =>
    if grew then fail .tractFull
    else do
      growInLadder now
      pure true
  | .error e => fail e

def get (key : Key) : Prog Error (Vault H) (Option Bytes) := onStore (Hamt.lookup key)

/-- Up to `left` attempts of a put; whether it landed, and whether the tract grew. -/
def putAttempts (key : Key) (value : Bytes) (now : Int) :
    Nat → Bool → Prog Error (Vault H) (Bool × Bool)
  | 0, grew => pure (false, grew)
  | left + 1, grew => do
    let v ← state
    match ← attempt (onStore (Hamt.put v.live.liveness key value)) with
    | .ok _ => pure (true, grew)
    | .error (.fenced _) => do
      match ← attempt (commitNow now) with
      | .error (.fenced _) => do
        rollbackToHead now true
        let grew ← ladderRescue now grew
        putAttempts key value now left grew
      | _ => putAttempts key value now left grew
    | .error .tractFull => do
      let reaped ← reapOneWindowCapped now none
      if reaped then putAttempts key value now left grew
      else do
        rollbackToHead now false
        let grew ← ladderRescue now grew
        putAttempts key value now left grew
    | .error e => fail e

/-- Attempts of one pass of the put ladder. -/
def putBound (v : Vault H) : Nat := fenceK + 3 + v.tract.len / v.reapWindow + 8

/-- The put ladder without the final commit: a pass of attempts, then one grow and another. -/
def putNoCommit (key : Key) (value : Bytes) (now : Int) : Prog Error (Vault H) Unit := do
  let v ← state
  let (landed, grew) ← putAttempts key value now v.putBound false
  if landed then pure ()
  else if grew then fail .tractFull
  else do
    growInLadder now
    let v ← state
    let (landed, _) ← putAttempts key value now v.putBound true
    if landed then pure () else fail .tractFull

/-- Whether `value` is already the committed value at `key`. -/
def holdsCommitted (key : Key) (value : Bytes) : Prog Error (Vault H) Bool := do
  match ← onStore (Hamt.findLeaf key) with
  | none => pure false
  | some (lba, hash) => do
    let v ← state
    if v.live.get? lba ≠ some hash then pure false
    else match ← attempt (get key) with
      | .ok stored => pure (stored = some value)
      | .error .badSeal => pure false
      | .error (.corrupt _) => pure false
      | .error e => fail e

/-- A delete of the batch, retried after a commit while it is fenced. -/
def deleteAttempts (key : Key) (now : Int) : Nat → Prog Error (Vault H) Bool
  | 0 => fail (.panic "delete ladder")
  | left + 1 => do
    let v ← state
    match ← attempt (onStore (Hamt.delete key v.policy)) with
    | .ok existed => pure existed
    | .error (.fenced _) => do
      commitNow now
      deleteAttempts key now left
    | .error e => fail e

/-- The items of a batch in order, provisional; whether anything changed. -/
def applyItems (now : Int) : List (Key × Option Bytes) → Prog Error (Vault H) Bool
  | [] => pure false
  | (key, some value) :: items => do
    if ← holdsCommitted key value then applyItems now items
    else do
      putNoCommit key value now
      let _ ← applyItems now items
      pure true
  | (key, none) :: items => do
    let existed ← deleteAttempts key now 2
    let dirty ← applyItems now items
    pure (existed || dirty)

/-- The first pass over the items; a full tract grows and replays them. -/
def applyGrowing (items : List (Key × Option Bytes)) (now : Int) : Prog Error (Vault H) Bool := do
  match ← attempt (applyItems now items) with
  | .ok dirty => pure dirty
  | .error .tractFull => do
    let v ← state
    growNow (v.tract.len * 2) now
    let _ ← applyItems now items
    pure true
  | .error e => fail e

/-- Put and delete items in order under one commit. -/
def applyBatchNow (items : List (Key × Option Bytes)) (now : Int) : Prog Error (Vault H) Unit := do
  if items.isEmpty then pure ()
  else do
    let dirty ← applyGrowing items now
    if !dirty then pure ()
    else do
      let replay ← commitOrMakeRoom
      if replay then do
        let _ ← applyItems now items
        commitNow now
      maybeReap now
where
  /-- Commit, or make room at the committed head; whether the batch must be replayed. -/
  commitOrMakeRoom : Prog Error (Vault H) Bool := do
    match ← attempt (commitNow now) with
    | .ok _ => pure false
    | .error .tractFull => do
      let v ← state
      growNow (v.tract.len * 2) now
      pure true
    | .error (.fenced _) => do
      rescueFromCommittedHead now
      pure true
    | .error e => fail e

def deleteNow (key : Key) (now : Int) : Prog Error (Vault H) Bool := do
  let v ← state
  let existed ← onStore (Hamt.delete key v.policy)
  if existed then do
    commitNow now
    maybeReap now
  pure existed

/-- The live set against the index: positions only the set has, positions only the index has. -/
def liveMapDivergenceNow : Prog Error (Vault H) (List Nat × List Nat) := ⟨fun v =>
  match Walker.walkLiveCollect.run ⟨v.store, Walk.start v.tract.len []⟩ with
  | (.error e, w) => (.error e, v.withStore w.store)
  | (.ok _, w) =>
    let index := w.walk.liveBlocks.foldl LiveSet.insert LiveSet.empty
    let unrouted := (v.live.map.filter fun e => index.get? e.1 ≠ some e.2).map Prod.fst ++
      v.live.referenced.filter fun lba => (index.get? lba).isNone
    let missing := (index.map.filter fun e =>
      v.live.get? e.1 ≠ some e.2 && !v.live.referenced.contains e.1).map Prod.fst
    (.ok (unrouted.insertionSort (· ≤ ·), missing.insertionSort (· ≤ ·)), v.withStore w.store)⟩

/-- The key of every leaf of the committed index. -/
def liveKeys : Prog Error (Vault H) (List Key) := ⟨fun v =>
  match Walker.walkKeys.run ⟨v.store, Walk.start v.tract.len []⟩ with
  | (.error e, w) => (.error e, v.withStore w.store)
  | (.ok _, w) => (.ok w.walk.keys, v.withStore w.store)⟩

end Vault
end Manifestus
