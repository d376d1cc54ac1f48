import Manifestus.Engine.Vault

/-! Opening a vault: the ladder from the devices to a head, the walk that finds what is live
(at once or in steps), the repair, and the operations that wait for the walk. -/
namespace Manifestus
open Prog

variable {H : Type} [Crates H]

/-- What a repair pruned. -/
structure RepairReport (H : Type) where
  stale : List (StalePointer H)
  dangling : List (DanglingPointer H)

namespace Vault

/-- The head's time plus one: a resume has no clock. -/
def rescueTime (v : Vault H) : Int := (v.ring.headEntry.map (·.eagleTime + 1)).getD 1

/-- Land pruned pointers: a commit with the fence waived, else a grow that keeps the prunes. -/
def landPrunes (rescueNow : Int) : Prog Error (Vault H) Bool := do
  setFence none
  let committed ← attempt (commitNow rescueNow)
  let committed ← match committed with
    | .ok _ => pure true
    | .error _ => do
      let v ← state
      let grown ← attempt (growPreservingNow (v.tract.len * 2) (rescueNow + 1))
      pure grown.isOk
  refence
  pure committed

/-- Less budget than one reap window and its reserve. -/
def wedged (v : Vault H) : Bool := v.root.isNone && v.budget.any (· < v.reapWindow + 8)

/-- Rescue a wedged head, growing when it is full of live data; nothing here fails. -/
def unwedge (now : Int) : Prog Error (Vault H) Unit := do
  match ← attempt (rescueNow now) with
  | .error .tractFull => do
    let v ← state
    let _ ← attempt (growNow (v.tract.len * 2) now)
    pure ()
  | _ => pure ()

/-- The open's tail, once the walk has found what is live. -/
def finishOpen (w : Walk H) : Prog Error (Vault H) Unit := do
  each (fun p => onStore (Hamt.prune p.route (p.hash, p.lba))) w.stale
  each (fun p => onStore (Hamt.prune p.route (p.hash, p.lba))) w.dangling
  let live := LiveSet.ofWalk w.liveBlocks w.referenced
  update fun v => { v with
    tract := { v.tract with reap := deriveReap v.tract.plow v.tract.len live }
    live := live }
  refence
  let v ← state
  let now := v.rescueTime
  let probeAllowed ←
    if w.stale.isEmpty ∧ w.dangling.isEmpty then pure true else landPrunes now
  let v ← state
  if probeAllowed ∧ v.wedged then unwedge now

/-- The committed head as a vault that can read but not yet write. -/
def resumeUnsettled (ring : Ring H) (tractBase : Nat) (root : Option (RootEntry H))
    (policy : DeletePolicy) : Except Error (Vault H) :=
  match ring.headEntry with
  | none => .error (.corrupt "bootstrap found entries but head search found none")
  | some head =>
    match checkedAdd tractBase head.tractBlocks with
    | none => .error (.corrupt "committed geometry overflows the device address")
    | some need =>
      if ring.mirror.blockCount < need then
        .error (.corrupt s!"device truncated: committed geometry needs {need} blocks")
      else
        let hamt := Hamt.fromRoot head.hamtHash head.hamtLba
        .ok
          { ring := ring
            tract := ⟨tractBase, head.tractBlocks, head.plow, 0, none⟩
            hamt := hamt
            live := LiveSet.empty
            root := root
            policy := policy
            pendingReap := none
            settling := some (Walk.start head.tractBlocks (Walker.walkStart hamt)) }

/-- Whether the open's walk is done. -/
def settled (v : Vault H) : Bool := v.settling.isNone

/-- A step of the walk `w`; an error keeps the vault unsettled. The walk so far. -/
def stepWalk (w : Walk H) : Prog Error (Vault H) (Walk H) := ⟨fun v =>
  match Walker.walkTreeStep.run ⟨v.store, w⟩ with
  | (.ok _, w') => (.ok w'.walk, v.withStore w'.store)
  | (.error e, w') => (.error e, { v.withStore w'.store with settling := some w'.walk })⟩

/-- One step of the open's walk, the last one finishing the open; true when settled. -/
def settleStep : Prog Error (Vault H) Bool := do
  let v ← state
  match v.settling with
  | none => pure true
  | some w => do
    update fun v => { v with settling := none }
    if w.todo.isEmpty then do
      finishOpen { w with dangling := [] }
      pure true
    else do
      let w ← stepWalk w
      if w.todo.isEmpty then do
        finishOpen { w with dangling := [] }
        pure true
      else do
        update fun v => { v with settling := some w }
        pure false

/-- Steps until settled. Each marks a position of the tract, so `fuel` above the tract's
length is never used up. -/
def settleSteps : Nat → Prog Error (Vault H) Unit
  | 0 => fail (.panic "walk outlived the tract")
  | fuel + 1 => do
    if ← settleStep then pure () else settleSteps fuel

def settle : Prog Error (Vault H) Unit := do
  let v ← state
  settleSteps (v.tract.len + 2)

/-- Run `x` on a new vault, leaving its mirror as the state. -/
def launch {α : Type} (v : Vault H) (x : Prog Error (Vault H) α) :
    Prog Error (Mirror H) (α × Vault H) := ⟨fun _ =>
  match x.run v with
  | (.ok a, v') => (.ok (a, v'), v'.ring.mirror)
  | (.error e, v') => (.error e, v'.ring.mirror)⟩

def resumeCommon (ring : Ring H) (tractBase : Nat) (root : Option (RootEntry H))
    (policy : DeletePolicy) : Prog Error (Mirror H) (Vault H) := do
  let v ← lift (resumeUnsettled ring tractBase root policy)
  let (_, v) ← launch v settle
  pure v

/-- The whole repair walk and the open's tail on what it found. -/
def repairWalk : Prog Error (Vault H) (RepairReport H) := do
  let w ← ⟨fun v =>
    match Walker.walkLiveRepair.run ⟨v.store, Walk.start v.tract.len []⟩ with
    | (.ok _, w) => (.ok w.walk, v.withStore w.store)
    | (.error e, w) => (.error e, v.withStore w.store)⟩
  finishOpen { w with referenced := [] }
  pure ⟨w.stale, w.dangling⟩

/-- Open the ring at `base`, or at `was` when nothing is there yet. -/
def openResidence (root : RootEntry H) : Prog Error (Mirror H) (Ring H) := do
  let ring ← Ring.openAt root.ringLog2 root.base
  if ring.head.isNone ∧ root.was ≠ root.base then Ring.openAt root.ringLog2 root.was
  else pure ring

def migratingBase (root : RootEntry H) : Nat := rootSlots + root.residences * 2 ^ root.ringLog2

def resumeMigrating (root : RootEntry H) (policy : DeletePolicy) :
    Prog Error (Mirror H) (Vault H) := do
  let ring ← openResidence root
  resumeCommon ring (migratingBase root) (some root) policy

def resume (ringLog2 : Nat) (policy : DeletePolicy) : Prog Error (Mirror H) (Vault H) := do
  let ring ← Ring.openAt ringLog2 0
  resumeCommon ring (2 ^ ringLog2) none policy

/-- The root entry of the first device that is present. -/
def rootOf : Prog Error (Mirror H) (Option (RootEntry H)) := do
  match ← Mirror.devices with
  | (none, none) => pure none
  | _ => Mirror.onFirst readRoot

/-- Whether either device holds any sealed block. -/
def anySealed : Prog Error (Mirror H) Bool := do
  let (a, b) ← Mirror.devices
  let onA ← if a.isSome then Mirror.onA anySealedBlock else pure false
  let onB ← if b.isSome then Mirror.onB anySealedBlock else pure false
  pure (onA || onB)

def genesisEntry (ringLog2 tractBlocks : Nat) (now : Int) : SpineEntry H where
  gen := 0
  prevHash := Crates.zeros
  ringLog2 := ringLog2
  tractBlocks := tractBlocks
  hamtHash := Crates.zeros
  hamtLba := 0
  plow := 0
  reap := some 0
  live := 0
  eagleTime := now

/-- The first generation on an empty ring. -/
def startSpine (ring : Ring H) (tractBase tractBlocks : Nat) (root : Option (RootEntry H))
    (now : Int) (policy : DeletePolicy) : Prog Error (Mirror H) (Vault H) := do
  let v : Vault H :=
    { ring := ring
      tract := ⟨tractBase, tractBlocks, 0, 0, none⟩
      hamt := Hamt.empty
      live := LiveSet.empty
      root := root
      policy := policy
      pendingReap := none
      settling := none }
  let (_, v) ← launch v (onRing (Ring.append (genesisEntry ring.ringLog2 tractBlocks now)))
  pure v

def genesis (ringLog2 : Nat) (now : Int) (policy : DeletePolicy) :
    Prog Error (Mirror H) (Vault H) := do
  let m ← state
  let n := 2 ^ ringLog2
  let total := m.blockCount
  if total ≤ n then fail (.corrupt s!"device too small: {total} blocks ≤ ring {n}")
  zeroRingAt ringLog2 0
  let ring ← Ring.openAt ringLog2 0
  startSpine ring n (total - n) none now policy

/-- An existing vault, or a fresh one on devices without any sealed block. -/
def openWith (ringLog2 : Nat) (now : Int) (policy : DeletePolicy) (lazy : Bool) :
    Prog Error (Mirror H) (Vault H) := do
  match ← rootOf with
  | some root => resumeMigrating root policy
  | none => do
    match ← Ring.bootstrapN with
    | some r =>
      if lazy then do
        let ring ← Ring.openAt r 0
        lift (resumeUnsettled ring (2 ^ r) none policy)
      else resume r policy
    | none => do
      if ← anySealed then
        fail (.corrupt "sealed blocks exist but no spine bootstraps: real vault needing recovery — refusing to format")
      else genesis ringLog2 now policy

def «open» (ringLog2 : Nat) (now : Int) (policy : DeletePolicy) : Prog Error (Mirror H) (Vault H) :=
  openWith ringLog2 now policy false

def openLazy (ringLog2 : Nat) (now : Int) (policy : DeletePolicy) : Prog Error (Mirror H) (Vault H) :=
  openWith ringLog2 now policy true

def openMigrating (ringLog2 residences residency : Nat) (now : Int) (policy : DeletePolicy) :
    Prog Error (Mirror H) (Vault H) := do
  match ← rootOf with
  | some root => resumeMigrating root policy
  | none => do
    if (← Ring.bootstrapN).isSome then
      fail (.corrupt "legacy fixed-ring vault: cannot adopt the migrating layout in place")
    if ← anySealed then
      fail (.corrupt "sealed blocks exist but nothing bootstraps: real vault needing recovery — refusing to format")
    if residences < 2 ∨ residency = 0 then
      fail (.corrupt "migrating layout needs ≥2 residences and residency ≥1")
    let m ← state
    let tractBase := rootSlots + residences * 2 ^ ringLog2
    let total := m.blockCount
    if total ≤ tractBase then
      fail (.corrupt s!"device too small: {total} blocks ≤ root + band {tractBase}")
    each (fun slot => Mirror.writeVerified slot .zero) (List.range rootSlots)
    zeroRingAt ringLog2 rootSlots
    let root : RootEntry H :=
      { gen := 0, prevHash := Crates.zeros, ringLog2 := ringLog2, base := rootSlots
        was := rootSlots, since := 0, residences := residences, residency := residency
        eagleTime := now }
    appendRoot root
    let ring ← Ring.openAt ringLog2 rootSlots
    startSpine ring tractBase (total - tractBase) (some root) now policy

/-- Walk tolerantly, prune what is lost, commit the pruned index. -/
def openRepairing (now : Int) (policy : DeletePolicy) :
    Prog Error (Mirror H) (RepairReport H × Vault H) := do
  let repair (ring : Ring H) (tractBase : Nat) (root : Option (RootEntry H)) :
      Prog Error (Mirror H) (RepairReport H × Vault H) := do
    let v ← lift (resumeUnsettled ring tractBase root policy)
    launch { v with settling := none } do
      let report ← repairWalk
      commitNow now
      pure report
  match ← rootOf with
  | some root => do
    let ring ← openResidence root
    repair ring (migratingBase root) (some root)
  | none => do
    match ← Ring.bootstrapN with
    | none => fail (.corrupt "nothing bootstraps: not a vault (repair needs an existing spine)")
    | some r => do
      let ring ← Ring.openAt r 0
      repair ring (2 ^ r) none

def commit (now : Int) : Prog Error (Vault H) Unit := do
  settle
  commitNow now

def applyBatch (items : List (Key × Option Bytes)) (now : Int) : Prog Error (Vault H) Unit := do
  settle
  applyBatchNow items now

def put (key : Key) (value : Bytes) (now : Int) : Prog Error (Vault H) Unit :=
  applyBatch [(key, some value)] now

def putBatch (items : List (Key × Bytes)) (now : Int) : Prog Error (Vault H) Unit :=
  applyBatch (items.map fun p => (p.1, some p.2)) now

def delete (key : Key) (now : Int) : Prog Error (Vault H) Bool := do
  settle
  deleteNow key now

def grow (newTractBlocks : Nat) (now : Int) : Prog Error (Vault H) Unit := do
  settle
  growNow newTractBlocks now

def rescue (now : Int) : Prog Error (Vault H) Nat := do
  settle
  rescueNow now

def reclaimAhead (now : Int) : Prog Error (Vault H) Reclaim := do
  settle
  reclaimAheadNow now

def reapOneWindow (now : Int) : Prog Error (Vault H) Bool := do
  settle
  reapOneWindowCapped now none

def liveMapDivergence : Prog Error (Vault H) (List Nat × List Nat) := do
  settle
  liveMapDivergenceNow

end Vault
end Manifestus
