import Manifestus.Engine.Open

/-! Verified replication: the device with the newer spine is copied onto the other. -/
namespace Manifestus
open Prog

variable {H : Type} [Crates H]

structure Replicated where
  spineCopied : Nat
  tractCopied : Nat
  deriving DecidableEq, Repr

/-- Where a device's spine lives and where its tract begins. -/
structure DeviceLayout where
  spineBase : Nat
  tractBase : Nat
  hasRoot : Bool
  deriving DecidableEq, Repr

/-- Two devices, one to read from and one to converge. -/
structure Pair (H : Type) where
  src : Dev H
  dst : Dev H

namespace Pair

def onSrc {α : Type} (x : Prog Error (Dev H) α) : Prog Error (Pair H) α :=
  zoom Pair.src (fun d p => { p with src := d }) x

def onDst {α : Type} (x : Prog Error (Dev H) α) : Prog Error (Pair H) α :=
  zoom Pair.dst (fun d p => { p with dst := d }) x

def swap (p : Pair H) : Pair H := ⟨p.dst, p.src⟩

def swapped {α : Type} (x : Prog Error (Pair H) α) : Prog Error (Pair H) α :=
  zoom swap (fun q _ => q.swap) x

end Pair
open Pair

/-- The highest valid generation of a spine residence and its slot, by a scan of every slot. -/
def bestGen (n ringLog2 base : Nat) : Prog Error (Dev H) (Option Nat × Nat) := do
  let d ← state
  go none 0 (List.range (min (d.count - base) n))
where
  go (best : Option Nat) (slotOfBest : Nat) : List Nat → Prog Error (Dev H) (Option Nat × Nat)
    | [] => pure (best, slotOfBest)
    | slot :: rest => do
      let buf ← Dev.read (base + slot)
      match classify buf slot (some ringLog2) with
      | .valid e =>
        if best.all (· < e.gen) then go (some e.gen) slot rest else go best slotOfBest rest
      | _ => go best slotOfBest rest

/-- The head as the inspector reports it: the greatest generation of every slot of a fixed
ring, the last of equals. -/
def inspectHead (ringLog2 : Nat) : Prog Error (Dev H) (Option (Nat × SpineEntry H)) := do
  let d ← state
  go none (List.range (min (2 ^ ringLog2) d.count))
where
  go (best : Option (Nat × SpineEntry H)) :
      List Nat → Prog Error (Dev H) (Option (Nat × SpineEntry H))
    | [] => pure best
    | slot :: rest => do
      let buf ← Dev.read slot
      match classify buf slot (some ringLog2) with
      | .valid e => if best.all (·.2.gen ≤ e.gen) then go (some (slot, e)) rest else go best rest
      | _ => go best rest

/-- The order of optional generations: none is below every generation. -/
def genLe : Option Nat → Option Nat → Bool
  | none, _ => true
  | some _, none => false
  | some x, some y => x ≤ y

def resolveLayout (ringLog2 : Nat) : Prog Error (Dev H) (DeviceLayout × Option Nat × Nat) := do
  let n := 2 ^ ringLog2
  match ← readRoot with
  | some root => do
    let band := rootSlots + root.residences * 2 ^ root.ringLog2
    let (genAt, slotAt) ← bestGen n ringLog2 root.base
    let (genWas, slotWas) ← bestGen n ringLog2 root.was
    if genLe genWas genAt then pure (⟨root.base, band, true⟩, genAt, slotAt)
    else pure (⟨root.was, band, true⟩, genWas, slotWas)
  | none => do
    let (gen, slot) ← bestGen n ringLog2 0
    pure (⟨0, n, false⟩, gen, slot)

/-- `write_verified_one`: the mirror's own write discipline on one device. -/
def writeVerifiedOne (lba : Nat) (buf : Block H) : Prog Error (Dev H) Unit := writeOne lba buf

/-- Each written, one flush, each read back and compared; how many were written. -/
def writeVerifiedBatchSolo (blocks : List (Nat × Block H)) : Prog Error (Dev H) Nat := do
  if blocks.isEmpty then pure 0
  else do
    each (fun x => Dev.write x.1 x.2) blocks
    Dev.flush
    each (fun x => do
        let check ← Dev.read x.1
        if check ≠ x.2 then writeVerifiedOne x.1 x.2)
      blocks
    pure blocks.length

/-- Copy the slots whose bytes differ; how many were copied. -/
def copySlots : List Nat → Prog Error (Pair H) Nat
  | [] => pure 0
  | lba :: rest => do
    let s ← onSrc (Dev.read lba)
    let d ← onDst (Dev.read lba)
    if s ≠ d then do
      onDst (writeVerifiedOne lba s)
      let copied ← copySlots rest
      pure (copied + 1)
    else copySlots rest

/-- A program on a mirror of one device. -/
def solo {α : Type} (x : Prog Error (Mirror H) α) : Prog Error (Dev H) α := ⟨fun d =>
  match x.run ⟨some d, none, true, [], [], [], 0, none, []⟩ with
  | (r, m) => (r, m.a.getD d)⟩

/-- A walk's positions, sorted, each once. -/
def sortedOnce (positions : List Nat) : List Nat := (positions.insertionSort (· ≤ ·)).dedup

/-- The live positions the head of a device commits to; none without a head. -/
def committedLive (ringLog2 : Nat) (layout : DeviceLayout) :
    Prog Error (Mirror H) (Option (List Nat)) := do
  let ring ← Ring.openAt ringLog2 layout.spineBase
  match ring.headEntry with
  | none => pure none
  | some head =>
    match checkedAdd layout.tractBase head.tractBlocks with
    | none => fail (.corrupt "committed geometry overflows the device address")
    | some need =>
      if ring.mirror.blockCount < need then
        fail (.corrupt s!"winner truncated: committed geometry needs {need} blocks")
      else do
        let tract : Tract :=
          ⟨layout.tractBase, head.tractBlocks, head.plow, head.reap.getD head.plow, none⟩
        let w ← ⟨fun m =>
          match Walker.walkTreeCollect.run
              ⟨⟨m, tract, Hamt.fromRoot head.hamtHash head.hamtLba⟩, Walk.start tract.len []⟩ with
          | (.ok _, w) => (.ok w.walk, w.store.mirror)
          | (.error e, w) => (.error e, w.store.mirror)⟩
        pure (some (sortedOnce (w.liveBlocks.map Prod.fst ++ w.referenced)))

/-- `STEP`. -/
def copyStep : Nat := 2 ^ 8

/-- The blocks of a run that differ and are sealed on the winner. -/
def differing (base : Nat) (s d : List (Block H)) : List (Nat × Block H) :=
  ((List.range s.length).zip (s.zip d)).filterMap fun x =>
    if x.2.1 ≠ x.2.2 ∧ (sealedHp x.2.1).isSome then some (base + x.1, x.2.1) else none

/-- Compare the live blocks run by run; differing ones are written a batch at a time. -/
def copyRuns (tractBase : Nat) (fix : List (Nat × Block H)) (copied : Nat) :
    List (List Nat) → Prog Error (Pair H) Nat
  | [] => do
    let last ← onDst (writeVerifiedBatchSolo fix)
    pure (copied + last)
  | run :: runs => do
    let base := tractBase + run.headD 0
    let s ← onSrc (Dev.readRun base run.length)
    let d ← onDst (Dev.readRun base run.length)
    let fix := fix ++ differing base s d
    if copyStep ≤ fix.length then do
      let some' ← onDst (writeVerifiedBatchSolo fix)
      copyRuns tractBase [] (copied + some') runs
    else copyRuns tractBase fix copied runs

/-- Geometry, root slots, spine slots, then the winner's committed live set. -/
def replicateInto (ringLog2 : Nat) : Prog Error (Pair H) Replicated := do
  let p ← state
  if p.dst.count < p.src.count then onDst (Dev.grow p.src.count)
  let (layout, _, _) ← onSrc (resolveLayout ringLog2)
  let roots ← if layout.hasRoot then copySlots (List.range rootSlots) else pure 0
  let spine ← copySlots ((List.range (2 ^ ringLog2)).map (layout.spineBase + ·))
  match ← onSrc (solo (committedLive ringLog2 layout)) with
  | none => pure ⟨roots + spine, 0⟩
  | some live => do
    let copied ← copyRuns layout.tractBase [] 0 (cutRuns copyStep live)
    pure ⟨roots + spine, copied⟩

/-- Converge the device with the older spine; equal heads are taken as converged. -/
def verifiedReplicate (ringLog2 : Nat) : Prog Error (Pair H) Replicated := do
  let (la, genA, slotA) ← onSrc (resolveLayout ringLog2)
  let (lb, genB, slotB) ← onDst (resolveLayout ringLog2)
  let p ← state
  let converged ←
    if genA.isSome ∧ genA = genB ∧ slotA = slotB ∧ la.spineBase = lb.spineBase ∧
        p.src.count = p.dst.count then do
      let ha ← onSrc (Dev.read (la.spineBase + slotA))
      let hb ← onDst (Dev.read (lb.spineBase + slotB))
      pure (decide (ha = hb))
    else pure false
  if converged then pure ⟨0, 0⟩
  else if genLe genB genA then replicateInto ringLog2
  else swapped (replicateInto ringLog2)

end Manifestus
