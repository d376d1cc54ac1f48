import Manifestus.Engine.Device
import Mathlib.Data.List.Sort

/-! The mirror: staged appends, an index cache, and writes verified on the primary device
before the secondary is touched. -/
namespace Manifestus
open Prog

variable {H : Type} [Crates H]

inductive StorageEvent where
  | mirrorDegraded
  | liveLapAverted (lba : Nat)
  deriving DecidableEq, Repr

/-- Appends staged together, in a vector that never outgrows its first allocation. -/
structure Batch (H : Type) where
  capacity : Nat
  items : List (Nat × Block H)

/-- The mirror. `cache` holds position, last use and contents, sorted by position. `dropped`
is the secondary given up during the session. `marks` are the lengths of the two device logs
each time a write phase ended: between two marks the devices proceed independently. -/
structure Mirror (H : Type) where
  a : Option (Dev H)
  b : Option (Dev H)
  degraded : Bool
  events : List StorageEvent
  pending : List (Batch H)
  cache : List (Nat × Nat × Block H)
  uses : Nat
  dropped : Option (Dev H)
  marks : List (Nat × Nat)

/-- Write, flush, read back, compare; one retry, then a hard error. -/
def writeOne (lba : Nat) (buf : Block H) : Prog Error (Dev H) Unit :=
  go 2
where
  go : Nat → Prog Error (Dev H) Unit
    | 0 => fail (.verify lba)
    | n + 1 => do
      Dev.write lba buf
      Dev.flush
      let back ← Dev.read lba
      if back = buf then pure () else go n

/-- The batch cut where positions stop being consecutive. -/
def runsOf : List (Nat × Block H) → List (List (Nat × Block H))
  | [] => []
  | x :: rest =>
    match runsOf rest with
    | (y :: run) :: runs => if y.1 = x.1 + 1 then (x :: y :: run) :: runs else [x] :: (y :: run) :: runs
    | runs => [x] :: runs

def writeRuns : List (List (Nat × Block H)) → Prog Error (Dev H) Unit
  | [] => pure ()
  | [] :: runs => writeRuns runs
  | (x :: run) :: runs => do
    Dev.writeRun x.1 ((x :: run).map Prod.snd)
    writeRuns runs

/-- A block that reads back different is written again alone. -/
def checkBack : List ((Nat × Block H) × Block H) → Prog Error (Dev H) Unit
  | [] => pure ()
  | ((lba, buf), got) :: rest => do
    if got ≠ buf then writeOne lba buf
    checkBack rest

def verifyRuns : List (List (Nat × Block H)) → Prog Error (Dev H) Unit
  | [] => pure ()
  | [] :: runs => verifyRuns runs
  | (x :: run) :: runs => do
    let back ← Dev.readRun x.1 (x :: run).length
    checkBack ((x :: run).zip back)
    verifyRuns runs

/-- Write every block of a batch, flush once, verify every block. -/
def writeEach (blocks : List (Nat × Block H)) : Prog Error (Dev H) Unit := do
  writeRuns (runsOf blocks)
  Dev.flush
  verifyRuns (runsOf blocks)

/-- `PAR_BATCH_THRESHOLD`. -/
def parBatchThreshold : Nat := 4

/-- `CACHE_BLOCKS`. -/
def cacheBlocks : Nat := 2 ^ 10

namespace Mirror

def fromParts (a b : Option (Dev H)) : Except Error (Mirror H) :=
  if a.isNone ∧ b.isNone then .error (.corrupt "mirror requires at least one device")
  else .ok ⟨a, b, a.isNone || b.isNone, [], [], [], 0, none, []⟩

def new (a b : Dev H) : Mirror H := ⟨some a, some b, false, [], [], [], 0, none, []⟩

/-- The devices of a session attached again: what a cold reopen starts from. -/
def reattach (m : Mirror H) : Mirror H where
  a := m.a.map fun d => d.image.dev d.limit
  b := (m.b.or m.dropped).map fun d => d.image.dev d.limit
  degraded := m.a.isNone || (m.b.or m.dropped).isNone
  events := []
  pending := []
  cache := []
  uses := 0
  dropped := none
  marks := []

def noDevices : Error := .corrupt "mirror has no devices"

def mark (m : Mirror H) : Mirror H :=
  { m with marks := m.marks ++
      [((m.a.map (·.log.length)).getD 0, ((m.b <|> m.dropped).map (·.log.length)).getD 0)] }

/-- A write phase on the first device. -/
def onA {α : Type} (x : Prog Error (Dev H) α) : Prog Error (Mirror H) α := ⟨fun m =>
  match m.a with
  | none => (.error noDevices, m)
  | some d =>
    match x.run d with
    | (r, d') => (r, { m with a := some d' }.mark)⟩

/-- A write phase on the second device. -/
def onB {α : Type} (x : Prog Error (Dev H) α) : Prog Error (Mirror H) α := ⟨fun m =>
  match m.b with
  | none => (.error noDevices, m)
  | some d =>
    match x.run d with
    | (r, d') => (r, { m with b := some d' }.mark)⟩

/-- One write phase on both devices at once, each on a thread of its own. -/
def onBoth (x : Prog Error (Dev H) Unit) :
    Prog Error (Mirror H) (Except Error Unit × Except Error Unit) := ⟨fun m =>
  match m.a, m.b with
  | some a, some b =>
    match x.run a, x.run b with
    | (ra, a'), (rb, b') => (.ok (ra, rb), { m with a := some a', b := some b' }.mark)
  | _, _ => (.error noDevices, m)⟩

/-- Reads go to the first device that is present. -/
def onFirst {α : Type} (x : Prog Error (Dev H) α) : Prog Error (Mirror H) α := ⟨fun m =>
  match m.a, m.b with
  | some d, _ =>
    match x.run d with
    | (r, d') => (r, { m with a := some d' })
  | none, some d =>
    match x.run d with
    | (r, d') => (r, { m with b := some d' })
  | none, none => (.error noDevices, m)⟩

/-- The secondary failed: it is given up for the session. -/
def dropB : Prog Error (Mirror H) Unit := update fun m =>
  { m with b := none, dropped := m.b, degraded := true, events := m.events ++ [.mirrorDegraded] }

/-- `x` on the secondary, if there is one; a failure drops it. -/
def onSecondary (x : Prog Error (Dev H) Unit) : Prog Error (Mirror H) Unit := do
  let m ← state
  match m.b with
  | none => pure ()
  | some _ => do
    match ← attempt (onB x) with
    | .ok _ => pure ()
    | .error _ => dropB

/-- `x` on the primary, which must succeed, then on the secondary. -/
def everywhere (x : Prog Error (Dev H) Unit) : Prog Error (Mirror H) Unit := do
  let m ← state
  match m.a, m.b with
  | some _, _ => do
    onA x
    onSecondary x
  | none, some _ => onB x
  | none, none => fail noDevices

/-- A position about to be written leaves the cache. -/
def forget (lba : Nat) (m : Mirror H) : Mirror H :=
  { m with cache := m.cache.filter fun e => e.1 ≠ lba }

def emit (e : StorageEvent) : Prog Error (Mirror H) Unit :=
  update fun m => { m with events := m.events ++ [e] }

def stage (blocks : List (Nat × Block H)) (m : Mirror H) : Mirror H :=
  if blocks.isEmpty then m
  else { blocks.foldl (fun m x => m.forget x.1) m with
    pending := m.pending ++ [⟨blocks.length, blocks⟩] }

def reserveStaged (n : Nat) (m : Mirror H) : Mirror H :=
  if 0 < n then { m with pending := m.pending ++ [⟨n, []⟩] } else m

/-- Stage one block, into the last batch while it has room, else into a batch of its own. -/
def stageOne (lba : Nat) (b : Block H) (m : Mirror H) : Mirror H :=
  match m.pending.getLast? with
  | some batch =>
    if batch.items.length < batch.capacity then
      { m.forget lba with
        pending := m.pending.dropLast ++ [⟨batch.capacity, batch.items ++ [(lba, b)]⟩] }
    else { m.forget lba with pending := m.pending ++ [⟨1, [(lba, b)]⟩] }
  | none => { m.forget lba with pending := m.pending ++ [⟨1, [(lba, b)]⟩] }

/-- Everything staged, oldest first. -/
def staged (m : Mirror H) : List (Nat × Block H) := m.pending.flatMap Batch.items

/-- The last staging of a position. -/
def stagedAt (m : Mirror H) (lba : Nat) : Option (Block H) :=
  (m.staged.reverse.find? fun x => x.1 = lba).map Prod.snd

/-- Of neighbours with one position the last is kept. -/
def dedupLast : List (Nat × Block H) → List (Nat × Block H)
  | [] => []
  | x :: rest =>
    match dedupLast rest with
    | y :: ys => if x.1 = y.1 then y :: ys else x :: y :: ys
    | [] => [x]

/-- The staged blocks as one batch: position order, last staging of each position. -/
def refs (m : Mirror H) : List (Nat × Block H) :=
  dedupLast (m.staged.insertionSort fun x y => x.1 ≤ y.1)

def writeVerifiedBatchNow (blocks : List (Nat × Block H)) : Prog Error (Mirror H) Unit := do
  update fun m => blocks.foldl (fun m x => m.forget x.1) m
  let m ← state
  if m.a.isSome ∧ m.b.isSome ∧ parBatchThreshold ≤ blocks.length then do
    let (ra, rb) ← onBoth (writeEach blocks)
    lift ra
    match rb with
    | .ok _ => pure ()
    | .error _ => dropB
  else everywhere (writeEach blocks)

/-- Write out everything staged. The staging is emptied first. -/
def drain : Prog Error (Mirror H) Unit := do
  let m ← state
  if m.pending.isEmpty then pure ()
  else do
    update fun m => { m with pending := [] }
    writeVerifiedBatchNow m.refs

def writeVerified (lba : Nat) (buf : Block H) : Prog Error (Mirror H) Unit := do
  drain
  update (forget lba)
  everywhere (writeOne lba buf)

def writeVerifiedBatch (blocks : List (Nat × Block H)) : Prog Error (Mirror H) Unit := do
  drain
  writeVerifiedBatchNow blocks

def grow (newBlocks : Nat) : Prog Error (Mirror H) Unit := do
  drain
  everywhere (Dev.grow newBlocks)

/-- A staged append reads as staged; else the first healthy device answers. -/
def read (lba : Nat) : Prog Error (Mirror H) (Block H) := do
  let m ← state
  match m.stagedAt lba with
  | some b => pure b
  | none => onFirst (Dev.read lba)

/-- The least recently used entry goes when the cache is full. -/
def evict (cache : List (Nat × Nat × Block H)) : List (Nat × Nat × Block H) :=
  if cacheBlocks ≤ cache.length then
    match cache.minOn? (fun e => e.2.1) with
    | some oldest => cache.filter fun e => e.1 ≠ oldest.1
    | none => cache
  else cache

/-- `read` for the index walk, kept in a cache of recently read blocks. -/
def readCached (lba : Nat) : Prog Error (Mirror H) (Block H) := do
  let m ← state
  match m.stagedAt lba with
  | some b => pure b
  | none => do
    update fun m => { m with uses := m.uses + 1 }
    match m.cache.find? fun e => e.1 = lba with
    | some e => do
      update fun m => { m with
        cache := m.cache.map fun x => if x.1 = lba then (x.1, m.uses, x.2.2) else x }
      pure e.2.2
    | none => do
      let b ← read lba
      update fun m => { m with
        cache := (evict m.cache).orderedInsert (fun x y => x.1 ≤ y.1) (lba, m.uses, b) }
      pure b

/-- Consecutive blocks; a run touching a staged append reads block by block. -/
def readRun (lba n : Nat) : Prog Error (Mirror H) (List (Block H)) := do
  let m ← state
  if m.staged.any fun x => lba ≤ x.1 && x.1 < lba + n then
    collect read ((List.range n).map (lba + ·))
  else onFirst (Dev.readRun lba n)

/-- Scattered blocks; with appends staged, block by block. -/
def readMany (lbas : List Nat) : Prog Error (Mirror H) (List (Block H)) := do
  let m ← state
  if m.pending.isEmpty then onFirst (Dev.readMany lbas) else collect read lbas

def flush : Prog Error (Mirror H) Unit := do
  drain
  let m ← state
  if m.a.isSome then onA Dev.flush
  if m.b.isSome then onB Dev.flush

/-- Smallest capacity across present devices. -/
def blockCount (m : Mirror H) : Nat :=
  match m.a, m.b with
  | some a, some b => min a.count b.count
  | some a, none => a.count
  | none, some b => b.count
  | none, none => 0

/-- Raw device access: nothing cached survives it. -/
def devices : Prog Error (Mirror H) (Option (Dev H) × Option (Dev H)) := do
  update fun m => { m with cache := [] }
  let m ← state
  pure (m.a, m.b)

end Mirror
end Manifestus
