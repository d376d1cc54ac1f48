import Manifestus.Engine.Mirror

/-! The spine ring: generation-numbered commit objects, head search by bisection, and the root
ring of the migrating profile. -/
namespace Manifestus
open Prog

variable {H : Type} [Crates H]

/-- `FENCE_K`. -/
def fenceK : Nat := 4

/-- `u64::checked_add` over unbounded counters. -/
def checkedAdd (x y : Nat) : Option Nat := some (x + y)

namespace SpineEntry

def encode (e : SpineEntry H) : Block H := sealBlock (.spine e)

/-- The geometry checks of `decode`. -/
def geometry (e : SpineEntry H) : Except Error (SpineEntry H) :=
  if e.ringLog2 = 0 ∨ 32 < e.ringLog2 then
    .error (.corrupt s!"insane ring exponent {e.ringLog2}")
  else if e.tractBlocks = 0 then .error (.corrupt "tract of zero blocks")
  else if e.reap.any fun reap => e.plow < reap || e.tractBlocks < e.plow - reap then
    .error (.corrupt s!"cursors break reap ≤ plow ≤ reap + {e.tractBlocks}")
  else if (checkedAdd e.plow e.tractBlocks).isNone then
    .error (.corrupt s!"plow {e.plow} + tract {e.tractBlocks} overflows the monotone domain")
  else .ok e

def decode : Block H → Except Error (SpineEntry H)
  | .zero => .error .badMagic
  | .raw _ => .error .badSeal
  | .sealed (.spine e) _ => e.geometry
  | .sealed _ _ => .error (.corrupt "foreign schema")

/-- What this generation lets later appends use. -/
def fenceBudget (e : SpineEntry H) : Nat :=
  match e.reap with
  | some r => r + e.tractBlocks
  | none => e.plow

/-- The hash of this entry's encoded body. -/
def bodyHash (e : SpineEntry H) : H := Crates.hash (.spine e) 0

end SpineEntry

/-- A slot of the ring as it is read. -/
inductive Classified (H : Type) where
  | valid (entry : SpineEntry H)
  | empty
  | corrupt

/-- Classify a block read from `slot`; without a ring exponent the entry's own is used. -/
def classify (block : Block H) (slot : Nat) (ringLog2 : Option Nat) : Classified H :=
  match block with
  | .zero => .empty
  | block =>
    match SpineEntry.decode block with
    | .ok e =>
      let r := ringLog2.getD e.ringLog2
      if e.ringLog2 ≠ r then .corrupt
      else if e.gen % 2 ^ r ≠ slot then .corrupt
      else .valid e
    | .error _ => .corrupt

/-- A spine ring over blocks `[base, base + N)`, with its head once found. -/
structure Ring (H : Type) where
  mirror : Mirror H
  ringLog2 : Nat
  base : Nat
  head : Option (Nat × SpineEntry H)

def maxByGen (x y : Option (Nat × SpineEntry H)) : Option (Nat × SpineEntry H) :=
  match x, y with
  | some x, some y => if y.2.gen ≤ x.2.gen then some x else some y
  | some x, none => some x
  | none, y => y

namespace Ring

def n (r : Ring H) : Nat := 2 ^ r.ringLog2

def headEntry (r : Ring H) : Option (SpineEntry H) := r.head.map Prod.snd

def onMirror {α : Type} (x : Prog Error (Mirror H) α) : Prog Error (Ring H) α :=
  zoom Ring.mirror (fun m r => { r with mirror := m }) x

/-- The ring exponent, from the first valid entry among the first sixteen blocks. -/
def bootstrapN : Prog Error (Mirror H) (Option Nat) := do
  let m ← state
  probe (List.range (min 16 m.blockCount))
where
  probe : List Nat → Prog Error (Mirror H) (Option Nat)
    | [] => pure none
    | slot :: rest => do
      let b ← Mirror.read slot
      match classify b slot none with
      | .valid e => pure (some e.ringLog2)
      | _ => probe rest

def genAt (slot : Nat) : Prog Error (Ring H) (Classified H) := do
  let r ← state
  let b ← onMirror (Mirror.read (r.base + slot))
  pure (classify b slot (some r.ringLog2))

/-- The bisection of `search` once its anchor `lo` is not corrupt: `anchor` is the entry at
`lo`, none when it is empty. `both` searches the halves around a corrupt middle. -/
def bisect (both : Nat → Nat → Prog Error (Ring H) (Option (Nat × SpineEntry H))) :
    Nat → Nat → Option (SpineEntry H) → Nat → Prog Error (Ring H) (Option (Nat × SpineEntry H))
  | 0, lo, anchor, _ => pure (anchor.map (lo, ·))
  | fuel + 1, lo, anchor, hi =>
    if lo < hi then do
      let mid := (lo + hi + 1) / 2
      match ← genAt mid with
      | .corrupt => do
        let left ← both lo (mid - 1)
        let right ← both mid hi
        pure (maxByGen left right)
      | .empty => bisect both fuel lo anchor (mid - 1)
      | .valid e =>
        if anchor.all (·.gen < e.gen) then bisect both fuel mid (some e) hi
        else bisect both fuel lo anchor (mid - 1)
    else pure (anchor.map (lo, ·))

/-- The newest valid entry of `[lo, hi]`: the anchor moves past corrupt blocks, then bisects. -/
def search : Nat → Nat → Nat → Prog Error (Ring H) (Option (Nat × SpineEntry H))
  | 0, _, _ => pure none
  | fuel + 1, lo, hi =>
    if hi < lo then pure none
    else do
      match ← genAt lo with
      | .corrupt => search fuel (lo + 1) hi
      | .empty => bisect (search fuel) fuel lo none hi
      | .valid e => bisect (search fuel) fuel lo (some e) hi

def headSearch : Prog Error (Ring H) (Option (Nat × SpineEntry H)) := do
  let r ← state
  search (r.n + 1) 0 (r.n - 1)

/-- Open a ring at a base and find its head. -/
def openAt (ringLog2 base : Nat) : Prog Error (Mirror H) (Ring H) := ⟨fun m =>
  match headSearch.run ⟨m, ringLog2, base, none⟩ with
  | (.ok head, r) => (.ok { r with head := head }, r.mirror)
  | (.error e, r) => (.error e, r.mirror)⟩

/-- Append the next generation at its slot, verified on the mirror. -/
def append (entry : SpineEntry H) : Prog Error (Ring H) Unit := do
  let r ← state
  match r.headEntry with
  | some h => do
    if entry.gen ≠ h.gen + 1 then fail (.corrupt s!"append gen {entry.gen} after head {h.gen}")
    if entry.prevHash ≠ h.bodyHash then fail (.corrupt "prev_hash does not chain to head")
  | none => do
    if entry.gen ≠ 0 then fail (.corrupt s!"genesis must be gen 0, got {entry.gen}")
    if entry.prevHash ≠ Crates.zeros then fail (.corrupt "genesis prev_hash must be zeros")
  if entry.ringLog2 ≠ r.ringLog2 then fail (.corrupt "entry geometry does not match ring")
  let slot := entry.gen % r.n
  onMirror (Mirror.writeVerified (r.base + slot) entry.encode)
  update fun r => { r with head := some (slot, entry) }

/-- The last `k` generations, newest first; none for a corrupt or lapped slot. -/
def recentEntries (k : Nat) : Prog Error (Ring H) (List (Option (SpineEntry H))) := do
  let r ← state
  match r.headEntry with
  | none => pure []
  | some head => collect (entryOf r.n) ((List.range (min k (head.gen + 1))).map (head.gen - ·))
where
  entryOf (n gen : Nat) : Prog Error (Ring H) (Option (SpineEntry H)) := do
    match ← genAt (gen % n) with
    | .valid e => pure (if e.gen = gen then some e else none)
    | _ => pure none

def recentFences (k : Nat) : Prog Error (Ring H) (List Nat) := do
  let es ← recentEntries k
  pure (es.map fun e => (e.map SpineEntry.fenceBudget).getD 0)

end Ring

/-- Zero a ring region. -/
def zeroRingAt (ringLog2 base : Nat) : Prog Error (Mirror H) Unit :=
  each (fun slot => Mirror.writeVerified (base + slot) .zero) (List.range (2 ^ ringLog2))

/-- `ROOT_SLOTS`. -/
def rootSlots : Nat := 4

namespace RootEntry

def encode (e : RootEntry H) : Block H := sealBlock (.root e)

def decode : Block H → Except Error (RootEntry H)
  | .zero => .error .badMagic
  | .raw _ => .error .badSeal
  | .sealed (.root e) _ => .ok e
  | .sealed _ _ => .error (.corrupt "foreign schema")

def bodyHash (e : RootEntry H) : H := Crates.hash (.root e) 0

end RootEntry

/-- The newest valid root entry of the root slots. -/
def readRoot : Prog Error (Dev H) (Option (RootEntry H)) := do
  let d ← state
  go none (List.range (min rootSlots d.count))
where
  go (best : Option (RootEntry H)) : List Nat → Prog Error (Dev H) (Option (RootEntry H))
    | [] => pure best
    | slot :: rest => do
      let b ← Dev.read slot
      match RootEntry.decode b with
      | .ok e =>
        if e.gen % rootSlots = slot ∧ best.all (·.gen < e.gen) then go (some e) rest
        else go best rest
      | .error _ => go best rest

def appendRoot (entry : RootEntry H) : Prog Error (Mirror H) Unit :=
  Mirror.writeVerified (entry.gen % rootSlots) entry.encode

/-- Whole-device scan: is any block sealed. -/
def anySealedBlock : Prog Error (Dev H) Bool := do
  let d ← state
  go (List.range d.count)
where
  go : List Nat → Prog Error (Dev H) Bool
    | [] => pure false
    | lba :: rest => do
      let b ← Dev.read lba
      if blockIsSealed b then pure true else go rest

end Manifestus
