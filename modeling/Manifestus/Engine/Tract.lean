import Manifestus.Engine.Mirror

/-! The tract, the two-cursor log ring, and the in-memory index that lives in it. -/
namespace Manifestus
open Prog

variable {H : Type} [Crates H]

/-- Two cursors in one monotone domain: appends at `plow`, cleaning at `reap`. -/
structure Tract where
  base : Nat
  len : Nat
  plow : Nat
  reap : Nat
  fenceLimit : Option Nat
  deriving DecidableEq, Repr

def Tract.cleanBlocks (t : Tract) : Nat := t.len - (t.plow - t.reap)

/-- A pointer of the index: to a block of the tract, or to a node of the arena. -/
inductive Child (H : Type) where
  | committed (hash : H) (lba : Nat)
  | dirty (idx : Nat)
  deriving DecidableEq

structure Node (H : Type) where
  depth : Nat
  route : Key
  children : Fin 32 → Option (Child H)

/-- Positions and hashes that became live or dead since the last commit. -/
structure Delta (H : Type) where
  added : List (Nat × H)
  removed : List (Nat × H)

structure Hamt (H : Type) where
  root : Option (Child H)
  arena : List (Node H)
  delta : Delta H
  repointHits : Nat

/-- What the tract and the index work on. -/
structure Store (H : Type) where
  mirror : Mirror H
  tract : Tract
  hamt : Hamt H

/-- The caller's knowledge of what is referenced. -/
structure Liveness (H : Type) where
  isLive : Nat → H → Bool
  isReferenced : Nat → Bool

namespace Store

def onMirror {α : Type} (x : Prog Error (Mirror H) α) : Prog Error (Store H) α :=
  zoom Store.mirror (fun m s => { s with mirror := m }) x

def onHamt (f : Hamt H → Hamt H) : Prog Error (Store H) Unit :=
  update fun s => { s with hamt := f s.hamt }

end Store
open Store

namespace Tract

/-- Stage the blocks `make i`, `i < n`, at the plow. -/
def stageAll (t : Tract) (make : Nat → Block H) (n : Nat) (m : Mirror H) : Mirror H :=
  (List.range n).foldl (fun m i => m.stageOne (t.base + (t.plow + i) % t.len) (make i))
    (m.reserveStaged n)

/-- Append `n` blocks at the plow. Space, fence and liveness are checked before anything is
staged. -/
def appendWith (live : Liveness H) (n : Nat) (make : Nat → Block H) :
    Prog Error (Store H) (List Nat) := do
  let s ← state
  let t := s.tract
  if t.cleanBlocks < n then fail .tractFull
  else if t.fenceLimit.any fun limit => limit < t.plow + n then fail (.fenced t.plow)
  else match (List.range n).find? fun i => live.isReferenced ((t.plow + i) % t.len) with
    | some i => do
      onMirror (Mirror.emit (.liveLapAverted ((t.plow + i) % t.len)))
      fail .tractFull
    | none => do
      update fun s => { s with
        mirror := t.stageAll make n s.mirror
        tract := { s.tract with plow := t.plow + n } }
      pure ((List.range n).map fun i => (t.plow + i) % t.len)

def append (live : Liveness H) (blocks : List (Block H)) : Prog Error (Store H) (List Nat) :=
  appendWith live blocks.length fun i => blocks.getD i .zero

/-- Append one block. -/
def appendOne (live : Liveness H) (block : Block H) : Prog Error (Store H) Nat := do
  let placed ← append live [block]
  match placed with
  | lba :: _ => pure lba
  | [] => fail (.panic "index out of bounds")

def inBounds (lba : Nat) : Prog Error (Store H) Unit := do
  let s ← state
  if lba < s.tract.len then pure () else fail (.bounds lba)

def read (lba : Nat) : Prog Error (Store H) (Block H) := do
  inBounds lba
  let s ← state
  onMirror (Mirror.read (s.tract.base + lba))

def readCached (lba : Nat) : Prog Error (Store H) (Block H) := do
  inBounds lba
  let s ← state
  onMirror (Mirror.readCached (s.tract.base + lba))

def readRun (lba n : Nat) : Prog Error (Store H) (List (Block H)) := do
  let s ← state
  if s.tract.len ≤ lba ∨ s.tract.len - lba < n then fail (.bounds lba)
  else onMirror (Mirror.readRun (s.tract.base + lba) n)

def readMany (lbas : List Nat) : Prog Error (Store H) (List (Block H)) := do
  each inBounds lbas
  let s ← state
  onMirror (Mirror.readMany (lbas.map (s.tract.base + ·)))

/-- Zero a block on both mirrors. -/
def zeroDelete (lba : Nat) : Prog Error (Store H) Unit := do
  inBounds lba
  let s ← state
  onMirror (Mirror.writeVerified (s.tract.base + lba) .zero)

end Tract
end Manifestus
