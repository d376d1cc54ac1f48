import Manifestus.Prog
import Manifestus.Engine.Block

/-! The 4 KB block device, with the faults it may show and the images a power loss may leave. -/
namespace Manifestus
open Prog

variable {H : Type} [Crates H]

/-- What an operation that reports an error leaves of the block it was to write. -/
inductive Fault where
  | lost
  | landed
  | torn (id : Nat)
  deriving DecidableEq, Repr

/-- An operation that reached the medium. -/
inductive DevOp (H : Type) where
  | write (lba : Nat) (block : Block H)
  | flush
  | grow (count : Nat)

/-- A device: its capacity and contents, how far it can be extended (`none` refuses every
grow), the faults still to come (one entry an operation, none left means no fault), and the
operations that reached the medium, oldest first. -/
structure Dev (H : Type) where
  count : Nat
  data : Nat → Block H
  limit : Option Nat
  script : List (Option Fault)
  log : List (DevOp H)

namespace Dev

/-- Takes the next fault off the script. -/
def nextFault : Prog Error (Dev H) (Option Fault) := ⟨fun d =>
  match d.script with
  | [] => (.ok none, d)
  | f :: rest => (.ok f, { d with script := rest })⟩

def inBounds (lba : Nat) : Prog Error (Dev H) Unit := do
  let d ← state
  if lba < d.count then pure () else fail (.bounds lba)

def land (lba : Nat) (b : Block H) : Prog Error (Dev H) Unit :=
  update fun d => { d with data := Function.update d.data lba b, log := d.log ++ [.write lba b] }

def read (lba : Nat) : Prog Error (Dev H) (Block H) := do
  inBounds lba
  match ← nextFault with
  | some _ => fail .io
  | none => do
    let d ← state
    pure (d.data lba)

def write (lba : Nat) (b : Block H) : Prog Error (Dev H) Unit := do
  inBounds lba
  match ← nextFault with
  | none => land lba b
  | some .lost => fail .io
  | some .landed => do
    land lba b
    fail .io
  | some (.torn id) => do
    land lba (.raw id)
    fail .io

def flush : Prog Error (Dev H) Unit := do
  match ← nextFault with
  | none => update fun d => { d with log := d.log ++ [.flush] }
  | some .landed => do
    update fun d => { d with log := d.log ++ [.flush] }
    fail .io
  | some _ => fail .io

/-- Extend the capacity with zeroed blocks. A capacity at or below the present one is met. -/
def grow (newBlocks : Nat) : Prog Error (Dev H) Unit := do
  let d ← state
  match d.limit with
  | none => fail (.corrupt "device does not support grow")
  | some limit =>
    if newBlocks ≤ d.count then pure ()
    else if limit < newBlocks then fail .io
    else match ← nextFault with
      | some _ => fail .io
      | none => update fun d =>
          { d with
            count := newBlocks
            data := fun l => if l < d.count then d.data l else .zero
            log := d.log ++ [.grow newBlocks] }

def writeRun : Nat → List (Block H) → Prog Error (Dev H) Unit
  | _, [] => pure ()
  | lba, b :: bs => do
    write lba b
    writeRun (lba + 1) bs

def readRun : Nat → Nat → Prog Error (Dev H) (List (Block H))
  | _, 0 => pure []
  | lba, n + 1 => do
    let b ← read lba
    let bs ← readRun (lba + 1) n
    pure (b :: bs)

def readMany (lbas : List Nat) : Prog Error (Dev H) (List (Block H)) := collect read lbas

end Dev

/-- The durable side of a device. -/
structure Image (H : Type) where
  count : Nat
  data : Nat → Block H

def Dev.image (d : Dev H) : Image H := ⟨d.count, d.data⟩

/-- A device newly attached over an image. -/
def Image.dev (i : Image H) (limit : Option Nat) : Dev H := ⟨i.count, i.data, limit, [], []⟩

def Image.step (i : Image H) : DevOp H → Image H
  | .write lba b => { i with data := Function.update i.data lba b }
  | .flush => i
  | .grow n => ⟨n, fun l => if l < i.count then i.data l else .zero⟩

def Image.after (i : Image H) (ops : List (DevOp H)) : Image H := ops.foldl Image.step i

def DevOp.isGrow : DevOp H → Bool
  | .grow _ => true
  | _ => false

/-- `j` is what a power loss may leave of `i` after `ops`: everything up to some point at or
past the last flush is kept; each block written later is kept whole, absent, or torn. -/
def Image.Survives (i : Image H) (ops : List (DevOp H)) (j : Image H) : Prop :=
  ∃ kept later, ops = kept ++ later ∧ DevOp.flush ∉ later ∧ j.count = (i.after ops).count ∧
    ∀ l, j.data l = (i.after (kept ++ later.filter DevOp.isGrow)).data l ∨
      ∃ b, DevOp.write l b ∈ later ∧ (j.data l = b ∨ ∃ id, j.data l = .raw id)

end Manifestus
