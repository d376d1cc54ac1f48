import Mathlib.Data.Fintype.Pi
import Mathlib.Data.Fintype.Basic
import Mathlib.Tactic.DeriveFintype
import Mathlib.Data.List.Perm.Basic

/-! Blocks as the engine reads them: all zero, a sealed document, or bytes whose seal fails.
Counters and positions are natural numbers; a `u64` sum never overflows here. -/
namespace Manifestus

abbrev Bytes := List UInt8

/-- A 32-byte key, byte 0 the most significant. -/
abbrev Key := BitVec 256

/-- A result other than success. A panic of the code is a result of its own. -/
inductive Error where
  | io
  | badMagic
  | badSeal
  | corrupt (reason : String)
  | verify (lba : Nat)
  | bounds (lba : Nat)
  | fenced (plow : Nat)
  | tractFull
  | panic (reason : String)
  deriving DecidableEq, Repr

/-- One spine commit object. -/
structure SpineEntry (H : Type) where
  gen : Nat
  prevHash : H
  ringLog2 : Nat
  tractBlocks : Nat
  hamtHash : H
  hamtLba : Nat
  plow : Nat
  reap : Option Nat
  live : Nat
  eagleTime : Int
  deriving DecidableEq, Repr

/-- Where the spine ring of a migrating vault lives now and lived before. -/
structure RootEntry (H : Type) where
  gen : Nat
  prevHash : H
  ringLog2 : Nat
  base : Nat
  was : Nat
  since : Nat
  residences : Nat
  residency : Nat
  eagleTime : Int
  deriving DecidableEq, Repr

/-- The body of a sealed block by schema. `foreign` is every sealed body that no decoder of
the engine accepts: an unknown schema or missing fields. -/
inductive Doc (H : Type) where
  | spine (entry : SpineEntry H)
  | root (entry : RootEntry H)
  | node (depth : Nat) (route : Key) (slots : Fin 32 → Option (H × Nat))
  | lone (key : Key) (value : Bytes)
  | extent (key : Key) (size : Nat) (runs : List (Nat × Nat))
  | direct (key : Key) (size : Nat) (furrows : List Nat)
  | furrow (key : Key) (index : Nat) (payload : Bytes)
  | foreign (id : Nat)
  deriving DecidableEq

/-- A 4 KB block. `extra` is what a sealed body holds beside the decoded fields (unknown
fields, field order, integer widths): decoders skip it and the seal covers it. The engine
writes none. A `raw` block is neither all zero nor sealed. -/
inductive Block (H : Type) where
  | zero
  | sealed (doc : Doc H) (extra : Nat)
  | raw (id : Nat)
  deriving DecidableEq

/-- What the engine takes from the crates it is built on: BLAKE3 of a sealed body (never the
all-zero digest, which the index reserves for an empty root), the length VSF gives a 32-byte
hash, and the order in which a hash map is iterated. -/
class Crates (H : Type) where
  decEq : DecidableEq H
  zeros : H
  hash : Doc H → Nat → H
  hash_ne_zeros : ∀ d x, hash d x ≠ zeros
  hpLen : Nat
  hpLen_le : hpLen ≤ 64
  order : {α : Type} → List α → List α
  order_perm : ∀ {α : Type} (l : List α), (order l).Perm l

variable {H : Type} [Crates H]

instance instDecidableEqHash : DecidableEq H := Crates.decEq

/-- A freshly encoded document. -/
def sealBlock (doc : Doc H) : Block H := .sealed doc 0

/-- The sealing hash of a block, if its seal verifies. -/
def sealedHp : Block H → Option H
  | .sealed doc extra => some (Crates.hash doc extra)
  | _ => none

def blockIsSealed (b : Block H) : Bool := (sealedHp b).isSome

/-- `BLOCK`. -/
def blockSize : Nat := 2 ^ 12

variable (H) in
/-- Where the body starts: the magic, the hash field, one `>`. -/
def bodyStart : Nat := 4 + Crates.hpLen H + 1

variable (H) in
def loneCapacity : Nat := blockSize - bodyStart H - 2 ^ 7

variable (H) in
def furrowCapacity : Nat := blockSize - bodyStart H - 2 ^ 7

variable (H) in
def maxRuns : Nat := (blockSize - bodyStart H - 96) / 32

theorem furrowCapacity_pos : 0 < furrowCapacity H := by
  have h := Crates.hpLen_le (H := H)
  unfold furrowCapacity bodyStart blockSize
  omega

@[simp] theorem sealedHp_sealBlock (doc : Doc H) : sealedHp (sealBlock doc) = some (Crates.hash doc 0) := rfl

end Manifestus
