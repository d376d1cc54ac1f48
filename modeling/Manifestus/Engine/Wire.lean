import Manifestus.Engine.Ring

/-! Spine entries as the bytes of a block. The VSF encoding and BLAKE3 are crates of their own; they
are taken with what the engine relies on. -/
namespace Manifestus

/-- A 32-byte hash. -/
abbrev Hash32 := { bytes : Bytes // bytes.length = 32 }

/-- A VSF value. `u` is the writer's form, which takes the size its number needs; the sized forms are
what a reader gets. -/
inductive VsfType where
  | u (x : UInt64)
  | u0 (x : Bool)
  | u3 (x : UInt8)
  | u4 (x : UInt16)
  | u5 (x : UInt32)
  | u6 (x : UInt64)
  | u7 (x : BitVec 128)
  | hp (bytes : Bytes)
  | d (name : Bytes)
  | e6 (time : Int64)
  | v (kind : UInt8) (bytes : Bytes)
  | other (id : Nat)
  deriving DecidableEq

/-- A number of any width as a `u64`. -/
def asU64 : VsfType → Option UInt64
  | .u x => some x
  | .u0 x => some (if x then 1 else 0)
  | .u3 x => some x.toUInt64
  | .u4 x => some x.toUInt64
  | .u5 x => some x.toUInt64
  | .u6 x => some x
  | .u7 x => if x.toNat < 2 ^ 64 then some (UInt64.ofNat x.toNat) else none
  | _ => none

/-- The values the engine writes. -/
def VsfType.Written : VsfType → Prop
  | .u _ => True
  | .hp bytes => bytes.length = 32
  | .d name => name.length < 2 ^ 8
  | .e6 _ => True
  | _ => False

/-- What a written value is read as: a number in some width, anything else as it was written. -/
def VsfType.ReadAs : VsfType → VsfType → Prop
  | .u x, w => asU64 w = some x
  | value, w => w = value

/-- The crates under the encoding: `flatten` and `parse` of VSF, and BLAKE3. -/
class Vsf where
  flatten : VsfType → Bytes
  parse : Bytes → Nat → Except String (VsfType × Nat)
  blake3 : Bytes → Hash32
  hpLen : Nat
  flatten_hp : ∀ h : Hash32, (flatten (.hp h.val)).length = hpLen
  flatten_d : ∀ name, (flatten (.d name)).head? = some 0x64
  parse_flatten : ∀ v : VsfType, v.Written → ∀ front rest, ∃ w,
    parse (front ++ flatten v ++ rest) front.length = .ok (w, front.length + (flatten v).length) ∧ v.ReadAs w
  parse_gt : ∀ {bytes : Bytes} {ptr : Nat} {v : VsfType} {next : Nat}, parse bytes ptr = .ok (v, next) → ptr < next

variable [Vsf]
open Vsf

def ascii (s : String) : Bytes := s.toList.map fun c => UInt8.ofNat c.toNat

/-- `MAGIC`. -/
def magic : Bytes := [0x52, 0xC3, 0x85, 0x3C]

/-- `SCHEMA`. -/
def schema : Bytes := ascii "manifestus.spine"

/-- A spine entry with the widths of its fields. -/
structure WireEntry where
  gen : UInt64
  prevHash : Hash32
  ringLog2 : UInt8
  tractBlocks : UInt64
  hamtHash : Hash32
  hamtLba : UInt64
  plow : UInt64
  reap : Option UInt64
  live : UInt64
  eagleTime : Int64
  deriving DecidableEq

namespace WireEntry

/-- The entry as the engine's model has it. -/
def toSpine (e : WireEntry) : SpineEntry Hash32 where
  gen := e.gen.toNat
  prevHash := e.prevHash
  ringLog2 := e.ringLog2.toNat
  tractBlocks := e.tractBlocks.toNat
  hamtHash := e.hamtHash
  hamtLba := e.hamtLba.toNat
  plow := e.plow.toNat
  reap := e.reap.map UInt64.toNat
  live := e.live.toNat
  eagleTime := e.eagleTime.toInt

/-- The named fields in the order they are written. -/
def pairs (e : WireEntry) : List (Bytes × VsfType) :=
  [(ascii "gen", .u e.gen),
    (ascii "prev", .hp e.prevHash.val),
    (ascii "ring", .u e.ringLog2.toUInt64),
    (ascii "tract", .u e.tractBlocks),
    (ascii "hamt", .hp e.hamtHash.val),
    (ascii "hamtat", .u e.hamtLba),
    (ascii "plow", .u e.plow),
    (ascii "live", .u e.live),
    (ascii "time", .e6 e.eagleTime)] ++
  match e.reap with
  | some r => [(ascii "reap", .u r)]
  | none => []

end WireEntry

def flattenPairs (pairs : List (Bytes × VsfType)) : Bytes :=
  pairs.flatMap fun p => flatten (.d p.1) ++ flatten p.2

/-- Where the body of an encoded block starts. -/
def wireStart : Nat := 4 + (flatten (.hp (List.replicate 32 0))).length + 1

namespace WireEntry

/-- What is sealed: schema and fields, padded with zeros to the end of the block. A body that does
not fit panics. -/
def body (e : WireEntry) : Except Error Bytes :=
  let fields := flatten (.d schema) ++ flattenPairs e.pairs
  if blockSize < wireStart + fields.length then .error (.panic "range end index out of range")
  else .ok (fields ++ List.replicate (blockSize - wireStart - fields.length) 0)

def encode (e : WireEntry) : Except Error Bytes :=
  match e.body with
  | .error err => .error err
  | .ok body => .ok (magic ++ flatten (.hp (blake3 body).val) ++ [0x3E] ++ body)

/-- The hash of this entry's encoded body, the hash field of the encoding parsed over. -/
def bodyHash (e : WireEntry) : Except Error Hash32 :=
  match e.encode with
  | .error err => .error err
  | .ok block =>
    let ptr := match parse block 4 with
      | .ok (_, next) => next
      | .error _ => 4
    .ok (blake3 (block.drop (ptr + 1)))

end WireEntry

/-- The fields read so far. -/
structure WireFields where
  gen : Option UInt64 := none
  prev : Option Hash32 := none
  ring : Option UInt8 := none
  tract : Option UInt64 := none
  hamt : Option Hash32 := none
  hamtat : Option UInt64 := none
  plow : Option UInt64 := none
  live : Option UInt64 := none
  time : Option Int64 := none
  reap : Option UInt64 := none

def to32 (v : Bytes) : Except Error Hash32 :=
  if h : v.length = 32 then .ok ⟨v, h⟩ else .error (.corrupt s!"hash length {v.length} != 32")

def vsfParse (bytes : Bytes) (ptr : Nat) : Except Error (VsfType × Nat) :=
  match parse bytes ptr with
  | .ok r => .ok r
  | .error e => .error (.corrupt s!"vsf parse: {e}")

namespace WireFields

/-- One named value; an unknown name or an unexpected type is skipped. -/
def take (f : WireFields) (name : Bytes) (value : VsfType) : Except Error WireFields :=
  if name = ascii "gen" ∧ (asU64 value).isSome then .ok { f with gen := asU64 value }
  else if name = ascii "ring" ∧ (asU64 value).isSome then .ok { f with ring := (asU64 value).map UInt64.toUInt8 }
  else if name = ascii "tract" ∧ (asU64 value).isSome then .ok { f with tract := asU64 value }
  else if name = ascii "hamtat" ∧ (asU64 value).isSome then .ok { f with hamtat := asU64 value }
  else if name = ascii "plow" ∧ (asU64 value).isSome then .ok { f with plow := asU64 value }
  else if name = ascii "reap" ∧ (asU64 value).isSome then .ok { f with reap := asU64 value }
  else if name = ascii "live" ∧ (asU64 value).isSome then .ok { f with live := asU64 value }
  else match value with
    | .hp h =>
      if name = ascii "prev" then
        match to32 h with
        | .ok h => .ok { f with prev := some h }
        | .error e => .error e
      else if name = ascii "hamt" then
        match to32 h with
        | .ok h => .ok { f with hamt := some h }
        | .error e => .error e
      else .ok f
    | .e6 t => if name = ascii "time" then .ok { f with time := some t } else .ok f
    | _ => .ok f

/-- Named pairs until a byte other than `d`. -/
def read (block : Bytes) : Nat → Nat → WireFields → Except Error WireFields
  | 0, _, _ => .error (.panic "parse stood still")
  | fuel + 1, ptr, f =>
    if block[ptr]? = some 0x64 then
      match vsfParse block ptr with
      | .error e => .error e
      | .ok (.d name, next) =>
        match vsfParse block next with
        | .error e => .error e
        | .ok (value, next) =>
          match f.take name value with
          | .error e => .error e
          | .ok f => read block fuel next f
      | .ok _ => .error (.corrupt "expected field name")
    else .ok f

def need {α : Type} (what : String) : Option α → Except Error α
  | some a => .ok a
  | none => .error (.corrupt s!"missing {what}")

def entry (f : WireFields) : Except Error WireEntry := do
  let gen ← need "gen" f.gen
  let prev ← need "prev" f.prev
  let ring ← need "ring" f.ring
  let tract ← need "tract" f.tract
  let hamt ← need "hamt" f.hamt
  let hamtat ← need "hamtat" f.hamtat
  let plow ← need "plow" f.plow
  let live ← need "live" f.live
  let time ← need "time" f.time
  pure ⟨gen, prev, ring, tract, hamt, hamtat, plow, f.reap, live, time⟩

end WireFields

/-- The stored seal of a block and where its body starts. -/
def wireHeader (block : Bytes) : Except Error (Bytes × Nat) :=
  if block.take 4 ≠ magic then .error .badMagic
  else match vsfParse block 4 with
    | .error e => .error e
    | .ok (.hp stored, ptr) =>
      if block[ptr]? ≠ some 0x3E then .error (.corrupt "expected '>' after hp")
      else .ok (stored, ptr + 1)
    | .ok _ => .error (.corrupt "expected hp after magic")

namespace WireEntry

/-- The checks of a decoded entry. -/
def checked (e : WireEntry) : Except Error WireEntry :=
  match e.toSpine.geometry with
  | .error err => .error err
  | .ok _ =>
    if 2 ^ 64 ≤ e.plow.toNat + e.tractBlocks.toNat then
      .error (.corrupt s!"plow {e.plow} + tract {e.tractBlocks} overflows the monotone domain")
    else .ok e

def decode (block : Bytes) : Except Error WireEntry :=
  match wireHeader block with
  | .error e => .error e
  | .ok (stored, start) =>
    if (blake3 (block.drop start)).val ≠ stored then .error .badSeal
    else match vsfParse block start with
      | .error e => .error e
      | .ok (.d name, ptr) =>
        if name ≠ schema then .error (.corrupt "foreign schema")
        else match WireFields.read block (block.length + 1) ptr {} with
          | .error e => .error e
          | .ok f =>
            match f.entry with
            | .error e => .error e
            | .ok e => e.checked
      | .ok _ => .error (.corrupt "expected schema id")

end WireEntry
end Manifestus
