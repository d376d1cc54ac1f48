import Manifestus.Engine.Wire
import Manifestus.Engine.Doc

/-! Tract documents and root entries as the bytes of a block: a sealed envelope around a schema and
named fields, which a decoder reads in a loop until the first byte that starts no name. -/
namespace Manifestus

variable [Vsf]
open Vsf

/-- VSF byte strings, and lengths as the capacity margins leave them: a name with a four-byte header, two
numbers with one-letter names in 32 bytes, a key beside its names in an extent's 96, a value header
in what is left of a furrow's 128. -/
class VsfSized : Prop where
  parse_flatten_v : ∀ (kind : UInt8) (bytes : Bytes), bytes.length ≤ blockSize → ∀ front rest,
    parse (front ++ flatten (.v kind bytes) ++ rest) front.length =
      .ok (.v kind bytes, front.length + (flatten (.v kind bytes)).length)
  d_le : ∀ name : Bytes, name.length < 2 ^ 8 → (flatten (.d name)).length ≤ name.length + 4
  u_le : ∀ x, (flatten (.u x)).length ≤ 11
  e6_le : ∀ t, (flatten (.e6 t)).length ≤ 11
  hp_le : hpLen ≤ 49
  v_le : ∀ (kind : UInt8) (bytes : Bytes), bytes.length ≤ blockSize →
    (flatten (.v kind bytes)).length ≤ bytes.length + 30

/-- A block begun with `schema`, its fields put and the rest sealed as it is. A field that does not
fit panics. -/
def encodeFields (schema : Bytes) (pairs : List (Bytes × VsfType)) : Except Error Bytes :=
  let fields := flatten (.d schema) ++ flattenPairs pairs
  if blockSize < wireStart + fields.length then .error (.panic "range end index out of range")
  else
    let body := fields ++ List.replicate (blockSize - wireStart - fields.length) 0
    .ok (magic ++ flatten (.hp (blake3 body).val) ++ [0x3E] ++ body)

/-- Named pairs until a byte other than `d`, each taken into what has been read. -/
def readPairs {σ : Type} (wrap : String → Error) (bad : Error) (take : σ → Bytes → VsfType → Except Error σ)
    (block : Bytes) : Nat → Nat → σ → Except Error σ
  | 0, _, _ => .error (.panic "parse stood still")
  | fuel + 1, ptr, s =>
    if block[ptr]? = some 0x64 then
      match parse block ptr with
      | .error e => .error (wrap e)
      | .ok (.d name, next) =>
        match parse block next with
        | .error e => .error (wrap e)
        | .ok (value, next) =>
          match take s name value with
          | .error e => .error e
          | .ok s => readPairs wrap bad take block fuel next s
      | .ok _ => .error bad
    else .ok s

namespace Codec

/-- `sealed_hp` on bytes. -/
def sealedHp (block : Bytes) : Option Hash32 :=
  if block.take 4 ≠ magic then none
  else match parse block 4 with
    | .ok (.hp stored, ptr) =>
      if block[ptr]? ≠ some 0x3E then none
      else if (blake3 (block.drop (ptr + 1))).val ≠ stored then none
      else if h : stored.length = 32 then some ⟨stored, h⟩ else none
    | _ => none

def loneCapacity : Nat := blockSize - wireStart - 2 ^ 7

def maxRuns : Nat := (blockSize - wireStart - 96) / 32

def furrowCapacity : Nat := blockSize - wireStart - 2 ^ 7

def schemaNode : Bytes := ascii "manifestus.hamt"
def schemaLone : Bytes := ascii "manifestus.lone"
def schemaExtent : Bytes := ascii "manifestus.extent"
def schemaDirect : Bytes := ascii "manifestus.direct"
def schemaFurrow : Bytes := ascii "manifestus.furrow"

inductive Child where
  | committed (hash : Hash32) (lba : UInt64)
  | dirty (idx : Nat)
  deriving DecidableEq

structure Node where
  depth : UInt8
  route : Hash32
  children : Fin 32 → Option Child

inductive TractDoc where
  | node (node : Node)
  | lone (key : Hash32) (value : Bytes)
  | extent (key : Hash32) (size : UInt64) (runs : List (UInt64 × UInt64))
  | direct (key : Hash32) (size : UInt64) (furrows : List UInt64)
  | furrow (key : Hash32) (index : UInt64) (payload : Bytes)

def encodeLone (key : Hash32) (value : Bytes) : Except Error Bytes :=
  encodeFields schemaLone [(ascii "key", .hp key.val), (ascii "v", .v 0x72 value)]

def encodeExtent (key : Hash32) (size : UInt64) (runs : List (UInt64 × UInt64)) : Except Error Bytes :=
  if maxRuns < runs.length then
    .error (.corrupt s!"extent leaf overflow: {runs.length} runs > {maxRuns} — value pathologically fragmented")
  else encodeFields schemaExtent
    ([(ascii "key", .hp key.val), (ascii "size", .u size)] ++
      runs.flatMap fun r => [(ascii "s", .u r.1), (ascii "c", .u r.2)])

def encodeDirect (key : Hash32) (size : UInt64) (furrows : List UInt64) : Except Error Bytes :=
  encodeFields schemaDirect
    ([(ascii "key", .hp key.val), (ascii "size", .u size)] ++ furrows.map fun lba => (ascii "f", .u lba))

def encodeFurrow (key : Hash32) (index : UInt64) (payload : Bytes) : Except Error Bytes :=
  encodeFields schemaFurrow
    [(ascii "key", .hp key.val), (ascii "i", .u index), (ascii "v", .v 0x72 payload)]

/-- The bitmap of the children there are. -/
def presence (children : Fin 32 → Option Child) : BitVec 32 :=
  (List.finRange 32).foldl (fun p i => if (children i).isSome then p ||| (1#32 <<< i.val) else p) 0

/-- The fields of the children, in order; an unflushed child panics. -/
def childFields : List Child → Except Error (List (Bytes × VsfType))
  | [] => .ok []
  | .committed hash lba :: rest =>
    match childFields rest with
    | .error e => .error e
    | .ok fields => .ok ((ascii "ch", .hp hash.val) :: (ascii "at", .u lba) :: fields)
  | .dirty _ :: _ => .error (.panic "encode_node on un-flushed child")

def encodeNode (node : Node) : Except Error Bytes :=
  match childFields ((List.finRange 32).filterMap node.children) with
  | .error e => .error e
  | .ok fields => encodeFields schemaNode
    ([(ascii "depth", .u node.depth.toUInt64), (ascii "route", .hp node.route.val),
      (ascii "map", .u (UInt64.ofNat (presence node.children).toNat))] ++ fields)

/-- The fields read so far. -/
structure Fields where
  key : Option Hash32 := none
  value : Option Bytes := none
  size : Option UInt64 := none
  index : Option UInt64 := none
  depth : Option UInt64 := none
  route : Option Hash32 := none
  map : Option UInt64 := none
  hashes : List Hash32 := []
  lbas : List UInt64 := []
  furrows : List UInt64 := []
  runStarts : List UInt64 := []
  runCounts : List UInt64 := []

namespace Fields

def array32 (what : String) (bytes : Bytes) : Except Error Hash32 :=
  if h : bytes.length = 32 then .ok ⟨bytes, h⟩ else .error (.corrupt s!"{what} len")

/-- A number under one of the names that have one; another name is skipped. -/
def takeNumber (f : Fields) (name : Bytes) (x : UInt64) : Fields :=
  if name = ascii "size" then { f with size := some x }
  else if name = ascii "i" then { f with index := some x }
  else if name = ascii "depth" then { f with depth := some x }
  else if name = ascii "map" then { f with map := some x }
  else if name = ascii "at" then { f with lbas := f.lbas ++ [x] }
  else if name = ascii "f" then { f with furrows := f.furrows ++ [x] }
  else if name = ascii "s" then { f with runStarts := f.runStarts ++ [x] }
  else if name = ascii "c" then { f with runCounts := f.runCounts ++ [x] }
  else f

/-- One named value; an unknown name or an unexpected type is skipped. -/
def take (f : Fields) (name : Bytes) (value : VsfType) : Except Error Fields :=
  match value with
  | .hp h =>
    if name = ascii "key" then (array32 "key" h).map fun k => { f with key := some k }
    else if name = ascii "route" then (array32 "route" h).map fun r => { f with route := some r }
    else if name = ascii "ch" then (array32 "ch" h).map fun c => { f with hashes := f.hashes ++ [c] }
    else .ok f
  | .v _ bytes => if name = ascii "v" then .ok { f with value := some bytes } else .ok f
  | value =>
    match asU64 value with
    | some x => .ok (f.takeNumber name x)
    | none => .ok f

def need {α : Type} (what : String) : Option α → Except Error α
  | some a => .ok a
  | none => .error (.corrupt what)

end Fields

/-- The number of bits set. -/
def countOnes (p : BitVec 32) : Nat := (List.finRange 32).countP fun i => p &&& (1#32 <<< i.val) ≠ 0

/-- The pointers dealt out to the bits that are set. -/
def placeChildren (p : BitVec 32) (slots : List (Hash32 × UInt64)) :
    List (Fin 32) → Nat → (Fin 32 → Option Child) → Except Error (Fin 32 → Option Child)
  | [], _, children => .ok children
  | bit :: bits, next, children =>
    if p &&& (1#32 <<< bit.val) ≠ 0 then
      match slots[next]? with
      | some (hash, lba) =>
        placeChildren p slots bits (next + 1) (Function.update children bit (some (.committed hash lba)))
      | none => .error (.panic "index out of bounds")
    else placeChildren p slots bits next children

def nodeOf (f : Fields) : Except Error TractDoc := do
  let map ← Fields.need "node: missing map" f.map
  let p := BitVec.ofNat 32 map.toNat
  if countOnes p ≠ f.hashes.length ∨ f.hashes.length ≠ f.lbas.length then
    .error (.corrupt "node: presence/children mismatch")
  else do
    let depth ← Fields.need "node: missing depth" f.depth
    if maxDepth ≤ depth.toNat then
      .error (.corrupt s!"node: depth {depth} beyond the key's {maxDepth} levels")
    else do
      let route ← Fields.need "node: missing route" f.route
      let children ← placeChildren p (f.hashes.zip f.lbas) (List.finRange 32) 0 fun _ => none
      .ok (.node ⟨depth.toUInt8, route, children⟩)

/-- The document that the fields make under `schema`. -/
def docOf (schema : Bytes) (f : Fields) : Except Error TractDoc :=
  if schema = schemaLone then do
    let key ← Fields.need "lone: missing key" f.key
    let value ← Fields.need "lone: missing value" f.value
    .ok (.lone key value)
  else if schema = schemaExtent then
    if f.runStarts.length ≠ f.runCounts.length then .error (.corrupt "extent: run start/count mismatch")
    else do
      let key ← Fields.need "extent: missing key" f.key
      let size ← Fields.need "extent: missing size" f.size
      .ok (.extent key size (f.runStarts.zip f.runCounts))
  else if schema = schemaDirect then do
    let key ← Fields.need "direct: missing key" f.key
    let size ← Fields.need "direct: missing size" f.size
    .ok (.direct key size f.furrows)
  else if schema = schemaFurrow then do
    let key ← Fields.need "furrow: missing key" f.key
    let index ← Fields.need "furrow: missing index" f.index
    let payload ← Fields.need "furrow: missing payload" f.value
    .ok (.furrow key index payload)
  else if schema = schemaNode then nodeOf f
  else .error (.corrupt "unknown tract schema")

def decodeDoc (block : Bytes) : Except Error TractDoc :=
  match parse block 4 with
  | .error e => .error (.corrupt e)
  | .ok (_, ptr) =>
    match parse block (ptr + 1) with
    | .error e => .error (.corrupt e)
    | .ok (.d schema, ptr) =>
      match readPairs .corrupt (.corrupt "bad field name") Fields.take block (block.length + 1) ptr {} with
      | .error e => .error e
      | .ok f => docOf schema f
    | .ok _ => .error (.corrupt "missing schema")

end Codec

/-- `SCHEMA_ROOT`. -/
def schemaRoot : Bytes := ascii "manifestus.root"

/-- A root entry with the widths of its fields. -/
structure WireRoot where
  gen : UInt64
  prevHash : Hash32
  ringLog2 : UInt8
  at_ : UInt64
  was : UInt64
  since : UInt64
  residences : UInt64
  residency : UInt64
  eagleTime : Int64
  deriving DecidableEq

namespace WireRoot

def pairs (e : WireRoot) : List (Bytes × VsfType) :=
  [(ascii "gen", .u e.gen),
    (ascii "prev", .hp e.prevHash.val),
    (ascii "ring", .u e.ringLog2.toUInt64),
    (ascii "at", .u e.at_),
    (ascii "was", .u e.was),
    (ascii "since", .u e.since),
    (ascii "band", .u e.residences),
    (ascii "stay", .u e.residency),
    (ascii "time", .e6 e.eagleTime)]

def encode (e : WireRoot) : Except Error Bytes := encodeFields schemaRoot e.pairs

/-- The fields read so far. -/
structure Fields where
  gen : Option UInt64 := none
  prev : Option Hash32 := none
  ring : Option UInt8 := none
  at_ : Option UInt64 := none
  was : Option UInt64 := none
  since : Option UInt64 := none
  band : Option UInt64 := none
  stay : Option UInt64 := none
  time : Option Int64 := none

namespace Fields

/-- A number under one of the names that have one; another name is skipped. -/
def takeNumber (f : Fields) (name : Bytes) (x : UInt64) : Fields :=
  if name = ascii "gen" then { f with gen := some x }
  else if name = ascii "ring" then { f with ring := some x.toUInt8 }
  else if name = ascii "at" then { f with at_ := some x }
  else if name = ascii "was" then { f with was := some x }
  else if name = ascii "since" then { f with since := some x }
  else if name = ascii "band" then { f with band := some x }
  else if name = ascii "stay" then { f with stay := some x }
  else f

/-- One named value; an unknown name or an unexpected type is skipped. -/
def take (f : Fields) (name : Bytes) (value : VsfType) : Except Error Fields :=
  match value with
  | .hp h => if name = ascii "prev" then (to32 h).map fun h => { f with prev := some h } else .ok f
  | .e6 t => if name = ascii "time" then .ok { f with time := some t } else .ok f
  | value =>
    match asU64 value with
    | some x => .ok (f.takeNumber name x)
    | none => .ok f

def entry (f : Fields) : Except Error WireRoot := do
  let gen ← Codec.Fields.need "root: missing gen" f.gen
  let prev ← Codec.Fields.need "root: missing prev" f.prev
  let ring ← Codec.Fields.need "root: missing ring" f.ring
  let at_ ← Codec.Fields.need "root: missing at" f.at_
  let was ← Codec.Fields.need "root: missing was" f.was
  let since ← Codec.Fields.need "root: missing since" f.since
  let band ← Codec.Fields.need "root: missing band" f.band
  let stay ← Codec.Fields.need "root: missing stay" f.stay
  let time ← Codec.Fields.need "root: missing time" f.time
  pure ⟨gen, prev, ring, at_, was, since, band, stay, time⟩

end Fields

def decode (block : Bytes) : Except Error WireRoot :=
  match wireHeader block with
  | .error e => .error e
  | .ok (stored, start) =>
    if (blake3 (block.drop start)).val ≠ stored then .error .badSeal
    else match vsfParse block start with
      | .error e => .error e
      | .ok (.d name, ptr) =>
        if name ≠ schemaRoot then .error (.corrupt "foreign schema")
        else
          match readPairs (fun e => .corrupt s!"vsf parse: {e}") (.corrupt "expected field name") Fields.take block
              (block.length + 1) ptr {} with
          | .error e => .error e
          | .ok f => f.entry
      | .ok _ => .error (.corrupt "expected schema id")

end WireRoot
end Manifestus
