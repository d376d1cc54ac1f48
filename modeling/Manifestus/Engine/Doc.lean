import Manifestus.Engine.Tract

/-! Key chunks, run lists, and tract blocks as documents. -/
namespace Manifestus
open Prog

variable {H : Type} [Crates H]

/-- `MAX_DEPTH`: depths `0..52` can route a 256-bit key. -/
def maxDepth : Nat := (32 * 8 + 4) / 5

/-- Byte `i` of a key, counted from the most significant. -/
def Key.byte (k : Key) (i : Nat) : Nat := k.toNat / 2 ^ (8 * (31 - i)) % 256

/-- The two bytes a chunk at `depth` lies in. -/
def Key.window (k : Key) (depth : Nat) : Nat :=
  let byte := depth * 5 / 8
  k.byte byte * 256 + if byte + 1 < 32 then k.byte (byte + 1) else 0

/-- The 5-bit chunk of a key at `depth`. -/
def chunk (k : Key) (depth : Nat) : Fin 32 :=
  ⟨k.window depth / 2 ^ (11 - depth * 5 % 8) % 32, Nat.mod_lt _ (by decide)⟩

/-- `chunk` as the code takes it: past the last level it indexes byte 32 of the key. -/
def chunkAt {σ : Type} (k : Key) (depth : Nat) : Prog Error σ (Fin 32) :=
  if depth < maxDepth then pure (chunk k depth) else fail (.panic "key index out of bounds")

/-- A key with byte `i` replaced. -/
def Key.setByte (k : Key) (i v : Nat) : Key :=
  BitVec.ofNat 256 (k.toNat - k.byte i * 2 ^ (8 * (31 - i)) + v % 256 * 2 ^ (8 * (31 - i)))

/-- `base` with the chunk at `depth` set to `slot`. -/
def routeWithChunk (base : Key) (depth : Nat) (slot : Fin 32) : Key :=
  let byte := depth * 5 / 8
  let shift := 11 - depth * 5 % 8
  let window := base.window depth
  let new := window - window / 2 ^ shift % 32 * 2 ^ shift + slot.val * 2 ^ shift
  let base := base.setByte byte (new / 256)
  if byte + 1 < 32 then base.setByte (byte + 1) (new % 256) else base

/-- `routeWithChunk` as the code takes it: past the last level it indexes byte 32 of the key. -/
def routeAt {σ : Type} (base : Key) (depth : Nat) (slot : Fin 32) : Prog Error σ Key :=
  if depth < maxDepth then pure (routeWithChunk base depth slot) else fail (.panic "key index out of bounds")

/-- A decoded tract block. -/
inductive TractDoc (H : Type) where
  | node (node : Node H)
  | lone (key : Key) (value : Bytes)
  | extent (key : Key) (size : Nat) (runs : List (Nat × Nat))
  | direct (key : Key) (size : Nat) (furrows : List Nat)
  | furrow (key : Key) (index : Nat) (payload : Bytes)

/-- The node a sealed body describes. -/
def Node.ofSlots (depth : Nat) (route : Key) (slots : Fin 32 → Option (H × Nat)) : Node H :=
  ⟨depth, route, fun i => (slots i).map fun p => .committed p.1 p.2⟩

def decodeDoc : Block H → Except Error (TractDoc H)
  | .sealed (.lone key value) _ => .ok (.lone key value)
  | .sealed (.extent key size runs) _ => .ok (.extent key size runs)
  | .sealed (.direct key size furrows) _ => .ok (.direct key size furrows)
  | .sealed (.furrow key index payload) _ => .ok (.furrow key index payload)
  | .sealed (.node depth route slots) _ =>
    if depth < maxDepth then .ok (.node (Node.ofSlots depth route slots))
    else .error (.corrupt s!"node: depth {depth} beyond the key's {maxDepth} levels")
  | .sealed _ _ => .error (.corrupt "unknown tract schema")
  | _ => .error (.corrupt "vsf parse")

/-- A position the document points at past the tract. -/
def TractDoc.past (tractLen : Nat) : TractDoc H → Option Nat
  | .node n => (List.finRange 32).findSome? fun i =>
    match n.children i with
    | some (.committed _ lba) => if tractLen ≤ lba then some lba else none
    | _ => none
  | .direct _ _ furrows => furrows.find? fun f => tractLen ≤ f
  | _ => none

/-- A block as the document a pointer `(lba, expected)` names; none when it is zeroed. -/
def docOf (buf : Block H) (lba : Nat) (expected : H) (tractLen : Nat) :
    Except Error (Option (TractDoc H)) :=
  if buf = .zero then .ok none
  else match sealedHp buf with
    | none => .error (.corrupt s!"unsealed block at tract lba {lba}")
    | some hash =>
      if hash ≠ expected then .error .badSeal
      else match decodeDoc buf with
        | .error e => .error e
        | .ok doc =>
          match doc.past tractLen with
          | some p => .error (.corrupt s!"block at tract lba {lba} points at {p}, past the tract")
          | none => .ok (some doc)

def readDoc (lba : Nat) (expected : H) : Prog Error (Store H) (Option (TractDoc H)) := do
  let buf ← Tract.readCached lba
  let s ← state
  lift (docOf buf lba expected s.tract.len)

/-- A node must name the depth of the path it is found on. -/
def nodeAtDepth {σ : Type} (node : Node H) (lba depth : Nat) : Prog Error σ Unit :=
  if node.depth = depth then pure ()
  else fail (.corrupt s!"node at tract lba {lba} claims depth {node.depth} on a path at depth {depth}")

/-- The furrows the runs name, each run checked against the tract. -/
def checkRuns (tractLen : Nat) : Nat → List (Nat × Nat) → Except Error Nat
  | total, [] => .ok total
  | total, (s, c) :: runs =>
    if tractLen ≤ s ∨ tractLen - s < c then
      .error (.corrupt s!"extent run ({s}, {c}) reaches past the tract of {tractLen} blocks")
    else if tractLen < total + c then
      .error (.corrupt s!"extent runs total {total + c} blocks in a tract of {tractLen}")
    else checkRuns tractLen (total + c) runs

/-- `u64::div_ceil`. -/
def divCeil (x y : Nat) : Nat := (x + y - 1) / y

def runPositions (runs : List (Nat × Nat)) : List Nat :=
  runs.flatMap fun r => (List.range r.2).map (r.1 + ·)

variable (H) in
/-- The furrow position of every index of an extent. -/
def expandRuns (runs : List (Nat × Nat)) (size tractLen : Nat) : Except Error (List Nat) :=
  match checkRuns tractLen 0 runs with
  | .error e => .error e
  | .ok total =>
    if total ≠ divCeil size (furrowCapacity H) then
      .error (.corrupt s!"extent run total {total} != furrow count {divCeil size (furrowCapacity H)}")
    else .ok (runPositions runs)

/-- One more position onto a run list. -/
def pushRun (runs : List (Nat × Nat)) (p : Nat) : List (Nat × Nat) :=
  match runs.getLast? with
  | some (s, c) => if s + c = p then runs.dropLast ++ [(s, c + 1)] else runs ++ [(p, 1)]
  | none => [(p, 1)]

def compressRuns (positions : List Nat) : List (Nat × Nat) := positions.foldl pushRun []

def encodeLone (key : Key) (value : Bytes) : Block H := sealBlock (.lone key value)

def encodeExtent (key : Key) (size : Nat) (runs : List (Nat × Nat)) : Except Error (Block H) :=
  if maxRuns H < runs.length then
    .error (.corrupt s!"extent leaf overflow: {runs.length} runs, value pathologically fragmented")
  else .ok (sealBlock (.extent key size runs))

def encodeFurrow (key : Key) (index : Nat) (payload : Bytes) : Block H :=
  sealBlock (.furrow key index payload)

/-- A child as an encoded slot; an unflushed child has none. -/
def Child.slot : Child H → Option (H × Nat)
  | .committed hash lba => some (hash, lba)
  | .dirty _ => none

def Child.isDirty : Child H → Bool
  | .dirty _ => true
  | .committed _ _ => false

/-- Encoding a node with an unflushed child panics. -/
def encodeNode (node : Node H) : Prog Error (Store H) (Block H) :=
  if (List.finRange 32).any fun i => (node.children i).any Child.isDirty then
    fail (.panic "encode_node on un-flushed child")
  else pure (sealBlock (.node node.depth node.route fun i => (node.children i).bind Child.slot))

/-- `RUN_STEP`. -/
def runStep : Nat := 2 ^ 8

/-- Positions cut into runs of consecutive ones, at most `limit` each. -/
def cutRuns (limit : Nat) : List Nat → List (List Nat)
  | [] => []
  | p :: rest => go [p] p rest
where
  go (run : List Nat) (last : Nat) : List Nat → List (List Nat)
    | [] => [run]
    | p :: rest =>
      if p ≠ last + 1 ∨ run.length = limit then run :: go [p] p rest
      else go (run ++ [p]) p rest

/-- The payload of the furrow that must be number `index` of `key`. -/
def furrowPayload (key : Key) (index : Nat) (buf : Block H) : Except Error Bytes :=
  if (sealedHp buf).isNone then .error (.corrupt s!"furrow {index} unsealed")
  else match decodeDoc buf with
    | .error e => .error e
    | .ok (.furrow k i payload) =>
      if k ≠ key ∨ i ≠ index then .error (.corrupt s!"furrow {index} mismatched owner/index")
      else .ok payload
    | .ok _ => .error (.corrupt s!"furrow {index} wrong schema")

def payloads (key : Key) : Nat → List (Block H) → Except Error Bytes
  | _, [] => .ok []
  | index, buf :: bufs =>
    match furrowPayload key index buf with
    | .error e => .error e
    | .ok payload =>
      match payloads key (index + 1) bufs with
      | .error e => .error e
      | .ok rest => .ok (payload ++ rest)

def readRuns (key : Key) : Nat → List (List Nat) → Prog Error (Store H) Bytes
  | _, [] => pure []
  | start, run :: runs => do
    let bufs ← Tract.readRun (run.headD 0) run.length
    let bytes ← lift (payloads key start bufs)
    let rest ← readRuns key (start + run.length) runs
    pure (bytes ++ rest)

/-- Reassemble a value from its furrows. -/
def readFurrows (key : Key) (size : Nat) (furrows : List Nat) : Prog Error (Store H) Bytes := do
  if furrows.length * furrowCapacity H < size then
    fail (.corrupt s!"value size {size} exceeds what {furrows.length} furrows can carry")
  let out ← readRuns key 0 (cutRuns runStep furrows)
  if out.length ≠ size then fail (.corrupt "assembled size mismatch")
  pure out

end Manifestus
