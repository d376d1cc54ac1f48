import Manifestus.Engine.Doc

/-! The copy-on-write hash array mapped trie. A descent is at most one level deeper than the
key has chunks, which bounds the recursion. -/
namespace Manifestus
open Prog Store

variable {H : Type} [Crates H]

inductive DeletePolicy where
  | unlinkOnly
  | zeroIsErase
  deriving DecidableEq, Repr

namespace Hamt

def empty : Hamt H := ⟨none, [], ⟨[], []⟩, 0⟩

/-- Resume from a committed root; the all-zero hash is the empty index. -/
def fromRoot (hash : H) (lba : Nat) : Hamt H :=
  ⟨if hash = Crates.zeros then none else some (.committed hash lba), [], ⟨[], []⟩, 0⟩

def isDirty (h : Hamt H) : Bool := h.root.any Child.isDirty

/-- Work that no committed generation has. -/
def hasUncommitted (h : Hamt H) : Bool :=
  h.isDirty || !h.delta.added.isEmpty || !h.delta.removed.isEmpty

def pushAdded (lba : Nat) (hash : H) (h : Hamt H) : Hamt H :=
  { h with delta := { h.delta with added := h.delta.added ++ [(lba, hash)] } }

def pushRemoved (lba : Nat) (hash : H) (h : Hamt H) : Hamt H :=
  { h with delta := { h.delta with removed := h.delta.removed ++ [(lba, hash)] } }

def setRoot (root : Option (Child H)) (h : Hamt H) : Hamt H := { h with root := root }

def setChild (idx : Nat) (c : Fin 32) (sub : Option (Child H)) (h : Hamt H) : Hamt H :=
  { h with arena := h.arena.modify idx fun n =>
      { n with children := Function.update n.children c sub } }

def descentFuel : Nat := maxDepth + 1

def outOfKey : Error := .panic "key index out of bounds"

/-- The node at an arena index. -/
def nodeAt (idx : Nat) : Prog Error (Store H) (Node H) := do
  let s ← state
  match s.hamt.arena[idx]? with
  | some node => pure node
  | none => fail (.panic "arena index out of bounds")

/-- A committed node enters the arena. -/
def pushNode (node : Node H) : Prog Error (Store H) Nat := do
  let s ← state
  onHamt fun h => { h with arena := h.arena ++ [node] }
  pure s.hamt.arena.length

/-- Push a hash for every sealed position onto the removals. -/
def removeSealed (lba : Nat) : Prog Error (Store H) Unit := do
  let buf ← Tract.read lba
  match sealedHp buf with
  | some h => onHamt (pushRemoved lba h)
  | none => pure ()

/-- Record a leaf and its furrows as no longer live. -/
def removeLeafBlocks (lba : Nat) (hash : H) : Prog Error (Store H) Unit := do
  onHamt (pushRemoved lba hash)
  match ← readDoc lba hash with
  | some (.direct _ _ furrows) => each removeSealed furrows
  | some (.extent _ size runs) => do
    let s ← state
    let positions ← lift (expandRuns H runs size s.tract.len)
    each removeSealed positions
  | _ => pure ()

def lookupFrom (key : Key) : Nat → Nat → Child H → Prog Error (Store H) (Option Bytes)
  | 0, _, _ => fail outOfKey
  | fuel + 1, depth, .dirty idx => do
    let node ← nodeAt idx
    let c ← chunkAt key depth
    match node.children c with
    | none => pure none
    | some child => lookupFrom key fuel (depth + 1) child
  | fuel + 1, depth, .committed hash lba => do
    match ← readDoc lba hash with
    | none => pure none
    | some (.node node) => do
      nodeAtDepth node lba depth
      let c ← chunkAt key depth
      match node.children c with
      | none => pure none
      | some child => lookupFrom key fuel (depth + 1) child
    | some (.lone k value) => pure (if k = key then some value else none)
    | some (.direct k size furrows) =>
      if k ≠ key then pure none
      else do
        let value ← readFurrows key size furrows
        pure (some value)
    | some (.extent k size runs) =>
      if k ≠ key then pure none
      else do
        let s ← state
        let positions ← lift (expandRuns H runs size s.tract.len)
        let value ← readFurrows key size positions
        pure (some value)
    | some (.furrow ..) => fail (.corrupt "furrow reached via index walk")

def lookup (key : Key) : Prog Error (Store H) (Option Bytes) := do
  let s ← state
  match s.hamt.root with
  | none => pure none
  | some child => lookupFrom key descentFuel 0 child

/-- The chain of nodes that separates two keys from `depth` down. -/
def split : Nat → Nat → Key × Child H → Key × Child H → Prog Error (Store H) (Child H)
  | 0, _, _, _ => fail outOfKey
  | fuel + 1, depth, a, b => do
    let ca ← chunkAt a.1 depth
    let cb ← chunkAt b.1 depth
    let fresh : Fin 32 → Option (Child H) := fun _ => none
    if ca = cb then do
      let sub ← split fuel (depth + 1) a b
      let idx ← pushNode ⟨depth, a.1, Function.update fresh ca (some sub)⟩
      pure (.dirty idx)
    else do
      let idx ← pushNode
        ⟨depth, a.1, Function.update (Function.update fresh ca (some a.2)) cb (some b.2)⟩
      pure (.dirty idx)

/-- Copy-on-write insert: the replacement of `slot`. -/
def insertChild (key : Key) (leaf : Child H) :
    Nat → Nat → Option (Child H) → Prog Error (Store H) (Child H)
  | 0, _, _ => fail outOfKey
  | _ + 1, _, none => pure leaf
  | fuel + 1, depth, some (.dirty idx) => do
    let c ← chunkAt key depth
    let node ← nodeAt idx
    let sub ← insertChild key leaf fuel (depth + 1) (node.children c)
    onHamt (setChild idx c (some sub))
    pure (.dirty idx)
  | fuel + 1, depth, some (.committed hash lba) => do
    let onLeaf (k : Key) : Prog Error (Store H) (Child H) :=
      if k = key then do
        removeLeafBlocks lba hash
        pure leaf
      else split descentFuel depth (k, .committed hash lba) (key, leaf)
    match ← readDoc lba hash with
    | none => pure leaf
    | some (.node node) => do
      nodeAtDepth node lba depth
      let idx ← pushNode node
      let c ← chunkAt key depth
      let sub ← insertChild key leaf fuel (depth + 1) (node.children c)
      onHamt (setChild idx c (some sub))
      onHamt (pushRemoved lba hash)
      pure (.dirty idx)
    | some (.lone k _) => onLeaf k
    | some (.direct k _ _) => onLeaf k
    | some (.extent k _ _) => onLeaf k
    | some (.furrow ..) => fail (.corrupt "furrow in index position")

/-- The bytes of furrow `i` of a value. -/
def furrowBytes (value : Bytes) (i : Nat) : Bytes :=
  (value.drop (i * furrowCapacity H)).take (furrowCapacity H)

/-- Append the blocks of a value, its leaf last; the leaf's position and hash. -/
def putLeaf (live : Liveness H) (key : Key) (value : Bytes) : Prog Error (Store H) (Nat × H) := do
  if value.length ≤ loneCapacity H then do
    let lba ← Tract.appendOne live (encodeLone key value)
    let hash : H := Crates.hash (.lone key value) 0
    onHamt (pushAdded lba hash)
    pure (lba, hash)
  else do
    let count := divCeil value.length (furrowCapacity H)
    let placed ← Tract.appendWith live count
      fun i => encodeFurrow key i (furrowBytes (H := H) value i)
    each (fun p => onHamt (pushAdded p.1 (Crates.hash (.furrow key p.2 (furrowBytes (H := H) value p.2)) 0)))
      (placed.zip (List.range count))
    let runs := compressRuns placed
    let leaf ← lift (encodeExtent key value.length runs)
    let lba ← Tract.appendOne live leaf
    let hash : H := Crates.hash (.extent key value.length runs) 0
    onHamt (pushAdded lba hash)
    pure (lba, hash)

def putInner (live : Liveness H) (key : Key) (value : Bytes) : Prog Error (Store H) Unit := do
  let (lba, hash) ← putLeaf live key value
  let s ← state
  let root ← insertChild key (.committed hash lba) descentFuel 0 s.hamt.root
  onHamt (setRoot (some root))

/-- Insert or overwrite; an error rolls the delta back to its entry state. -/
def put (live : Liveness H) (key : Key) (value : Bytes) : Prog Error (Store H) Unit := do
  let s ← state
  match ← attempt (putInner live key value) with
  | .ok _ => pure ()
  | .error e => do
    onHamt fun h => { h with delta :=
      ⟨h.delta.added.take s.hamt.delta.added.length,
        h.delta.removed.take s.hamt.delta.removed.length⟩ }
    fail e

def findLeafFrom (key : Key) : Nat → Nat → Child H → Prog Error (Store H) (Option (Nat × H))
  | 0, _, _ => fail outOfKey
  | fuel + 1, depth, .dirty idx => do
    let node ← nodeAt idx
    let c ← chunkAt key depth
    match node.children c with
    | none => pure none
    | some child => findLeafFrom key fuel (depth + 1) child
  | fuel + 1, depth, .committed hash lba => do
    let onLeaf (k : Key) : Prog Error (Store H) (Option (Nat × H)) :=
      pure (if k = key then some (lba, hash) else none)
    match ← readDoc lba hash with
    | none => pure none
    | some (.node node) => do
      nodeAtDepth node lba depth
      let c ← chunkAt key depth
      match node.children c with
      | none => pure none
      | some child => findLeafFrom key fuel (depth + 1) child
    | some (.lone k _) => onLeaf k
    | some (.direct k _ _) => onLeaf k
    | some (.extent k _ _) => onLeaf k
    | some (.furrow ..) => fail (.corrupt "furrow in index position")

def findLeaf (key : Key) : Prog Error (Store H) (Option (Nat × H)) := do
  let s ← state
  match s.hamt.root with
  | none => pure none
  | some child => findLeafFrom key descentFuel 0 child

/-- Copy-on-write unlink of the child that is exactly `old`, down `route`. -/
def pruneChild (route : Key) (old : H × Nat) :
    Nat → Nat → Option (Child H) → Prog Error (Store H) (Option (Child H))
  | 0, _, _ => fail outOfKey
  | _ + 1, _, none => pure none
  | fuel + 1, depth, some (.dirty idx) => do
    let c ← chunkAt route depth
    let node ← nodeAt idx
    let sub ← pruneChild route old fuel (depth + 1) (node.children c)
    onHamt (setChild idx c sub)
    pure (some (.dirty idx))
  | fuel + 1, depth, some (.committed hash lba) =>
    if hash = old.1 ∧ lba = old.2 then pure none
    else do
      match ← readDoc lba hash with
      | some (.node node) => do
        nodeAtDepth node lba depth
        let idx ← pushNode node
        onHamt (pushRemoved lba hash)
        let c ← chunkAt route depth
        let sub ← pruneChild route old fuel (depth + 1) (node.children c)
        onHamt (setChild idx c sub)
        pure (some (.dirty idx))
      | _ => pure (some (.committed hash lba))

def prune (route : Key) (old : H × Nat) : Prog Error (Store H) Unit := do
  let s ← state
  let root ← pruneChild route old descentFuel 0 s.hamt.root
  onHamt (setRoot root)

/-- Zero a leaf and its furrows on the devices. -/
def eraseLeaf (lba : Nat) (hash : H) : Prog Error (Store H) Unit := do
  match ← readDoc lba hash with
  | none => pure ()
  | some (.direct _ _ furrows) => do
    each Tract.zeroDelete furrows
    Tract.zeroDelete lba
  | some (.extent _ size runs) => do
    let s ← state
    let positions ← lift (expandRuns H runs size s.tract.len)
    each Tract.zeroDelete positions
    Tract.zeroDelete lba
  | some _ => Tract.zeroDelete lba

/-- Delete a key; false when it is absent. -/
def delete (key : Key) (policy : DeletePolicy) : Prog Error (Store H) Bool := do
  match ← findLeaf key with
  | none => pure false
  | some (lba, hash) => do
    removeLeafBlocks lba hash
    if policy = .zeroIsErase then eraseLeaf lba hash
    prune key (hash, lba)
    pure true

/-- A dirty child of the node at `idx` is written, and its pointer replaced. -/
def flushChild (flush : Nat → Prog Error (Store H) (H × Nat)) (idx : Nat) (c : Fin 32) :
    Prog Error (Store H) Unit := do
  let node ← nodeAt idx
  match node.children c with
  | some (.dirty sub) => do
    let (hash, lba) ← flush sub
    onHamt (setChild idx c (some (.committed hash lba)))
  | _ => pure ()

/-- Write a dirty node to the tract, its children first by `flush`. -/
def flushOne (live : Liveness H) (flush : Nat → Prog Error (Store H) (H × Nat)) (idx : Nat) :
    Prog Error (Store H) (H × Nat) := do
  each (flushChild flush idx) (List.finRange 32)
  let node ← nodeAt idx
  let block ← encodeNode node
  let lba ← Tract.appendOne live block
  match sealedHp block with
  | none => fail (.panic "unsealed node")
  | some hash => do
    onHamt (pushAdded lba hash)
    pure (hash, lba)

/-- Write a dirty node and every dirty node below it. -/
def flushNode (live : Liveness H) : Nat → Nat → Prog Error (Store H) (H × Nat)
  | 0 => fun _ => fail outOfKey
  | fuel + 1 => flushOne live (flushNode live fuel)

/-- Write every dirty node, bottom-up; the new committed root. -/
def flush (live : Liveness H) : Prog Error (Store H) (H × Nat) := do
  let s ← state
  match s.hamt.root with
  | none => pure (Crates.zeros, 0)
  | some (.committed hash lba) => do
    onHamt fun h => { h with arena := [] }
    pure (hash, lba)
  | some (.dirty idx) => do
    let (hash, lba) ← flushNode live descentFuel idx
    onHamt (setRoot (some (.committed hash lba)))
    onHamt fun h => { h with arena := [] }
    pure (hash, lba)

/-- The delta so far; a new one starts. -/
def takeDelta : Prog Error (Store H) (Delta H) := do
  let s ← state
  onHamt fun h => { h with delta := ⟨[], []⟩ }
  pure s.hamt.delta

end Hamt
end Manifestus
