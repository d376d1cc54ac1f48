import Manifestus.Engine.Hamt

/-! Walks of the committed index: the live walk, the tree-only walk in steps, the key walk and
the repair walk. -/
namespace Manifestus
open Prog Store

variable {H : Type} [Crates H]

/-- The positions a walk has reached, one bit a block in words of 64. -/
structure Visited where
  words : Nat
  marks : List Nat
  deriving DecidableEq, Repr

def Visited.new (tractLen : Nat) : Visited := ⟨divCeil tractLen (2 ^ 6), []⟩

/-- A pointer still to read: position, hash, route, depth. -/
structure WalkItem (H : Type) where
  lba : Nat
  hash : H
  route : Key
  depth : Nat
  deriving DecidableEq

/-- A committed pointer whose target reads as all zero. -/
structure StalePointer (H : Type) where
  route : Key
  hash : H
  lba : Nat
  deriving DecidableEq

/-- A committed pointer whose target is lost. -/
structure DanglingPointer (H : Type) where
  route : Key
  hash : H
  lba : Nat
  key : Option Key
  reason : String
  deriving DecidableEq

/-- What the walks are handed to fill; each uses its own part. -/
structure Walk (H : Type) where
  todo : List (WalkItem H)
  visited : Visited
  liveBlocks : List (Nat × H)
  referenced : List Nat
  stale : List (StalePointer H)
  dangling : List (DanglingPointer H)
  keys : List Key

def Walk.start (tractLen : Nat) (todo : List (WalkItem H)) : Walk H :=
  ⟨todo, Visited.new tractLen, [], [], [], [], []⟩

/-- The store a walk reads and what it has found. -/
structure Walker (H : Type) where
  store : Store H
  walk : Walk H

namespace Walker

def onStore {α : Type} (x : Prog Error (Store H) α) : Prog Error (Walker H) α :=
  zoom Walker.store (fun s w => { w with store := s }) x

def onWalk (f : Walk H → Walk H) : Prog Error (Walker H) Unit :=
  update fun w => { w with walk := f w.walk }

def tractLen : Prog Error (Walker H) Nat := do
  let w ← state
  pure w.store.tract.len

/-- Mark a position reached; a second arrival is corruption. -/
def reach (lba : Nat) : Prog Error (Walker H) Unit := do
  let w ← state
  let v := w.walk.visited
  if v.words ≤ lba / 2 ^ 6 then fail (.panic "index out of bounds")
  else if lba ∈ v.marks then
    fail (.corrupt s!"tract lba {lba} reached twice: a block with two parents cannot exist in a healthy tree")
  else onWalk fun k => { k with visited := { v with marks := lba :: v.marks } }

def found (lba : Nat) (hash : H) : Prog Error (Walker H) Unit :=
  onWalk fun k => { k with liveBlocks := k.liveBlocks ++ [(lba, hash)] }

def foundStale (route : Key) (hash : H) (lba : Nat) : Prog Error (Walker H) Unit :=
  onWalk fun k => { k with stale := k.stale ++ [⟨route, hash, lba⟩] }

def foundDangling (d : DanglingPointer H) : Prog Error (Walker H) Unit :=
  onWalk fun k => { k with dangling := k.dangling ++ [d] }

/-- A furrow of a value: reached, read, and live with the hash of its seal. -/
def walkFurrow (pos : Nat) : Prog Error (Walker H) Unit := do
  reach pos
  let buf ← onStore (Tract.read pos)
  match sealedHp buf with
  | some hash => found pos hash
  | none => pure ()

def walkChild : Nat → Nat → Child H → Key → Prog Error (Walker H) Unit
  | _, _, .dirty _, _ => pure ()
  | 0, _, .committed _ _, _ => fail Hamt.outOfKey
  | fuel + 1, depth, .committed hash lba, route => do
    let doc ← onStore (readDoc lba hash)
    reach lba
    match doc with
    | none => foundStale route hash lba
    | some doc => do
      found lba hash
      match doc with
      | .node node => do
        nodeAtDepth node lba depth
        each (fun slot =>
            match node.children slot with
            | some child => do
              walkChild fuel (depth + 1) child (← routeAt route depth slot)
            | none => pure ())
          (List.finRange 32)
      | .direct _ _ furrows => each walkFurrow furrows
      | .extent _ size runs => do
        let positions ← lift (expandRuns H runs size (← tractLen))
        each walkFurrow positions
      | _ => pure ()

/-- The live walk: every block reachable from the committed root. -/
def walkLiveCollect : Prog Error (Walker H) Unit := do
  let w ← state
  match w.store.hamt.root with
  | some child => do
    onWalk fun k => { k with visited := Visited.new w.store.tract.len }
    walkChild (maxDepth + 1) 0 child 0
  | none => pure ()

def walkKeysChild : Nat → Nat → Child H → Prog Error (Walker H) Unit
  | _, _, .dirty _ => pure ()
  | 0, _, .committed _ _ => fail Hamt.outOfKey
  | fuel + 1, depth, .committed hash lba => do
    let foundKey (key : Key) : Prog Error (Walker H) Unit :=
      onWalk fun k => { k with keys := k.keys ++ [key] }
    match ← onStore (readDoc lba hash) with
    | none => pure ()
    | some doc => do
      reach lba
      match doc with
      | .node node => do
        nodeAtDepth node lba depth
        each (fun slot =>
            match node.children slot with
            | some child => walkKeysChild fuel (depth + 1) child
            | none => pure ())
          (List.finRange 32)
      | .lone key _ => foundKey key
      | .extent key _ _ => foundKey key
      | .direct key _ _ => foundKey key
      | .furrow .. => pure ()

/-- The key of every leaf reachable from the committed root. -/
def walkKeys : Prog Error (Walker H) Unit := do
  let w ← state
  match w.store.hamt.root with
  | some child => do
    onWalk fun k => { k with visited := Visited.new w.store.tract.len }
    walkKeysChild (maxDepth + 1) 0 child
  | none => pure ()

/-- `WALK_STEP`. -/
@[irreducible] def walkStep : Nat := 2 ^ 8

/-- A furrow of a value by position, unread. -/
def refer (pos : Nat) : Prog Error (Walker H) Unit := do
  reach pos
  onWalk fun k => { k with referenced := k.referenced ++ [pos] }

/-- The pointer of one slot of a node read at `depth` along `route` joins the list. -/
def pushChild (node : Node H) (route : Key) (depth : Nat) (slot : Fin 32) : Prog Error (Walker H) Unit := do
  match node.children slot with
  | some (.committed hash lba) => do
    let below ← routeAt route depth slot
    onWalk fun k => { k with todo := k.todo ++ [⟨lba, hash, below, depth + 1⟩] }
  | _ => pure ()

/-- One pointer of a tree-walk step with the block read for it. -/
def walkItem (item : WalkItem H × Block H) : Prog Error (Walker H) Unit := do
  let (⟨lba, hash, route, depth⟩, buf) := item
  reach lba
  match ← lift (docOf buf lba hash (← tractLen)) with
  | none => foundStale route hash lba
  | some doc => do
    found lba hash
    match doc with
    | .node node => do
      nodeAtDepth node lba depth
      each (pushChild node route depth) (List.finRange 32)
    | .direct _ _ furrows => each refer furrows
    | .extent _ size runs => do
      let positions ← lift (expandRuns H runs size (← tractLen))
      each refer positions
    | _ => pure ()

/-- One step of the tree walk: the last pointers of the list are read together. A failed read
puts them back; a later refusal does not. -/
def walkTreeStep : Prog Error (Walker H) Unit := do
  let w ← state
  let kept := w.walk.todo.length - walkStep
  let part := w.walk.todo.drop kept
  onWalk fun k => { k with todo := w.walk.todo.take kept }
  match ← attempt (onStore (Tract.readMany (part.map WalkItem.lba))) with
  | .error e => do
    onWalk fun k => { k with todo := k.todo ++ part }
    fail e
  | .ok blocks => each walkItem (part.zip blocks)

/-- Steps until the list is empty. Each marks a position of the tract, so `fuel` above the
tract's length is never used up. -/
def walkTreeSteps : Nat → Prog Error (Walker H) Unit
  | 0 => fail (.panic "walk outlived the tract")
  | fuel + 1 => do
    let w ← state
    if w.walk.todo.isEmpty then pure ()
    else do
      walkTreeStep
      walkTreeSteps fuel

/-- The walk's list at its start: the committed root, if any. -/
def walkStart (h : Hamt H) : List (WalkItem H) :=
  match h.root with
  | some (.committed hash lba) => [⟨lba, hash, 0, 0⟩]
  | _ => []

/-- The tree-only walk to its end. -/
def walkTreeCollect : Prog Error (Walker H) Unit := do
  let w ← state
  onWalk fun k => { k with
    todo := walkStart w.store.hamt, visited := Visited.new w.store.tract.len }
  walkTreeSteps (w.store.tract.len + 2)

/-- The furrow a repair accepts as number `index` of `key`: sealed, with its owner and index. -/
def soundFurrow (key : Key) (index : Nat) (buf : Block H) : Option H :=
  match sealedHp buf, decodeDoc buf with
  | some hash, .ok (.furrow k i _) => if k = key ∧ i = index then some hash else none
  | _, _ => none

/-- The furrows of a leaf from number `index` on, all sound; none when the leaf is dangling. -/
def repairFurrows (dangle : String → DanglingPointer H) (key : Key) :
    Nat → List Nat → Prog Error (Walker H) (Option (List (Nat × H)))
  | _, [] => pure (some [])
  | index, pos :: rest => do
    match ← attempt (reach pos) with
    | .error (.corrupt reason) => do
      foundDangling (dangle reason)
      pure none
    | .error e => fail e
    | .ok _ => do
      let buf ← onStore (Tract.read pos)
      match soundFurrow key index buf with
      | none => do
        foundDangling (dangle s!"furrow {index} @{pos} lost (unsealed/foreign/mismatched owner)")
        pure none
      | some hash => do
        let sound ← repairFurrows dangle key (index + 1) rest
        pure (sound.map ((pos, hash) :: ·))

/-- A leaf joins the live blocks with its furrows, or is dangling. -/
def repairCheckFurrows (lba : Nat) (hash : H) (route key : Key) (positions : List Nat) :
    Prog Error (Walker H) Unit := do
  match ← repairFurrows (fun reason => ⟨route, hash, lba, some key, reason⟩) key 0 positions with
  | none => pure ()
  | some furrows => onWalk fun k => { k with liveBlocks := k.liveBlocks ++ (lba, hash) :: furrows }

def walkChildRepair : Nat → Nat → Child H → Key → Prog Error (Walker H) Unit
  | _, _, .dirty _, _ => pure ()
  | 0, _, .committed _ _, _ => fail Hamt.outOfKey
  | fuel + 1, depth, .committed hash lba, route => do
    let dangle (reason : String) : Prog Error (Walker H) Unit :=
      foundDangling ⟨route, hash, lba, none, reason⟩
    match ← attempt (onStore (readDoc lba hash)) with
    | .ok none => foundStale route hash lba
    | .error .badSeal => dangle "target reused: sealed block does not match the pointer hash"
    | .error (.corrupt reason) => dangle reason
    | .error e => fail e
    | .ok (some doc) => do
      match ← attempt (reach lba) with
      | .error (.corrupt reason) => dangle reason
      | .error e => fail e
      | .ok _ =>
        match doc with
        | .node node => do
          match ← attempt (nodeAtDepth node lba depth) with
          | .error (.corrupt reason) => dangle reason
          | .error e => fail e
          | .ok _ => do
            found lba hash
            each (fun slot =>
                match node.children slot with
                | some child => do
                  walkChildRepair fuel (depth + 1) child (← routeAt route depth slot)
                | none => pure ())
              (List.finRange 32)
        | .lone .. => found lba hash
        | .direct key _ furrows => repairCheckFurrows lba hash route key furrows
        | .extent key size runs => do
          match expandRuns H runs size (← tractLen) with
          | .ok positions => repairCheckFurrows lba hash route key positions
          | .error (.corrupt reason) => foundDangling ⟨route, hash, lba, some key, reason⟩
          | .error e => fail e
        | .furrow .. => dangle "furrow block in index position"

/-- The live walk that reports lost pointers and goes on. -/
def walkLiveRepair : Prog Error (Walker H) Unit := do
  let w ← state
  match w.store.hamt.root with
  | some child => do
    onWalk fun k => { k with visited := Visited.new w.store.tract.len }
    walkChildRepair (maxDepth + 1) 0 child 0
  | none => pure ()

end Walker
end Manifestus
