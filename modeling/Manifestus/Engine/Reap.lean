import Manifestus.Engine.Hamt

/-! The reap: survivors of a window are appended again at the plow and the index is repaired
along their own addresses. -/
namespace Manifestus
open Prog Store

variable {H : Type} [Crates H]

/-- A block move: `source` to `target`, the block's hash `hp`. -/
structure Reloc (H : Type) where
  hp : H
  source : Nat
  target : Nat

/-- The survivors of a window by kind. -/
structure Window (H : Type) where
  lones : List (Nat × H)
  leaves : List (Nat × H)
  nodes : List (Nat × H)
  furrowOwners : List (Key × List (Nat × Nat))

namespace Hamt

/-- Down `key` to the child that is exactly `old`, which becomes `new`. `targetDepth` stops
the hunt for a node; none hunts a leaf. -/
def repoint (key : Key) (targetDepth : Option Nat) (old new : H × Nat) :
    Nat → Nat → Option (Child H) → Prog Error (Store H) (Option (Child H))
  | 0, _, _ => fail outOfKey
  | _ + 1, _, none => pure none
  | fuel + 1, depth, some (.committed hash lba) =>
    if hash = old.1 ∧ lba = old.2 then do
      onHamt fun h => { h with repointHits := h.repointHits + 1 }
      pure (some (.committed new.1 new.2))
    else if targetDepth.any fun t => t + 1 < depth then pure (some (.committed hash lba))
    else do
      match ← readDoc lba hash with
      | some (.node node) => do
        nodeAtDepth node lba depth
        let idx ← pushNode node
        onHamt (pushRemoved lba hash)
        let c ← chunkAt key depth
        let sub ← repoint key targetDepth old new fuel (depth + 1) (node.children c)
        onHamt (setChild idx c sub)
        pure (some (.dirty idx))
      | _ => pure (some (.committed hash lba))
  | fuel + 1, depth, some (.dirty idx) => do
    let c ← chunkAt key depth
    let node ← nodeAt idx
    let sub ← repoint key targetDepth old new fuel (depth + 1) (node.children c)
    onHamt (setChild idx c sub)
    pure (some (.dirty idx))

/-- A repoint of the root that must hit. -/
def repointRoot (key : Key) (targetDepth : Option Nat) (old new : H × Nat) (miss : String) :
    Prog Error (Store H) Unit := do
  let before ← state
  let root ← repoint key targetDepth old new descentFuel 0 before.hamt.root
  onHamt (setRoot root)
  let after ← state
  if after.hamt.repointHits = before.hamt.repointHits then fail (.corrupt miss)

/-- Apply a block move to the index. -/
def repairReloc (r : Reloc H) : Prog Error (Store H) Unit := do
  let buf ← Tract.read r.target
  let miss := s!"relocation repointed nothing for block at {r.source} — refusing to orphan a live block"
  let move (key : Key) (targetDepth : Option Nat) : Prog Error (Store H) Unit :=
    repointRoot key targetDepth (r.hp, r.source) (r.hp, r.target) miss
  if (sealedHp buf).isNone then fail (.corrupt "relocated block unreadable at destination")
  match ← lift (decodeDoc buf) with
  | .lone key _ => move key none
  | .direct key _ _ => move key none
  | .extent key _ _ => move key none
  | .furrow .. => fail (.corrupt "furrow move must be handled by the reap")
  | .node node => move node.route (some node.depth)

/-- Swap a leaf pointer for a rebuilt leaf. -/
def replaceLeaf (key : Key) (old new : H × Nat) : Prog Error (Store H) Unit :=
  repointRoot key none old new
    "leaf replacement repointed nothing — refusing to orphan the rebuilt extent"

/-- A furrow joins the group of its owner. -/
def addFurrow (key : Key) (furrow : Nat × Nat) :
    List (Key × List (Nat × Nat)) → List (Key × List (Nat × Nat))
  | [] => [(key, [furrow])]
  | (k, group) :: rest =>
    if k = key then (k, group ++ [furrow]) :: rest else (k, group) :: addFurrow key furrow rest

/-- A survivor joins the window by what its self-address says it is. -/
def Window.sort (w : Window H) (pos : Nat) (hp : H) : TractDoc H → Window H
  | .lone .. => { w with lones := w.lones ++ [(pos, hp)] }
  | .direct .. => { w with leaves := w.leaves ++ [(pos, hp)] }
  | .extent .. => { w with leaves := w.leaves ++ [(pos, hp)] }
  | .node _ => { w with nodes := w.nodes ++ [(pos, hp)] }
  | .furrow key index _ => { w with furrowOwners := addFurrow key (pos, index) w.furrowOwners }

/-- Garbage (unsealed, dead, or retired in this epoch) is not collected. -/
def classifyBlock (oracle : Liveness H) (retired : List (Nat × H)) (pos : Nat) (w : Window H) :
    Prog Error (Store H) (Window H) := do
  let buf ← Tract.read pos
  match sealedHp buf with
  | none => pure w
  | some hp =>
    if !oracle.isLive pos hp || retired.contains (pos, hp) then pure w
    else do
      let doc ← lift (decodeDoc buf)
      pure (Window.sort w pos hp doc)

def classifyWindow (oracle : Liveness H) (retired : List (Nat × H)) :
    List Nat → Window H → Prog Error (Store H) (Window H)
  | [], w => pure w
  | pos :: rest, w => do
    let w ← classifyBlock oracle retired pos w
    classifyWindow oracle retired rest w

/-- The moved furrows' new positions patched into the list of all positions. -/
def patchPositions : List ((Nat × Nat) × Nat) → List Nat → Except Error (List Nat)
  | [], positions => .ok positions
  | ((_, i), newpos) :: rest, positions =>
    if positions.length ≤ i then .error (.corrupt "furrow index beyond its extent")
    else patchPositions rest (positions.set i newpos)

/-- The seal of a block read as live, unwrapped. -/
def hpOf (b : Block H) : Prog Error (Store H) H :=
  match sealedHp b with
  | some h => pure h
  | none => fail (.panic "unwrap on an unsealed block")

/-- Append a group of furrows of the extent at `leaf` again, in index order, and put the leaf rebuilt
over them in its place. -/
def moveGroup (oracle : Liveness H) (key : Key) (leaf : Nat × H) (size : Nat) (runs : List (Nat × Nat))
    (group : List (Nat × Nat)) : Prog Error (Store H) Unit := do
  let payload ← collect (fun p => Tract.read p.1) group
  let placed ← Tract.append oracle payload
  let s ← state
  let positions ← lift (expandRuns H runs size s.tract.len)
  let patched ← lift (patchPositions (group.zip placed) positions)
  let newRuns := compressRuns patched
  let newLeaf ← lift (encodeExtent key size newRuns)
  let nl ← Tract.appendOne oracle newLeaf
  let nh : H := Crates.hash (.extent key size newRuns) 0
  replaceLeaf key (leaf.2, leaf.1) (nh, nl)
  each (fun p => do
      let h ← hpOf p.1
      onHamt (pushAdded p.2 h))
    (payload.zip placed)
  each (fun p => do
      let h ← hpOf p.2
      onHamt (pushRemoved p.1.1 h))
    (group.zip payload)
  onHamt (pushAdded nl nh)
  onHamt (pushRemoved leaf.1 leaf.2)

/-- Move the furrows of one value in the window, by the leaf its key leads to. -/
def moveFurrows (oracle : Liveness H) (owner : Key × List (Nat × Nat)) :
    Prog Error (Store H) Unit := do
  let key := owner.1
  match ← findLeaf key with
  | none => pure ()
  | some (leafLba, leafHash) => do
    match ← readDoc leafLba leafHash with
    | some (.extent k size runs) =>
      if k ≠ key then pure ()
      else moveGroup oracle key (leafLba, leafHash) size runs (owner.2.insertionSort fun x y => x.2 ≤ y.2)
    | some (.direct k size furrows) =>
      if k ≠ key then pure ()
      else do
        let value ← readFurrows key size furrows
        put oracle key value
    | _ => pure ()

/-- Move one standalone survivor, unless the reap has retired it already. -/
def moveBlock (oracle : Liveness H) (entry : Nat × H) : Prog Error (Store H) Unit := do
  let s ← state
  if s.hamt.delta.removed.contains entry then pure ()
  else do
    let b ← Tract.read entry.1
    if sealedHp b ≠ some entry.2 then pure ()
    else do
      let target ← Tract.appendOne oracle b
      repairReloc ⟨entry.2, entry.1, target⟩
      onHamt (pushAdded target entry.2)
      onHamt (pushRemoved entry.1 entry.2)

/-- Clean one window at the reap and advance the reap past it. -/
def reapWindow (oracle : Liveness H) (window : Nat) : Prog Error (Store H) Unit := do
  let s ← state
  let start := s.tract.reap
  let w := min window (s.tract.plow - start)
  if w = 0 then pure ()
  else do
    let positions := (List.range w).map fun i => (start + i) % s.tract.len
    let survivors ← classifyWindow oracle s.hamt.delta.removed positions ⟨[], [], [], []⟩
    each (moveFurrows oracle) (Crates.order (H := H) survivors.furrowOwners)
    each (moveBlock oracle) (survivors.lones ++ survivors.leaves ++ survivors.nodes)
    update fun s => { s with tract := { s.tract with reap := start + w } }

end Hamt
end Manifestus
