import Manifestus.Engine.Doc
import Manifestus.Engine.Inspect

/-! The inspector's reading of the tract: the tree below the newest entry, decoded apart from the engine,
the sealed blocks it does not reach, and the verdicts on both. -/
namespace Manifestus
open Prog

variable {H : Type} [Crates H]

/-- A tract block as the inspector decodes it. -/
inductive TractBlock (H : Type) where
  | node (depth : Nat) (route : Key) (children : List (Fin 32 × H × Nat))
  | lone (key : Key) (valueLen : Nat)
  | direct (key : Key) (size : Nat) (furrows : List Nat)
  | extent (key : Key) (size : Nat) (runs : List (Nat × Nat))
  | stale
  | furrow (key : Key) (index payloadLen : Nat)

/-- What the inspector notes on a block. -/
inductive Note (H : Type) where
  | outOfRange (lba : Nat)
  | stale (expected : H)
  | cycle (lba : Nat)
  | undecoded (reason : String)
  | mismatch (block pointer : H)
  | runs (reason : String)
  | both (note runNote : Note H)
  | misplacedFurrow
  | furrowOwner

/-- A note as it is shown, hashes by their first digits. -/
def Note.text (hex8 : H → String) : Note H → String
  | .outOfRange lba => s!"lba {lba} out of device range"
  | .stale expected => s!"stale pointer {hex8 expected} -> zeroed block (fast-deleted; not live)"
  | .cycle lba =>
    s!"cycle: lba {lba} already reached — walk pruned (a block with two parents cannot exist in a healthy tree)"
  | .undecoded reason => reason
  | .mismatch block pointer => s!"block hash {hex8 block} != pointer hash {hex8 pointer}"
  | .runs reason => reason
  | .both note runNote => s!"{note.text hex8}; {runNote.text hex8}"
  | .misplacedFurrow => "furrow block in index position"
  | .furrowOwner => "furrow owner/index mismatch"

/-- One block of the walk with the verdicts on it. -/
structure TreeNode (H : Type) where
  indent : Nat
  lba : Nat
  doc : TractBlock H
  sealOk : Bool
  selfAddrOk : Bool
  note : Option (Note H)

/-- The walk's findings. `reachable` is a set. -/
structure Survey (H : Type) where
  dev : Dev H
  tree : List (TreeNode H)
  reachable : List Nat
  nodes : Nat
  leaves : Nat
  furrows : Nat

/-- What is looked at beside the ring. -/
structure InspectOptions where
  orphanScan : Bool
  showTree : Bool

/-- What the inspector reports of a device. -/
structure InspectReport (H : Type) where
  ring : RingReport H
  tree : List (TreeNode H)
  reachableNodes : Nat
  reachableLeaves : Nat
  reachableFurrows : Nat
  reachableBlocks : Nat
  orphans : Option (List Nat)
  checks : List Check

namespace Inspect

/-- `decode_tract`: the sealing hash and the shape of a tract block. -/
def decodeTract : Block H → Except String (H × TractBlock H)
  | .zero => .error "no RÅ magic"
  | .raw _ => .error "seal mismatch (hp != BLAKE3(body))"
  | .sealed doc extra =>
    match doc with
    | .lone key value => .ok (Crates.hash doc extra, .lone key value.length)
    | .direct key size furrows => .ok (Crates.hash doc extra, .direct key size furrows)
    | .extent key size runs => .ok (Crates.hash doc extra, .extent key size runs)
    | .furrow key index payload => .ok (Crates.hash doc extra, .furrow key index payload.length)
    | .node depth route slots =>
      -- the depth is kept as a `u8`
      .ok (Crates.hash doc extra, .node (depth % 2 ^ 8) route
        ((List.finRange 32).filterMap fun i => (slots i).map fun p => (i, p.1, p.2)))
    | .spine _ => .error "unknown tract schema: manifestus.spine"
    | .root _ => .error "unknown tract schema: manifestus.root"
    | .foreign _ => .error "unknown tract schema"

/-- The furrows the runs name, counted without expanding them. -/
def countRuns (tractLen : Nat) : Nat → List (Nat × Nat) → Except String Nat
  | total, [] => .ok total
  | total, (s, c) :: runs =>
    if tractLen ≤ s ∨ tractLen - s < c then
      .error s!"extent run ({s}, {c}) reaches past the tract of {tractLen} blocks"
    else if tractLen < total + c then .error s!"extent runs total {total + c} blocks in a tract of {tractLen}"
    else countRuns tractLen (total + c) runs

/-- `base` with the chunk at `depth` set to `slot`; past the key it stays as it is. -/
def keyWithChunk (base : Key) (depth : Nat) (slot : Fin 32) : Key :=
  if 32 ≤ depth * 5 / 8 then base else routeWithChunk base depth slot

def onDev {α : Type} (x : Prog Error (Dev H) α) : Prog Error (Survey H) α :=
  zoom Survey.dev (fun d s => { s with dev := d }) x

def push (n : TreeNode H) : Prog Error (Survey H) Unit := update fun s => { s with tree := s.tree ++ [n] }

/-- Whether a block of the tract lies on the device. -/
def outside (tractBase lba : Nat) (d : Dev H) : Bool := d.count ≤ tractBase || d.count - tractBase ≤ lba

/-- Whether the block is the furrow that its leaf names. -/
def isFurrowOf (owner : Key) (expectedIndex : Nat) : TractBlock H → Bool
  | .furrow key index _ => key = owner && index = expectedIndex
  | _ => false

/-- `walk_furrow`: seal, owner and index. -/
def walkFurrow (tractBase lba : Nat) (owner : Key) (expectedIndex indent : Nat) : Prog Error (Survey H) Unit := do
  let s ← state
  if outside tractBase lba s.dev then pure ()
  else do
    update fun s => { s with reachable := s.reachable.insert lba }
    let buf ← onDev (Dev.read (tractBase + lba))
    update fun s => { s with furrows := s.furrows + 1 }
    match decodeTract buf with
    | .error reason => push ⟨indent, lba, .furrow owner expectedIndex 0, false, false, some (.undecoded reason)⟩
    | .ok (_, doc) =>
      if isFurrowOf owner expectedIndex doc then push ⟨indent, lba, doc, true, true, none⟩
      else push ⟨indent, lba, doc, true, false, some .furrowOwner⟩

def walkFurrows (tractBase : Nat) (owner : Key) (indent : Nat) : Nat → List Nat → Prog Error (Survey H) Unit
  | _, [] => pure ()
  | i, lba :: rest => do
    walkFurrow tractBase lba owner i indent
    walkFurrows tractBase owner indent (i + 1) rest

/-- The furrow positions of a leaf, none and the finding when its runs do not add up. -/
def leafFurrows (tractLen : Nat) : TractBlock H → List Nat × Option String
  | .direct _ _ furrows => (furrows, none)
  | .extent _ size runs =>
    let expect := divCeil size (furrowCapacity H)
    match countRuns tractLen 0 runs with
    | .error rn => ([], some rn)
    | .ok total =>
      if total ≠ expect then ([], some s!"extent run total {total} != furrow count {expect}")
      else (runPositions runs, none)
  | _ => ([], none)

def joinNotes : Option (Note H) → Option String → Option (Note H)
  | some a, some b => some (.both a (.runs b))
  | some a, none => some a
  | none, b => b.map .runs

/-- A leaf of the walk: its key must route to it, and its furrows are walked. -/
def walkLeaf (tractBase lba indent depth : Nat) (pathRoute key : Key) (doc : TractBlock H) (sealOk : Bool)
    (note : Option (Note H)) : Prog Error (Survey H) Unit := do
  update fun s => { s with leaves := s.leaves + 1 }
  let selfAddrOk := (List.range depth).all fun d => chunk key d = chunk pathRoute d
  let s ← state
  let (furrowLbas, runNote) := leafFurrows (s.dev.count - tractBase) doc
  push ⟨indent, lba, doc, sealOk, selfAddrOk && runNote.isNone, joinNotes note runNote⟩
  walkFurrows tractBase key (indent + 1) 0 furrowLbas

/-- `walk_tree` from the pointer `(lba, expectedHash)`. The walk ends at depth 52, so more fuel than
that is never used up. -/
def walkTree (tractBase : Nat) : Nat → Nat → H → Nat → Nat → Key → Prog Error (Survey H) Unit
  | 0, _, _, _, _, _ => fail (.panic "walk outlived the key")
  | fuel + 1, lba, expectedHash, indent, depth, pathRoute => do
    let s ← state
    if outside tractBase lba s.dev then
      push ⟨indent, lba, .lone 0 0, false, false, some (.outOfRange lba)⟩
    else do
      let buf ← onDev (Dev.read (tractBase + lba))
      if buf = .zero then push ⟨indent, lba, .stale, true, true, some (.stale expectedHash)⟩
      else if lba ∈ s.reachable then
        push ⟨indent, lba, .lone 0 0, false, false, some (.cycle lba)⟩
      else do
        update fun s => { s with reachable := s.reachable.insert lba }
        match decodeTract buf with
        | .error reason => push ⟨indent, lba, .lone 0 0, false, false, some (.undecoded reason)⟩
        | .ok (hash, doc) => do
          let sealOk := decide (hash = expectedHash)
          let note := if sealOk then none else some (.mismatch hash expectedHash)
          match doc with
          | .node d _ children => do
            update fun s => { s with nodes := s.nodes + 1 }
            push ⟨indent, lba, doc, sealOk, d = depth, note⟩
            -- a node under a pointer that does not name it is not descended
            each (fun c => walkTree tractBase fuel c.2.2 c.2.1 (indent + 1) (depth + 1) (keyWithChunk pathRoute depth c.1))
              (children.filter fun _ => depth < 52 && sealOk)
          | .lone key _ => walkLeaf tractBase lba indent depth pathRoute key doc sealOk note
          | .direct key _ _ => walkLeaf tractBase lba indent depth pathRoute key doc sealOk note
          | .extent key _ _ => walkLeaf tractBase lba indent depth pathRoute key doc sealOk note
          | .stale => fail (.panic "Stale is synthesized above, never decoded")
          | .furrow .. => push ⟨indent, lba, doc, sealOk, false, some .misplacedFurrow⟩

/-- The walk from the committed root, on findings of its own. -/
def surveyTree (tractBase lba : Nat) (hash : H) : Prog Error (Dev H) (Survey H) := ⟨fun d =>
  match (walkTree tractBase 53 lba hash 0 0 0).run ⟨d, [], [], 0, 0, 0⟩ with
  | (.ok _, s) => (.ok s, s.dev)
  | (.error e, s) => (.error e, s.dev)⟩

/-- `scan_orphans`: sealed blocks of the tract that the walk did not reach. -/
def scanOrphans (tractBase : Nat) (tractBlocks : Option Nat) (reachable : List Nat) : Prog Error (Dev H) (List Nat) := do
  let d ← state
  let stop := match tractBlocks.bind (checkedAdd tractBase) with
    | some stop => min stop d.count
    | none => d.count
  go (List.range (stop - tractBase))
where
  go : List Nat → Prog Error (Dev H) (List Nat)
    | [] => pure []
    | lba :: rest => do
      let buf ← Dev.read (tractBase + lba)
      let found ← go rest
      pure (if blockIsSealed buf ∧ lba ∉ reachable then lba :: found else found)

/-- The committed root block sealed, its hash the head's. -/
def merkleCheck (head : SpineEntry H) (tree : List (TreeNode H)) : Check :=
  if head.hamtHash = Crates.zeros then ⟨"merkle root", true, "empty index (genesis convention)"⟩
  else
    let rootOk := (tree.head?.map TreeNode.sealOk).getD false
    ⟨"merkle root resolves", rootOk,
      if rootOk then s!"root @ tract lba {head.hamtLba} seals to head.hamt" else "root block missing / unsealed / hash mismatch"⟩

/-- Every block of the walk seals and addresses itself. -/
def treeCheck (tree : List (TreeNode H)) : Check :=
  let bad := tree.countP fun t => !t.sealOk || !t.selfAddrOk
  ⟨"HAMT blocks seal + self-address", bad = 0,
    if tree.isEmpty then "empty tree"
    else if bad = 0 then s!"{tree.length} block(s) all sound"
    else s!"{bad} block(s) failed seal/self-address"⟩

/-- The size of the live set is the one the head commits. -/
def liveCheck (head : SpineEntry H) (reachableBlocks : Nat) : Check :=
  ⟨"live count matches commit", reachableBlocks = head.live, s!"reachable {reachableBlocks} vs head.live {head.live}"⟩

/-- The checks beyond the ring's own. -/
def treeChecks (head : Option (Nat × SpineEntry H)) (tree : List (TreeNode H)) (reachableBlocks : Nat) : List Check :=
  match head with
  | some (_, h) => [merkleCheck h tree, treeCheck tree, liveCheck h reachableBlocks]
  | none => [treeCheck tree]

def inspect (opts : InspectOptions) : Prog Error (Dev H) (InspectReport H) := do
  let ring ← inspectRing
  let d ← state
  let s ←
    match ring.head with
    | some (_, h) =>
      if opts.showTree ∧ h.hamtHash ≠ Crates.zeros then surveyTree ring.tractBase h.hamtLba h.hamtHash
      else pure ⟨d, [], [], 0, 0, 0⟩
    | none => pure ⟨d, [], [], 0, 0, 0⟩
  let orphans ←
    if opts.orphanScan then do
      let found ← scanOrphans ring.tractBase ring.tractBlocksField s.reachable
      pure (some found)
    else pure none
  pure
    { ring := ring
      tree := s.tree
      reachableNodes := s.nodes
      reachableLeaves := s.leaves
      reachableFurrows := s.furrows
      reachableBlocks := s.reachable.length
      orphans := orphans
      checks := ring.checks ++ treeChecks ring.head s.tree s.reachable.length }

end Inspect

def InspectReport.allChecksPass (r : InspectReport H) : Bool := r.checks.all Check.pass

end Manifestus
