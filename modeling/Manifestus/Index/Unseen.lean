import Manifestus.Parallel
import Manifestus.Engine.Reap
import Manifestus.Engine.Walk

/-! What the operations of the index do not see of the mirror under them: where the accesses to a mirror
give the same from two mirrors, so does every operation of the index and every walk. -/
set_option linter.unusedSectionVars false

namespace Manifestus
open Prog Store

variable {H : Type} [Crates H]

/-- A difference between two mirrors that no access shows. -/
structure Unseen (S : Mirror H → Mirror H → Prop) : Prop where
  read : ∀ lba, Parallel S (Mirror.read lba)
  readCached : ∀ lba, Parallel S (Mirror.readCached lba)
  readRun : ∀ lba n, Parallel S (Mirror.readRun lba n)
  readMany : ∀ lbas, Parallel S (Mirror.readMany lbas)
  emit : ∀ e, Parallel S (Mirror.emit e)
  reserve : ∀ {m m' : Mirror H} n, S m m' → S (m.reserveStaged n) (m'.reserveStaged n)
  stage : ∀ {m m' : Mirror H} lba b, S m m' → S (m.stageOne lba b) (m'.stageOne lba b)
  writeVerified : ∀ lba b, Parallel S (Mirror.writeVerified lba b)
  grow : ∀ n, Parallel S (Mirror.grow n)

/-- A difference that leaves what is staged the same, when a position leaves the cache and when the staging changes. -/
structure Buffered (S : Mirror H → Mirror H → Prop) : Prop where
  pending : ∀ {m m' : Mirror H}, S m m' → m'.pending = m.pending
  forget : ∀ {m m' : Mirror H} lba, S m m' → S (m.forget lba) (m'.forget lba)
  stock : ∀ {m m' : Mirror H} p, S m m' → S { m with pending := p } { m' with pending := p }

namespace Buffered

variable {S : Mirror H → Mirror H → Prop} (h : Buffered S)
include h

section States

variable {m m' : Mirror H} (hm : S m m')
include hm

theorem staged : m'.staged = m.staged := by
  unfold Mirror.staged
  rw [h.pending hm]

theorem stagedAt (lba : Nat) : m'.stagedAt lba = m.stagedAt lba := by
  unfold Mirror.stagedAt
  rw [h.staged hm]

theorem refs : m'.refs = m.refs := by
  unfold Mirror.refs
  rw [h.staged hm]

theorem reserveStaged (n : Nat) : S (m.reserveStaged n) (m'.reserveStaged n) := by
  unfold Mirror.reserveStaged
  rw [h.pending hm]
  split
  · exact h.stock _ hm
  · exact hm

theorem stageOne (lba : Nat) (b : Block H) : S (m.stageOne lba b) (m'.stageOne lba b) := by
  unfold Mirror.stageOne
  rw [h.pending hm]
  split
  · split
    · exact h.stock _ (h.forget lba hm)
    · exact h.stock _ (h.forget lba hm)
  · exact h.stock _ (h.forget lba hm)

end States

theorem forgetAll (blocks : List (Nat × Block H)) :
    Parallel S (update fun m => blocks.foldl (fun m x => m.forget x.1) m : Prog Error (Mirror H) Unit) := by
  apply parallel_update
  induction blocks with
  | nil => exact fun _ _ hm => hm
  | cons x blocks ih => exact fun _ _ hm => ih _ _ (h.forget x.1 hm)

section Reads

variable (hfirst : ∀ lba, Parallel S (Mirror.onFirst (Dev.read (H := H) lba)))
include hfirst

theorem read (lba : Nat) : Parallel S (Mirror.read lba) := by
  apply parallel_state
  · intro m m' hm
    rw [h.stagedAt hm]
  · intro m
    split
    · exact parallel_pure _
    · exact hfirst lba

theorem readRun (lba n : Nat) (hrun : Parallel S (Mirror.onFirst (Dev.readRun lba n))) : Parallel S (Mirror.readRun lba n) := by
  apply parallel_state
  · intro m m' hm
    rw [h.staged hm]
  · exact fun m => parallel_ite (parallel_collect (h.read hfirst) _) hrun

theorem readMany (lbas : List Nat) (hmany : Parallel S (Mirror.onFirst (Dev.readMany lbas))) : Parallel S (Mirror.readMany lbas) := by
  apply parallel_state
  · intro m m' hm
    rw [h.pending hm]
  · exact fun m => parallel_ite hmany (parallel_collect (h.read hfirst) _)

end Reads

section Writes

variable (hbatch : ∀ blocks : List (Nat × Block H), Parallel S (Mirror.writeVerifiedBatchNow blocks))
include hbatch

theorem drain : Parallel S (Mirror.drain (H := H)) := by
  apply parallel_state
  · intro m m' hm
    rw [h.pending hm, h.refs hm]
  · intro m
    apply parallel_ite (parallel_pure _)
    apply Parallel.bind
    · exact parallel_update fun _ _ hm => h.stock [] hm
    · exact fun _ => hbatch _

theorem writeVerified (lba : Nat) (b : Block H) (hone : Parallel S (Mirror.everywhere (writeOne lba b))) :
    Parallel S (Mirror.writeVerified lba b) :=
  (h.drain hbatch).bind fun _ => (parallel_update fun _ _ hm => h.forget lba hm).bind fun _ => hone

theorem grow (n : Nat) (hgrow : Parallel S (Mirror.everywhere (Dev.grow n))) : Parallel S (Mirror.grow (H := H) n) :=
  (h.drain hbatch).bind fun _ => hgrow

end Writes

end Buffered

/-- The same store over mirrors with that difference. -/
abbrev Store.Beside (S : Mirror H → Mirror H → Prop) : Store H → Store H → Prop :=
  Prog.Beside Store.mirror (fun m s => { s with mirror := m }) S

/-- The same walk over such stores. -/
abbrev Walker.Beside (S : Mirror H → Mirror H → Prop) : Walker H → Walker H → Prop :=
  Prog.Beside (fun w : Walker H => w.store.mirror) (fun m w => { w with store := { w.store with mirror := m } }) S

namespace Unseen

variable {S : Mirror H → Mirror H → Prop} (h : Unseen S)
include h

/-! ### Accesses to the tract -/

theorem onMirror {α : Type} {x : Prog Error (Mirror H) α} (hx : Parallel S x) : Parallel (Store.Beside S) (Store.onMirror x) :=
  parallel_part hx (fun _ _ => rfl) fun _ _ _ => rfl

theorem onHamt (f : Hamt H → Hamt H) : Parallel (Store.Beside S) (Store.onHamt f) :=
  parallel_tweak (fun _ => rfl) fun _ _ => rfl

theorem inBounds (lba : Nat) : Parallel (Store.Beside S) (Tract.inBounds lba) :=
  parallel_view (fun _ _ => rfl) fun _ => parallel_ite (parallel_pure _) (parallel_fail _)

theorem tractRead (lba : Nat) : Parallel (Store.Beside S) (Tract.read lba) :=
  (h.inBounds lba).bind fun _ => parallel_view (fun _ _ => rfl) fun _ => h.onMirror (h.read _)

theorem tractReadCached (lba : Nat) : Parallel (Store.Beside S) (Tract.readCached lba) :=
  (h.inBounds lba).bind fun _ => parallel_view (fun _ _ => rfl) fun _ => h.onMirror (h.readCached _)

theorem tractReadRun (lba n : Nat) : Parallel (Store.Beside S) (Tract.readRun lba n) :=
  parallel_view (fun _ _ => rfl) fun _ => parallel_ite (parallel_fail _) (h.onMirror (h.readRun _ _))

theorem tractReadMany (lbas : List Nat) : Parallel (Store.Beside S) (Tract.readMany lbas) :=
  (parallel_each h.inBounds _).bind fun _ => parallel_view (fun _ _ => rfl) fun _ => h.onMirror (h.readMany _)

theorem zeroDelete (lba : Nat) : Parallel (Store.Beside S) (Tract.zeroDelete lba) :=
  (h.inBounds lba).bind fun _ => parallel_view (fun _ _ => rfl) fun _ => h.onMirror (h.writeVerified _ _)

theorem stageAll (t : Tract) (make : Nat → Block H) (n : Nat) {m m' : Mirror H} (hm : S m m') :
    S (t.stageAll make n m) (t.stageAll make n m') := by
  have hfold : ∀ (is : List Nat) (m m' : Mirror H), S m m' →
      S (is.foldl (fun m i => m.stageOne (t.base + (t.plow + i) % t.len) (make i)) m)
        (is.foldl (fun m i => m.stageOne (t.base + (t.plow + i) % t.len) (make i)) m') := by
    intro is
    induction is with
    | nil => exact fun _ _ hm => hm
    | cons i is ih => exact fun _ _ hm => ih _ _ (h.stage _ _ hm)
  exact hfold _ _ _ (h.reserve n hm)

theorem appendWith (live : Liveness H) (n : Nat) (make : Nat → Block H) :
    Parallel (Store.Beside S) (Tract.appendWith live n make) := by
  apply parallel_view
  · exact fun _ _ => rfl
  intro s
  dsimp only
  split
  · exact parallel_fail _
  · split
    · exact parallel_fail _
    · split
      · exact (h.onMirror (h.emit _)).bind fun _ => parallel_fail _
      · apply Parallel.bind
        · apply parallel_update
          intro u u' hu
          obtain ⟨m, hm, rfl⟩ := hu
          exact ⟨s.tract.stageAll make n m, h.stageAll _ _ _ hm, rfl⟩
        · exact fun _ => parallel_pure _

theorem appendOne (live : Liveness H) (b : Block H) : Parallel (Store.Beside S) (Tract.appendOne live b) := by
  apply (h.appendWith _ _ _).bind
  intro placed
  split
  · exact parallel_pure _
  · exact parallel_fail _

/-! ### Reading documents and values -/

omit h in
theorem nodeAtDepth (node : Node H) (lba depth : Nat) :
    Parallel (Store.Beside S) (Manifestus.nodeAtDepth node lba depth : Prog Error (Store H) Unit) :=
  parallel_ite (parallel_pure _) (parallel_fail _)

omit h in
theorem chunkAt (k : Key) (depth : Nat) : Parallel (Store.Beside S) (Manifestus.chunkAt k depth : Prog Error (Store H) _) :=
  parallel_ite (parallel_pure _) (parallel_fail _)

theorem readDoc (lba : Nat) (hash : H) : Parallel (Store.Beside S) (Manifestus.readDoc lba hash) :=
  (h.tractReadCached lba).bind fun _ => parallel_view (fun _ _ => rfl) fun _ => parallel_lift _

theorem readRuns (key : Key) (runs : List (List Nat)) : ∀ start,
    Parallel (Store.Beside S) (Manifestus.readRuns (H := H) key start runs) := by
  induction runs with
  | nil => exact fun _ => parallel_pure _
  | cons run runs ih =>
    intro start
    exact (h.tractReadRun _ _).bind fun _ => (parallel_lift _).bind fun _ => (ih _).bind fun _ => parallel_pure _

theorem readFurrows (key : Key) (size : Nat) (furrows : List Nat) :
    Parallel (Store.Beside S) (Manifestus.readFurrows (H := H) key size furrows) := by
  unfold Manifestus.readFurrows
  split
  · exact parallel_fail _
  · apply (h.readRuns key _ _).bind
    intro out
    split
    · exact parallel_fail _
    · exact parallel_pure _

/-! ### The index -/

theorem nodeAt (idx : Nat) : Parallel (Store.Beside S) (Hamt.nodeAt (H := H) idx) := by
  apply parallel_view
  · exact fun _ _ => rfl
  intro s
  split
  · exact parallel_pure _
  · exact parallel_fail _

theorem pushNode (node : Node H) : Parallel (Store.Beside S) (Hamt.pushNode node) :=
  parallel_view (fun _ _ => rfl) fun _ => (h.onHamt _).bind fun _ => parallel_pure _

theorem removeSealed (lba : Nat) : Parallel (Store.Beside S) (Hamt.removeSealed (H := H) lba) := by
  apply (h.tractRead lba).bind
  intro buf
  split
  · exact h.onHamt _
  · exact parallel_pure _

theorem removeLeafBlocks (lba : Nat) (hash : H) : Parallel (Store.Beside S) (Hamt.removeLeafBlocks lba hash) := by
  apply (h.onHamt _).bind
  intro _
  apply (h.readDoc lba hash).bind
  intro doc
  split
  · exact parallel_each h.removeSealed _
  · exact parallel_view (fun _ _ => rfl) fun _ => (parallel_lift _).bind fun _ => parallel_each h.removeSealed _
  · exact parallel_pure _

theorem lookupFrom (key : Key) : ∀ (fuel depth : Nat) (c : Child H),
    Parallel (Store.Beside S) (Hamt.lookupFrom key fuel depth c) := by
  intro fuel
  induction fuel with
  | zero => exact fun _ _ => parallel_fail _
  | succ fuel ih =>
    intro depth c
    rcases c with ⟨hash, lba⟩ | idx
    · rw [Hamt.lookupFrom]
      apply (h.readDoc lba hash).bind
      intro doc
      split
      · exact parallel_pure _
      next node =>
        apply (nodeAtDepth node lba depth).bind
        intro _
        apply (chunkAt key depth).bind
        intro c
        split
        · exact parallel_pure _
        · exact ih _ _
      · exact parallel_pure _
      · exact parallel_ite (parallel_pure _) ((h.readFurrows _ _ _).bind fun _ => parallel_pure _)
      · apply parallel_ite (parallel_pure _)
        exact parallel_view (fun _ _ => rfl) fun _ => (parallel_lift _).bind fun _ =>
          (h.readFurrows _ _ _).bind fun _ => parallel_pure _
      · exact parallel_fail _
    · rw [Hamt.lookupFrom]
      apply (h.nodeAt idx).bind
      intro node
      apply (chunkAt key depth).bind
      intro c
      split
      · exact parallel_pure _
      · exact ih _ _

theorem lookup (key : Key) : Parallel (Store.Beside S) (Hamt.lookup (H := H) key) := by
  apply parallel_view
  · exact fun _ _ => rfl
  intro s
  split
  · exact parallel_pure _
  · exact h.lookupFrom key _ _ _

theorem split : ∀ (fuel depth : Nat) (a b : Key × Child H), Parallel (Store.Beside S) (Hamt.split fuel depth a b) := by
  intro fuel
  induction fuel with
  | zero => exact fun _ _ _ => parallel_fail _
  | succ fuel ih =>
    intro depth a b
    apply (chunkAt _ _).bind
    intro ca
    apply (chunkAt _ _).bind
    intro cb
    apply parallel_ite
    · exact (ih _ a b).bind fun _ => (h.pushNode _).bind fun _ => parallel_pure _
    · exact (h.pushNode _).bind fun _ => parallel_pure _

theorem insertChild (key : Key) (leaf : Child H) : ∀ (fuel depth : Nat) (slot : Option (Child H)),
    Parallel (Store.Beside S) (Hamt.insertChild key leaf fuel depth slot) := by
  intro fuel
  induction fuel with
  | zero => exact fun _ _ => parallel_fail _
  | succ fuel ih =>
    intro depth slot
    rcases slot with _ | ⟨hash, lba⟩ | idx
    · exact parallel_pure _
    · have hleaf : ∀ k, Parallel (Store.Beside S) (if k = key then do
          Hamt.removeLeafBlocks lba hash
          pure leaf
        else Hamt.split Hamt.descentFuel depth (k, .committed hash lba) (key, leaf)) := fun k =>
        parallel_ite ((h.removeLeafBlocks lba hash).bind fun _ => parallel_pure _) (h.split _ _ _ _)
      rw [Hamt.insertChild]
      apply (h.readDoc lba hash).bind
      intro doc
      split
      · exact parallel_pure _
      next node =>
        apply (nodeAtDepth node lba depth).bind
        intro _
        apply (h.pushNode node).bind
        intro _
        apply (chunkAt _ _).bind
        intro _
        exact (ih _ _).bind fun _ => (h.onHamt _).bind fun _ => (h.onHamt _).bind fun _ => parallel_pure _
      · exact hleaf _
      · exact hleaf _
      · exact hleaf _
      · exact parallel_fail _
    · rw [Hamt.insertChild]
      apply (chunkAt _ _).bind
      intro _
      apply (h.nodeAt idx).bind
      intro _
      exact (ih _ _).bind fun _ => (h.onHamt _).bind fun _ => parallel_pure _

theorem putLeaf (live : Liveness H) (key : Key) (value : Bytes) : Parallel (Store.Beside S) (Hamt.putLeaf live key value) := by
  apply parallel_ite
  · exact (h.appendOne _ _).bind fun _ => (h.onHamt _).bind fun _ => parallel_pure _
  · apply (h.appendWith _ _ _).bind
    intro _
    apply (parallel_each (fun _ => h.onHamt _) _).bind
    intro _
    apply (parallel_lift _).bind
    intro _
    exact (h.appendOne _ _).bind fun _ => (h.onHamt _).bind fun _ => parallel_pure _

theorem put (live : Liveness H) (key : Key) (value : Bytes) : Parallel (Store.Beside S) (Hamt.put live key value) := by
  have hinner : Parallel (Store.Beside S) (Hamt.putInner live key value) := by
    apply (h.putLeaf live key value).bind
    intro _
    exact parallel_view (fun _ _ => rfl) fun _ => (h.insertChild _ _ _ _ _).bind fun _ => h.onHamt _
  apply parallel_view
  · exact fun _ _ => rfl
  intro s
  apply hinner.attempt.bind
  intro res
  split
  · exact parallel_pure _
  · exact (h.onHamt _).bind fun _ => parallel_fail _

theorem findLeafFrom (key : Key) : ∀ (fuel depth : Nat) (c : Child H),
    Parallel (Store.Beside S) (Hamt.findLeafFrom key fuel depth c) := by
  intro fuel
  induction fuel with
  | zero => exact fun _ _ => parallel_fail _
  | succ fuel ih =>
    intro depth c
    rcases c with ⟨hash, lba⟩ | idx
    · rw [Hamt.findLeafFrom]
      apply (h.readDoc lba hash).bind
      intro doc
      split
      · exact parallel_pure _
      next node =>
        apply (nodeAtDepth node lba depth).bind
        intro _
        apply (chunkAt key depth).bind
        intro c
        split
        · exact parallel_pure _
        · exact ih _ _
      · exact parallel_pure _
      · exact parallel_pure _
      · exact parallel_pure _
      · exact parallel_fail _
    · rw [Hamt.findLeafFrom]
      apply (h.nodeAt idx).bind
      intro node
      apply (chunkAt key depth).bind
      intro c
      split
      · exact parallel_pure _
      · exact ih _ _

theorem findLeaf (key : Key) : Parallel (Store.Beside S) (Hamt.findLeaf (H := H) key) := by
  apply parallel_view
  · exact fun _ _ => rfl
  intro s
  split
  · exact parallel_pure _
  · exact h.findLeafFrom key _ _ _

theorem pruneChild (route : Key) (old : H × Nat) : ∀ (fuel depth : Nat) (slot : Option (Child H)),
    Parallel (Store.Beside S) (Hamt.pruneChild route old fuel depth slot) := by
  intro fuel
  induction fuel with
  | zero => exact fun _ _ => parallel_fail _
  | succ fuel ih =>
    intro depth slot
    rcases slot with _ | ⟨hash, lba⟩ | idx
    · exact parallel_pure _
    · rw [Hamt.pruneChild]
      apply parallel_ite (parallel_pure _)
      apply (h.readDoc lba hash).bind
      intro doc
      split
      next node =>
        apply (nodeAtDepth node lba depth).bind
        intro _
        apply (h.pushNode node).bind
        intro _
        apply (h.onHamt _).bind
        intro _
        exact (chunkAt _ _).bind fun _ => (ih _ _).bind fun _ => (h.onHamt _).bind fun _ => parallel_pure _
      · exact parallel_pure _
    · rw [Hamt.pruneChild]
      apply (chunkAt _ _).bind
      intro _
      apply (h.nodeAt idx).bind
      intro _
      exact (ih _ _).bind fun _ => (h.onHamt _).bind fun _ => parallel_pure _

theorem prune (route : Key) (old : H × Nat) : Parallel (Store.Beside S) (Hamt.prune route old) :=
  parallel_view (fun _ _ => rfl) fun _ => (h.pruneChild route old _ _ _).bind fun _ => h.onHamt _

theorem eraseLeaf (lba : Nat) (hash : H) : Parallel (Store.Beside S) (Hamt.eraseLeaf lba hash) := by
  apply (h.readDoc lba hash).bind
  intro doc
  split
  · exact parallel_pure _
  · exact (parallel_each h.zeroDelete _).bind fun _ => h.zeroDelete lba
  · exact parallel_view (fun _ _ => rfl) fun _ => (parallel_lift _).bind fun _ =>
      (parallel_each h.zeroDelete _).bind fun _ => h.zeroDelete lba
  · exact h.zeroDelete lba

theorem delete (key : Key) (policy : DeletePolicy) : Parallel (Store.Beside S) (Hamt.delete (H := H) key policy) := by
  apply (h.findLeaf key).bind
  intro leaf
  split
  · exact parallel_pure _
  next lba hash =>
    have hrest : Parallel (Store.Beside S) (Hamt.prune key (hash, lba) >>= fun _ => pure true) :=
      (h.prune _ _).bind fun _ => parallel_pure _
    apply (h.removeLeafBlocks lba hash).bind
    intro _
    split
    · exact (h.eraseLeaf lba hash).bind fun _ => hrest
    · exact hrest

theorem flushNode (live : Liveness H) : ∀ fuel idx, Parallel (Store.Beside S) (Hamt.flushNode live fuel idx) := by
  intro fuel
  induction fuel with
  | zero => exact fun _ => parallel_fail _
  | succ fuel ih =>
    intro idx
    have hchild : ∀ c, Parallel (Store.Beside S) (Hamt.flushChild (Hamt.flushNode live fuel) idx c) := by
      intro c
      apply (h.nodeAt idx).bind
      intro node
      split
      · exact (ih _).bind fun _ => h.onHamt _
      · exact parallel_pure _
    have hencode : ∀ node : Node H, Parallel (Store.Beside S) (encodeNode node) := fun _ =>
      parallel_ite (parallel_fail _) (parallel_pure _)
    rw [Hamt.flushNode]
    apply (parallel_each hchild _).bind
    intro _
    apply (h.nodeAt idx).bind
    intro node
    apply (hencode node).bind
    intro block
    apply (h.appendOne live block).bind
    intro lba
    split
    · exact parallel_fail _
    · exact (h.onHamt _).bind fun _ => parallel_pure _

theorem flush (live : Liveness H) : Parallel (Store.Beside S) (Hamt.flush live) := by
  apply parallel_view
  · exact fun _ _ => rfl
  intro s
  split
  · exact parallel_pure _
  · exact (h.onHamt _).bind fun _ => parallel_pure _
  · exact (h.flushNode live _ _).bind fun _ => (h.onHamt _).bind fun _ => (h.onHamt _).bind fun _ => parallel_pure _

theorem takeDelta : Parallel (Store.Beside S) (Hamt.takeDelta (H := H)) :=
  parallel_view (fun _ _ => rfl) fun _ => (h.onHamt _).bind fun _ => parallel_pure _

/-! ### The reap -/

theorem repoint (key : Key) (target : Option Nat) (old new : H × Nat) : ∀ (fuel depth : Nat) (slot : Option (Child H)),
    Parallel (Store.Beside S) (Hamt.repoint key target old new fuel depth slot) := by
  intro fuel
  induction fuel with
  | zero => exact fun _ _ => parallel_fail _
  | succ fuel ih =>
    intro depth slot
    rcases slot with _ | ⟨hash, lba⟩ | idx
    · exact parallel_pure _
    · rw [Hamt.repoint]
      apply parallel_ite ((h.onHamt _).bind fun _ => parallel_pure _)
      apply parallel_ite (parallel_pure _)
      apply (h.readDoc lba hash).bind
      intro doc
      split
      next node =>
        apply (nodeAtDepth node lba depth).bind
        intro _
        apply (h.pushNode node).bind
        intro _
        apply (h.onHamt _).bind
        intro _
        exact (chunkAt _ _).bind fun _ => (ih _ _).bind fun _ => (h.onHamt _).bind fun _ => parallel_pure _
      · exact parallel_pure _
    · rw [Hamt.repoint]
      apply (chunkAt _ _).bind
      intro _
      apply (h.nodeAt idx).bind
      intro _
      exact (ih _ _).bind fun _ => (h.onHamt _).bind fun _ => parallel_pure _

theorem repointRoot (key : Key) (target : Option Nat) (old new : H × Nat) (miss : String) :
    Parallel (Store.Beside S) (Hamt.repointRoot key target old new miss) := by
  apply parallel_view
  · exact fun _ _ => rfl
  intro before
  apply (h.repoint key target old new _ _ _).bind
  intro _
  apply (h.onHamt _).bind
  intro _
  exact parallel_view (fun _ _ => rfl) fun _ => parallel_ite (parallel_fail _) (parallel_pure _)

theorem repairReloc (r : Reloc H) : Parallel (Store.Beside S) (Hamt.repairReloc r) := by
  unfold Hamt.repairReloc
  apply (h.tractRead _).bind
  intro buf
  dsimp only
  split
  · exact parallel_fail _
  · apply (parallel_lift _).bind
    intro doc
    split <;> first | exact h.repointRoot _ _ _ _ _ | exact parallel_fail _

theorem classifyWindow (live : Liveness H) (retired : List (Nat × H)) (ps : List Nat) : ∀ w : Window H,
    Parallel (Store.Beside S) (Hamt.classifyWindow live retired ps w) := by
  induction ps with
  | nil => exact fun _ => parallel_pure _
  | cons p ps ih =>
    intro w
    have hone : Parallel (Store.Beside S) (Hamt.classifyBlock live retired p w) := by
      apply (h.tractRead p).bind
      intro buf
      split
      · exact parallel_pure _
      · exact parallel_ite (parallel_pure _) ((parallel_lift _).bind fun _ => parallel_pure _)
    exact hone.bind fun w => ih w

omit h in
theorem hpOf (b : Block H) : Parallel (Store.Beside S) (Hamt.hpOf b) := by
  unfold Hamt.hpOf
  split
  · exact parallel_pure _
  · exact parallel_fail _

theorem moveGroup (live : Liveness H) (key : Key) (leaf : Nat × H) (size : Nat) (runs : List (Nat × Nat))
    (group : List (Nat × Nat)) : Parallel (Store.Beside S) (Hamt.moveGroup live key leaf size runs group) := by
  apply (parallel_collect (fun p => h.tractRead _) _).bind
  intro payload
  apply (h.appendWith _ _ _).bind
  intro placed
  apply parallel_view
  · exact fun _ _ => rfl
  intro s
  apply (parallel_lift _).bind
  intro positions
  apply (parallel_lift _).bind
  intro patched
  apply (parallel_lift _).bind
  intro newLeaf
  apply (h.appendOne _ _).bind
  intro nl
  apply (h.repointRoot _ _ _ _ _).bind
  intro _
  apply (parallel_each (fun p => (hpOf _).bind fun _ => h.onHamt _) _).bind
  intro _
  apply (parallel_each (fun p => (hpOf _).bind fun _ => h.onHamt _) _).bind
  intro _
  exact (h.onHamt _).bind fun _ => h.onHamt _

theorem moveFurrows (live : Liveness H) (owner : Key × List (Nat × Nat)) :
    Parallel (Store.Beside S) (Hamt.moveFurrows live owner) := by
  apply (h.findLeaf _).bind
  intro leaf
  split
  · exact parallel_pure _
  · apply (h.readDoc _ _).bind
    intro doc
    split
    · exact parallel_ite (parallel_pure _) (h.moveGroup _ _ _ _ _ _)
    · exact parallel_ite (parallel_pure _) ((h.readFurrows _ _ _).bind fun _ => h.put _ _ _)
    · exact parallel_pure _

theorem moveBlock (live : Liveness H) (entry : Nat × H) : Parallel (Store.Beside S) (Hamt.moveBlock live entry) := by
  apply parallel_view
  · exact fun _ _ => rfl
  intro s
  apply parallel_ite (parallel_pure _)
  apply (h.tractRead _).bind
  intro b
  apply parallel_ite (parallel_pure _)
  apply (h.appendOne _ _).bind
  intro _
  apply (h.repairReloc _).bind
  intro _
  exact (h.onHamt _).bind fun _ => h.onHamt _

theorem reapWindow (live : Liveness H) (window : Nat) : Parallel (Store.Beside S) (Hamt.reapWindow live window) := by
  apply parallel_view
  · exact fun _ _ => rfl
  intro s
  dsimp only
  split
  · exact parallel_pure _
  · apply (h.classifyWindow live _ _ _).bind
    intro survivors
    apply (parallel_each (h.moveFurrows live) _).bind
    intro _
    apply (parallel_each (h.moveBlock live) _).bind
    intro _
    exact parallel_tweak (fun _ => rfl) fun _ _ => rfl

/-! ### The walks -/

theorem onStore {α : Type} {x : Prog Error (Store H) α} (hx : Parallel (Store.Beside S) x) :
    Parallel (Walker.Beside S) (Walker.onStore x) := by
  apply parallel_zoom hx
  · intro w w' hw
    obtain ⟨m, hm, rfl⟩ := hw
    exact ⟨m, hm, rfl⟩
  · intro w w' s s' hw hs
    obtain ⟨_, _, rfl⟩ := hw
    obtain ⟨m, hm, rfl⟩ := hs
    exact ⟨m, hm, rfl⟩

omit h in
theorem onWalk (f : Walk H → Walk H) : Parallel (Walker.Beside S) (Walker.onWalk f) :=
  parallel_tweak (fun _ => rfl) fun _ _ => rfl

omit h in
theorem reach (lba : Nat) : Parallel (Walker.Beside S) (Walker.reach lba) :=
  parallel_view (fun _ _ => rfl) fun _ => parallel_ite (parallel_fail _) (parallel_ite (parallel_fail _) (onWalk _))

omit h in
theorem tractLen : Parallel (Walker.Beside S) (Walker.tractLen (H := H)) :=
  parallel_view (fun _ _ => rfl) fun _ => parallel_pure _

omit h in
theorem routeAt (base : Key) (depth : Nat) (slot : Fin 32) :
    Parallel (Walker.Beside S) (Manifestus.routeAt base depth slot : Prog Error (Walker H) Key) :=
  parallel_ite (parallel_pure _) (parallel_fail _)

omit h in
theorem walkNodeAtDepth (node : Node H) (lba depth : Nat) :
    Parallel (Walker.Beside S) (Manifestus.nodeAtDepth node lba depth : Prog Error (Walker H) Unit) :=
  parallel_ite (parallel_pure _) (parallel_fail _)

omit h in
theorem walkItem (item : WalkItem H × Block H) : Parallel (Walker.Beside S) (Walker.walkItem item) := by
  have hrefer : ∀ p, Parallel (Walker.Beside S) (Walker.refer (H := H) p) := fun p => (reach p).bind fun _ => onWalk _
  obtain ⟨⟨lba, hash, route, depth⟩, buf⟩ := item
  apply (reach lba).bind
  intro _
  apply tractLen.bind
  intro len
  apply (parallel_lift _).bind
  intro doc
  split
  · exact onWalk _
  next doc =>
    apply (onWalk _).bind
    intro _
    split
    next node =>
      apply (walkNodeAtDepth node lba depth).bind
      intro _
      apply parallel_each
      intro slot
      unfold Walker.pushChild
      split
      · exact (routeAt _ _ _).bind fun _ => onWalk _
      · exact parallel_pure _
    · exact parallel_each hrefer _
    · exact tractLen.bind fun _ => (parallel_lift _).bind fun _ => parallel_each hrefer _
    · exact parallel_pure _

theorem walkTreeStep : Parallel (Walker.Beside S) (Walker.walkTreeStep (H := H)) := by
  apply parallel_view
  · exact fun _ _ => rfl
  intro w
  apply (onWalk _).bind
  intro _
  apply ((h.onStore (h.tractReadMany _)).attempt).bind
  intro res
  split
  · exact (onWalk _).bind fun _ => parallel_fail _
  · exact parallel_each walkItem _

theorem walkTreeCollect : Parallel (Walker.Beside S) (Walker.walkTreeCollect (H := H)) := by
  have hsteps : ∀ fuel, Parallel (Walker.Beside S) (Walker.walkTreeSteps (H := H) fuel) := by
    intro fuel
    induction fuel with
    | zero => exact parallel_fail _
    | succ fuel ih =>
      exact parallel_view (fun _ _ => rfl) fun _ => parallel_ite (parallel_pure _) (h.walkTreeStep.bind fun _ => ih)
  exact parallel_view (fun _ _ => rfl) fun _ => (onWalk _).bind fun _ => hsteps _

theorem walkFurrow (pos : Nat) : Parallel (Walker.Beside S) (Walker.walkFurrow (H := H) pos) := by
  apply (reach pos).bind
  intro _
  apply (h.onStore (h.tractRead pos)).bind
  intro buf
  split
  · exact onWalk _
  · exact parallel_pure _

theorem walkChild : ∀ (fuel depth : Nat) (c : Child H) (route : Key),
    Parallel (Walker.Beside S) (Walker.walkChild fuel depth c route) := by
  intro fuel
  induction fuel with
  | zero =>
    intro depth c route
    rcases c with ⟨hash, lba⟩ | idx
    · exact parallel_fail _
    · exact parallel_pure _
  | succ fuel ih =>
    intro depth c route
    rcases c with ⟨hash, lba⟩ | idx
    · rw [Walker.walkChild]
      apply (h.onStore (h.readDoc lba hash)).bind
      intro doc
      apply (reach lba).bind
      intro _
      split
      · exact onWalk _
      · apply (onWalk _).bind
        intro _
        split
        · apply (walkNodeAtDepth _ _ _).bind
          intro _
          apply parallel_each
          intro slot
          split
          · exact (routeAt _ _ _).bind fun _ => ih _ _ _
          · exact parallel_pure _
        · exact parallel_each h.walkFurrow _
        · exact tractLen.bind fun _ => (parallel_lift _).bind fun _ => parallel_each h.walkFurrow _
        · exact parallel_pure _
    · exact parallel_pure _

theorem walkLiveCollect : Parallel (Walker.Beside S) (Walker.walkLiveCollect (H := H)) := by
  apply parallel_view
  · exact fun _ _ => rfl
  intro w
  split
  · exact (onWalk _).bind fun _ => h.walkChild _ _ _ _
  · exact parallel_pure _

theorem walkKeys : Parallel (Walker.Beside S) (Walker.walkKeys (H := H)) := by
  have hchild : ∀ (fuel depth : Nat) (c : Child H), Parallel (Walker.Beside S) (Walker.walkKeysChild fuel depth c) := by
    intro fuel
    induction fuel with
    | zero =>
      intro depth c
      rcases c with ⟨hash, lba⟩ | idx
      · exact parallel_fail _
      · exact parallel_pure _
    | succ fuel ih =>
      intro depth c
      rcases c with ⟨hash, lba⟩ | idx
      · rw [Walker.walkKeysChild]
        apply (h.onStore (h.readDoc lba hash)).bind
        intro doc
        split
        · exact parallel_pure _
        · apply (reach lba).bind
          intro _
          split
          · apply (walkNodeAtDepth _ _ _).bind
            intro _
            apply parallel_each
            intro slot
            split
            · exact ih _ _
            · exact parallel_pure _
          · exact onWalk _
          · exact onWalk _
          · exact onWalk _
          · exact parallel_pure _
      · exact parallel_pure _
  apply parallel_view
  · exact fun _ _ => rfl
  intro w
  split
  · exact (onWalk _).bind fun _ => hchild _ _ _
  · exact parallel_pure _

end Unseen

end Manifestus
