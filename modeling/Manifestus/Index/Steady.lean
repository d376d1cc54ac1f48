import Manifestus.Engine.Reap
import Manifestus.Engine.Walk

/-! What every operation of the index keeps, whatever blocks and nodes it meets: an invariant that reads,
appends and erasures keep and that does not depend on the index in memory. -/
set_option linter.unusedSectionVars false

namespace Manifestus
open Prog Store

variable {H : Type} [Crates H]

/-- An invariant of the store that reading the tract keeps. -/
structure Reading (I : Store H → Prop) : Prop where
  read : ∀ lba, Steady I (Tract.read lba)
  readCached : ∀ lba, Steady I (Tract.readCached lba)
  readRun : ∀ lba n, Steady I (Tract.readRun lba n)
  readMany : ∀ lbas, Steady I (Tract.readMany lbas)

namespace Reading

variable {I : Store H → Prop} (h : Reading I)
include h

theorem nodeAtDepth (node : Node H) (lba depth : Nat) :
    Steady I (Manifestus.nodeAtDepth node lba depth : Prog Error (Store H) Unit) :=
  steady_ite (steady_pure _) (steady_fail _)

theorem readDoc (lba : Nat) (hash : H) : Steady I (Manifestus.readDoc lba hash) :=
  (h.readCached lba).bind fun _ => steady_state fun _ => steady_lift _

theorem readRuns (key : Key) (runs : List (List Nat)) : ∀ start, Steady I (Manifestus.readRuns (H := H) key start runs) := by
  induction runs with
  | nil => exact fun _ => steady_pure _
  | cons run runs ih =>
    intro start
    exact (h.readRun _ _).bind fun _ => (steady_lift _).bind fun _ => (ih _).bind fun _ => steady_pure _

theorem readFurrows (key : Key) (size : Nat) (furrows : List Nat) :
    Steady I (Manifestus.readFurrows (H := H) key size furrows) := by
  unfold Manifestus.readFurrows
  split
  · exact steady_fail _
  · refine (h.readRuns key _ _).bind fun out => ?_
    split
    · exact steady_fail _
    · exact steady_pure _

/-! ### The walks -/

/-- A walk over a store in which `I` holds. -/
theorem onWalker {α : Type} {x : Prog Error (Store H) α} (hx : Steady I x) :
    Steady (fun w : Walker H => I w.store) (Walker.onStore x) := steady_zoom fun w hw => hx w.store hw

theorem onWalk (f : Walk H → Walk H) : Steady (fun w : Walker H => I w.store) (Walker.onWalk f) :=
  steady_update fun _ hw => hw

theorem reach (lba : Nat) : Steady (fun w : Walker H => I w.store) (Walker.reach lba) :=
  steady_state fun _ => steady_ite (steady_fail _) (steady_ite (steady_fail _) (h.onWalk _))

theorem routeAt (base : Key) (depth : Nat) (slot : Fin 32) :
    Steady (fun w : Walker H => I w.store) (Manifestus.routeAt base depth slot : Prog Error (Walker H) Key) :=
  steady_ite (steady_pure _) (steady_fail _)

theorem walkNodeAtDepth (node : Node H) (lba depth : Nat) :
    Steady (fun w : Walker H => I w.store) (Manifestus.nodeAtDepth node lba depth : Prog Error (Walker H) Unit) :=
  steady_ite (steady_pure _) (steady_fail _)

theorem tractLen : Steady (fun w : Walker H => I w.store) (Walker.tractLen (H := H)) :=
  steady_state fun _ => steady_pure _

theorem walkItem (item : WalkItem H × Block H) : Steady (fun w : Walker H => I w.store) (Walker.walkItem item) := by
  have hrefer : ∀ p, Steady (fun w : Walker H => I w.store) (Walker.refer (H := H) p) := fun p =>
    (h.reach p).bind fun _ => h.onWalk _
  obtain ⟨⟨lba, hash, route, depth⟩, buf⟩ := item
  refine (h.reach lba).bind fun _ => h.tractLen.bind fun len => (steady_lift _).bind fun doc => ?_
  split
  · exact h.onWalk _
  next doc =>
    refine (h.onWalk _).bind fun _ => ?_
    split
    next node =>
      refine (h.walkNodeAtDepth node lba depth).bind fun _ => steady_each (fun slot => ?_) _
      unfold Walker.pushChild
      split
      · exact (h.routeAt _ _ _).bind fun _ => h.onWalk _
      · exact steady_pure _
    · exact steady_each hrefer _
    · exact h.tractLen.bind fun _ => (steady_lift _).bind fun _ => steady_each hrefer _
    · exact steady_pure _

theorem walkTreeStep : Steady (fun w : Walker H => I w.store) (Walker.walkTreeStep (H := H)) := by
  refine steady_state fun w => (h.onWalk _).bind fun _ => ((h.onWalker (h.readMany _)).attempt).bind fun res => ?_
  split
  · exact (h.onWalk _).bind fun _ => steady_fail _
  · exact steady_each h.walkItem _

theorem walkTreeCollect : Steady (fun w : Walker H => I w.store) (Walker.walkTreeCollect (H := H)) := by
  have hsteps : ∀ fuel, Steady (fun w : Walker H => I w.store) (Walker.walkTreeSteps (H := H) fuel) := by
    intro fuel
    induction fuel with
    | zero => exact steady_fail _
    | succ fuel ih => exact steady_state fun _ => steady_ite (steady_pure _) (h.walkTreeStep.bind fun _ => ih)
  exact steady_state fun w => (h.onWalk _).bind fun _ => hsteps _

theorem repairFurrows (dangle : String → DanglingPointer H) (key : Key) (ps : List Nat) : ∀ index,
    Steady (fun w : Walker H => I w.store) (Walker.repairFurrows dangle key index ps) := by
  induction ps with
  | nil => exact fun _ => steady_pure _
  | cons p ps ih =>
    intro index
    refine ((h.reach p).attempt).bind fun res => ?_
    split
    · exact (h.onWalk _).bind fun _ => steady_pure _
    · exact steady_fail _
    · refine (h.onWalker (h.read p)).bind fun buf => ?_
      split
      · exact (h.onWalk _).bind fun _ => steady_pure _
      · exact (ih _).bind fun _ => steady_pure _

theorem walkChildRepair : ∀ (fuel depth : Nat) (c : Child H) (route : Key),
    Steady (fun w : Walker H => I w.store) (Walker.walkChildRepair fuel depth c route) := by
  intro fuel
  induction fuel with
  | zero =>
    intro depth c route
    rcases c with ⟨hash, lba⟩ | idx
    · exact steady_fail _
    · exact steady_pure _
  | succ fuel ih =>
    intro depth c route
    rcases c with ⟨hash, lba⟩ | idx
    · have hfurrows : ∀ key ps, Steady (fun w : Walker H => I w.store)
          (Walker.repairCheckFurrows lba hash route key ps) := by
        intro key ps
        refine (h.repairFurrows _ _ _ _).bind fun furrows => ?_
        split
        · exact steady_pure _
        · exact h.onWalk _
      rw [Walker.walkChildRepair]
      refine ((h.onWalker (h.readDoc lba hash)).attempt).bind fun res => ?_
      split
      · exact h.onWalk _
      · exact h.onWalk _
      · exact h.onWalk _
      · exact steady_fail _
      next doc =>
        refine ((h.reach lba).attempt).bind fun res => ?_
        split
        · exact h.onWalk _
        · exact steady_fail _
        · split
          next node =>
            refine ((h.walkNodeAtDepth node lba depth).attempt).bind fun res => ?_
            split
            · exact h.onWalk _
            · exact steady_fail _
            · refine (h.onWalk _).bind fun _ => steady_each (fun slot => ?_) _
              split
              · exact (h.routeAt _ _ _).bind fun _ => ih _ _ _
              · exact steady_pure _
          · exact h.onWalk _
          · exact hfurrows _ _
          · refine h.tractLen.bind fun len => ?_
            split
            · exact hfurrows _ _
            · exact h.onWalk _
            · exact steady_fail _
          · exact h.onWalk _
    · exact steady_pure _

theorem walkLiveRepair : Steady (fun w : Walker H => I w.store) (Walker.walkLiveRepair (H := H)) := by
  refine steady_state fun w => ?_
  split
  · exact (h.onWalk _).bind fun _ => h.walkChildRepair _ _ _ _
  · exact steady_pure _

end Reading

/-- An invariant of the store that the accesses to the tract keep, whatever the index in memory is. -/
structure Mooring (I : Store H → Prop) : Prop extends Reading I where
  hamt : ∀ {s} f, I s → I { s with hamt := f }
  append : ∀ live n make, Steady I (Tract.appendWith live n make)
  erase : ∀ lba, Steady I (Tract.zeroDelete lba)

namespace Mooring

variable {I : Store H → Prop} (h : Mooring I)
include h

theorem onHamt (f : Hamt H → Hamt H) : Steady I (Store.onHamt f) := steady_update fun s hs => h.hamt (f s.hamt) hs

theorem chunkAt (k : Key) (depth : Nat) : Steady I (Manifestus.chunkAt k depth : Prog Error (Store H) _) :=
  steady_ite (steady_pure _) (steady_fail _)

theorem appendOne (live : Liveness H) (b : Block H) : Steady I (Tract.appendOne live b) := by
  refine (h.append _ _ _).bind fun placed => ?_
  split
  · exact steady_pure _
  · exact steady_fail _

theorem nodeAt (idx : Nat) : Steady I (Hamt.nodeAt (H := H) idx) := by
  refine steady_state fun s => ?_
  split
  · exact steady_pure _
  · exact steady_fail _

theorem pushNode (node : Node H) : Steady I (Hamt.pushNode node) :=
  steady_state fun _ => (h.onHamt _).bind fun _ => steady_pure _

theorem removeSealed (lba : Nat) : Steady I (Hamt.removeSealed (H := H) lba) := by
  refine (h.read lba).bind fun buf => ?_
  split
  · exact h.onHamt _
  · exact steady_pure _

theorem removeLeafBlocks (lba : Nat) (hash : H) : Steady I (Hamt.removeLeafBlocks lba hash) := by
  refine (h.onHamt _).bind fun _ => (h.readDoc lba hash).bind fun doc => ?_
  split
  · exact steady_each h.removeSealed _
  · exact steady_state fun _ => (steady_lift _).bind fun _ => steady_each h.removeSealed _
  · exact steady_pure _

theorem lookupFrom (key : Key) : ∀ (fuel depth : Nat) (c : Child H), Steady I (Hamt.lookupFrom key fuel depth c) := by
  intro fuel
  induction fuel with
  | zero => exact fun _ _ => steady_fail _
  | succ fuel ih =>
    intro depth c
    rcases c with ⟨hash, lba⟩ | idx
    · rw [Hamt.lookupFrom]
      refine (h.readDoc lba hash).bind fun doc => ?_
      split
      · exact steady_pure _
      next node =>
        refine (h.nodeAtDepth node lba depth).bind fun _ => (h.chunkAt key depth).bind fun c => ?_
        split
        · exact steady_pure _
        · exact ih _ _
      · exact steady_pure _
      · exact steady_ite (steady_pure _) ((h.readFurrows _ _ _).bind fun _ => steady_pure _)
      · refine steady_ite (steady_pure _) (steady_state fun _ => (steady_lift _).bind fun _ => ?_)
        exact (h.readFurrows _ _ _).bind fun _ => steady_pure _
      · exact steady_fail _
    · rw [Hamt.lookupFrom]
      refine (h.nodeAt idx).bind fun node => (h.chunkAt key depth).bind fun c => ?_
      split
      · exact steady_pure _
      · exact ih _ _

theorem lookup (key : Key) : Steady I (Hamt.lookup (H := H) key) := by
  refine steady_state fun s => ?_
  split
  · exact steady_pure _
  · exact h.lookupFrom key _ _ _

theorem split : ∀ (fuel depth : Nat) (a b : Key × Child H), Steady I (Hamt.split fuel depth a b) := by
  intro fuel
  induction fuel with
  | zero => exact fun _ _ _ => steady_fail _
  | succ fuel ih =>
    intro depth a b
    refine (h.chunkAt _ _).bind fun ca => (h.chunkAt _ _).bind fun cb => ?_
    refine steady_ite ?_ ((h.pushNode _).bind fun _ => steady_pure _)
    exact (ih _ a b).bind fun _ => (h.pushNode _).bind fun _ => steady_pure _

theorem insertChild (key : Key) (leaf : Child H) : ∀ (fuel depth : Nat) (slot : Option (Child H)),
    Steady I (Hamt.insertChild key leaf fuel depth slot) := by
  intro fuel
  induction fuel with
  | zero => exact fun _ _ => steady_fail _
  | succ fuel ih =>
    intro depth slot
    rcases slot with _ | ⟨hash, lba⟩ | idx
    · exact steady_pure _
    · have hleaf : ∀ k, Steady I (if k = key then do
          Hamt.removeLeafBlocks lba hash
          pure leaf
        else Hamt.split Hamt.descentFuel depth (k, .committed hash lba) (key, leaf)) := fun k =>
        steady_ite ((h.removeLeafBlocks lba hash).bind fun _ => steady_pure _) (h.split _ _ _ _)
      rw [Hamt.insertChild]
      refine (h.readDoc lba hash).bind fun doc => ?_
      split
      · exact steady_pure _
      next node =>
        refine (h.nodeAtDepth node lba depth).bind fun _ => (h.pushNode node).bind fun _ => (h.chunkAt _ _).bind fun _ => ?_
        exact (ih _ _).bind fun _ => (h.onHamt _).bind fun _ => (h.onHamt _).bind fun _ => steady_pure _
      · exact hleaf _
      · exact hleaf _
      · exact hleaf _
      · exact steady_fail _
    · rw [Hamt.insertChild]
      refine (h.chunkAt _ _).bind fun _ => (h.nodeAt idx).bind fun _ => (ih _ _).bind fun _ => ?_
      exact (h.onHamt _).bind fun _ => steady_pure _

theorem putLeaf (live : Liveness H) (key : Key) (value : Bytes) : Steady I (Hamt.putLeaf live key value) := by
  refine steady_ite ?_ ?_
  · exact (h.appendOne _ _).bind fun _ => (h.onHamt _).bind fun _ => steady_pure _
  · refine (h.append _ _ _).bind fun _ => (steady_each (fun _ => h.onHamt _) _).bind fun _ => ?_
    exact (steady_lift _).bind fun _ => (h.appendOne _ _).bind fun _ => (h.onHamt _).bind fun _ => steady_pure _

theorem put (live : Liveness H) (key : Key) (value : Bytes) : Steady I (Hamt.put live key value) := by
  have hinner : Steady I (Hamt.putInner live key value) := by
    refine (h.putLeaf live key value).bind fun r => steady_state fun s => ?_
    exact (h.insertChild _ _ _ _ _).bind fun _ => h.onHamt _
  refine steady_state fun s => hinner.attempt.bind fun res => ?_
  split
  · exact steady_pure _
  · exact (h.onHamt _).bind fun _ => steady_fail _

theorem findLeafFrom (key : Key) : ∀ (fuel depth : Nat) (c : Child H), Steady I (Hamt.findLeafFrom key fuel depth c) := by
  intro fuel
  induction fuel with
  | zero => exact fun _ _ => steady_fail _
  | succ fuel ih =>
    intro depth c
    rcases c with ⟨hash, lba⟩ | idx
    · rw [Hamt.findLeafFrom]
      refine (h.readDoc lba hash).bind fun doc => ?_
      split
      · exact steady_pure _
      next node =>
        refine (h.nodeAtDepth node lba depth).bind fun _ => (h.chunkAt key depth).bind fun c => ?_
        split
        · exact steady_pure _
        · exact ih _ _
      · exact steady_pure _
      · exact steady_pure _
      · exact steady_pure _
      · exact steady_fail _
    · rw [Hamt.findLeafFrom]
      refine (h.nodeAt idx).bind fun node => (h.chunkAt key depth).bind fun c => ?_
      split
      · exact steady_pure _
      · exact ih _ _

theorem findLeaf (key : Key) : Steady I (Hamt.findLeaf (H := H) key) := by
  refine steady_state fun s => ?_
  split
  · exact steady_pure _
  · exact h.findLeafFrom key _ _ _

theorem pruneChild (route : Key) (old : H × Nat) : ∀ (fuel depth : Nat) (slot : Option (Child H)),
    Steady I (Hamt.pruneChild route old fuel depth slot) := by
  intro fuel
  induction fuel with
  | zero => exact fun _ _ => steady_fail _
  | succ fuel ih =>
    intro depth slot
    rcases slot with _ | ⟨hash, lba⟩ | idx
    · exact steady_pure _
    · rw [Hamt.pruneChild]
      refine steady_ite (steady_pure _) ((h.readDoc lba hash).bind fun doc => ?_)
      split
      next node =>
        refine (h.nodeAtDepth node lba depth).bind fun _ => (h.pushNode node).bind fun _ => (h.onHamt _).bind fun _ => ?_
        exact (h.chunkAt _ _).bind fun _ => (ih _ _).bind fun _ => (h.onHamt _).bind fun _ => steady_pure _
      · exact steady_pure _
    · rw [Hamt.pruneChild]
      refine (h.chunkAt _ _).bind fun _ => (h.nodeAt idx).bind fun _ => (ih _ _).bind fun _ => ?_
      exact (h.onHamt _).bind fun _ => steady_pure _

theorem prune (route : Key) (old : H × Nat) : Steady I (Hamt.prune route old) :=
  steady_state fun _ => (h.pruneChild route old _ _ _).bind fun _ => h.onHamt _

theorem eraseLeaf (lba : Nat) (hash : H) : Steady I (Hamt.eraseLeaf lba hash) := by
  refine (h.readDoc lba hash).bind fun doc => ?_
  split
  · exact steady_pure _
  · exact (steady_each h.erase _).bind fun _ => h.erase lba
  · exact steady_state fun _ => (steady_lift _).bind fun _ => (steady_each h.erase _).bind fun _ => h.erase lba
  · exact h.erase lba

theorem delete (key : Key) (policy : DeletePolicy) : Steady I (Hamt.delete (H := H) key policy) := by
  refine (h.findLeaf key).bind fun leaf => ?_
  split
  · exact steady_pure _
  next lba hash =>
    refine (h.removeLeafBlocks lba hash).bind fun _ => ?_
    have hrest : Steady I (Hamt.prune key (hash, lba) >>= fun _ => pure true) := (h.prune _ _).bind fun _ => steady_pure _
    split
    · exact (h.eraseLeaf lba hash).bind fun _ => hrest
    · exact hrest

theorem flushChild {flush : Nat → Prog Error (Store H) (H × Nat)} (hflush : ∀ idx, Steady I (flush idx)) (idx : Nat)
    (c : Fin 32) : Steady I (Hamt.flushChild flush idx c) := by
  refine (h.nodeAt idx).bind fun node => ?_
  split
  · exact (hflush _).bind fun _ => h.onHamt _
  · exact steady_pure _

omit h in
theorem encodeNode (node : Node H) : Steady I (Manifestus.encodeNode node : Prog Error (Store H) (Block H)) :=
  steady_ite (steady_fail _) (steady_pure _)

theorem flushNode (live : Liveness H) : ∀ fuel idx, Steady I (Hamt.flushNode live fuel idx) := by
  intro fuel
  induction fuel with
  | zero => exact fun _ => steady_fail _
  | succ fuel ih =>
    intro idx
    rw [Hamt.flushNode]
    refine (steady_each (h.flushChild ih idx) _).bind fun _ => (h.nodeAt idx).bind fun node => ?_
    refine (encodeNode node).bind fun block => ?_
    refine (h.appendOne live block).bind fun lba => ?_
    split
    · exact steady_fail _
    · exact (h.onHamt _).bind fun _ => steady_pure _

theorem flush (live : Liveness H) : Steady I (Hamt.flush live) := by
  refine steady_state fun s => ?_
  split
  · exact steady_pure _
  · exact (h.onHamt _).bind fun _ => steady_pure _
  · exact (h.flushNode live _ _).bind fun _ => (h.onHamt _).bind fun _ => (h.onHamt _).bind fun _ => steady_pure _

theorem takeDelta : Steady I (Hamt.takeDelta (H := H)) := steady_state fun _ => (h.onHamt _).bind fun _ => steady_pure _

/-! ### The reap -/

theorem repoint (key : Key) (target : Option Nat) (old new : H × Nat) : ∀ (fuel depth : Nat) (slot : Option (Child H)),
    Steady I (Hamt.repoint key target old new fuel depth slot) := by
  intro fuel
  induction fuel with
  | zero => exact fun _ _ => steady_fail _
  | succ fuel ih =>
    intro depth slot
    rcases slot with _ | ⟨hash, lba⟩ | idx
    · exact steady_pure _
    · rw [Hamt.repoint]
      refine steady_ite ((h.onHamt _).bind fun _ => steady_pure _) (steady_ite (steady_pure _) ?_)
      refine (h.readDoc lba hash).bind fun doc => ?_
      split
      next node =>
        refine (h.nodeAtDepth node lba depth).bind fun _ => (h.pushNode node).bind fun _ => (h.onHamt _).bind fun _ => ?_
        exact (h.chunkAt _ _).bind fun _ => (ih _ _).bind fun _ => (h.onHamt _).bind fun _ => steady_pure _
      · exact steady_pure _
    · rw [Hamt.repoint]
      refine (h.chunkAt _ _).bind fun _ => (h.nodeAt idx).bind fun _ => (ih _ _).bind fun _ => ?_
      exact (h.onHamt _).bind fun _ => steady_pure _

theorem repointRoot (key : Key) (target : Option Nat) (old new : H × Nat) (miss : String) :
    Steady I (Hamt.repointRoot key target old new miss) := by
  refine steady_state fun _ => (h.repoint key target old new _ _ _).bind fun _ => (h.onHamt _).bind fun _ => ?_
  exact steady_state fun _ => steady_ite (steady_fail _) (steady_pure _)

theorem repairReloc (r : Reloc H) : Steady I (Hamt.repairReloc r) := by
  unfold Hamt.repairReloc
  refine (h.read _).bind fun buf => ?_
  dsimp only
  split
  · exact steady_fail _
  · refine (steady_lift _).bind fun doc => ?_
    split <;> first | exact h.repointRoot _ _ _ _ _ | exact steady_fail _

theorem classifyWindow (live : Liveness H) (retired : List (Nat × H)) (ps : List Nat) : ∀ w : Window H,
    Steady I (Hamt.classifyWindow live retired ps w) := by
  induction ps with
  | nil => exact fun _ => steady_pure _
  | cons p ps ih =>
    intro w
    have hone : Steady I (Hamt.classifyBlock live retired p w) := by
      refine (h.read p).bind fun buf => ?_
      split
      · exact steady_pure _
      · exact steady_ite (steady_pure _) ((steady_lift _).bind fun _ => steady_pure _)
    exact hone.bind fun w => ih w

theorem hpOf (b : Block H) : Steady I (Hamt.hpOf b) := by
  unfold Hamt.hpOf
  split
  · exact steady_pure _
  · exact steady_fail _

theorem moveGroup (live : Liveness H) (key : Key) (leaf : Nat × H) (size : Nat) (runs : List (Nat × Nat))
    (group : List (Nat × Nat)) : Steady I (Hamt.moveGroup live key leaf size runs group) := by
  refine (steady_collect (fun p => h.read _) _).bind fun payload => (h.append _ _ _).bind fun placed => ?_
  refine steady_state fun s => (steady_lift _).bind fun _ => (steady_lift _).bind fun _ => (steady_lift _).bind fun _ => ?_
  refine (h.appendOne _ _).bind fun _ => (h.repointRoot _ _ _ _ _).bind fun _ => ?_
  refine (steady_each (fun p => (h.hpOf _).bind fun _ => h.onHamt _) _).bind fun _ => ?_
  refine (steady_each (fun p => (h.hpOf _).bind fun _ => h.onHamt _) _).bind fun _ => ?_
  exact (h.onHamt _).bind fun _ => h.onHamt _

theorem moveFurrows (live : Liveness H) (owner : Key × List (Nat × Nat)) : Steady I (Hamt.moveFurrows live owner) := by
  refine (h.findLeaf _).bind fun leaf => ?_
  split
  · exact steady_pure _
  · refine (h.readDoc _ _).bind fun doc => ?_
    split
    · exact steady_ite (steady_pure _) (h.moveGroup _ _ _ _ _ _)
    · exact steady_ite (steady_pure _) ((h.readFurrows _ _ _).bind fun _ => h.put _ _ _)
    · exact steady_pure _

theorem moveBlock (live : Liveness H) (entry : Nat × H) : Steady I (Hamt.moveBlock live entry) := by
  refine steady_state fun s => steady_ite (steady_pure _) ((h.read _).bind fun b => steady_ite (steady_pure _) ?_)
  refine (h.appendOne _ _).bind fun _ => (h.repairReloc _).bind fun _ => ?_
  exact (h.onHamt _).bind fun _ => h.onHamt _

/-- A reap window moves its survivors before its reap. -/
theorem reapWindow (live : Liveness H) (window : Nat) {s : Store H} (hs : I s) {Q : Store H → Prop} (hkeep : I s → Q s)
    (hreap : ∀ s', I s' → Q { s' with tract := { s'.tract with
      reap := s.tract.reap + min window (s.tract.plow - s.tract.reap) } }) :
    Sat (Hamt.reapWindow live window) s (fun _ s' => Q s') fun _ s' => I s' := by
  unfold Hamt.reapWindow
  refine sat_state ?_
  dsimp only
  split
  · exact sat_pure (hkeep hs)
  · refine sat_bind (h.classifyWindow live _ _ _ s hs) fun survivors s₁ h₁ => ?_
    refine sat_bind (steady_each (h.moveFurrows live) _ s₁ h₁) fun _ s₂ h₂ => ?_
    exact sat_bind (steady_each (h.moveBlock live) _ s₂ h₂) fun _ s₃ h₃ => hreap s₃ h₃

end Mooring

end Manifestus
