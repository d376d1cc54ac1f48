import Manifestus.Index.Chunk
import Manifestus.Engine.Hamt

/-! The index as a tree: what a pointer stands for when the blocks and the arena it leads to
are sound, the positions and arena slots it holds, and the map it represents. -/
set_option linter.unusedSectionVars false

namespace Manifestus

variable {H : Type} [Crates H]

/-- An index: nothing, a leaf with its value and furrows, a node of the tract, a node of the
arena. -/
inductive Tree (H : Type) where
  | empty
  | leaf (hash : H) (lba : Nat) (key : Key) (value : Bytes) (furrows : List Nat)
  | disk (hash : H) (lba : Nat) (ch : Fin 32 → Tree H)
  | dirty (idx : Nat) (ch : Fin 32 → Tree H)

namespace Tree

/-- The tract positions a tree holds. -/
def Claims : Tree H → Nat → Prop
  | .empty, _ => False
  | .leaf _ lba _ _ furrows, p => p = lba ∨ p ∈ furrows
  | .disk _ lba ch, p => p = lba ∨ ∃ i, (ch i).Claims p
  | .dirty _ ch, p => ∃ i, (ch i).Claims p

/-- The arena slots a tree holds. -/
def Uses : Tree H → Nat → Prop
  | .empty, _ => False
  | .leaf .., _ => False
  | .disk _ _ ch, x => ∃ i, (ch i).Uses x
  | .dirty idx ch, x => x = idx ∨ ∃ i, (ch i).Uses x

/-- No position and no arena slot is held by two children. -/
def Apart (ch : Fin 32 → Tree H) : Prop :=
  ∀ i j, i ≠ j → (∀ p, (ch i).Claims p → ¬ (ch j).Claims p) ∧ ∀ x, (ch i).Uses x → ¬ (ch j).Uses x

/-- Every block and every arena node has one parent. -/
def Sep : Tree H → Prop
  | .empty => True
  | .leaf _ lba _ _ furrows => lba ∉ furrows ∧ furrows.Nodup
  | .disk _ lba ch => (∀ i, (ch i).Sep) ∧ Apart ch ∧ ∀ i, ¬ (ch i).Claims lba
  | .dirty idx ch => (∀ i, (ch i).Sep) ∧ Apart ch ∧ ∀ i, ¬ (ch i).Uses idx

/-- The leaf a descent for `k` from `depth` ends at, when it is the leaf of `k`. -/
def locate (k : Key) : Nat → Tree H → Option (H × Nat × Bytes × List Nat)
  | _, .empty => none
  | _, .leaf hash lba key value furrows =>
    if key = k then some (hash, lba, value, furrows) else none
  | depth, .disk _ _ ch => locate k (depth + 1) (ch (chunk k depth))
  | depth, .dirty _ ch => locate k (depth + 1) (ch (chunk k depth))

/-- The value of `k`. -/
def find (k : Key) (depth : Nat) (t : Tree H) : Option Bytes :=
  (t.locate k depth).map fun x => x.2.2.1

/-- The subtree the pointer `(h, l)` leads to, on the way of `k` from `depth`. -/
def seek (k : Key) (h : H) (l : Nat) : Nat → Tree H → Option (Tree H)
  | _, .empty => none
  | _, .leaf hash lba key value furrows =>
    if hash = h ∧ lba = l then some (.leaf hash lba key value furrows) else none
  | depth, .disk hash lba ch =>
    if hash = h ∧ lba = l then some (.disk hash lba ch) else seek k h l (depth + 1) (ch (chunk k depth))
  | depth, .dirty _ ch => seek k h l (depth + 1) (ch (chunk k depth))

@[simp] theorem locate_empty (k : Key) (depth : Nat) : (Tree.empty : Tree H).locate k depth = none := rfl

theorem locate_leaf (k : Key) (depth : Nat) (hash : H) (lba : Nat) (key : Key) (value : Bytes)
    (furrows : List Nat) : (Tree.leaf hash lba key value furrows).locate k depth =
      if key = k then some (hash, lba, value, furrows) else none := rfl

@[simp] theorem locate_disk (k : Key) (depth : Nat) (hash : H) (lba : Nat) (ch : Fin 32 → Tree H) :
    (Tree.disk hash lba ch).locate k depth = (ch (chunk k depth)).locate k (depth + 1) := rfl

@[simp] theorem locate_dirty (k : Key) (depth idx : Nat) (ch : Fin 32 → Tree H) :
    (Tree.dirty idx ch).locate k depth = (ch (chunk k depth)).locate k (depth + 1) := rfl

@[simp] theorem find_empty (k : Key) (depth : Nat) : (Tree.empty : Tree H).find k depth = none := rfl

theorem find_leaf (k : Key) (depth : Nat) (hash : H) (lba : Nat) (key : Key) (value : Bytes)
    (furrows : List Nat) :
    (Tree.leaf hash lba key value furrows).find k depth = if key = k then some value else none := by
  simp only [find, locate]
  split <;> rfl

@[simp] theorem find_disk (k : Key) (depth : Nat) (hash : H) (lba : Nat) (ch : Fin 32 → Tree H) :
    (Tree.disk hash lba ch).find k depth = (ch (chunk k depth)).find k (depth + 1) := rfl

@[simp] theorem find_dirty (k : Key) (depth idx : Nat) (ch : Fin 32 → Tree H) :
    (Tree.dirty idx ch).find k depth = (ch (chunk k depth)).find k (depth + 1) := rfl

/-- Replacing one child by a tree that holds only what that child held and what no other child
holds keeps the children apart. -/
theorem Apart.update {ch : Fin 32 → Tree H} (h : Apart ch) {c : Fin 32} {t : Tree H}
    (hp : ∀ p, t.Claims p → (ch c).Claims p ∨ ∀ i, i ≠ c → ¬ (ch i).Claims p)
    (hx : ∀ x, t.Uses x → (ch c).Uses x ∨ ∀ i, i ≠ c → ¬ (ch i).Uses x) :
    Apart (Function.update ch c t) := by
  have hone : ∀ i, i ≠ c → (∀ p, t.Claims p → ¬ (ch i).Claims p) ∧ ∀ x, t.Uses x → ¬ (ch i).Uses x := by
    intro i hi
    constructor
    · intro p hpt
      rcases hp p hpt with hpc | hpo
      · exact (h c i hi.symm).1 p hpc
      · exact hpo i hi
    · intro x hxt
      rcases hx x hxt with hxc | hxo
      · exact (h c i hi.symm).2 x hxc
      · exact hxo i hi
  intro i j hij
  by_cases hi : i = c
  · subst hi
    rw [Function.update_self, Function.update_of_ne hij.symm]
    exact hone j hij.symm
  · by_cases hj : j = c
    · subst hj
      rw [Function.update_self, Function.update_of_ne hij]
      refine ⟨fun p hpi hpt => (hone i hi).1 p hpt hpi, fun x hxi hxt => (hone i hi).2 x hxt hxi⟩
    · rw [Function.update_of_ne hi, Function.update_of_ne hj]
      exact h i j hij

theorem sep_update {f : Fin 32 → Tree H} (h : ∀ i, (f i).Sep) {c : Fin 32} {t : Tree H}
    (ht : t.Sep) : ∀ i, (Function.update f c t i).Sep := by
  intro i
  by_cases hi : i = c
  · subst hi
    rwa [Function.update_self]
  · rw [Function.update_of_ne hi]
    exact h i

theorem exists_update {ch : Fin 32 → Tree H} {c : Fin 32} {t : Tree H} {P : Tree H → Prop} :
    (∃ i, P (Function.update ch c t i)) ↔ P t ∨ ∃ i, i ≠ c ∧ P (ch i) := by
  constructor
  · rintro ⟨i, hi⟩
    by_cases hic : i = c
    · subst hic
      rw [Function.update_self] at hi
      exact .inl hi
    · rw [Function.update_of_ne hic] at hi
      exact .inr ⟨i, hic, hi⟩
  · rintro (ht | ⟨i, hic, hi⟩)
    · exact ⟨c, by rwa [Function.update_self]⟩
    · exact ⟨i, by rwa [Function.update_of_ne hic]⟩

end Tree

/-- A sealed leaf at `lba` with the blocks of its value. -/
inductive LeafAt (view : Nat → Block H) (len : Nat) (hash : H) (lba : Nat) (key : Key) :
    Bytes → List Nat → Prop where
  | lone {value : Bytes} {extra : Nat} (hlt : lba < len)
      (hview : view lba = .sealed (.lone key value) extra)
      (hhash : Crates.hash (.lone key value) extra = hash) : LeafAt view len hash lba key value []
  | extent {value : Bytes} {furrows : List Nat} {runs : List (Nat × Nat)} {extra : Nat} (hlt : lba < len)
      (hview : view lba = .sealed (.extent key value.length runs) extra)
      (hhash : Crates.hash (.extent key value.length runs) extra = hash)
      (hruns : expandRuns H runs value.length len = .ok furrows)
      (hread : payloads key 0 (furrows.map view) = .ok value) : LeafAt view len hash lba key value furrows
  | direct {value : Bytes} {furrows : List Nat} {extra : Nat} (hlt : lba < len)
      (hview : view lba = .sealed (.direct key value.length furrows) extra)
      (hhash : Crates.hash (.direct key value.length furrows) extra = hash)
      (hfits : value.length ≤ furrows.length * furrowCapacity H) (hin : ∀ p ∈ furrows, p < len)
      (hread : payloads key 0 (furrows.map view) = .ok value) : LeafAt view len hash lba key value furrows

/-- A sealed node at `lba` that names the path it is found on. -/
structure NodeAt (view : Nat → Block H) (len : Nat) (path : List (Fin 32)) (hash : H) (lba : Nat)
    (slots : Fin 32 → Option (H × Nat)) : Prop where
  lt : lba < len
  depth : path.length < maxDepth
  block : ∃ route extra, view lba = .sealed (.node path.length route slots) extra ∧
    Crates.hash (.node path.length route slots) extra = hash ∧ OnPath path route
  inside : ∀ i p, slots i = some p → p.2 < len

/-- A pointer found at `path` stands for the tree. -/
def Rep (view : Nat → Block H) (len : Nat) (arena : List (Node H)) :
    List (Fin 32) → Option (Child H) → Tree H → Prop
  | _, c, .empty => c = none
  | path, c, .leaf hash lba key value furrows =>
    c = some (.committed hash lba) ∧ OnPath path key ∧ LeafAt view len hash lba key value furrows
  | path, c, .disk hash lba ch => c = some (.committed hash lba) ∧ ∃ slots,
    NodeAt view len path hash lba slots ∧
      ∀ i, Rep view len arena (path ++ [i]) ((slots i).map fun p => .committed p.1 p.2) (ch i)
  | path, c, .dirty idx ch => c = some (.dirty idx) ∧ ∃ node, arena[idx]? = some node ∧
    node.depth = path.length ∧ path.length < maxDepth ∧ OnPath path node.route ∧
      ∀ i, Rep view len arena (path ++ [i]) (node.children i) (ch i)

end Manifestus
