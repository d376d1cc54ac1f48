import Manifestus.Engine.Tract

/-! What the vault knows to be referenced: positions with the hash of their block, and
positions alone. -/
namespace Manifestus

variable {H : Type} [Crates H]

/-- Both hash tables as lists without repeated positions. -/
structure LiveSet (H : Type) where
  map : List (Nat × H)
  referenced : List Nat

namespace LiveSet

def empty : LiveSet H := ⟨[], []⟩

def get? (l : LiveSet H) (lba : Nat) : Option H := (l.map.find? fun e => e.1 = lba).map Prod.snd

/-- `map.insert`. -/
def insert (l : LiveSet H) (e : Nat × H) : LiveSet H :=
  { l with map := e :: l.map.filter fun x => x.1 ≠ e.1 }

/-- `map.remove`. -/
def erase (l : LiveSet H) (lba : Nat) : LiveSet H :=
  { l with map := l.map.filter fun x => x.1 ≠ lba }

/-- `referenced.remove`. -/
def dereference (l : LiveSet H) (lba : Nat) : LiveSet H :=
  { l with referenced := l.referenced.filter (· ≠ lba) }

def applyAdded (l : LiveSet H) (e : Nat × H) : LiveSet H := (l.dereference e.1).insert e

def applyRemoved (l : LiveSet H) (e : Nat × H) : LiveSet H :=
  (if l.get? e.1 = some e.2 then l.erase e.1 else l).dereference e.1

/-- Added first, then removed: a block added and retired in one delta ends removed. -/
def apply (l : LiveSet H) (d : Delta H) : LiveSet H :=
  d.removed.foldl applyRemoved (d.added.foldl applyAdded l)

/-- Mark a block live by position alone. -/
def markReferenced (l : LiveSet H) (lba : Nat) : LiveSet H :=
  if (l.get? lba).isSome ∨ lba ∈ l.referenced then l
  else { l with referenced := lba :: l.referenced }

def len (l : LiveSet H) : Nat := l.map.length + l.referenced.length

/-- Every live position. -/
def positions (l : LiveSet H) : List Nat := l.map.map Prod.fst ++ l.referenced

/-- The live set of a finished walk. -/
def ofWalk (liveBlocks : List (Nat × H)) (referenced : List Nat) : LiveSet H :=
  referenced.foldl markReferenced (liveBlocks.foldl insert empty)

def liveness (l : LiveSet H) : Liveness H where
  isLive lba hp := l.get? lba = some hp || l.referenced.contains lba
  isReferenced lba := (l.get? lba).isSome || l.referenced.contains lba

end LiveSet
end Manifestus
