import Manifestus.Engine.Ring

/-! The inspector's reading of a ring: every slot classified, the newest entry, the hash chain down
from it and the verdicts on the spine. -/
namespace Manifestus
open Prog

variable {H : Type} [Crates H]

/-- `HOST_RING_LOG2`. -/
def hostRingLog2 : Nat := 8

/-- One verdict of the inspector. -/
structure Check where
  name : String
  pass : Bool
  detail : String

/-- What the inspector reports of a ring. `chain` holds the generations from the head down, each with
whether its link was found good. -/
structure RingReport (H : Type) where
  fileBlocks : Nat
  ringLog2 : Nat
  ringN : Nat
  tractBase : Nat
  tractBlocksField : Option Nat
  slots : List (Nat × Classified H)
  head : Option (Nat × SpineEntry H)
  chain : List (Nat × Bool)
  checks : List Check

namespace Inspect

/-- The ring exponent, from the first valid entry among the first sixteen blocks. -/
def discoverRingLog2 : Prog Error (Dev H) (Option Nat) := do
  let d ← state
  probe (List.range (min (2 ^ 4) d.count))
where
  probe : List Nat → Prog Error (Dev H) (Option Nat)
    | [] => pure none
    | slot :: rest => do
      let buf ← Dev.read slot
      match classify buf slot none with
      | .valid e => pure (some e.ringLog2)
      | _ => probe rest

/-- The slots, each read and classified. -/
def classifySlots (ringLog2 : Nat) : List Nat → Prog Error (Dev H) (List (Nat × Classified H))
  | [] => pure []
  | slot :: rest => do
    let buf ← Dev.read slot
    let slots ← classifySlots ringLog2 rest
    pure ((slot, classify buf slot (some ringLog2)) :: slots)

/-- The valid entry of the greatest generation, the last of equals. -/
def headOf : List (Nat × Classified H) → Option (Nat × SpineEntry H)
  | [] => none
  | (slot, .valid e) :: rest =>
    match headOf rest with
    | some h => if e.gen ≤ h.2.gen then some h else some (slot, e)
    | none => some (slot, e)
  | _ :: rest => headOf rest

/-- The links from generation `gen` down, whose entry names `childPrev` as the hash before it. -/
def walkChain (ringLog2 : Nat) : Nat → H → Prog Error (Dev H) (List (Nat × Bool))
  | 0, childPrev => pure [(0, decide (childPrev = Crates.zeros))]
  | parentGen + 1, childPrev => do
    let slot := parentGen % 2 ^ ringLog2
    match ← attempt (Dev.read slot) with
    | .error _ => pure [(parentGen + 1, false)]
    | .ok buf =>
      match classify buf slot (some ringLog2) with
      | .valid parent =>
        if parent.gen = parentGen then do
          let links ← walkChain ringLog2 parentGen parent.prevHash
          pure ((parentGen + 1, decide (childPrev = parent.bodyHash)) :: links)
        else pure [(parentGen + 1, false)]
      | _ => pure [(parentGen + 1, false)]

def slotsCheck (slots : List (Nat × Classified H)) : Check :=
  let corrupt := slots.countP fun s => match s.2 with
    | .corrupt => true
    | _ => false
  ⟨"spine slots seal + congruent", corrupt = 0,
    if corrupt = 0 then "all non-empty slots are Valid" else s!"{corrupt} corrupt/misplaced slot(s)"⟩

def headCheck (head : Option (Nat × SpineEntry H)) : Check :=
  ⟨"head found", head.isSome,
    match head with
    | some (s, e) => s!"gen {e.gen} at slot {s}"
    | none => "no valid spine entry"⟩

/-- The chain's verdict: a bad link counts when its generation is below `N`. -/
def chainCheck (ringLog2 : Nat) (chain : List (Nat × Bool)) : Check :=
  let broken := chain.countP fun l => !l.2 && decide (l.1 < 2 ^ ringLog2)
  ⟨"hash chain intact", broken = 0,
    if chain.isEmpty then "no chain (no head)"
    else if broken = 0 then s!"{chain.length} link(s) verified to genesis/lap horizon"
    else s!"{broken} broken link(s) within the ring window"⟩

/-- The spine's part of `inspect`. -/
def inspectRing : Prog Error (Dev H) (RingReport H) := do
  let d ← state
  let ringLog2 := (← discoverRingLog2).getD hostRingLog2
  let slots ← classifySlots ringLog2 (List.range (min (2 ^ ringLog2) d.count))
  let head := headOf slots
  let chain ← match head with
    | none => pure []
    | some (_, e) => walkChain ringLog2 e.gen e.prevHash
  pure
    { fileBlocks := d.count
      ringLog2 := ringLog2
      ringN := 2 ^ ringLog2
      tractBase := 2 ^ ringLog2
      tractBlocksField := head.map fun h => h.2.tractBlocks
      slots := slots
      head := head
      chain := chain
      checks := [slotsCheck slots, headCheck head, chainCheck ringLog2 chain] }

end Inspect

/-- Whether the check of that name passed. -/
def RingReport.passes (r : RingReport H) (name : String) : Bool := r.checks.any fun c => c.name = name && c.pass

end Manifestus
