import Manifestus.Engine.Vault

/-! The run lists and the derived reap over `u64`: a sum that overflows panics, and what is
allocated is recorded. -/
namespace Manifestus.Word
open Prog

variable {H : Type} [Crates H]

/-- `u64::MAX`. -/
def u64Max : Nat := 2 ^ 64 - 1

/-- `+` on `u64`. -/
def plus (x y : Nat) : Except Error Nat :=
  if x + y ≤ u64Max then .ok (x + y) else .error (.panic "attempt to add with overflow")

def checkRuns (tractLen : Nat) : Nat → List (Nat × Nat) → Except Error Nat
  | total, [] => .ok total
  | total, (s, c) :: runs =>
    if tractLen ≤ s ∨ tractLen - s < c then
      .error (.corrupt s!"extent run ({s}, {c}) reaches past the tract of {tractLen} blocks")
    else do
      let total ← plus total c
      if tractLen < total then
        .error (.corrupt s!"extent runs total {total} blocks in a tract of {tractLen}")
      else checkRuns tractLen total runs

/-- The positions of one run, pushed onto `out`. -/
def pushPositions (s : Nat) : List Nat → List Nat → Except Error (List Nat)
  | [], out => .ok out
  | j :: js, out => do
    let p ← plus s j
    pushPositions s js (out ++ [p])

def pushRuns : List (Nat × Nat) → List Nat → Except Error (List Nat)
  | [], out => .ok out
  | (s, c) :: runs, out => do
    let out ← pushPositions s (List.range c) out
    pushRuns runs out

/-- `Vec::with_capacity`. -/
def withCapacity (n : Nat) : Prog Error (List Nat) Unit := update fun allocated => allocated ++ [n]

variable (H) in
/-- The furrow position of every index of an extent; the state is what was allocated. -/
def expandRuns (runs : List (Nat × Nat)) (size tractLen : Nat) : Prog Error (List Nat) (List Nat) := do
  let total ← lift (checkRuns tractLen 0 runs)
  let expect := divCeil size (furrowCapacity H)
  if total ≠ expect then fail (.corrupt s!"extent run total {total} != furrow count {expect}")
  else do
    withCapacity total
    lift (pushRuns runs [])

def pushRun (runs : List (Nat × Nat)) (p : Nat) : Except Error (List (Nat × Nat)) :=
  match runs.getLast? with
  | some (s, c) => do
    let stop ← plus s c
    if stop = p then do
      let c ← plus c 1
      .ok (runs.dropLast ++ [(s, c)])
    else .ok (runs ++ [(p, 1)])
  | none => .ok [(p, 1)]

def compressRunsFrom : List (Nat × Nat) → List Nat → Except Error (List (Nat × Nat))
  | runs, [] => .ok runs
  | runs, p :: positions => do
    let runs ← pushRun runs p
    compressRunsFrom runs positions

def compressRuns (positions : List Nat) : Except Error (List (Nat × Nat)) := compressRunsFrom [] positions

/-- The nearest of the live positions downstream of `pos`, `clean` at most. -/
def nearest (len pos : Nat) : List Nat → Nat → Except Error Nat
  | [], clean => .ok clean
  | lba :: lbas, clean => do
    let d ← plus lba len
    nearest len pos lbas (min clean ((d - pos) % len))

/-- `%` on `u64`. -/
def rem (x y : Nat) : Except Error Nat :=
  if y = 0 then .error (.panic "attempt to calculate the remainder with a divisor of zero") else .ok (x % y)

def deriveReap (plow len : Nat) (live : LiveSet H) : Except Error Nat := do
  let pos ← rem plow len
  let clean ← nearest len pos live.positions len
  let stop ← plus plow clean
  .ok (stop - len)

end Manifestus.Word
