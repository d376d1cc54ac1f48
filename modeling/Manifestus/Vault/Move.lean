import Manifestus.Vault.Sound
import Manifestus.Index.Put
import Manifestus.Index.Reap
import Manifestus.Engine.Open
import Mathlib.Logic.Relation

/-! The moves of a settled vault: what a put, a delete, a flush, a reap window, a heartbeat, a commit, a
reload and a grow can do to the cursors, the devices and the two indexes. -/
set_option linter.unusedSectionVars false

namespace Manifestus
open Prog

variable {H : Type} [Crates H]

/-- The steps the ladders are made of. Each appends at most one generation: a commit tries its flush
once, the heartbeats between its tries are steps of their own, and so is what a grow does before it
commits. -/
inductive Step where
  | get (key : Key)
  | check (key : Key) (value : Bytes)
  | put (key : Key) (value : Bytes)
  | delete (key : Key)
  | commit (now : Int)
  | beat (now : Int)
  | stage (w : Nat)
  | waive
  | refence
  | reload (reason : String)
  | lengthen (n : Nat)

namespace Vault

/-- The generation that commits a flushed index. -/
def sealIndex (now : Int) (root : H × Nat) : Prog Error (Vault H) Unit := do
  update retireReap
  let head ← headOr "commit on pre-genesis vault"
  let v ← state
  let entry := nextEntry v head root now
  onRing (Ring.append entry)
  refence
  let v ← state
  match v.root with
  | none => pure ()
  | some root => if root.residency * 2 ^ v.ring.ringLog2 ≤ entry.gen - root.since then migrateRing now

/-- A commit whose flush is tried again at most `attempts` times. -/
def commitWithin (attempts : Nat) (now : Int) : Prog Error (Vault H) Unit := flushIndex now attempts >>= sealIndex now

theorem commitNow_eq (now : Int) : (commitNow now : Prog Error (Vault H) Unit) = commitWithin (fenceK + 3) now := rfl

/-- The tract longer, the committed index read anew: a grow before its commit. -/
def lengthen (newTractBlocks : Nat) : Prog Error (Vault H) Unit := do
  let v ← state
  onMirror (Mirror.grow (v.tract.base + newTractBlocks))
  let head ← headOr "grow on pre-genesis vault"
  reloadHead "grow on pre-genesis vault"
  update fun v => { v with tract := { v.tract with plow := head.plow } }
  let walk ← growNow.rewalk
  update fun v => { v with live := LiveSet.ofWalk walk.liveBlocks walk.referenced }
  update fun v => { v with tract := v.tract.realign newTractBlocks }

theorem growNow_run (newTractBlocks : Nat) (now : Int) (v : Vault H) :
    (growNow newTractBlocks now).run v =
      (if newTractBlocks ≤ v.tract.len then pure ()
        else lengthen newTractBlocks >>= fun _ => commitNow now).run v := by
  unfold growNow lengthen
  simp only [bind_run, state_run]
  split
  · rfl
  · simp only [bind_run, state_run, update_run]
    rcases (onMirror (Mirror.grow (v.tract.base + newTractBlocks))).run v with ⟨_ | _, u⟩
    · rfl
    · simp only []
      rcases (headOr "grow on pre-genesis vault").run u with ⟨_ | head, u⟩
      · rfl
      · simp only []
        rcases (reloadHead "grow on pre-genesis vault").run u with ⟨_ | _, u⟩
        · rfl
        · simp only []
          rcases growNow.rewalk.run { u with tract := { u.tract with plow := head.plow } } with ⟨_ | walk, u⟩ <;> rfl

end Vault

/-- What changes together: the vault, its primary, the newest generation with its index, and the index
in memory. -/
structure Scene (H : Type) where
  vault : Vault H
  primary : Dev H
  entry : SpineEntry H
  committed : Tree H
  current : Tree H

/-- The budget of generation `gen` as the ring at block 0 shows it; none recorded counts as 0. -/
def budgetAt (data : Nat → Block H) (r gen : Nat) : Nat :=
  match classify (data (gen % 2 ^ r)) (gen % 2 ^ r) (some r) with
  | .valid x => if x.gen = gen then x.fenceBudget else 0
  | _ => 0

/-- The fence of the last generations, newest `gen`. -/
def fenceOf (data : Nat → Block H) (r gen : Nat) : Option Nat :=
  fenceFrom (((List.range (min fenceK (gen + 1))).map (gen - ·)).map (budgetAt data r))

namespace Vault

/-- The flushed index is taken as live. -/
def landed (v : Vault H) : Vault H :=
  { v with hamt := { v.hamt with delta := ⟨[], []⟩ }, live := v.live.apply v.hamt.delta }

/-- The generation `e` is the newest, on the mirror `m`. -/
def headed (v : Vault H) (m : Mirror H) (r : Nat) (e : SpineEntry H) : Vault H :=
  { v with ring := { v.ring with mirror := m, head := some (e.gen % 2 ^ r, e) } }

section

variable (v : Vault H) (m : Mirror H) (r : Nat) (e : SpineEntry H)

@[simp] theorem headed_mirror : (v.headed m r e).ring.mirror = m := rfl

@[simp] theorem headed_tract : (v.headed m r e).tract = v.tract := rfl

@[simp] theorem headed_hamt : (v.headed m r e).hamt = v.hamt := rfl

@[simp] theorem headed_live : (v.headed m r e).live = v.live := rfl

@[simp] theorem headed_pendingReap : (v.headed m r e).pendingReap = v.pendingReap := rfl

end

/-- The committed index read anew. -/
def reloaded (v : Vault H) (e : SpineEntry H) : Vault H :=
  { v with hamt := Hamt.fromRoot e.hamtHash e.hamtLba, pendingReap := none }

end Vault

/-- What was staged is on the devices, and after it the generation `e'`. -/
structure Lands (r : Nat) (m : Mirror H) (d : Dev H) (e' : SpineEntry H) (m' : Mirror H) (d' : Dev H) : Prop where
  data : d'.data = Function.update (m.view d) (e'.gen % 2 ^ r) e'.encode
  pending : m'.pending = []
  events : m'.events = m.events

/-- One move of a vault in use. `G` says which steps may be taken where. -/
inductive Move (G : Vault H → Step → Prop) (r : Nat) : Scene H → Scene H → Prop where
  | edit {v : Vault H} {d : Dev H} {e : SpineEntry H} {T C C' : Tree H} {s' : Store H}
      (hs : Steps v.live d v.store s') (hin : C.Within v.store C') :
      Move G r ⟨v, d, e, T, C⟩ ⟨v.withStore s', d, e, T, C'⟩
  | stage {v : Vault H} {d : Dev H} {e : SpineEntry H} {T C C' : Tree H} {s' : Store H} {w : Nat}
      (hG : G v (.stage w)) (hs : Steps v.live d v.store s') (hin : C.Within v.store C')
      (hmoved : ∀ q, v.tract.reap ≤ q → q < v.tract.reap + Hamt.windowSize v.store w →
        v.live.Refers (q % v.tract.len) → ¬ C'.Claims (q % v.tract.len)) :
      Move G r ⟨v, d, e, T, C⟩
        ⟨{ v.withStore s' with pendingReap := some (v.tract.reap + Hamt.windowSize v.store w) }, d, e, T, C'⟩
  | beat {v : Vault H} {d d' : Dev H} {e e' : SpineEntry H} {T C : Tree H} {m' : Mirror H}
      (hland : Lands r v.ring.mirror d e' m' d') (hgen : e'.gen = e.gen + 1)
      (hroot : e'.rootChild = e.rootChild) (hplow : e'.plow = e.plow) (hreap : e'.reap = e.reap)
      (hlen : e'.tractBlocks = e.tractBlocks) :
      Move G r ⟨v, d, e, T, C⟩ ⟨v.headed m' r e', d', e', T, C⟩
  | land {v : Vault H} {d d' : Dev H} {e e' : SpineEntry H} {T C : Tree H} {m' : Mirror H} {reap : Nat}
      (hland : Lands r v.ring.mirror d e' m' d') (hgen : e'.gen = e.gen + 1)
      (hroot : e'.rootChild = v.hamt.root) (hplow : e'.plow = v.tract.plow) (hreap : e'.reap = some reap)
      (hlen : e'.tractBlocks = v.tract.len)
      (hretired : v.pendingReap = none ∧ reap = v.tract.reap ∨ v.pendingReap = some reap) :
      Move G r ⟨v, d, e, T, C⟩
        ⟨({ v.landed with tract := { v.tract with reap := reap }, pendingReap := none } : Vault H).headed m' r e', d', e',
          C, C⟩
  | refence {v : Vault H} {d : Dev H} {e : SpineEntry H} {T C : Tree H} :
      Move G r ⟨v, d, e, T, C⟩
        ⟨{ v with tract := { v.tract with fenceLimit := fenceOf d.data r e.gen } }, d, e, T, C⟩
  | waive {v : Vault H} {d : Dev H} {e : SpineEntry H} {T C : Tree H} (hG : G v .waive) :
      Move G r ⟨v, d, e, T, C⟩ ⟨{ v with tract := { v.tract with fenceLimit := none } }, d, e, T, C⟩
  | reload {v : Vault H} {d : Dev H} {e : SpineEntry H} {T C : Tree H} :
      Move G r ⟨v, d, e, T, C⟩ ⟨v.reloaded e, d, e, T, T⟩
  | drain {v : Vault H} {d d' : Dev H} {e : SpineEntry H} {T C : Tree H} {m' : Mirror H}
      (hdata : d'.data = v.ring.mirror.view d) (hpending : m'.pending = []) (hevents : m'.events = v.ring.mirror.events) :
      Move G r ⟨v, d, e, T, C⟩ ⟨{ v with ring := { v.ring with mirror := m' } }, d', e, T, C⟩
  | realign {v : Vault H} {d d' : Dev H} {e : SpineEntry H} {T C : Tree H} {m' : Mirror H} {n : Nat} {live : LiveSet H}
      (hn : v.tract.len < n) (hdata : ∀ l < d.count, d'.data l = v.ring.mirror.view d l) (hpending : m'.pending = [])
      (hevents : m'.events = v.ring.mirror.events) :
      Move G r ⟨v, d, e, T, C⟩
        ⟨{ v.reloaded e with
            ring := { v.ring with mirror := m' }
            live := live
            tract := Tract.realign { v.tract with plow := e.plow } n }, d', e, T, T⟩

end Manifestus
