import Manifestus.Flat.Scribe
import Manifestus.Vault.Launch
import Manifestus.Vault.Reached
import Manifestus.Vault.Unseen

/-! What a vault without faults shows of the index cache: nothing. A cached block is the one the primary
holds, and leaves the cache before the primary holds another. -/
set_option linter.unusedSectionVars false

namespace Manifestus
open Prog

variable {H : Type} [Crates H]

/-- A device without faults to come that holds what `cache` says. -/
structure Dev.Backs (cache : List (Nat × Nat × Block H)) (d : Dev H) : Prop where
  script : d.script = []
  cached : ∀ e ∈ cache, e.1 < d.count ∧ e.2.2 = d.data e.1

/-- A primary without faults to come that holds what the cache says. -/
def Mirror.Backed (m : Mirror H) : Prop := ∃ d, m.primary = some d ∧ d.Backs m.cache

namespace Dev.Backs

variable {cache cache' : List (Nat × Nat × Block H)} {d : Dev H}

theorem mono (h : d.Backs cache) (hsub : ∀ e ∈ cache', e ∈ cache) : d.Backs cache' := ⟨h.script, fun e he => h.cached e (hsub e he)⟩

/-- Blocks at other positions may land. -/
theorem closed : Dev.Closed (fun l _ => ∀ e ∈ cache, e.1 ≠ l) (Dev.Backs (H := H) cache) where
  script h := h.script
  landed := by
    intro d l b hl h
    constructor
    · exact h.script
    · intro e he
      obtain ⟨hlt, heq⟩ := h.cached e he
      exact ⟨hlt, heq.trans (Function.update_of_ne (hl e he) _ _).symm⟩
  flushed h := ⟨h.script, h.cached⟩

theorem grow (c : Nat) : Steady (Dev.Backs (H := H) cache) (Dev.grow c) := by
  intro d h
  unfold Sat
  by_cases hacc : d.Accepts c
  · rw [Dev.grow_run h.script hacc]
    show Dev.Backs cache (if c ≤ d.count then d else d.grown c)
    split
    · exact h
    next hc =>
      constructor
      · exact h.script
      · intro e he
        obtain ⟨hlt, heq⟩ := h.cached e he
        constructor
        · exact hlt.trans (Nat.not_le.mp hc)
        · show e.2.2 = if e.1 < d.count then d.data e.1 else .zero
          rw [if_pos hlt]
          exact heq
  · obtain ⟨err, hrefused⟩ := Dev.grow_run_of_not hacc
    rw [hrefused]
    exact h

end Dev.Backs

namespace Mirror.Backed

variable {m m' : Mirror H}

theorem same (h : m.Backed) (hd : m'.primary = m.primary) (hsub : ∀ e ∈ m'.cache, e ∈ m.cache) : m'.Backed := by
  obtain ⟨d, hprim, hback⟩ := h
  exact ⟨d, hd.trans hprim, hback.mono hsub⟩

theorem forget (lba : Nat) (h : m.Backed) : (m.forget lba).Backed := h.same rfl fun _ he => (List.mem_filter.mp he).1

theorem everywhere {x : Prog Error (Dev H) Unit} (hx : Steady (Dev.Backs m.cache) x) (h : m.Backed) :
    ((Mirror.everywhere x).run m).2.Backed := by
  obtain ⟨d, hd, hback⟩ := h
  obtain ⟨d', hd', hback', -, hc⟩ := Mirror.everywhere_keeps hx hd hback
  exact ⟨d', hd', hc ▸ hback'⟩

theorem writeVerifiedBatchNow (blocks : List (Nat × Block H)) : Steady (Mirror.Backed (H := H)) (Mirror.writeVerifiedBatchNow blocks) := by
  intro m h
  apply sat_of_final
  obtain ⟨d, hd, hback⟩ := h
  obtain ⟨-, -, -, hforget⟩ := Mirror.foldl_forget_fields blocks m
  have hwrite : Steady (Dev.Backs (blocks.foldl (fun m x => m.forget x.1) m).cache) (writeEach blocks) :=
    Dev.Backs.closed.writeEach fun x hx e he heq => (hforget e he).2 (heq ▸ List.mem_map_of_mem hx)
  obtain ⟨d', hd', hback', -, hc⟩ := Mirror.writeVerifiedBatchNow_keeps hwrite hd (hback.mono fun e he => (hforget e he).1)
  exact ⟨d', hd', hc ▸ hback'⟩

theorem drain : Steady (Mirror.Backed (H := H)) Mirror.drain := by
  apply steady_state
  intro m
  apply steady_ite (steady_pure _)
  apply Steady.bind
  · exact steady_update fun _ h => h
  · exact fun _ => writeVerifiedBatchNow _

theorem writeVerified (lba : Nat) (b : Block H) : Steady (Mirror.Backed (H := H)) (Mirror.writeVerified lba b) := by
  apply drain.bind
  intro _ m h
  apply sat_update
  apply sat_of_final
  have hgone : ∀ e ∈ (m.forget lba).cache, e.1 ≠ lba := fun e he => of_decide_eq_true (List.mem_filter.mp he).2
  exact (h.forget lba).everywhere (Dev.Backs.closed.writeOne (b := b) hgone)

theorem grow (n : Nat) : Steady (Mirror.Backed (H := H)) (Mirror.grow n) := by
  apply drain.bind
  intro _ m h
  exact sat_of_final (h.everywhere (Dev.Backs.grow n))

end Mirror.Backed

/-! ### What is written does not depend on the cache -/

namespace Mirror.Agrees

variable {m m' : Mirror H}

theorem symm (h : m.Agrees m') : m'.Agrees m := by
  rw [show m' = _ from h]
  rfl

theorem buffered : Buffered (Mirror.Agrees (H := H)) where
  pending h := h.pending
  forget := by
    intro m m' lba h
    rw [show m' = _ from h]
    rfl
  stock := by
    intro m m' p h
    rw [show m' = _ from h]
    rfl

/-- What follows does not look at the cache. -/
theorem uncached {α : Type} {f : Mirror H → Prog Error (Mirror H) α} (hf : ∀ m c u, f { m with cache := c, uses := u } = f m)
    (h : ∀ m, Parallel Mirror.Agrees (f m)) : Parallel Mirror.Agrees (state >>= f) := by
  apply parallel_state
  · intro m m' ha
    rw [show m' = _ from ha, hf]
  · exact h

theorem onA {α : Type} (x : Prog Error (Dev H) α) : Parallel Mirror.Agrees (Mirror.onA x) := by
  intro m m' h
  rw [show m' = _ from h]
  unfold Mirror.onA
  dsimp only
  split
  · exact ⟨rfl, rfl⟩
  · exact ⟨rfl, rfl⟩

theorem onB {α : Type} (x : Prog Error (Dev H) α) : Parallel Mirror.Agrees (Mirror.onB x) := by
  intro m m' h
  rw [show m' = _ from h]
  unfold Mirror.onB
  dsimp only
  split
  · exact ⟨rfl, rfl⟩
  · exact ⟨rfl, rfl⟩

theorem onBoth (x : Prog Error (Dev H) Unit) : Parallel Mirror.Agrees (Mirror.onBoth x) := by
  intro m m' h
  rw [show m' = _ from h]
  unfold Mirror.onBoth
  dsimp only
  split
  · exact ⟨rfl, rfl⟩
  · exact ⟨rfl, rfl⟩

theorem dropB : Parallel Mirror.Agrees (Mirror.dropB (H := H)) := by
  apply parallel_update
  intro m m' h
  rw [show m' = _ from h]
  rfl

theorem everywhere (x : Prog Error (Dev H) Unit) : Parallel Mirror.Agrees (Mirror.everywhere x) := by
  have hsecond : Parallel Mirror.Agrees (Mirror.onSecondary x) := by
    apply uncached
    · exact fun _ _ _ => rfl
    intro m
    split
    · exact parallel_pure _
    · apply (onB x).attempt.bind
      intro res
      split
      · exact parallel_pure _
      · exact dropB
  apply uncached
  · exact fun _ _ _ => rfl
  intro m
  split
  · exact (onA x).bind fun _ => hsecond
  · exact onB x
  · exact parallel_fail _

theorem writeVerifiedBatchNow (blocks : List (Nat × Block H)) : Parallel Mirror.Agrees (Mirror.writeVerifiedBatchNow blocks) := by
  apply (buffered.forgetAll blocks).bind
  intro _
  apply uncached
  · exact fun _ _ _ => rfl
  intro m
  apply parallel_ite
  · apply (onBoth _).bind
    intro res
    apply (parallel_lift _).bind
    intro _
    split
    · exact parallel_pure _
    · exact dropB
  · exact everywhere _

end Mirror.Agrees

/-! ### Nor does what is read -/

/-- Mirrors that differ in what is cached, all of it held by a primary without faults to come. -/
structure Mirror.SameButCache (m m' : Mirror H) : Prop where
  agrees : m.Agrees m'
  backed : m.Backed
  other : m'.Backed

namespace Mirror.SameButCache

variable {m m' : Mirror H}

theorem buffered : Buffered (Mirror.SameButCache (H := H)) where
  pending h := h.agrees.pending
  forget lba h := ⟨Mirror.Agrees.buffered.forget lba h.agrees, h.backed.forget lba, h.other.forget lba⟩
  stock p h := ⟨Mirror.Agrees.buffered.stock p h.agrees, h.backed, h.other⟩

theorem of_agrees {α : Type} {x : Prog Error (Mirror H) α} (hx : Parallel Mirror.Agrees x) (hback : Steady Mirror.Backed x) :
    Parallel Mirror.SameButCache x := by
  intro m m' h
  obtain ⟨hres, hafter⟩ := hx m m' h.agrees
  exact ⟨hres, hafter, hback.after h.backed, hback.after h.other⟩

theorem onFirst {α : Type} {x : Prog Error (Dev H) α} (hx : ∀ {d : Dev H}, d.script = [] → Still d x) :
    Parallel Mirror.SameButCache (Mirror.onFirst x) := by
  intro m m' h
  obtain ⟨d, hd, hback⟩ := h.backed
  have hrun : x.run d = ((x.run d).1, d) := Prod.ext rfl ((hx hback.script).after rfl)
  rw [Mirror.onFirst_run hd hrun, Mirror.onFirst_run (h.agrees.primary.trans hd) hrun]
  exact ⟨rfl, h⟩

theorem readFirst (lba : Nat) : Parallel Mirror.SameButCache (Mirror.onFirst (Dev.read (H := H) lba)) :=
  onFirst fun hs => Dev.read_still hs lba

theorem readRun (lba n : Nat) : Parallel Mirror.SameButCache (Mirror.readRun (H := H) lba n) := by
  have hstill : ∀ (n lba : Nat) {d : Dev H}, d.script = [] → Still d (Dev.readRun lba n) := by
    intro n
    induction n with
    | zero => exact fun _ _ _ => steady_pure _
    | succ n ih => exact fun lba _ hs => (Dev.read_still hs lba).bind fun _ => (ih _ hs).bind fun _ => steady_pure _
  exact buffered.readRun readFirst lba n (onFirst (hstill n lba))

/-- A cached read answers as the device does, whether it finds the block in the cache or not. -/
theorem readCached_eq {d : Dev H} (hd : m.primary = some d) (hback : d.Backs m.cache) {lba : Nat} (hs : m.stagedAt lba = none) :
    ((Mirror.readCached lba).run m).1 = ((Dev.read lba).run d).1 ∧ m.Agrees ((Mirror.readCached lba).run m).2 ∧
      ((Mirror.readCached lba).run m).2.Backed := by
  rcases hc : m.cache.find? (fun e => e.1 = lba) with _ | e
  · have hread : ∀ {r}, (Dev.read lba).run d = (r, d) → (Mirror.read lba).run { m with uses := m.uses + 1 } = (r, { m with uses := m.uses + 1 }) := by
      intro r hr
      have hsame : ({ m with uses := m.uses + 1 } : Mirror H).stagedAt lba = none := hs
      simp only [Mirror.read, bind_run, state_run, hsame]
      exact Mirror.onFirst_run hd hr
    by_cases hlt : lba < d.count
    · have hr := Dev.read_run hback.script hlt
      rw [hr]
      simp only [Mirror.readCached, bind_run, state_run, hs, update_run, hc, hread hr, pure_run, true_and]
      refine ⟨rfl, d, hd, hback.script, fun e he => ?_⟩
      rcases (List.mem_orderedInsert _).mp he with rfl | he
      · exact ⟨hlt, rfl⟩
      · exact hback.cached e (Mirror.mem_of_mem_evict he)
    · have hr := Dev.read_run_of_le (Nat.not_lt.mp hlt)
      rw [hr]
      simp only [Mirror.readCached, bind_run, state_run, hs, update_run, hc, hread hr, true_and]
      exact ⟨rfl, d, hd, hback⟩
  · obtain ⟨hlt, heq⟩ := hback.cached e (List.mem_of_find?_eq_some hc)
    obtain rfl : e.1 = lba := by simpa using List.find?_some hc
    rw [Dev.read_run hback.script hlt, ← heq]
    simp only [Mirror.readCached, bind_run, state_run, hs, update_run, hc, pure_run, true_and]
    refine ⟨rfl, d, hd, hback.script, fun x hx => ?_⟩
    obtain ⟨y, hy, rfl⟩ := List.mem_map.mp hx
    have hy' := hback.cached y hy
    split
    · exact hy'
    · exact hy'

theorem readCached (lba : Nat) : Parallel Mirror.SameButCache (Mirror.readCached (H := H) lba) := by
  intro m m' h
  rcases hs : m.stagedAt lba with _ | b
  · obtain ⟨d, hd, hback⟩ := h.backed
    obtain ⟨d', hd', hback'⟩ := h.other
    obtain rfl : d = d' := Option.some.inj (hd.symm.trans (h.agrees.primary.symm.trans hd'))
    obtain ⟨hres, hagrees, hafter⟩ := readCached_eq hd hback hs
    obtain ⟨hres', hagrees', hafter'⟩ := readCached_eq hd' hback' ((buffered.stagedAt h lba).trans hs)
    exact ⟨hres'.trans hres.symm, (hagrees.symm.trans h.agrees).trans hagrees', hafter, hafter'⟩
  · have hsame : ∀ {m : Mirror H}, m.stagedAt lba = some b → (Mirror.readCached lba).run m = (.ok b, m) := by
      intro m hm
      simp only [Mirror.readCached, bind_run, state_run, hm, pure_run]
    rw [hsame hs, hsame ((buffered.stagedAt h lba).trans hs)]
    exact ⟨rfl, h⟩

theorem emit (e : StorageEvent) : Parallel Mirror.SameButCache (Mirror.emit (H := H) e) := by
  apply parallel_update
  intro m m' h
  constructor
  · rw [show m' = _ from h.agrees]
    rfl
  · exact h.backed
  · exact h.other

/-- No access shows the cache. -/
theorem unseen : Unseen (Mirror.SameButCache (H := H)) where
  read := buffered.read readFirst
  readCached := readCached
  readRun := readRun
  readMany lbas := buffered.readMany readFirst lbas (onFirst fun hs => steady_collect (Dev.read_still hs) lbas)
  emit := emit
  reserve n h := buffered.reserveStaged h n
  stage lba b h := buffered.stageOne h lba b
  writeVerified lba b := of_agrees
    (Mirror.Agrees.buffered.writeVerified Mirror.Agrees.writeVerifiedBatchNow lba b (Mirror.Agrees.everywhere _)) (Mirror.Backed.writeVerified lba b)
  grow n := of_agrees
    (Mirror.Agrees.buffered.grow Mirror.Agrees.writeVerifiedBatchNow n (Mirror.Agrees.everywhere _)) (Mirror.Backed.grow n)

end Mirror.SameButCache

theorem Reached.backed {m : Mirror H} {k : Nat} {v : Vault H} (h : Reached m k v) : v.ring.mirror.Backed := by
  obtain ⟨r, com, cur, d, e, T, C, huse, -⟩ := h.serves
  have hready := huse.indexed.on.ready
  exact ⟨d, hready.primary, hready.script, hready.cached⟩

end Manifestus
