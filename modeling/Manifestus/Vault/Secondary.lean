import Manifestus.Vault.Unseen

/-! What a vault on two devices shows of the second: nothing. -/
set_option linter.unusedSectionVars false

namespace Manifestus
open Prog

variable {H : Type} [Crates H]

/-- Mirrors on the same primary, with the same staged and cached: the secondary, there or not, and what became of
it may differ. -/
structure Mirror.SamePrimary (m m' : Mirror H) : Prop where
  primary : m.a.isSome
  a : m'.a = m.a
  pending : m'.pending = m.pending
  cache : m'.cache = m.cache
  uses : m'.uses = m.uses

namespace Mirror.SamePrimary

variable {m m' m₁ m₁' : Mirror H}

theorem buffered : Buffered (SamePrimary (H := H)) where
  pending h := h.pending
  forget lba h := { h with cache := by simp only [Mirror.forget, h.cache] }
  stock p h := { h with pending := rfl }

/-- Reads go to the primary. -/
theorem onFirst {α : Type} (x : Prog Error (Dev H) α) : Parallel SamePrimary (Mirror.onFirst x) := by
  intro m m' h
  obtain ⟨d, hd⟩ := Option.isSome_iff_exists.mp h.primary
  have hd' := h.a.trans hd
  unfold Mirror.onFirst
  simp only [hd, hd', true_and]
  exact { h with primary := rfl, a := rfl }

/-- A change of a part that both have. -/
theorem update {f : Mirror H → Mirror H} (hf : ∀ {m m' : Mirror H}, m.SamePrimary m' → (f m).SamePrimary (f m')) :
    Parallel SamePrimary (Prog.update f : Prog Error (Mirror H) Unit) := parallel_update fun _ _ h => hf h

theorem read (lba : Nat) : Parallel (SamePrimary (H := H)) (Mirror.read lba) := buffered.read (fun _ => onFirst _) lba

theorem readCached (lba : Nat) : Parallel (SamePrimary (H := H)) (Mirror.readCached lba) := by
  apply parallel_state
  · intro m m' h
    rw [buffered.stagedAt h, h.cache]
  · intro m
    split
    · exact parallel_pure _
    · apply Parallel.bind
      · exact update fun h => { h with uses := by rw [h.uses] }
      intro _
      split
      · apply Parallel.bind
        · exact update fun h => { h with cache := by rw [h.cache, h.uses] }
        · exact fun _ => parallel_pure _
      · apply (read lba).bind
        intro b
        apply Parallel.bind
        · exact update fun h => { h with cache := by rw [h.cache, h.uses] }
        · exact fun _ => parallel_pure _

theorem emit (e : StorageEvent) : Parallel (SamePrimary (H := H)) (Mirror.emit e) := update fun h => { h with }

/-! ### Writes -/

/-- The primary of `m` is `d`, and all else that counts is as in `m₀`. -/
def Left (m₀ : Mirror H) (d : Dev H) (m : Mirror H) : Prop :=
  m.a = some d ∧ m.pending = m₀.pending ∧ m.cache = m₀.cache ∧ m.uses = m₀.uses

/-- Whatever becomes of the secondary. -/
theorem onSecondary_left (x : Prog Error (Dev H) Unit) {d : Dev H} (h : Left m₁ d m) :
    ((Mirror.onSecondary x).run m).1 = .ok () ∧ Left m₁ d ((Mirror.onSecondary x).run m).2 := by
  rcases hb : m.b with _ | b
  · simp only [Mirror.onSecondary, bind_run, state_run, hb, pure_run]
    exact ⟨trivial, h⟩
  · rcases hx : x.run b with ⟨_ | _, b'⟩
    · simp only [Mirror.onSecondary, Mirror.onB, Mirror.dropB, bind_run, state_run, attempt_run, update_run, hb, hx]
      exact ⟨trivial, h⟩
    · simp only [Mirror.onSecondary, Mirror.onB, bind_run, state_run, attempt_run, pure_run, hb, hx]
      exact ⟨trivial, h⟩

/-- A write phase ends as it does on the primary. -/
theorem everywhere_left (x : Prog Error (Dev H) Unit) {d : Dev H} (h : m.a = some d) :
    ((Mirror.everywhere x).run m).1 = (x.run d).1 ∧ Left m (x.run d).2 ((Mirror.everywhere x).run m).2 := by
  rcases hx : x.run d with ⟨_ | _, d'⟩
  · simp only [Mirror.everywhere, Mirror.onA, bind_run, state_run, h, hx]
    exact ⟨trivial, rfl, rfl, rfl, rfl⟩
  · simp only [Mirror.everywhere, Mirror.onA, bind_run, state_run, h, hx]
    exact onSecondary_left x ⟨rfl, rfl, rfl, rfl⟩

/-- So does one on both devices at once. -/
theorem onBoth_left (x : Prog Error (Dev H) Unit) {d : Dev H} (h : m.a = some d) (hb : m.b.isSome)
    {y : Prog Error (Mirror H) Unit} (hy : y = do
      let (ra, rb) ← Mirror.onBoth x
      lift ra
      match rb with
      | .ok _ => pure ()
      | .error _ => Mirror.dropB) :
    (y.run m).1 = (x.run d).1 ∧ Left m (x.run d).2 (y.run m).2 := by
  obtain ⟨b, hb⟩ := Option.isSome_iff_exists.mp hb
  rcases hx : x.run d with ⟨_ | _, d'⟩
  · simp only [hy, Mirror.onBoth, bind_run, h, hb, hx, lift_run]
    exact ⟨trivial, rfl, rfl, rfl, rfl⟩
  · rcases hz : x.run b with ⟨_ | _, b'⟩
    · simp only [hy, Mirror.onBoth, Mirror.dropB, bind_run, h, hb, hx, hz, lift_run, update_run]
      exact ⟨trivial, rfl, rfl, rfl, rfl⟩
    · simp only [hy, Mirror.onBoth, bind_run, h, hb, hx, hz, lift_run, pure_run]
      exact ⟨trivial, rfl, rfl, rfl, rfl⟩

/-- What ends as it does on the primary shows no other difference. -/
theorem of_left {x : Prog Error (Dev H) Unit} {y : Prog Error (Mirror H) Unit}
    (hy : ∀ {m : Mirror H} {d : Dev H}, m.a = some d → (y.run m).1 = (x.run d).1 ∧ Left m (x.run d).2 (y.run m).2) :
    Parallel SamePrimary y := by
  intro m m' h
  obtain ⟨d, hd⟩ := Option.isSome_iff_exists.mp h.primary
  obtain ⟨hres, ha, hp, hc, hu⟩ := hy hd
  obtain ⟨hres', ha', hp', hc', hu'⟩ := hy (h.a.trans hd)
  apply And.intro (hres'.trans hres.symm)
  constructor
  · rw [ha]
    rfl
  · exact ha'.trans ha.symm
  · rw [hp', hp, h.pending]
  · rw [hc', hc, h.cache]
  · rw [hu', hu, h.uses]

theorem everywhere (x : Prog Error (Dev H) Unit) : Parallel SamePrimary (Mirror.everywhere x) := of_left fun hd => everywhere_left x hd

theorem writeVerifiedBatchNow (blocks : List (Nat × Block H)) : Parallel SamePrimary (Mirror.writeVerifiedBatchNow blocks) := by
  apply (buffered.forgetAll blocks).bind
  intro _
  apply of_left
  intro m d hd
  rw [bind_run, state_run]
  dsimp only
  split
  next hboth => exact onBoth_left _ hd hboth.2.1 rfl
  · exact everywhere_left _ hd

/-- No access shows the secondary. -/
theorem unseen : Unseen (SamePrimary (H := H)) where
  read := read
  readCached := readCached
  readRun lba n := buffered.readRun (fun _ => onFirst _) lba n (onFirst _)
  readMany lbas := buffered.readMany (fun _ => onFirst _) lbas (onFirst _)
  emit := emit
  reserve n h := buffered.reserveStaged h n
  stage lba b h := buffered.stageOne h lba b
  writeVerified lba b := buffered.writeVerified writeVerifiedBatchNow lba b (everywhere _)
  grow n := buffered.grow writeVerifiedBatchNow n (everywhere _)

end Mirror.SamePrimary

/-- A blank secondary that fails its `n`th access, next to a blank primary without fault. -/
def Digest.failing (n : Nat) : Mirror Digest :=
  .new ⟨24, fun _ => .zero, none, [], []⟩ ⟨24, fun _ => .zero, none, List.replicate n none ++ [some .lost], []⟩

end Manifestus
