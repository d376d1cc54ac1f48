import Manifestus.Engine.Inspect
import Manifestus.Spine.Corruption

/-! The inspector's verdict on the hash chain: which rings it passes, and for which of them the verdict is that
of the links on the run down from the head. -/
set_option linter.unusedSectionVars false

namespace Manifestus
open Prog

variable {H : Type} [Crates H] {d : Dev H} {ringLog2 : Nat}

namespace Inspect

/-- The entry of generation `g`, when its slot holds it. -/
def entryAt (d : Dev H) (ringLog2 g : Nat) : Option (SpineEntry H) :=
  if g % 2 ^ ringLog2 < d.count then
    match classify (d.data (g % 2 ^ ringLog2)) (g % 2 ^ ringLog2) (some ringLog2) with
    | .valid e => if e.gen = g then some e else none
    | _ => none
  else none

/-- Every generation from `g` to the head's is there. -/
def OnRun (d : Dev H) (ringLog2 head g : Nat) : Prop :=
  g ≤ head ∧ ∀ j, g ≤ j → j ≤ head → (entryAt d ringLog2 j).isSome

/-- The links of the unbroken run down from the head: each entry names the body hash of the one before, and
generation 0 names none. -/
def ChainIntact (d : Dev H) (ringLog2 head : Nat) : Prop :=
  (∀ g, OnRun d ringLog2 head g → g < head → ∀ e ∈ entryAt d ringLog2 g, ∀ e' ∈ entryAt d ringLog2 (g + 1),
    e'.prevHash = e.bodyHash) ∧
  (OnRun d ringLog2 head 0 → ∀ e ∈ entryAt d ringLog2 0, e.prevHash = Crates.zeros)

/-- The entry of generation `g` on the run does not name what comes before it. -/
def BadLink (d : Dev H) (ringLog2 head : Nat) : Nat → Prop
  | 0 => OnRun d ringLog2 head 0 ∧ ∃ e ∈ entryAt d ringLog2 0, e.prevHash ≠ Crates.zeros
  | p + 1 => OnRun d ringLog2 head (p + 1) ∧
    ∃ e ∈ entryAt d ringLog2 p, ∃ e' ∈ entryAt d ringLog2 (p + 1), e'.prevHash ≠ e.bodyHash

/-- The run breaks off above generation 0: the generation before `g` is not there any more. -/
def RunEnds (d : Dev H) (ringLog2 head : Nat) : Nat → Prop
  | 0 => False
  | p + 1 => OnRun d ringLog2 head (p + 1) ∧ entryAt d ringLog2 p = none

theorem OnRun.here {head g : Nat} (h : OnRun d ringLog2 head g) : (entryAt d ringLog2 g).isSome :=
  h.2 g (Nat.le_refl g) h.1

theorem onRun_succ {head g : Nat} (hh : (entryAt d ringLog2 (head + 1)).isSome) :
    OnRun d ringLog2 (head + 1) g ↔ g = head + 1 ∨ OnRun d ringLog2 head g := by
  constructor
  · intro ⟨hle, hall⟩
    by_cases hg : g = head + 1
    · exact .inl hg
    · exact .inr ⟨by omega, fun j hj hjh => hall j hj (by omega)⟩
  · intro h
    cases h with
    | inl h =>
      subst h
      exact ⟨Nat.le_refl _, fun j hj hjh => by rwa [show j = head + 1 by omega]⟩
    | inr h =>
      obtain ⟨hle, hall⟩ := h
      constructor
      · omega
      · intro j hj hjh
        by_cases hjs : j = head + 1
        · rwa [hjs]
        · exact hall j hj (by omega)

theorem not_onRun {head g : Nat} (hn : entryAt d ringLog2 head = none) : ¬ OnRun d ringLog2 head g := by
  intro ⟨hle, hall⟩
  have := hall head hle (Nat.le_refl head)
  rw [hn] at this
  cases this

/-- Above a generation that is there the bad links are its own and those below. -/
theorem badLink_succ {head g : Nat} {e' : SpineEntry H} (he' : entryAt d ringLog2 (head + 1) = some e') :
    BadLink d ringLog2 (head + 1) g ↔
      (g = head + 1 ∧ ∃ e ∈ entryAt d ringLog2 head, e'.prevHash ≠ e.bodyHash) ∨ BadLink d ringLog2 head g := by
  have hrun := fun g => onRun_succ (d := d) (g := g) (by rw [he']; rfl)
  have htop : ¬ OnRun d ringLog2 head (head + 1) := fun h => Nat.not_succ_le_self head h.1
  cases g with
  | zero => simp [BadLink, hrun]
  | succ p =>
    simp only [BadLink, hrun]
    by_cases hp : p = head
    · subst hp
      simp [htop, he']
    · simp [hp]

theorem runEnds_succ {head g : Nat} (hh : (entryAt d ringLog2 (head + 1)).isSome) :
    RunEnds d ringLog2 (head + 1) g ↔
      (g = head + 1 ∧ entryAt d ringLog2 head = none) ∨ RunEnds d ringLog2 head g := by
  have hrun := fun g => onRun_succ (d := d) (g := g) hh
  have htop : ¬ OnRun d ringLog2 head (head + 1) := fun h => Nat.not_succ_le_self head h.1
  cases g with
  | zero => simp [RunEnds]
  | succ p =>
    simp only [RunEnds, hrun]
    by_cases hp : p = head
    · subst hp
      simp [htop]
    · simp [hp]

theorem chainIntact_iff {head : Nat} : ChainIntact d ringLog2 head ↔ ¬ ∃ g, BadLink d ringLog2 head g := by
  constructor
  · intro ⟨hlinks, hzero⟩ ⟨g, hbad⟩
    cases g with
    | zero =>
      obtain ⟨hrun, e, he, hne⟩ := hbad
      exact hne (hzero hrun e he)
    | succ p =>
      obtain ⟨hrun, e, he, e', he', hne⟩ := hbad
      apply hne
      apply hlinks p _ hrun.1 e he e' he'
      constructor
      · have := hrun.1
        omega
      · intro j hj hjh
        by_cases hjp : j = p
        · rw [hjp, Option.mem_def.mp he]
          rfl
        · exact hrun.2 j (by omega) hjh
  · intro h
    constructor
    · intro g hrun hg e he e' he'
      by_contra hne
      exact h ⟨g + 1, ⟨hg, fun j hj hjh => hrun.2 j (by omega) hjh⟩, e, he, e', he', hne⟩
    · intro hrun e he
      by_contra hne
      exact h ⟨0, hrun, e, he, hne⟩

/-- The links `walkChain` reports. -/
def links (d : Dev H) (ringLog2 : Nat) : Nat → H → List (Nat × Bool)
  | 0, childPrev => [(0, decide (childPrev = Crates.zeros))]
  | parentGen + 1, childPrev =>
    match entryAt d ringLog2 parentGen with
    | some parent =>
      (parentGen + 1, decide (childPrev = parent.bodyHash)) :: links d ringLog2 parentGen parent.prevHash
    | none => [(parentGen + 1, false)]

theorem walkChain_run (hs : d.script = []) (gen : Nat) (childPrev : H) :
    (walkChain ringLog2 gen childPrev).run d = (.ok (links d ringLog2 gen childPrev), d) := by
  induction gen generalizing childPrev with
  | zero => rfl
  | succ p ih =>
    unfold walkChain links entryAt
    by_cases hl : p % 2 ^ ringLog2 < d.count
    · rw [if_pos hl]
      simp only [bind_run, attempt_run, Dev.read_run hs hl]
      cases hc : classify (d.data (p % 2 ^ ringLog2)) (p % 2 ^ ringLog2) (some ringLog2) with
      | valid parent =>
        by_cases hg : parent.gen = p
        · simp only [if_pos hg, bind_run, ih]
          rfl
        · simp only [if_neg hg]
          rfl
      | empty => rfl
      | corrupt => rfl
    · rw [if_neg hl]
      simp only [bind_run, attempt_run, Dev.read_run_of_le (Nat.le_of_not_lt hl)]
      rfl

/-- What the walk down from an entry marks bad: the bad links, and where the run breaks off. -/
theorem mem_links {gen k : Nat} {e : SpineEntry H} (he : entryAt d ringLog2 gen = some e) :
    (k, false) ∈ links d ringLog2 gen e.prevHash ↔ BadLink d ringLog2 gen k ∨ RunEnds d ringLog2 gen k := by
  induction gen generalizing e with
  | zero =>
    have hrun : OnRun d ringLog2 0 0 :=
      ⟨Nat.le_refl 0, fun j _ hj => by rw [Nat.le_zero.mp hj, he]; rfl⟩
    have hno : ∀ p, ¬ OnRun d ringLog2 0 (p + 1) := fun p h => Nat.not_succ_le_zero p h.1
    cases k with
    | zero => simp [links, BadLink, RunEnds, hrun, he]
    | succ p => simp [links, BadLink, RunEnds, hno]
  | succ g ih =>
    rw [badLink_succ he, runEnds_succ (by rw [he]; rfl)]
    cases hp : entryAt d ringLog2 g with
    | some parent => simp [links, hp, ih hp, or_assoc]
    | none =>
      have hno : ∀ j, ¬ OnRun d ringLog2 g j := fun j => not_onRun hp
      cases k with
      | zero => simp [links, hp, BadLink, RunEnds, hno]
      | succ p => simp [links, hp, BadLink, RunEnds, hno]

theorem classifySlots_run (hs : d.script = []) {slots : List Nat} (hin : ∀ slot ∈ slots, slot < d.count) :
    (classifySlots ringLog2 slots).run d =
      (.ok (slots.map fun slot => (slot, classify (d.data slot) slot (some ringLog2))), d) := by
  induction slots with
  | nil => rfl
  | cons slot rest ih =>
    unfold classifySlots
    simp only [bind_run, Dev.read_run hs (hin slot List.mem_cons_self),
      ih fun s hsr => hin s (List.mem_cons_of_mem _ hsr)]
    rfl

theorem headOf_mem {slots : List (Nat × Classified H)} {slot : Nat} {e : SpineEntry H}
    (h : headOf slots = some (slot, e)) : (slot, .valid e) ∈ slots := by
  induction slots with
  | nil => cases h
  | cons s rest ih =>
    obtain ⟨t, c⟩ := s
    cases c with
    | valid f =>
      simp only [headOf] at h
      cases hr : headOf rest with
      | none =>
        simp only [hr, Option.some.injEq, Prod.mk.injEq] at h
        obtain ⟨rfl, rfl⟩ := h
        exact List.mem_cons_self
      | some x =>
        rw [hr] at h ih
        dsimp only at h
        split at h
        · exact List.mem_cons_of_mem _ (ih h)
        · cases h
          exact List.mem_cons_self
    | empty => exact List.mem_cons_of_mem _ (ih h)
    | corrupt => exact List.mem_cons_of_mem _ (ih h)

theorem discover_run (hs : d.script = []) : ∃ found, discoverRingLog2.run d = (.ok found, d) := by
  have hprobe : ∀ slots : List Nat, (∀ slot ∈ slots, slot < d.count) →
      ∃ found, (discoverRingLog2.probe slots).run d = (.ok found, d) := by
    intro slots
    induction slots with
    | nil => exact fun _ => ⟨none, rfl⟩
    | cons slot rest ih =>
      intro hin
      unfold discoverRingLog2.probe
      simp only [bind_run, Dev.read_run hs (hin slot List.mem_cons_self)]
      cases classify (d.data slot) slot none with
      | valid e => exact ⟨some e.ringLog2, rfl⟩
      | empty => exact ih fun s hsr => hin s (List.mem_cons_of_mem _ hsr)
      | corrupt => exact ih fun s hsr => hin s (List.mem_cons_of_mem _ hsr)
  obtain ⟨found, hf⟩ := hprobe (List.range (min (2 ^ 4) d.count)) fun slot h => by
    have := List.mem_range.mp h
    omega
  exact ⟨found, hf⟩

/-- On a device that answers the inspector reports the newest entry of the ring and the links down from it. -/
theorem inspectRing_run (hs : d.script = []) :
    ∃ r : RingReport H, inspectRing.run d = (.ok r, d) ∧
      r.checks = [slotsCheck r.slots, headCheck r.head, chainCheck r.ringLog2 r.chain] ∧
      ∀ slot e, r.head = some (slot, e) →
        entryAt d r.ringLog2 e.gen = some e ∧ r.chain = links d r.ringLog2 e.gen e.prevHash := by
  obtain ⟨found, hfound⟩ := discover_run hs
  have hin : ∀ slot ∈ List.range (min (2 ^ found.getD hostRingLog2) d.count), slot < d.count := by
    intro slot h
    have := List.mem_range.mp h
    omega
  have hslots := @classifySlots_run H _ d (found.getD hostRingLog2) hs _ hin
  unfold inspectRing
  simp only [bind_run, state_run, hfound, hslots]
  cases hh : headOf ((List.range (min (2 ^ found.getD hostRingLog2) d.count)).map
      fun slot => (slot, classify (d.data slot) slot (some (found.getD hostRingLog2)))) with
  | none =>
    simp only [bind_run, pure_run]
    exact ⟨_, rfl, rfl, fun slot e h => nomatch h⟩
  | some h =>
    obtain ⟨slot, e⟩ := h
    simp only [bind_run, walkChain_run hs, pure_run]
    exists _, rfl, rfl
    intro slot' e' h'
    cases h'
    constructor
    · obtain ⟨s, hs', hse⟩ := List.mem_map.mp (headOf_mem hh)
      obtain ⟨rfl, hc⟩ := Prod.mk.inj hse
      have hlt := List.mem_range.mp hs'
      have hgen := gen_of_valid hc
      unfold entryAt
      rw [hgen, if_pos (by omega), hc]
      exact if_pos rfl
    · rfl

theorem passes_chain {r : RingReport H}
    (h : r.checks = [slotsCheck r.slots, headCheck r.head, chainCheck r.ringLog2 r.chain]) :
    r.passes "hash chain intact" = true ↔ ∀ k < 2 ^ r.ringLog2, (k, false) ∉ r.chain := by
  have hpass : r.passes "hash chain intact" = (chainCheck r.ringLog2 r.chain).pass := by
    simp [RingReport.passes, h, slotsCheck, headCheck, chainCheck]
  rw [hpass]
  simp only [chainCheck, decide_eq_true_eq, List.countP_eq_zero]
  constructor
  · intro h k hk hmem
    exact h (k, false) hmem (by simpa using hk)
  · intro h l hl hbad
    obtain ⟨k, good⟩ := l
    simp only [Bool.and_eq_true, Bool.not_eq_eq_eq_not, Bool.not_true, decide_eq_true_eq] at hbad
    obtain ⟨rfl, hk⟩ := hbad
    exact h k hk hl

/-- The chain check of a ring with a head says what the links on the run down from the head say exactly when
either the run breaks off below generation `N` and a link of it is bad, or it does not and any bad link has
one below `N` beside it. -/
theorem chain_check_iff (hs : d.script = []) {r : RingReport H} {d' : Dev H}
    (hr : inspectRing.run d = (.ok r, d')) {slot : Nat} {e : SpineEntry H} (hh : r.head = some (slot, e)) :
    (r.passes "hash chain intact" = true ↔ ChainIntact d r.ringLog2 e.gen) ↔
      ((∃ g < 2 ^ r.ringLog2, RunEnds d r.ringLog2 e.gen g) ∧ (∃ g, BadLink d r.ringLog2 e.gen g)) ∨
      ((¬ ∃ g < 2 ^ r.ringLog2, RunEnds d r.ringLog2 e.gen g) ∧
        ((∃ g, BadLink d r.ringLog2 e.gen g) → ∃ g < 2 ^ r.ringLog2, BadLink d r.ringLog2 e.gen g)) := by
  obtain ⟨r', hr', hchecks, hhead⟩ := inspectRing_run hs
  obtain ⟨hrr, -⟩ := Prod.mk.inj (hr.symm.trans hr')
  cases hrr
  obtain ⟨hentry, hchain⟩ := hhead slot e hh
  have hpass : r.passes "hash chain intact" = true ↔
      (¬ ∃ g < 2 ^ r.ringLog2, BadLink d r.ringLog2 e.gen g) ∧
        ¬ ∃ g < 2 ^ r.ringLog2, RunEnds d r.ringLog2 e.gen g := by
    rw [passes_chain hchecks, hchain]
    constructor
    · intro h
      constructor
      · intro ⟨g, hg, hb⟩
        exact h g hg ((mem_links hentry).mpr (.inl hb))
      · intro ⟨g, hg, hb⟩
        exact h g hg ((mem_links hentry).mpr (.inr hb))
    · intro ⟨hbad, hends⟩ k hk hmem
      cases (mem_links hentry).mp hmem with
      | inl hb => exact hbad ⟨k, hk, hb⟩
      | inr hb => exact hends ⟨k, hk, hb⟩
  have hsome : (∃ g < 2 ^ r.ringLog2, BadLink d r.ringLog2 e.gen g) → ∃ g, BadLink d r.ringLog2 e.gen g :=
    fun ⟨g, _, hb⟩ => ⟨g, hb⟩
  rw [hpass, chainIntact_iff]
  generalize (∃ g < 2 ^ r.ringLog2, BadLink d r.ringLog2 e.gen g) = below at hsome ⊢
  generalize (∃ g, BadLink d r.ringLog2 e.gen g) = bad at hsome ⊢
  generalize (∃ g < 2 ^ r.ringLog2, RunEnds d r.ringLog2 e.gen g) = ends
  tauto

end Inspect

section Lapping

private def unwritten : Dev Digest := ⟨16, fun _ => .zero, none, [], []⟩

/-- The device of a fixed vault on two slots after `n` commits. -/
def committedDev (n : Nat) : Dev Digest :=
  match (Vault.open 1 0 .unlinkOnly).run (Mirror.new unwritten unwritten) with
  | (.ok v, _) =>
    match (each (fun i => Vault.commit (Int.ofNat i)) (List.range n)).run v with
    | (.ok _, v) => v.ring.mirror.a.getD unwritten
    | _ => unwritten
  | _ => unwritten

/-- The inspector's report of a device, when it gives one. -/
def inspected (d : Dev Digest) : Option (RingReport Digest) := (Inspect.inspectRing.run d).1.toOption

private theorem committed_script : (committedDev 2).script = [] :=
  List.isEmpty_iff.mp (by decide +kernel)

/-- After two commits the oldest generation on two slots is 1. -/
theorem chain_check_iff_lapped :
    ∃ r : RingReport Digest, ∃ slot : Nat, ∃ e : SpineEntry Digest,
      Inspect.inspectRing.run (committedDev 2) = (.ok r, committedDev 2) ∧ r.head = some (slot, e) ∧
      ((r.passes "hash chain intact" = true ↔ Inspect.ChainIntact (committedDev 2) r.ringLog2 e.gen) ↔
        ((∃ g < 2 ^ r.ringLog2, Inspect.RunEnds (committedDev 2) r.ringLog2 e.gen g) ∧
          (∃ g, Inspect.BadLink (committedDev 2) r.ringLog2 e.gen g)) ∨
        ((¬ ∃ g < 2 ^ r.ringLog2, Inspect.RunEnds (committedDev 2) r.ringLog2 e.gen g) ∧
          ((∃ g, Inspect.BadLink (committedDev 2) r.ringLog2 e.gen g) →
            ∃ g < 2 ^ r.ringLog2, Inspect.BadLink (committedDev 2) r.ringLog2 e.gen g))) := by
  obtain ⟨r, hr, -, -⟩ := Inspect.inspectRing_run committed_script
  have hhead : ((inspected (committedDev 2)).bind RingReport.head).isSome = true := by decide +kernel
  rw [inspected, hr] at hhead
  obtain ⟨⟨slot, e⟩, hh⟩ := Option.isSome_iff_exists.mp hhead
  exact ⟨r, slot, e, hr, hh, Inspect.chain_check_iff committed_script hr hh⟩

/-- Two commits of a fixed vault on two slots leave generations 1 and 2, rightly linked, and the check counts the
parent of generation 1 as broken: generation 2 lapped it out. -/
theorem lapped_ring_refused :
    ((inspected (committedDev 2)).map fun r => r.passes "hash chain intact") = some false ∧
      ((inspected (committedDev 2)).bind fun r => r.head.map fun h => (r.ringLog2, h.2.gen)) = some (1, 2) ∧
      Inspect.ChainIntact (committedDev 2) 1 2 := by
  have hnone : (Inspect.entryAt (committedDev 2) 1 0).isSome = false := by decide +kernel
  have hlink : ∀ e ∈ Inspect.entryAt (committedDev 2) 1 1, ∀ e' ∈ Inspect.entryAt (committedDev 2) 1 2,
      e'.prevHash = e.bodyHash := by decide +kernel
  constructor
  · decide +kernel
  · constructor
    · decide +kernel
    · constructor
      · intro g hrun hg
        match g with
        | 0 => exact absurd hrun.here (by simp [hnone])
        | 1 => exact hlink
      · intro hrun
        exact absurd hrun.here (by simp [hnone])

end Lapping

end Manifestus
