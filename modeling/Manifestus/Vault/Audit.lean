import Manifestus.Spine.Inspect
import Manifestus.Vault.Ledger

/-! What the inspector reports of a fixed vault under way: it finds the head of the engine, and each of its
verdicts on the spine is settled by the generations and by whether the slot after the head is torn. -/
set_option linter.unusedSectionVars false

namespace Manifestus
open Prog

variable {H : Type} [Crates H] {d : Dev H} {e : SpineEntry H} {r k : Nat} {m : Mirror H}

/-- Neither blank nor sealed. -/
def Block.torn : Block H → Bool
  | .raw _ => true
  | _ => false

/-- The oldest generation that a ring with the head `e` still shows. -/
def Dev.oldest (d : Dev H) (r : Nat) (e : SpineEntry H) : Nat :=
  if e.gen + 1 < 2 ^ r then 0
  else if (d.data ((e.gen + 1) % 2 ^ r)).torn then e.gen + 2 - 2 ^ r
  else e.gen + 1 - 2 ^ r

namespace Inspect

/-- The reported head is the greatest generation. -/
theorem le_headOf {slots : List (Nat × Classified H)} {s : Nat} {x : SpineEntry H} (h : (s, .valid x) ∈ slots) :
    ∃ t y, headOf slots = some (t, y) ∧ x.gen ≤ y.gen := by
  induction slots with
  | nil => cases h
  | cons c rest ih =>
    obtain ⟨t, c⟩ := c
    cases List.mem_cons.mp h with
    | inl heq =>
      cases heq
      cases hrest : headOf rest with
      | none =>
        exists s, x
        simp [headOf, hrest]
      | some y =>
        by_cases hle : x.gen ≤ y.2.gen
        · exact ⟨y.1, y.2, by simp [headOf, hrest, hle], hle⟩
        · exact ⟨s, x, by simp [headOf, hrest, hle], le_rfl⟩
    | inr hrest =>
      obtain ⟨u, y, hy, hle⟩ := ih hrest
      cases c with
      | empty => exact ⟨u, y, hy, hle⟩
      | corrupt => exact ⟨u, y, hy, hle⟩
      | valid z =>
        by_cases hz : z.gen ≤ y.gen
        · exact ⟨u, y, by simp [headOf, hy, hz], hle⟩
        · exact ⟨t, z, by simp [headOf, hy, hz], by omega⟩

end Inspect

namespace Spine

variable (h : Spine r d.data e)
include h

/-- What each slot of the ring reads as. -/
theorem slot_cases {s : Nat} (hs : s < 2 ^ r) :
    (classify (d.data s) s (some r) = .corrupt ∧ (d.data s).torn = true ∧ s = (e.gen + 1) % 2 ^ r) ∨
    (classify (d.data s) s (some r) = .empty ∧ (d.data s).torn = false ∧ e.gen < s) ∨
    ∃ x, classify (d.data s) s (some r) = .valid x ∧ (d.data s).torn = false ∧ x.gen ≤ e.gen ∧ e.gen < x.gen + 2 ^ r ∧
      x.gen % 2 ^ r = s := by
  rcases h.slots s hs with ⟨hnext, id, hraw⟩ | ⟨hzero, hlt⟩ | ⟨x, hx, hfits, hle, hlap, hmod⟩
  · left
    rw [hraw]
    exact ⟨rfl, rfl, hnext⟩
  · right
    left
    rw [hzero]
    exact ⟨rfl, rfl, hlt⟩
  · right
    right
    subst hmod
    rw [hx]
    exact ⟨x, classify_encode hfits.sane hfits.log2 hfits.one_le hfits.le, rfl, hle, hlap, rfl⟩

/-- The generations a ring shows are those from the oldest to the head. -/
theorem entryAt_isSome (hfit : 2 ^ r ≤ d.count) (g : Nat) :
    (Inspect.entryAt d r g).isSome ↔ d.oldest r e ≤ g ∧ g ≤ e.gen := by
  have hpos : 0 < 2 ^ r := Nat.two_pow_pos r
  have hlt : g % 2 ^ r < 2 ^ r := Nat.mod_lt g hpos
  unfold Inspect.entryAt
  rw [if_pos (hlt.trans_le hfit)]
  unfold Dev.oldest
  constructor
  · intro hsome
    rcases h.slot_cases hlt with ⟨hc, -⟩ | ⟨hc, -⟩ | ⟨x, hc, htorn, hle, hlap, -⟩ <;> rw [hc] at hsome
    · cases hsome
    · cases hsome
    · have hgen : x.gen = g := by
        by_contra hne
        simp [hne] at hsome
      subst hgen
      constructor
      · split
        · exact Nat.zero_le _
        · split
          next hraw =>
            -- the torn slot would be the one of this generation
            by_contra hold
            have hlast : e.gen + 1 = x.gen + 2 ^ r := by omega
            rw [hlast, Nat.add_mod_right, htorn] at hraw
            cases hraw
          · omega
      · exact hle
  · intro hin
    obtain ⟨hold, hle⟩ := hin
    have hlap : e.gen < g + 2 ^ r := by
      split at hold
      · omega
      · split at hold <;> omega
    rcases h.slot_cases hlt with ⟨-, htorn, hnext⟩ | ⟨-, -, hgt⟩ | ⟨x, hc, -, hxle, hxlap, hxmod⟩
    · exfalso
      have hdvd : 2 ^ r ∣ e.gen + 1 - g := (Nat.modEq_iff_dvd' (by omega)).mp hnext
      have hbig := Nat.le_of_dvd (by omega) hdvd
      rw [← hnext, htorn, if_pos rfl] at hold
      split at hold <;> omega
    · have hmod := Nat.mod_le g (2 ^ r)
      omega
    · rw [hc]
      have hx := lap_gen hpos hxle hxlap hxmod
      have hg := lap_gen hpos hle hlap (rfl : g % 2 ^ r = _)
      have hgen : x.gen = g := by split at hx <;> split at hg <;> omega
      simp [hgen]

/-- The ring is found from its first blocks. -/
theorem discover_run (hs : d.script = []) (hfit : 2 ^ r ≤ d.count) : Inspect.discoverRingLog2.run d = (.ok (some r), d) := by
  have h2 := h.fits.two_le
  obtain ⟨k, hk⟩ : ∃ k, min (2 ^ 4) d.count = k + 2 := ⟨min (2 ^ 4) d.count - 2, by omega⟩
  have hrange : List.range (k + 2) = 0 :: 1 :: (List.range k).map (· + 2) := by
    rw [List.range_succ_eq_map, List.range_succ_eq_map]
    simp [Function.comp_def]
  have hread : ∀ s < 2 ^ r, (Dev.read s).run d = (.ok (d.data s), d) := fun s hlt => Dev.read_run hs (hlt.trans_le hfit)
  have hentry : ∀ s < 2 ^ r, ∀ x : SpineEntry H, d.data s = x.encode → x.Fits r → x.gen % 2 ^ r = s →
      classify (d.data s) s none = .valid x := by
    intro s _ x hx hfits hmod
    rw [hx, ← hmod]
    exact classify_none hfits
  unfold Inspect.discoverRingLog2
  simp only [bind_run, state_run, hk, hrange]
  simp only [Inspect.discoverRingLog2.probe, bind_run, hread 0 (by omega)]
  rcases h.slots 0 (by omega) with ⟨hnext, id, hraw⟩ | ⟨-, hlt⟩ | ⟨x, hx, hxf, -, -, hmod⟩
  · -- a torn first block leaves the second one
    have hfirst : classify (d.data 0) 0 none = .corrupt := by rw [hraw]; rfl
    rw [hfirst]
    simp only [bind_run, hread 1 (by omega)]
    rcases h.slots 1 (by omega) with ⟨hnext', -⟩ | ⟨-, hlt⟩ | ⟨x, hx, hxf, -, -, hmod⟩
    · omega
    · obtain hg : e.gen = 0 := by omega
      rw [hg, Nat.zero_add, Nat.mod_eq_of_lt (by omega)] at hnext
      omega
    · rw [hentry 1 (by omega) x hx hxf hmod]
      simp [hxf.log2]
  · omega
  · rw [hentry 0 (by omega) x hx hxf hmod]
    simp [hxf.log2]

/-- The inspector's head is the engine's. -/
theorem headOf_slots : Inspect.headOf ((List.range (2 ^ r)).map fun s => (s, classify (d.data s) s (some r))) =
    some (e.gen % 2 ^ r, e) := by
  have hlt : e.gen % 2 ^ r < 2 ^ r := Nat.mod_lt _ (Nat.two_pow_pos r)
  have hvalid : classify (d.data (e.gen % 2 ^ r)) (e.gen % 2 ^ r) (some r) = .valid e := by
    rw [h.head]
    exact classify_encode h.fits.sane h.fits.log2 h.fits.one_le h.fits.le
  have hmem : (e.gen % 2 ^ r, .valid e) ∈ (List.range (2 ^ r)).map fun s => (s, classify (d.data s) s (some r)) :=
    List.mem_map.mpr ⟨_, List.mem_range.mpr hlt, by rw [hvalid]⟩
  obtain ⟨t, y, hy, hge⟩ := Inspect.le_headOf hmem
  obtain ⟨s, hs, heq⟩ := List.mem_map.mp (Inspect.headOf_mem hy)
  obtain ⟨rfl, hc⟩ := Prod.mk.inj heq
  obtain ⟨-, -, hle, -, hmod⟩ := h.slot_gen (List.mem_range.mp hs) hc
  obtain rfl : s = e.gen % 2 ^ r := by rw [← hmod]; congr 1; omega
  obtain rfl : e = y := by simpa [hvalid] using hc
  exact hy

/-- The report on a ring. -/
theorem inspectRing_run (hs : d.script = []) (hfit : 2 ^ r ≤ d.count) :
    ∃ report : RingReport H, Inspect.inspectRing.run d = (.ok report, d) ∧ report.ringLog2 = r ∧
      report.tractBase = 2 ^ r ∧ report.tractBlocksField = some e.tractBlocks ∧ report.head = some (e.gen % 2 ^ r, e) ∧
      report.slots = (List.range (2 ^ r)).map (fun s => (s, classify (d.data s) s (some r))) ∧
      report.chain = Inspect.links d r e.gen e.prevHash ∧
      report.checks = [Inspect.slotsCheck report.slots, Inspect.headCheck report.head,
        Inspect.chainCheck report.ringLog2 report.chain] := by
  have hmin : min (2 ^ r) d.count = 2 ^ r := Nat.min_eq_left hfit
  have hslots : (Inspect.classifySlots r (List.range (2 ^ r))).run d =
      (.ok ((List.range (2 ^ r)).map fun s => (s, classify (d.data s) s (some r))), d) :=
    Inspect.classifySlots_run hs fun s hs' => (List.mem_range.mp hs').trans_le hfit
  unfold Inspect.inspectRing
  simp only [bind_run, state_run, h.discover_run hs hfit, Option.getD_some, hmin, hslots, h.headOf_slots,
    Inspect.walkChain_run hs, pure_run]
  exact ⟨_, rfl, rfl, rfl, rfl, rfl, rfl, rfl, rfl⟩

/-- The check of the slots passes unless the slot after the head is torn. -/
theorem slotsCheck_pass : (Inspect.slotsCheck ((List.range (2 ^ r)).map fun s => (s, classify (d.data s) s (some r)))).pass = true ↔
    (d.data ((e.gen + 1) % 2 ^ r)).torn = false := by
  simp only [Inspect.slotsCheck, decide_eq_true_eq, List.countP_eq_zero, List.mem_map, List.mem_range, forall_exists_index,
    and_imp, forall_apply_eq_imp_iff₂]
  constructor
  · intro hnone
    have hlt : (e.gen + 1) % 2 ^ r < 2 ^ r := Nat.mod_lt _ (Nat.two_pow_pos r)
    rcases h.slot_cases hlt with ⟨hc, -⟩ | ⟨-, htorn, -⟩ | ⟨x, -, htorn, -⟩
    · have hcorrupt := hnone _ hlt
      rw [hc] at hcorrupt
      exact absurd rfl hcorrupt
    · exact htorn
    · exact htorn
  · intro htorn s hs
    rcases h.slot_cases hs with ⟨-, hraw, hnext⟩ | ⟨hc, -⟩ | ⟨x, hc, -⟩
    · rw [hnext, htorn] at hraw
      cases hraw
    · rw [hc]
      exact Bool.false_ne_true
    · rw [hc]
      exact Bool.false_ne_true

/-- Of a ring with one history the chain's check passes unless the oldest generation is one that a first lap
numbers, and not the first. -/
theorem chainCheck_pass {hist : Nat → SpineEntry H} {n : Nat} (hfit : 2 ^ r ≤ d.count) (hhist : Chronicle hist n)
    (hrec : ∀ l, Numbered r hist n l (d.data l)) :
    (Inspect.chainCheck r (Inspect.links d r e.gen e.prevHash)).pass = true ↔ d.oldest r e = 0 ∨ 2 ^ r ≤ d.oldest r e := by
  have hsome := h.entryAt_isSome hfit
  have holdest : d.oldest r e ≤ e.gen := by
    have h2 := h.fits.two_le
    unfold Dev.oldest
    split
    · exact Nat.zero_le _
    · split <;> omega
  have hentry : ∀ g x, x ∈ Inspect.entryAt d r g → g < n ∧ hist g = x := by
    intro g x hx
    have hlt : g % 2 ^ r < 2 ^ r := Nat.mod_lt _ (Nat.two_pow_pos r)
    unfold Inspect.entryAt at hx
    rw [if_pos (hlt.trans_le hfit)] at hx
    split at hx
    next y hy =>
      by_cases hgen : y.gen = g
      · rw [if_pos hgen] at hx
        obtain rfl : y = x := Option.some.inj hx
        exact hgen ▸ hrec _ hlt y hy
      · rw [if_neg hgen] at hx
        cases hx
    · cases hx
  have hgood : ∀ g, ¬ Inspect.BadLink d r e.gen g := by
    intro g hbad
    cases g with
    | zero =>
      obtain ⟨-, x, hx, hne⟩ := hbad
      obtain ⟨hlt, rfl⟩ := hentry 0 x hx
      exact hne (hhist.first hlt)
    | succ p =>
      obtain ⟨-, x, hx, y, hy, hne⟩ := hbad
      obtain ⟨-, rfl⟩ := hentry p x hx
      obtain ⟨hlt, rfl⟩ := hentry (p + 1) y hy
      exact hne (hhist.next p hlt)
  have hends : ∀ g, Inspect.RunEnds d r e.gen g ↔ 0 < g ∧ g = d.oldest r e := by
    intro g
    cases g with
    | zero => simp [Inspect.RunEnds]
    | succ p =>
      constructor
      · intro hend
        obtain ⟨⟨hle, hall⟩, hnone⟩ := hend
        have hp : ¬ (Inspect.entryAt d r p).isSome := by simp [hnone]
        rw [hsome] at hp
        have hnext := (hsome (p + 1)).mp (hall (p + 1) le_rfl hle)
        omega
      · intro hold
        obtain ⟨-, heq⟩ := hold
        have hp : ¬ (Inspect.entryAt d r p).isSome := by
          rw [hsome]
          omega
        refine ⟨⟨heq ▸ holdest, fun j hj hje => (hsome j).mpr ⟨heq ▸ hj, hje⟩⟩, ?_⟩
        simpa using hp
  have hhead : Inspect.entryAt d r e.gen = some e := by
    obtain ⟨x, hx⟩ := Option.isSome_iff_exists.mp ((hsome e.gen).mpr ⟨holdest, le_rfl⟩)
    have hlt : e.gen % 2 ^ r < 2 ^ r := Nat.mod_lt _ (Nat.two_pow_pos r)
    have hvalid : classify (d.data (e.gen % 2 ^ r)) (e.gen % 2 ^ r) (some r) = .valid e := by
      rw [h.head]
      exact classify_encode h.fits.sane h.fits.log2 h.fits.one_le h.fits.le
    rw [hx, (hentry e.gen x hx).2.symm, (hrec _ hlt e hvalid).2]
  simp only [Inspect.chainCheck, decide_eq_true_eq, List.countP_eq_zero]
  constructor
  · intro hnone
    by_contra hlow
    have hmem : (d.oldest r e, false) ∈ Inspect.links d r e.gen e.prevHash := by
      rw [Inspect.mem_links hhead, hends]
      exact .inr ⟨by omega, rfl⟩
    apply hnone _ hmem
    simp only [Bool.not_false, Bool.true_and, decide_eq_true_eq]
    omega
  · intro hlow link hmem hbad
    obtain ⟨g, good⟩ := link
    simp only [Bool.and_eq_true, Bool.not_eq_eq_eq_not, Bool.not_true, decide_eq_true_eq] at hbad
    obtain ⟨rfl, hlt⟩ := hbad
    cases (Inspect.mem_links hhead).mp hmem with
    | inl hlink => exact hgood g hlink
    | inr hend =>
      have heq := (hends g).mp hend
      omega

end Spine

end Manifestus
