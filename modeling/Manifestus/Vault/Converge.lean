import Manifestus.Engine.Replicate
import Manifestus.Vault.Reached

/-! Replication from a device with a sound vault onto one whose spine lags: the winner is only read, the loser
ends with the winner's ring and index, and nothing else of it is touched. -/
set_option linter.unusedSectionVars false

namespace Manifestus
open Prog Pair

variable {H : Type} [Crates H] {d s : Dev H} {p : Pair H} {r : Nat} {e : SpineEntry H} {T : Tree H}

/-! ### What each device shows -/

/-- The scan keeps the greatest generation it has met. -/
theorem bestGen_go_run (hs : d.script = []) (ringLog2 base : Nat) :
    ∀ (slots : List Nat) (best : Option Nat) (slot : Nat), (∀ t ∈ slots, base + t < d.count) →
      ∃ res, (bestGen.go ringLog2 base best slot slots).run d = (.ok res, d) ∧
        (∀ g, best = some g → ∃ g', res.1 = some g' ∧ g ≤ g') ∧
        (∀ t ∈ slots, ∀ x, classify (d.data (base + t)) t (some ringLog2) = .valid x → ∃ g, res.1 = some g ∧ x.gen ≤ g) ∧
        (res = (best, slot) ∨ ∃ t ∈ slots, ∃ x, classify (d.data (base + t)) t (some ringLog2) = .valid x ∧
          res = (some x.gen, t)) := by
  intro slots
  induction slots with
  | nil =>
    intro best slot _
    exact ⟨_, rfl, fun g hg => ⟨g, hg, le_rfl⟩, by simp, .inl rfl⟩
  | cons t slots ih =>
    intro best slot hbound
    obtain ⟨ht, hrest⟩ := List.forall_mem_cons.mp hbound
    have hread := Dev.read_run hs ht
    -- what the scan of the rest gives, from whatever is kept of this slot
    have hkeep : ∀ {best' : Option Nat} {slot' : Nat}, (∀ g, best = some g → ∃ g', best' = some g' ∧ g ≤ g') →
        (∀ x, classify (d.data (base + t)) t (some ringLog2) = .valid x → ∃ g, best' = some g ∧ x.gen ≤ g) →
        ((best', slot') = (best, slot) ∨ ∃ x, classify (d.data (base + t)) t (some ringLog2) = .valid x ∧
          (best', slot') = (some x.gen, t)) →
        ∃ res, (bestGen.go ringLog2 base best' slot' slots).run d = (.ok res, d) ∧
          (∀ g, best = some g → ∃ g', res.1 = some g' ∧ g ≤ g') ∧
          (∀ u ∈ t :: slots, ∀ x, classify (d.data (base + u)) u (some ringLog2) = .valid x → ∃ g, res.1 = some g ∧ x.gen ≤ g) ∧
          (res = (best, slot) ∨ ∃ u ∈ t :: slots, ∃ x, classify (d.data (base + u)) u (some ringLog2) = .valid x ∧
            res = (some x.gen, u)) := by
      intro best' slot' hbest hvalid hfrom
      obtain ⟨res, hrun, hge, hall, hres⟩ := ih best' slot' hrest
      have hup : ∀ {g : Nat}, (∃ g', best' = some g' ∧ g ≤ g') → ∃ g', res.1 = some g' ∧ g ≤ g' := by
        intro g ⟨g', hg', hle⟩
        obtain ⟨g'', hg'', hle'⟩ := hge g' hg'
        exact ⟨g'', hg'', hle.trans hle'⟩
      refine ⟨res, hrun, fun g hg => hup (hbest g hg), ?_, ?_⟩
      · intro u hu x hx
        cases List.mem_cons.mp hu with
        | inl heq =>
          subst heq
          exact hup (hvalid x hx)
        | inr hmem => exact hall u hmem x hx
      · rcases hres with hres | ⟨u, hu, x, hx, hres⟩
        · rcases hfrom with hfrom | ⟨x, hx, hfrom⟩
          · exact .inl (hres.trans hfrom)
          · exact .inr ⟨t, List.mem_cons_self, x, hx, hres.trans hfrom⟩
        · exact .inr ⟨u, List.mem_cons_of_mem _ hu, x, hx, hres⟩
    simp only [bestGen.go, bind_run, hread]
    rcases hc : classify (d.data (base + t)) t (some ringLog2) with x | _ | _
    · dsimp only
      split
      next hall =>
        apply hkeep
        · intro g hg
          subst hg
          exact ⟨x.gen, rfl, Nat.le_of_lt (by simpa using hall)⟩
        · intro y hy
          obtain rfl : x = y := by simpa [hc] using hy
          exact ⟨x.gen, rfl, le_rfl⟩
        · exact .inr ⟨x, hc, rfl⟩
      next hless =>
        apply hkeep
        · exact fun g hg => ⟨g, hg, le_rfl⟩
        · intro y hy
          obtain rfl : x = y := by simpa [hc] using hy
          cases best with
          | none => simp at hless
          | some g => exact ⟨g, rfl, by simpa using hless⟩
        · exact .inl rfl
    · exact hkeep (fun g hg => ⟨g, hg, le_rfl⟩) (by simp [hc]) (.inl rfl)
    · exact hkeep (fun g hg => ⟨g, hg, le_rfl⟩) (by simp [hc]) (.inl rfl)

/-- Without a root entry a device is of the fixed layout, its generation the greatest of the ring. -/
theorem resolveLayout_run (hs : d.script = []) (hroot : d.image.Rootless) (r : Nat) :
    ∃ gen slot, (resolveLayout r).run d = (.ok (⟨0, 2 ^ r, false⟩, gen, slot), d) ∧
      (∀ t x, t < 2 ^ r → t < d.count → classify (d.data t) t (some r) = .valid x → ∃ g, gen = some g ∧ x.gen ≤ g) ∧
      ∀ g, gen = some g → ∃ x, slot < 2 ^ r ∧ slot < d.count ∧ classify (d.data slot) slot (some r) = .valid x ∧ x.gen = g := by
  have hread : readRoot.run d = (.ok none, d) := by
    unfold readRoot
    rw [bind_run, state_run]
    apply readRoot_go_run hs hroot
    intro l hl
    have := List.mem_range.mp hl
    omega
  have hbound : ∀ t ∈ List.range (min (d.count - 0) (2 ^ r)), 0 + t < d.count := by
    intro t ht
    have := List.mem_range.mp ht
    omega
  obtain ⟨⟨gen, slot⟩, hrun, -, hall, hres⟩ := bestGen_go_run hs r 0 (List.range (min (d.count - 0) (2 ^ r))) none 0 hbound
  refine ⟨gen, slot, ?_, ?_, ?_⟩
  · simp only [resolveLayout, bind_run, hread, bestGen, state_run, hrun, pure_run]
  · intro t x ht htc hx
    exact hall t (List.mem_range.mpr (by omega)) x (by rwa [Nat.zero_add])
  · intro g hg
    rcases hres with hres | ⟨t, ht, x, hx, hres⟩
    · cases hres
      cases hg
    · cases hres
      have := List.mem_range.mp ht
      exact ⟨x, by omega, by omega, by rwa [Nat.zero_add] at hx, Option.some.inj hg⟩

/-- A device with a sound ring shows its head. -/
theorem Sound.resolveLayout_run (h : Sound r d.image e T) (hs : d.script = []) :
    (resolveLayout r).run d = (.ok (⟨0, 2 ^ r, false⟩, some e.gen, e.gen % 2 ^ r), d) := by
  have hfits : 2 ^ r + e.tractBlocks ≤ d.count := h.fits
  have hslot : e.gen % 2 ^ r < 2 ^ r := Nat.mod_lt _ (Nat.two_pow_pos r)
  have hhead : classify (d.data (e.gen % 2 ^ r)) (e.gen % 2 ^ r) (some r) = .valid e := by
    rw [show d.data (e.gen % 2 ^ r) = e.encode from h.spine.head]
    exact classify_encode h.spine.fits.sane h.spine.fits.log2 h.spine.fits.one_le h.spine.fits.le
  obtain ⟨gen, slot, hrun, hmax, hfrom⟩ := Manifestus.resolveLayout_run hs h.rootless r
  obtain ⟨g, rfl, hge⟩ := hmax _ e hslot (by omega) hhead
  obtain ⟨x, hlt, -, hx, rfl⟩ := hfrom g rfl
  obtain ⟨-, -, hle, -, hmod⟩ := h.spine.slot_gen hlt hx
  have hgen : x.gen = e.gen := Nat.le_antisymm hle hge
  rw [hrun, ← hmod, hgen]

/-- The positions a sound vault's head commits to. -/
theorem Sound.committedLive_run (h : Sound r d.image e T) (hs : d.script = []) :
    ∃ live, (solo (committedLive r ⟨0, 2 ^ r, false⟩)).run d = (.ok (some live), d) ∧ ∀ q, q ∈ live ↔ T.Claims q := by
  have hfits : 2 ^ r + e.tractBlocks ≤ d.count := h.fits
  set m : Mirror H := ⟨some d, none, true, [], [], [], 0, none, []⟩ with hm
  have hready : m.Ready d := ⟨rfl, hs, by simp [hm, Mirror.staged], by simp [hm]⟩
  have hview : m.view d = d.data := Mirror.view_of_pending_nil rfl
  have hopen := h.spine.openAt_run hready (by omega) fun l _ => congrFun hview l
  set tract : Tract := ⟨2 ^ r, e.tractBlocks, e.plow, e.reap.getD e.plow, none⟩ with htract
  set store : Store H := ⟨m, tract, Hamt.fromRoot e.hamtHash e.hamtLba⟩ with hstore
  have hon : store.On d := ⟨hready, hfits⟩
  have hrep : store.Holds d [] store.hamt.root T := by
    apply h.rep.congr le_rfl
    · intro q _
      show m.view d (2 ^ r + q) = d.data (2 ^ r + q)
      rw [hview]
    · exact fun _ _ => rfl
  obtain ⟨w, hwalk, hfront⟩ := Walker.walkTreeCollect_run hon hrep h.sep e.rootChild_ne_dirty
  refine ⟨sortedOnce (w.liveBlocks.map Prod.fst ++ w.referenced), ?_, ?_⟩
  · have hroom : ¬ m.blockCount < 2 ^ r + e.tractBlocks := Nat.not_lt.mpr hfits
    have hrun : (committedLive r ⟨0, 2 ^ r, false⟩).run m =
        (.ok (some (sortedOnce (w.liveBlocks.map Prod.fst ++ w.referenced))), m) := by
      simp only [committedLive, bind_run, hopen, Ring.headEntry, Option.map_some, checkedAdd, hroom, if_false]
      rw [show Walk.start tract.len [] = Walk.start store.tract.len [] from rfl, hwalk]
      rfl
    rw [show ∀ x : Prog Error (Mirror H) (Option (List Nat)), (solo x).run d = ((x.run m).1, (x.run m).2.a.getD d) from fun _ => rfl,
      hrun]
    rfl
  · intro q
    have hmem : q ∈ sortedOnce (w.liveBlocks.map Prod.fst ++ w.referenced) ↔ q ∈ spots w.liveBlocks ∨ q ∈ w.referenced := by
      simp [sortedOnce, spots, List.mem_insertionSort]
    rw [hmem, hfront.claims, hfront.marks]
    simp

/-! ### The copies -/

/-- `d'` is `d` with the blocks of `s` at the positions in `P`. -/
structure Copied (P : Nat → Prop) (s d d' : Dev H) : Prop where
  script : d'.script = []
  count : d'.count = d.count
  copied : ∀ l, P l → d'.data l = s.data l
  kept : ∀ l, ¬ P l → d'.data l = d.data l

namespace Copied

variable {P Q : Nat → Prop} {d' d'' : Dev H}

theorem trans (h : Copied P s d d') (h' : Copied Q s d' d'') : Copied (fun l => P l ∨ Q l) s d d'' where
  script := h'.script
  count := h'.count.trans h.count
  copied l hl := by
    by_cases hq : Q l
    · exact h'.copied l hq
    · exact (h'.kept l hq).trans (h.copied l (hl.resolve_right hq))
  kept l hl := by
    rw [not_or] at hl
    exact (h'.kept l hl.2).trans (h.kept l hl.1)

theorem congr (h : Copied P s d d') (hPQ : ∀ l, P l → Q l) (heq : ∀ l, Q l → ¬ P l → d.data l = s.data l) :
    Copied Q s d d' where
  script := h.script
  count := h.count
  copied l hl := by
    by_cases hp : P l
    · exact h.copied l hp
    · exact (h.kept l hp).trans (heq l hl hp)
  kept l hl := h.kept l fun hp => hl (hPQ l hp)

end Copied

/-- Blocks of `s` landed on `d`. -/
theorem landedAll_copied {blocks : List (Nat × Block H)} (hs : d.script = []) (hfrom : ∀ x ∈ blocks, x.2 = s.data x.1) :
    Copied (· ∈ blocks.map Prod.fst) s d (d.landedAll blocks) := by
  induction blocks generalizing d with
  | nil => exact ⟨hs, rfl, by simp, fun _ _ => rfl⟩
  | cons x blocks ih =>
    obtain ⟨hx, hrest⟩ := List.forall_mem_cons.mp hfrom
    have hone : Copied (· = x.1) s d (d.landed x) := by
      refine ⟨hs, rfl, ?_, ?_⟩
      · intro l hl
        rw [Dev.landed_data, hl, Function.update_self, hx]
      · intro l hl
        rw [Dev.landed_data, Function.update_of_ne hl]
    have hall := hone.trans (ih (d := d.landed x) hs hrest)
    exact hall.congr (by simp) fun l hl hn => absurd (by simpa using hl) hn

/-- A batch of blocks of `s` written to `d`, none of which has to be written again. -/
theorem writeVerifiedBatchSolo_run {blocks : List (Nat × Block H)} (hs : d.script = [])
    (hfrom : ∀ x ∈ blocks, x.2 = s.data x.1) (hbound : ∀ x ∈ blocks, x.1 < d.count) :
    ∃ d', (writeVerifiedBatchSolo blocks).run d = (.ok blocks.length, d') ∧ Copied (· ∈ blocks.map Prod.fst) s d d' ∧
      (blocks = [] → d' = d) := by
  cases blocks with
  | nil => exact ⟨d, rfl, ⟨hs, rfl, by simp, fun _ _ => rfl⟩, fun _ => rfl⟩
  | cons x rest =>
    set blocks := x :: rest
    have hcopied := landedAll_copied hs hfrom
    have hwrites : ∀ (xs : List (Nat × Block H)) (d : Dev H), d.script = [] → (∀ x ∈ xs, x.1 < d.count) →
        (each (fun x => Dev.write x.1 x.2) xs).run d = (.ok (), d.landedAll xs) := by
      intro xs
      induction xs with
      | nil => exact fun _ _ _ => rfl
      | cons x xs ih =>
        intro d hd hb
        obtain ⟨hx, hxs⟩ := List.forall_mem_cons.mp hb
        simp only [each, bind_run, Dev.write_run hd hx]
        exact ih (d.landed x) hd hxs
    set d₁ := (d.landedAll blocks).flushed with hd₁
    have hchecks : ∀ xs : List (Nat × Block H), (∀ x ∈ xs, x ∈ blocks) → (each (fun x => do
        let check ← Dev.read x.1
        if check ≠ x.2 then writeVerifiedOne x.1 x.2) xs).run d₁ = (.ok (), d₁) := by
      intro xs
      induction xs with
      | nil => exact fun _ => rfl
      | cons x xs ih =>
        intro hmem
        obtain ⟨hx, hxs⟩ := List.forall_mem_cons.mp hmem
        have hlt : x.1 < d₁.count := by
          rw [hd₁, Dev.flushed_count, Dev.landedAll_count]
          exact hbound x hx
        have hsame : d₁.data x.1 = x.2 := by
          rw [hfrom x hx]
          exact hcopied.copied x.1 (List.mem_map_of_mem hx)
        simp only [each, bind_run, Dev.read_run (d := d₁) hcopied.script hlt, hsame, ne_eq, not_true_eq_false, if_false, pure_run]
        exact ih hxs
    refine ⟨d₁, ?_, ⟨hcopied.script, hcopied.count, hcopied.copied, hcopied.kept⟩, by simp [blocks]⟩
    simp only [writeVerifiedBatchSolo, blocks, List.isEmpty_cons, Bool.false_eq_true, if_false, bind_run]
    rw [hwrites (x :: rest) d hs hbound]
    simp only [Dev.flush_run (d := d.landedAll (x :: rest)) hcopied.script]
    rw [hchecks (x :: rest) fun _ h => h]
    rfl

/-- The slots become the winner's; slots that are the same are left alone. -/
theorem copySlots_run (hsrc : s.script = []) : ∀ (lbas : List Nat) (d : Dev H), d.script = [] →
    (∀ l ∈ lbas, l < s.count ∧ l < d.count) →
    ∃ n d', (copySlots lbas).run ⟨s, d⟩ = (.ok n, ⟨s, d'⟩) ∧ Copied (· ∈ lbas) s d d' ∧
      ((∀ l ∈ lbas, d.data l = s.data l) → n = 0 ∧ d' = d) := by
  intro lbas
  induction lbas with
  | nil => exact fun d hd _ => ⟨0, d, rfl, ⟨hd, rfl, by simp, fun _ _ => rfl⟩, fun _ => ⟨rfl, rfl⟩⟩
  | cons l lbas ih =>
    intro d hd hbound
    obtain ⟨⟨hls, hld⟩, hrest⟩ := List.forall_mem_cons.mp hbound
    by_cases heq : s.data l = d.data l
    · obtain ⟨n, d', hrun, hcopied, hidle⟩ := ih d hd hrest
      refine ⟨n, d', ?_, ?_, fun h => hidle (List.forall_mem_cons.mp h).2⟩
      · simp only [copySlots, bind_run, onSrc, onDst, zoom_run, Dev.read_run hsrc hls, Dev.read_run hd hld, heq, ne_eq,
          not_true_eq_false, if_false]
        exact hrun
      · apply hcopied.congr
        · exact fun k hk => List.mem_cons_of_mem _ hk
        · intro k hk hn
          obtain rfl : k = l := (List.mem_cons.mp hk).resolve_right hn
          exact heq.symm
    · set d₁ := (d.landed (l, s.data l)).flushed with hd₁
      obtain ⟨n, d', hrun, hcopied, -⟩ := ih d₁ hd hrest
      have hone : Copied (· = l) s d d₁ := by
        refine ⟨hd, rfl, ?_, ?_⟩
        · intro k hk
          rw [hd₁, Dev.flushed_data, Dev.landed_data, hk, Function.update_self]
        · intro k hk
          rw [hd₁, Dev.flushed_data, Dev.landed_data, Function.update_of_ne hk]
      refine ⟨n + 1, d', ?_, ?_, fun h => absurd (List.forall_mem_cons.mp h).1.symm heq⟩
      · simp only [copySlots, bind_run, onSrc, onDst, zoom_run, Dev.read_run hsrc hls, Dev.read_run hd hld, ne_eq, heq,
          not_false_eq_true, if_true, writeVerifiedOne, writeOne_run hd hld]
        rw [← hd₁, hrun]
        rfl
      · exact (hone.trans hcopied).congr (by simp) fun k hk hn => absurd (by simpa using hk) hn

/-- What of a run differs. -/
theorem differing_eq (base n : Nat) (f g : Nat → Block H) :
    differing base ((List.range n).map f) ((List.range n).map g) =
      (List.range n).filterMap fun i => if f i ≠ g i ∧ (sealedHp (f i)).isSome then some (base + i, f i) else none := by
  have hzip : (List.range n).zip (((List.range n).map f).zip ((List.range n).map g)) =
      (List.range n).map fun i => (i, f i, g i) := by
    have hself : ((List.range n).map id).zip ((List.range n).map fun i => (f i, g i)) = (List.range n).map fun i => (i, f i, g i) :=
      List.zip_map'
    rwa [List.map_id, ← List.zip_map'] at hself
  unfold differing
  rw [List.length_map, List.length_range, hzip, List.filterMap_map]
  rfl

/-- The live blocks become the winner's, however they are batched, if all that the winner has there is sealed. -/
theorem copyRuns_run (hsrc : s.script = []) (base : Nat) : ∀ (runs : List (List Nat)) (d : Dev H)
    (fix : List (Nat × Block H)) (copied : Nat), d.script = [] → (∀ run ∈ runs, IsRun run) →
    (∀ q ∈ runs.flatten, base + q < s.count ∧ base + q < d.count ∧ (sealedHp (s.data (base + q))).isSome) →
    (∀ x ∈ fix, x.2 = s.data x.1 ∧ x.1 < d.count) →
    ∃ n d', (copyRuns base fix copied runs).run ⟨s, d⟩ = (.ok n, ⟨s, d'⟩) ∧
      Copied (fun l => l ∈ fix.map Prod.fst ∨ ∃ q ∈ runs.flatten, l = base + q) s d d' ∧
      (fix = [] → (∀ q ∈ runs.flatten, d.data (base + q) = s.data (base + q)) → n = copied ∧ d' = d) := by
  intro runs
  induction runs with
  | nil =>
    intro d fix copied hd _ _ hfix
    obtain ⟨d', hrun, hcopied, hidle⟩ := writeVerifiedBatchSolo_run hd (fun x hx => (hfix x hx).1) fun x hx => (hfix x hx).2
    refine ⟨copied + fix.length, d', ?_, by simpa using hcopied, ?_⟩
    · simp only [copyRuns, bind_run, onDst, zoom_run, hrun, pure_run]
    · intro hnil _
      exact ⟨by simp [hnil], hidle hnil⟩
  | cons run runs ih =>
    intro d fix copied hd hruns hlive hfix
    obtain ⟨⟨hne, hrange⟩, hrest⟩ := List.forall_mem_cons.mp hruns
    have hflat : ∀ q, q ∈ (run :: runs).flatten ↔ q ∈ run ∨ q ∈ runs.flatten := by simp
    have hin : ∀ i < run.length, run.headD 0 + i ∈ run := by
      intro i hi
      have hmem : run.headD 0 + i ∈ (List.range run.length).map (run.headD 0 + ·) :=
        List.mem_map.mpr ⟨i, List.mem_range.mpr hi, rfl⟩
      rwa [← hrange] at hmem
    have hpos : 0 < run.length := List.length_pos_of_ne_nil hne
    have hlast := hlive _ ((hflat _).mpr (.inl (hin (run.length - 1) (by omega))))
    set b := base + run.headD 0 with hb
    have hreads : (Dev.readRun b run.length).run s = (.ok ((List.range run.length).map fun i => s.data (b + i)), s) :=
      Dev.readRun_run hsrc (by omega)
    have hreadd : (Dev.readRun b run.length).run d = (.ok ((List.range run.length).map fun i => d.data (b + i)), d) :=
      Dev.readRun_run hd (by omega)
    set new := (List.range run.length).filterMap fun i =>
      if s.data (b + i) ≠ d.data (b + i) ∧ (sealedHp (s.data (b + i))).isSome then some (b + i, s.data (b + i)) else none with hnew
    have hmem : ∀ x, x ∈ new ↔ ∃ i < run.length, s.data (b + i) ≠ d.data (b + i) ∧ (sealedHp (s.data (b + i))).isSome ∧
        x = (b + i, s.data (b + i)) := by
      intro x
      rw [hnew, List.mem_filterMap]
      constructor
      · intro ⟨i, hi, hx⟩
        split at hx
        next hcond => exact ⟨i, List.mem_range.mp hi, hcond.1, hcond.2, (Option.some.inj hx).symm⟩
        next => cases hx
      · intro ⟨i, hi, hdiff, hsealed, hx⟩
        exact ⟨i, List.mem_range.mpr hi, by rw [if_pos ⟨hdiff, hsealed⟩, hx]⟩
    have hfix' : ∀ x ∈ fix ++ new, x.2 = s.data x.1 ∧ x.1 < d.count := by
      intro x hx
      cases List.mem_append.mp hx with
      | inl hx => exact hfix x hx
      | inr hx =>
        obtain ⟨i, hi, -, -, rfl⟩ := (hmem x).mp hx
        have hq := hlive _ ((hflat _).mpr (.inl (hin i hi)))
        exact ⟨rfl, by omega⟩
    -- what of the run is not written is the winner's already
    have hsame : ∀ q ∈ run, base + q ∉ (fix ++ new).map Prod.fst → d.data (base + q) = s.data (base + q) := by
      intro q hq hnot
      rw [hrange] at hq
      obtain ⟨i, hi, rfl⟩ := List.mem_map.mp hq
      rw [List.mem_range] at hi
      have hpl : base + (run.headD 0 + i) = b + i := by omega
      by_contra hdiff
      apply hnot
      rw [hpl] at hdiff ⊢
      have hq := hlive _ ((hflat _).mpr (.inl (hin i hi)))
      rw [hpl] at hq
      exact List.mem_map_of_mem (f := Prod.fst) (List.mem_append_right _ ((hmem _).mpr ⟨i, hi, Ne.symm hdiff, hq.2.2, rfl⟩))
    have hnone : (∀ q ∈ run, d.data (base + q) = s.data (base + q)) → new = [] := by
      intro hall
      apply List.eq_nil_iff_forall_not_mem.mpr
      intro x hx
      obtain ⟨i, hi, hdiff, -, -⟩ := (hmem x).mp hx
      apply hdiff
      have := hall _ (hin i hi)
      rw [show base + (run.headD 0 + i) = b + i by omega] at this
      exact this.symm
    have hwiden : ∀ {P : Nat → Prop} {d' : Dev H}, Copied P s d d' →
        (∀ l, P l ↔ l ∈ (fix ++ new).map Prod.fst ∨ ∃ q ∈ runs.flatten, l = base + q) →
        Copied (fun l => l ∈ fix.map Prod.fst ∨ ∃ q ∈ (run :: runs).flatten, l = base + q) s d d' := by
      intro P d' hcopied hP
      apply hcopied.congr
      · intro l hl
        rcases (hP l).mp hl with hl | ⟨q, hq, rfl⟩
        · rw [List.map_append, List.mem_append] at hl
          cases hl with
          | inl hl => exact .inl hl
          | inr hl =>
            obtain ⟨x, hx, rfl⟩ := List.mem_map.mp hl
            obtain ⟨i, hi, -, -, rfl⟩ := (hmem x).mp hx
            exact .inr ⟨_, (hflat _).mpr (.inl (hin i hi)), by dsimp only; omega⟩
        · exact .inr ⟨q, (hflat q).mpr (.inr hq), rfl⟩
      · intro l hl hnot
        rw [hP, not_or] at hnot
        rcases hl with hl | ⟨q, hq, rfl⟩
        · exact absurd (by rw [List.map_append]; exact List.mem_append_left _ hl) hnot.1
        · cases (hflat q).mp hq with
          | inl hq => exact hsame q hq hnot.1
          | inr hq => exact absurd ⟨q, hq, rfl⟩ hnot.2
    have hstep : (copyRuns base fix copied (run :: runs)).run ⟨s, d⟩ =
        (if copyStep ≤ (fix ++ new).length then (do
          let some' ← onDst (writeVerifiedBatchSolo (fix ++ new))
          copyRuns base [] (copied + some') runs)
        else copyRuns base (fix ++ new) copied runs).run ⟨s, d⟩ := by
      simp only [copyRuns, bind_run, onSrc, onDst, zoom_run, ← hb, hreads, hreadd, differing_eq, ← hnew]
    have hrunlive : ∀ q ∈ runs.flatten, base + q < s.count ∧ base + q < d.count ∧ (sealedHp (s.data (base + q))).isSome :=
      fun q hq => hlive q ((hflat q).mpr (.inr hq))
    by_cases hfull : copyStep ≤ (fix ++ new).length
    · obtain ⟨d₁, hwrite, hcopied₁, hidle₁⟩ := writeVerifiedBatchSolo_run hd (fun x hx => (hfix' x hx).1) fun x hx => (hfix' x hx).2
      obtain ⟨n, d', hrun, hcopied, hidle⟩ := ih d₁ [] (copied + (fix ++ new).length) hcopied₁.script hrest
        (fun q hq => by rw [hcopied₁.count]; exact hrunlive q hq) (by simp)
      refine ⟨n, d', ?_, hwiden (hcopied₁.trans hcopied) (by simp), ?_⟩
      · rw [hstep, if_pos hfull]
        simp only [bind_run, onDst, zoom_run, hwrite]
        exact hrun
      · intro hnil hall
        exfalso
        rw [hnil, hnone fun q hq => hall q ((hflat q).mpr (.inl hq))] at hfull
        simp [copyStep] at hfull
    · obtain ⟨n, d', hrun, hcopied, hidle⟩ := ih d (fix ++ new) copied hd hrest hrunlive hfix'
      refine ⟨n, d', ?_, hwiden hcopied fun _ => Iff.rfl, ?_⟩
      · rw [hstep, if_neg hfull]
        exact hrun
      · intro hnil hall
        apply hidle
        · rw [hnil, hnone fun q hq => hall q ((hflat q).mpr (.inl hq)), List.append_nil]
        · exact fun q hq => hall q ((hflat q).mpr (.inr hq))

/-! ### The replication -/

/-- The ring and the committed index of a fixed vault. -/
def Tree.Holdings (r : Nat) (T : Tree H) (l : Nat) : Prop := l < 2 ^ r ∨ ∃ q, T.Claims q ∧ l = 2 ^ r + q

/-- The loser before its blocks are compared. -/
def Dev.widened (d : Dev H) (n : Nat) : Dev H := if d.count < n then d.grown n else d

theorem Dev.widened_count (d : Dev H) (n : Nat) : (d.widened n).count = max d.count n := by
  unfold widened
  split
  next h => exact (max_eq_right (Nat.le_of_lt h)).symm
  next h => exact (max_eq_left (Nat.not_lt.mp h)).symm

/-- The whole of a replication from a sound device without fault. -/
theorem replicateInto_run (h : Sound r s.image e T) (hs : s.script = []) (hd : d.script = [])
    (hgrow : d.count < s.count → d.Accepts s.count) :
    ∃ res d', (replicateInto r).run ⟨s, d⟩ = (.ok res, ⟨s, d'⟩) ∧ Copied (T.Holdings r) s (d.widened s.count) d' ∧
      (s.count ≤ d.count → (∀ l, T.Holdings r l → d.data l = s.data l) → res = ⟨0, 0⟩ ∧ d' = d) := by
  have hfits : 2 ^ r + e.tractBlocks ≤ s.count := h.fits
  set d₁ := d.widened s.count with hd₁
  have hcount : s.count ≤ d₁.count := by
    rw [hd₁, Dev.widened_count]
    exact le_max_right _ _
  have hscript : d₁.script = [] := by
    rw [hd₁, Dev.widened]
    split
    · exact hd
    · exact hd
  have hgeom : (if d.count < s.count then onDst (Dev.grow s.count) else pure () : Prog Error (Pair H) Unit).run ⟨s, d⟩ =
      (.ok (), ⟨s, d₁⟩) := by
    by_cases hlt : d.count < s.count
    · rw [if_pos hlt, onDst, zoom_run, Dev.grow_run hd (hgrow hlt), if_neg (Nat.not_le.mpr hlt), hd₁, Dev.widened, if_pos hlt]
    · rw [if_neg hlt, hd₁, Dev.widened, if_neg hlt]
      rfl
  obtain ⟨spine, d₂, hspine, hcopied₂, hidle₂⟩ := copySlots_run hs ((List.range (2 ^ r)).map (0 + ·)) d₁ hscript (by
    intro l hl
    obtain ⟨t, ht, rfl⟩ := List.mem_map.mp hl
    have := List.mem_range.mp ht
    omega)
  obtain ⟨live, hlive, hmem⟩ := h.committedLive_run hs
  obtain ⟨hflat, hruns⟩ := cutRuns_spec copyStep live
  obtain ⟨tract, d₃, htract, hcopied₃, hidle₃⟩ := copyRuns_run hs (2 ^ r) (cutRuns copyStep live) d₂ [] 0 hcopied₂.script hruns
    (by
      intro q hq
      rw [hflat, hmem] at hq
      have hlt := h.claims_lt hq
      have hroom := hcopied₂.count
      exact ⟨by omega, by omega, Option.isSome_iff_exists.mpr (h.rep.sealed hq)⟩) (by simp)
  have hin : ∀ l, l ∈ (List.range (2 ^ r)).map (0 + ·) ↔ l < 2 ^ r := by simp
  have hat : ∀ l, (∃ q ∈ (cutRuns copyStep live).flatten, l = 2 ^ r + q) ↔ ∃ q, T.Claims q ∧ l = 2 ^ r + q := by
    intro l
    simp only [hflat, hmem]
  refine ⟨⟨0 + spine, tract⟩, d₃, ?_, ?_, ?_⟩
  · unfold replicateInto
    by_cases hlt : d.count < s.count
    · rw [if_pos hlt] at hgeom
      simp only [bind_run, state_run, if_pos hlt, hgeom, onSrc, zoom_run, h.resolveLayout_run hs, Bool.false_eq_true, if_false,
        pure_run, hspine, hlive, htract]
    · have hsame : d₁ = d := by rw [hd₁, Dev.widened, if_neg hlt]
      rw [hsame] at hspine
      simp only [bind_run, state_run, if_neg hlt, onSrc, zoom_run, h.resolveLayout_run hs, Bool.false_eq_true, if_false,
        pure_run, hspine, hlive, htract]
  · apply (hcopied₂.trans hcopied₃).congr
    · intro l hl
      rcases hl with hl | hl | hl
      · exact .inl ((hin l).mp hl)
      · cases hl
      · exact .inr ((hat l).mp hl)
    · intro l hl hnot
      apply absurd _ hnot
      cases hl with
      | inl hl => exact .inl ((hin l).mpr hl)
      | inr hl => exact .inr (.inr ((hat l).mpr hl))
  · intro hle hall
    have hwide : d₁ = d := by rw [hd₁, Dev.widened, if_neg (Nat.not_lt.mpr hle)]
    obtain ⟨rfl, rfl⟩ := hidle₂ (by
      intro l hl
      rw [hwide]
      exact hall l (.inl ((hin l).mp hl)))
    obtain ⟨rfl, rfl⟩ := hidle₃ rfl (by
      intro q hq
      rw [hflat, hmem] at hq
      rw [hwide]
      exact hall _ (.inr ⟨q, hq, rfl⟩))
    exact ⟨rfl, hwide⟩

/-- What the loser holds in the end is sound, with the winner's generation and index. -/
theorem Copied.sound (h : Sound r s.image e T) {d' : Dev H} (hroot : d.image.Rootless)
    (hcopied : Copied (T.Holdings r) s (d.widened s.count) d') : Sound r d'.image e T := by
  have hcount : d'.count = max d.count s.count := hcopied.count.trans (d.widened_count _)
  have hfits : 2 ^ r + e.tractBlocks ≤ s.count := h.fits
  apply h.congr
  · apply h.spine.congr
    intro l hl
    exact hcopied.copied l (.inl hl)
  · show s.count ≤ d'.count
    rw [hcount]
    exact le_max_right _ _
  · intro l hl
    show (d'.data l).NotRoot
    by_cases hin : T.Holdings r l
    · rw [hcopied.copied l hin]
      apply h.rootless
      show l < s.count
      rcases hin with hin | ⟨q, hq, rfl⟩
      · omega
      · have := h.claims_lt hq
        omega
    · rw [hcopied.kept l hin, Dev.widened]
      split
      · show (if l < d.count then d.data l else Block.zero).NotRoot
        split
        next hlt => exact hroot l hlt
        next => exact Block.notRoot_zero
      next hge =>
        apply hroot
        have hlt : l < d'.count := hl
        show l < d.count
        omega
  · intro q hq
    exact hcopied.copied _ (.inr ⟨q, hq, rfl⟩)

/-- No generation of the ring reaches `n`. -/
def Dev.Lags (r n : Nat) (d : Dev H) : Prop :=
  ∀ t x, t < 2 ^ r → t < d.count → classify (d.data t) t (some r) = .valid x → x.gen < n

/-- A device that lags converges, on whichever side it stands. -/
theorem verifiedReplicate_run (h : Sound r s.image e T) (hs : s.script = []) (hd : d.script = []) (hroot : d.image.Rootless)
    (hgrow : d.count < s.count → d.Accepts s.count) (hlag : d.Lags r e.gen) :
    ∃ res d', (verifiedReplicate r).run ⟨s, d⟩ = (.ok res, ⟨s, d'⟩) ∧ (verifiedReplicate r).run ⟨d, s⟩ = (.ok res, ⟨d', s⟩) ∧
      Copied (T.Holdings r) s (d.widened s.count) d' := by
  obtain ⟨res, d', hrun, hcopied, -⟩ := replicateInto_run h hs hd hgrow
  obtain ⟨gen, slot, hlayout, -, hfrom⟩ := resolveLayout_run hd hroot r
  have hless : ∀ g, gen = some g → g < e.gen := by
    intro g hg
    obtain ⟨x, hlt, hin, hx, rfl⟩ := hfrom g hg
    exact hlag slot x hlt hin hx
  have hne : some e.gen ≠ gen := fun hg => absurd (hless e.gen hg.symm) (Nat.lt_irrefl _)
  have hle : genLe gen (some e.gen) = true := by
    cases gen with
    | none => rfl
    | some g => simpa [genLe] using Nat.le_of_lt (hless g rfl)
  have hnle : genLe (some e.gen) gen = false := by
    cases gen with
    | none => rfl
    | some g => simpa [genLe] using hless g rfl
  refine ⟨res, d', ?_, ?_, hcopied⟩
  · simp only [verifiedReplicate, bind_run, onSrc, onDst, zoom_run, h.resolveLayout_run hs, hlayout, state_run, hne, false_and,
      and_false, if_false, pure_run, Bool.false_eq_true, hle, if_true]
    exact hrun
  · simp only [verifiedReplicate, bind_run, onSrc, onDst, zoom_run, h.resolveLayout_run hs, hlayout, state_run, hne.symm, false_and,
      and_false, if_false, pure_run, Bool.false_eq_true, hnle, swapped, swap, hrun]

/-- Two devices with one sound vault have nothing to copy. -/
theorem verifiedReplicate_again (h : Sound r s.image e T) (hs : s.script = []) (hd : d.script = [])
    (hsame : ∀ l, T.Holdings r l → d.data l = s.data l) (hsound : Sound r d.image e T) (hcount : s.count ≤ d.count) :
    (verifiedReplicate r).run ⟨s, d⟩ = (.ok ⟨0, 0⟩, ⟨s, d⟩) := by
  obtain ⟨res, d', hrun, -, hidle⟩ := replicateInto_run h hs hd fun hlt => absurd hlt (Nat.not_lt.mpr hcount)
  obtain ⟨rfl, rfl⟩ := hidle hcount hsame
  have hslot : e.gen % 2 ^ r < 2 ^ r := Nat.mod_lt _ (Nat.two_pow_pos r)
  have hfits : 2 ^ r + e.tractBlocks ≤ s.count := h.fits
  have hhead : d'.data (e.gen % 2 ^ r) = s.data (e.gen % 2 ^ r) := hsame _ (.inl hslot)
  have hle : genLe (some e.gen) (some e.gen) = true := by simp [genLe]
  by_cases heq : s.count = d'.count
  · simp only [verifiedReplicate, bind_run, onSrc, onDst, zoom_run, h.resolveLayout_run hs, hsound.resolveLayout_run hd, state_run,
      Option.isSome_some, heq, and_self, if_true, Nat.zero_add, Dev.read_run hs (show e.gen % 2 ^ r < s.count by omega),
      Dev.read_run hd (show e.gen % 2 ^ r < d'.count by omega), hhead, decide_true, pure_run]
  · simp only [verifiedReplicate, bind_run, onSrc, onDst, zoom_run, h.resolveLayout_run hs, hsound.resolveLayout_run hd, state_run,
      heq, and_false, if_false, pure_run, Bool.false_eq_true, hle, if_true]
    exact hrun

/-! ### One device alone -/

/-- A mirror of this device alone, newly attached. -/
def Dev.alone (d : Dev H) : Mirror H := ⟨some (d.image.dev d.limit), none, true, [], [], [], 0, none, []⟩

/-- A sound device opens alone, with its map. -/
theorem Sound.opens_alone (h : Sound r d.image e T) (ringLog2 : Nat) (now : Int) :
    ∃ u, (Vault.open ringLog2 now .unlinkOnly).run d.alone = (.ok u, u.ring.mirror) ∧
      ∀ key, ∃ u', (Vault.get key).run u = (.ok (T.map key), u') := by
  have herr : ErrorFree d.alone := by
    constructor
    · rfl
    · intro x hx
      rcases hx with hx | hx
      · cases hx
        rfl
      · cases hx
    · intro x y c _ hy
      cases hy
  obtain ⟨d', hsess⟩ := herr.session
  obtain rfl : d' = d.image.dev d.limit := (Option.some.inj hsess.ready.primary).symm
  obtain ⟨u, hrun, hserves⟩ := open_sound (fun _ => True) herr.parts hsess h h.fits trivial ringLog2 now
  exact ⟨u, hrun, fun key => hserves.get key⟩

end Manifestus
