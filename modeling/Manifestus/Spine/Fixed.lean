import Manifestus.Spine.Corruption

/-! The ring of a fixed vault in use: every slot holds the generation that belongs there, is blank in
the first lap, or was torn by a power loss while the next generation was written. -/
set_option linter.unusedSectionVars false

namespace Manifestus
open Prog

variable {H : Type} [Crates H] {r : Nat} {f f' : Nat → Block H} {e e' : SpineEntry H}

/-- An entry of a ring of `2 ^ r` slots. -/
structure SpineEntry.Fits (r : Nat) (e : SpineEntry H) : Prop where
  sane : e.Sane
  log2 : e.ringLog2 = r
  one_le : 1 ≤ r
  le : r ≤ 32

/-- The ring at block 0 of `f` with the newest generation `e`. -/
structure Spine (r : Nat) (f : Nat → Block H) (e : SpineEntry H) : Prop where
  fits : e.Fits r
  head : f (e.gen % 2 ^ r) = e.encode
  slots : ∀ s < 2 ^ r, (s = (e.gen + 1) % 2 ^ r ∧ ∃ id, f s = .raw id) ∨ (f s = .zero ∧ e.gen < s) ∨
    ∃ x : SpineEntry H, f s = x.encode ∧ x.Fits r ∧ x.gen ≤ e.gen ∧ e.gen < x.gen + 2 ^ r ∧ x.gen % 2 ^ r = s

theorem SpineEntry.Fits.two_le (h : e.Fits r) : 2 ≤ 2 ^ r := Nat.le_self_pow (by have := h.one_le; omega) 2

/-- The next slot is another one. -/
theorem SpineEntry.Fits.next_ne (h : e.Fits r) (g : Nat) : (g + 1) % 2 ^ r ≠ g % 2 ^ r := by
  have h2 := h.two_le
  intro heq
  have hdvd : 2 ^ r ∣ g + 1 - g := (Nat.modEq_iff_dvd' (by omega)).mp heq.symm
  have := Nat.le_of_dvd (by omega) hdvd
  omega

namespace Spine

theorem congr (h : Spine r f e) (heq : ∀ s < 2 ^ r, f' s = f s) : Spine r f' e where
  fits := h.fits
  head := (heq _ (Nat.mod_lt _ (Nat.two_pow_pos r))).trans h.head
  slots s hs := by rw [heq s hs]; exact h.slots s hs

/-- Nothing of the slot after the newest matters. -/
theorem torn (h : Spine r f e) (id : Nat) : Spine r (Function.update f ((e.gen + 1) % 2 ^ r) (.raw id)) e where
  fits := h.fits
  head := by rw [Function.update_of_ne (h.fits.next_ne e.gen).symm]; exact h.head
  slots s hs := by
    by_cases hse : s = (e.gen + 1) % 2 ^ r
    · exact .inl ⟨hse, id, by rw [hse, Function.update_self]⟩
    · rw [Function.update_of_ne hse]
      exact h.slots s hs

/-- The next generation takes its slot. -/
theorem append (h : Spine r f e) (hfits : e'.Fits r) (hgen : e'.gen = e.gen + 1) :
    Spine r (Function.update f (e'.gen % 2 ^ r) e'.encode) e' where
  fits := hfits
  head := Function.update_self ..
  slots s hs := by
    by_cases hse : s = e'.gen % 2 ^ r
    · refine .inr (.inr ⟨e', by rw [hse, Function.update_self], hfits, le_rfl, ?_, hse.symm⟩)
      have := hfits.two_le
      omega
    · rw [Function.update_of_ne hse]
      rw [hgen] at hse ⊢
      rcases h.slots s hs with ⟨hs', -⟩ | ⟨hzero, hlt⟩ | ⟨x, hx, hxf, hle, hlt, hmod⟩
      · exact absurd hs' hse
      · refine .inr (.inl ⟨hzero, ?_⟩)
        rcases Nat.lt_or_ge (e.gen + 1) s with hlt' | hge
        · exact hlt'
        · obtain rfl : s = e.gen + 1 := by omega
          exact absurd (Nat.mod_eq_of_lt hs).symm hse
      · refine .inr (.inr ⟨x, hx, hxf, by omega, ?_, hmod⟩)
        rcases Nat.lt_or_ge (e.gen + 1) (x.gen + 2 ^ r) with hlt' | hge
        · exact hlt'
        · have heq : e.gen + 1 = x.gen + 2 ^ r := by omega
          rw [heq, Nat.add_mod_right] at hse
          exact absurd hmod.symm hse

theorem classify_raw (id slot r : Nat) : classify (.raw id : Block H) slot (some r) = .corrupt := rfl

/-- The generation of a slot that holds one. -/
theorem slot_gen (h : Spine r f e) {s : Nat} (hs : s < 2 ^ r) {x : SpineEntry H}
    (hx : classify (f s) s (some r) = .valid x) :
    f s = x.encode ∧ x.Fits r ∧ x.gen ≤ e.gen ∧ e.gen < x.gen + 2 ^ r ∧ x.gen % 2 ^ r = s := by
  rcases h.slots s hs with ⟨-, id, hraw⟩ | ⟨hzero, -⟩ | ⟨y, hy, hrest⟩
  · rw [hraw, classify_raw] at hx
    cases hx
  · rw [hzero] at hx
    cases hx
  · rw [hy] at hx
    rw [eq_of_classify_encode hx]
    exact ⟨hy, hrest⟩

theorem rotated (h : Spine r f e) :
    Ring.Rotated (fun slot => classify (f slot) slot (some r)) 0 (2 ^ r - 1) := by
  have hpos : 0 < 2 ^ r := Nat.two_pow_pos r
  refine ⟨?_, e.gen % 2 ^ r, ?_⟩
  · intro i j x _ hij hj hempty hvalid
    have hi : f i = .zero := classify_empty hempty
    obtain ⟨-, -, hle, -, hmod⟩ := h.slot_gen (by omega) hvalid
    rcases h.slots i (by omega) with ⟨-, id, hraw⟩ | ⟨-, hlt⟩ | ⟨y, hy, -⟩
    · rw [hi] at hraw
      cases hraw
    · have := Nat.mod_le x.gen (2 ^ r)
      omega
    · rw [hi] at hy
      cases hy
  · intro i j x y _ hij hj hx hy
    obtain ⟨-, -, hxle, hxlt, hxmod⟩ := h.slot_gen (by omega) hx
    obtain ⟨-, -, hyle, hylt, hymod⟩ := h.slot_gen (by omega) hy
    have hgx := lap_gen hpos hxle hxlt hxmod
    have hgy := lap_gen hpos hyle hylt hymod
    have hmod : e.gen % 2 ^ r ≤ e.gen := Nat.mod_le _ _
    have hmodlt : e.gen % 2 ^ r < 2 ^ r := Nat.mod_lt _ hpos
    split_ifs at hgx hgy ⊢ with h₁ h₂ h₃ <;> omega

/-- The head search finds the newest generation. -/
theorem headSearch_run {q : Ring H} {d : Dev H} (h : Spine r f e) (hready : q.mirror.Ready d)
    (hlog2 : q.ringLog2 = r) (hfit : q.base + 2 ^ r ≤ d.count)
    (hview : ∀ s < 2 ^ r, q.mirror.view d (q.base + s) = f s) :
    Ring.headSearch.run q = (.ok (some (e.gen % 2 ^ r, e)), q) := by
  have hn : q.n = 2 ^ r := by rw [Ring.n, hlog2]
  have hshow : q.Shows fun slot => classify (f slot) slot (some r) := by
    intro slot hslot
    rw [Ring.shows_of_ready hready (by rw [hn]; exact hfit) slot hslot]
    simp only [hview slot (hn ▸ hslot), hlog2]
  obtain ⟨res, hrun, hnew⟩ := Ring.headSearch_run hshow (by rw [hn]; exact h.rotated)
  have hpos : 0 < 2 ^ r := Nat.two_pow_pos r
  have hhead : classify (f (e.gen % 2 ^ r)) (e.gen % 2 ^ r) (some r) = .valid e := by
    rw [h.head]
    exact classify_encode h.fits.sane h.fits.log2 h.fits.one_le h.fits.le
  have hslot : e.gen % 2 ^ r ≤ 2 ^ r - 1 := by
    have := Nat.mod_lt e.gen hpos
    omega
  rw [hn] at hnew
  rcases res with _ | ⟨s, x⟩
  · exact absurd hhead (hnew _ e (Nat.zero_le _) hslot)
  · obtain ⟨-, hs, hx, hmax⟩ := hnew
    have hge := hmax _ e (Nat.zero_le _) hslot hhead
    obtain ⟨-, -, hle, -, hmod⟩ := h.slot_gen (by omega) hx
    obtain rfl : s = e.gen % 2 ^ r := by rw [← hmod]; congr 1; omega
    obtain rfl : e = x := by simpa [hhead] using hx
    exact hrun

theorem openAt_run {m : Mirror H} {d : Dev H} (h : Spine r f e) (hready : m.Ready d) (hfit : 2 ^ r ≤ d.count)
    (hview : ∀ s < 2 ^ r, m.view d s = f s) :
    (Ring.openAt r 0).run m = (.ok ⟨m, r, 0, some (e.gen % 2 ^ r, e)⟩, m) := by
  refine Ring.openAt_eq (h.headSearch_run (q := ⟨m, r, 0, none⟩) hready rfl (by simpa using hfit) ?_)
  intro s hs
  simpa using hview s hs

/-- A valid entry read without a ring exponent. -/
theorem classify_none (hfits : e.Fits r) : classify e.encode (e.gen % 2 ^ r) none = .valid e := by
  have hdecode : SpineEntry.decode (.sealed (.spine e) 0) = .ok e :=
    SpineEntry.geometry_of_sane hfits.sane (hfits.log2 ▸ hfits.one_le) (hfits.log2 ▸ hfits.le)
  simp [classify, SpineEntry.encode, sealBlock, hdecode, hfits.log2]

/-- One of the first two blocks names the ring. -/
theorem bootstrapN_run {m : Mirror H} {d : Dev H} (h : Spine r f e) (hready : m.Ready d)
    (hcount : 2 ^ r ≤ m.blockCount) (hfit : 2 ^ r ≤ d.count) (hview : ∀ s < 2 ^ r, m.view d s = f s) :
    Ring.bootstrapN.run m = (.ok (some r), m) := by
  have h2 := h.fits.two_le
  obtain ⟨k, hk⟩ : ∃ k, min 16 m.blockCount = k + 2 := ⟨min 16 m.blockCount - 2, by omega⟩
  have hrange : List.range (k + 2) = 0 :: 1 :: (List.range k).map (· + 2) := by
    rw [List.range_succ_eq_map, List.range_succ_eq_map]
    simp [Function.comp_def]
  have hread : ∀ s < 2 ^ r, (Mirror.read s).run m = (.ok (f s), m) := by
    intro s hs
    rw [Mirror.read_run hready (by omega), hview s hs]
  unfold Ring.bootstrapN
  simp only [bind_run, state_run, hk, hrange]
  simp only [Ring.bootstrapN.probe, bind_run, hread 0 (by omega)]
  have hentry : ∀ s < 2 ^ r, ∀ x : SpineEntry H, f s = x.encode → x.Fits r → x.gen % 2 ^ r = s →
      classify (f s) s none = .valid x := by
    intro s _ x hx hfits hmod
    rw [hx, ← hmod]
    exact classify_none hfits
  rcases h.slots 0 (by omega) with ⟨hs, id, hraw⟩ | ⟨-, hlt⟩ | ⟨x, hx, hxf, -, -, hmod⟩
  · have hfirst : classify (f 0) 0 none = .corrupt := by rw [hraw]; rfl
    rw [hfirst]
    simp only [bind_run, hread 1 (by omega)]
    rcases h.slots 1 (by omega) with ⟨hs', -⟩ | ⟨-, hlt⟩ | ⟨x, hx, hxf, -, -, hmod⟩
    · omega
    · obtain hg : e.gen = 0 := by omega
      rw [hg, Nat.zero_add, Nat.mod_eq_of_lt (by omega)] at hs
      omega
    · rw [hentry 1 (by omega) x hx hxf hmod]
      simp [hxf.log2]
  · omega
  · rw [hentry 0 (by omega) x hx hxf hmod]
    simp [hxf.log2]

end Spine

end Manifestus
