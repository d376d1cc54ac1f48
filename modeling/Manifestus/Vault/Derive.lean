import Manifestus.Engine.Digest
import Manifestus.Engine.Word
import Manifestus.Index.Live

/-! The reap an open derives from what it found live. -/
set_option linter.unusedSectionVars false

namespace Manifestus

variable {H : Type} [Crates H] {plow len p : Nat} {live : LiveSet H}

/-- How far downstream of the plow the position `p` is next. -/
def ahead (plow len p : Nat) : Nat := (p + len - plow % len) % len

theorem ahead_lt (hp : p < len) : ahead plow len p < len := Nat.mod_lt _ (by omega)

theorem plow_add_ahead_mod (hp : p < len) : (plow + ahead plow len p) % len = p := by
  have hmod := Nat.mod_lt plow (show 0 < len by omega)
  calc (plow + ahead plow len p) % len = (plow % len + (p + len - plow % len)) % len := by
        rw [ahead, Nat.add_mod_mod, ← Nat.mod_add_mod]
    _ = (p + len) % len := by congr 1; omega
    _ = p := by rw [Nat.add_mod_right, Nat.mod_eq_of_lt hp]

theorem eq_plow_add_ahead {m : Nat} (hle : plow ≤ m) (hlt : m < plow + len) :
    m = plow + ahead plow len (m % len) := by
  have hpos : 0 < len := by omega
  obtain ⟨i, rfl⟩ := Nat.exists_eq_add_of_le hle
  have hmod := Nat.mod_lt plow hpos
  have hahead : ahead plow len ((plow + i) % len) = i := by
    unfold ahead
    rcases Nat.lt_or_ge (plow % len + i) len with h | h
    · have hsame : (plow + i) % len = plow % len + i := by
        rw [Nat.add_mod, Nat.mod_eq_of_lt (by omega : i < len), Nat.mod_eq_of_lt h]
      rw [hsame, show plow % len + i + len - plow % len = i + len by omega, Nat.add_mod_right,
        Nat.mod_eq_of_lt (by omega)]
    · have hsame : (plow + i) % len = plow % len + i - len := by
        rw [Nat.add_mod, Nat.mod_eq_of_lt (by omega : i < len), Nat.mod_eq_sub_mod h,
          Nat.mod_eq_of_lt (by omega)]
      rw [hsame, show plow % len + i - len + len - plow % len = i by omega, Nat.mod_eq_of_lt (by omega)]
  rw [hahead]

private theorem foldl_min_spec {f : Nat → Nat} : ∀ (l : List Nat) (c : Nat),
    l.foldl (fun clean x => min clean (f x)) c ≤ c ∧
      (∀ x ∈ l, l.foldl (fun clean x => min clean (f x)) c ≤ f x) ∧
      (l.foldl (fun clean x => min clean (f x)) c = c ∨
        ∃ x ∈ l, l.foldl (fun clean x => min clean (f x)) c = f x) := by
  intro l
  induction l with
  | nil => intro c; simp
  | cons y l ih =>
    intro c
    obtain ⟨hle, hall, hat⟩ := ih (min c (f y))
    rw [List.foldl_cons]
    refine ⟨hle.trans (min_le_left _ _), ?_, ?_⟩
    · intro x hx
      rcases List.mem_cons.mp hx with rfl | hx
      · exact hle.trans (min_le_right _ _)
      · exact hall x hx
    · rcases hat with hat | ⟨x, hx, hat⟩
      · rcases min_choice c (f y) with h | h
        · exact .inl (hat.trans h)
        · exact .inr ⟨y, by simp, hat.trans h⟩
      · exact .inr ⟨x, by simp [hx], hat⟩

/-- The clean space an open derives ends at the nearest live position, or a lap on. -/
theorem deriveReap_clean (plow len : Nat) (live : LiveSet H) : ∃ clean,
    deriveReap plow len live = plow + clean - len ∧ clean ≤ len ∧
      (∀ p, live.Refers p → clean ≤ ahead plow len p) ∧
      (clean = len ∨ ∃ p, live.Refers p ∧ clean = ahead plow len p) := by
  obtain ⟨hle, hall, hat⟩ := foldl_min_spec (f := ahead plow len) live.positions len
  refine ⟨_, rfl, hle, ?_, ?_⟩
  · intro p hp
    exact hall p (LiveSet.mem_positions.mpr hp)
  · rcases hat with hat | ⟨p, hp, hat⟩
    · exact .inl hat
    · exact .inr ⟨p, LiveSet.mem_positions.mp hp, hat⟩

/-- The cursors keep their rule. -/
theorem deriveReap_cursors (live : LiveSet H) :
    deriveReap plow len live ≤ plow ∧ plow ≤ deriveReap plow len live + len := by
  obtain ⟨clean, heq, hle, -⟩ := deriveReap_clean plow len live
  omega

/-- A live position appended within the last lap lies behind the reap derived from the live set. -/
theorem deriveReap_behind (hlive : live.Refers p) {q : Nat} (hlt : q < plow) (hlap : plow ≤ q + len)
    (hq : q % len = p) : deriveReap plow len live ≤ q := by
  obtain ⟨clean, heq, -, hall, -⟩ := deriveReap_clean plow len live
  have hnext := eq_plow_add_ahead hlap (by omega : q + len < plow + len)
  rw [Nat.add_mod_right, hq] at hnext
  have := hall p hlive
  omega

/-- The cursors' rule, and a clean space without a live block. -/
structure CleanReap (plow len : Nat) (live : LiveSet H) (reap : Nat) : Prop where
  le : reap ≤ plow
  lap : plow ≤ reap + len
  clean : ∀ m, plow ≤ m → m < reap + len → ¬ live.Refers (m % len)

/-- Where no live position waits ahead of the plow, the derived reap has a clean space. -/
theorem deriveReap_sound (hlive : ∀ p, live.Refers p → p < len) (hbehind : ∀ p, live.Refers p → p < plow) :
    CleanReap plow len live (deriveReap plow len live) := by
  obtain ⟨clean, heq, hle, hall, hat⟩ := deriveReap_clean plow len live
  obtain ⟨hcursor, hlap⟩ := @deriveReap_cursors H _ plow len live
  constructor
  · exact hcursor
  · exact hlap
  · intro m hm hlt hrefers
    -- the nearest live position ends the first lap or lies behind the plow
    have hfull : len ≤ plow + clean := by
      rcases hat with rfl | ⟨p, hp, rfl⟩
      · omega
      · have hmod : (plow + ahead plow len p) % len = p := plow_add_ahead_mod (hlive p hp)
        have hp' := hbehind p hp
        by_contra hshort
        rw [Nat.mod_eq_of_lt (by omega)] at hmod
        omega
    have hnext := eq_plow_add_ahead hm (by omega : m < plow + len)
    have := hall _ hrefers
    omega

/-- No reap with a clean space is above the derived one. -/
theorem CleanReap.le_deriveReap (hlive : ∀ p, live.Refers p → p < len) {reap : Nat}
    (h : CleanReap plow len live reap) : reap ≤ deriveReap plow len live := by
  obtain ⟨clean, heq, hle, -, hat⟩ := deriveReap_clean plow len live
  have hcursor := h.le
  have hlap := h.lap
  rcases hat with rfl | ⟨p, hp, rfl⟩
  · omega
  · by_contra hlt
    apply h.clean (plow + ahead plow len p) (by omega) (by omega)
    rw [plow_add_ahead_mod (hlive p hp)]
    exact hp

/-- A live position ahead of the plow on the first lap lies in every clean space. -/
theorem CleanReap.behind {reap : Nat} (h : CleanReap plow len live reap) (hlive : live.Refers p)
    (hp : p < len) : p < plow := by
  by_contra hahead
  apply h.clean p (by omega) (by omega)
  rw [Nat.mod_eq_of_lt hp]
  exact hlive

namespace Word

/-- The sums of `deriveReap` fit: of every live position and the length, and of the plow up to the
nearest live position or the end of the lap. -/
def Fits (plow len : Nat) (live : LiveSet H) : Prop :=
  (∀ p, live.Refers p → p + len ≤ u64Max) ∧
    ∃ m, plow ≤ m ∧ m ≤ plow + len ∧ m ≤ u64Max ∧ (m = plow + len ∨ live.Refers (m % len))

/-- The sums fit for every head that decodes, on a tract of at most 2^63 blocks. -/
theorem Fits.of_head (hlive : ∀ p, live.Refers p → p < len) (hsum : plow + len ≤ u64Max)
    (hlen : len ≤ 2 ^ 63) : Fits plow len live := by
  constructor
  · intro p hp
    have := hlive p hp
    unfold u64Max
    omega
  · exact ⟨plow + len, by omega, le_rfl, hsum, .inl rfl⟩

theorem plus_eq_ok {x y z : Nat} : plus x y = .ok z ↔ x + y ≤ u64Max ∧ z = x + y := by
  unfold plus
  split
  next h => simp [h, eq_comm]
  next h => simp [h]

theorem nearest_eq_ok {pos : Nat} : ∀ {lbas : List Nat} {clean c : Nat},
    nearest len pos lbas clean = .ok c ↔ (∀ x ∈ lbas, x + len ≤ u64Max) ∧
      c = lbas.foldl (fun clean x => min clean ((x + len - pos) % len)) clean := by
  intro lbas
  induction lbas with
  | nil => intro clean c; simp [nearest, eq_comm]
  | cons x lbas ih =>
    intro clean c
    rw [nearest]
    rcases hplus : plus x len with e | d
    · have hover : ¬ x + len ≤ u64Max := by
        intro h
        rw [plus_eq_ok.mpr ⟨h, rfl⟩] at hplus
        cases hplus
      simp [bind, Except.bind, hover]
    · obtain ⟨hfit, rfl⟩ := plus_eq_ok.mp hplus
      simp [bind, Except.bind, ih, hfit]

theorem rem_of_pos {x y : Nat} (hy : 0 < y) : rem x y = .ok (x % y) := if_neg (by omega)

theorem deriveReap_eq_ok (hlen : 0 < len) (hlive : ∀ p, live.Refers p → p < len) {reap : Nat} :
    deriveReap plow len live = .ok reap ↔ Fits plow len live ∧ reap = Manifestus.deriveReap plow len live := by
  obtain ⟨clean, hclean⟩ : ∃ clean, clean = live.positions.foldl
    (fun clean x => min clean ((x + len - plow % len) % len)) len := ⟨_, rfl⟩
  have hpositions : (∀ x ∈ live.positions, x + len ≤ u64Max) ↔ ∀ p, live.Refers p → p + len ≤ u64Max := by
    simp only [LiveSet.mem_positions]
  obtain ⟨hle, hall, hat⟩ := foldl_min_spec (f := ahead plow len) live.positions len
  have hstop : plow + clean ≤ u64Max ↔
      ∃ m, plow ≤ m ∧ m ≤ plow + len ∧ m ≤ u64Max ∧ (m = plow + len ∨ live.Refers (m % len)) := by
    constructor
    · intro hfit
      refine ⟨plow + clean, by omega, by subst hclean; exact Nat.add_le_add_left hle plow, hfit, ?_⟩
      rcases hat with hat | ⟨p, hp, hat⟩
      · exact .inl (by rw [hclean]; exact congrArg (plow + ·) hat)
      · have hp := LiveSet.mem_positions.mp hp
        have hmod : (plow + ahead plow len p) % len = p := plow_add_ahead_mod (hlive p hp)
        rw [← hat] at hmod
        exact .inr (by rw [hclean]; exact hmod.symm ▸ hp)
    · intro hm
      obtain ⟨m, hm, hmle, hfit, hend⟩ := hm
      have hcap : clean ≤ m - plow := by
        rcases hend with rfl | hrefers
        · rw [Nat.add_sub_cancel_left, hclean]
          exact hle
        · rcases Nat.lt_or_ge m (plow + len) with hlt | hge
          · have hnext := eq_plow_add_ahead hm hlt
            have := hall _ (LiveSet.mem_positions.mpr hrefers)
            rw [hclean]
            exact le_trans this (by omega)
          · rw [hclean]
            exact le_trans hle (by omega)
      omega
  unfold deriveReap Fits
  rw [← hpositions, ← hstop, rem_of_pos hlen]
  simp only [bind, Except.bind]
  rcases hnear : nearest len (plow % len) live.positions len with e | c
  · have hover : ¬ ∀ x ∈ live.positions, x + len ≤ u64Max := by
      intro h
      rw [nearest_eq_ok.mpr ⟨h, rfl⟩] at hnear
      cases hnear
    simp only [reduceCtorEq, false_iff]
    exact fun h => hover h.1.1
  · obtain ⟨hfit, rfl⟩ := nearest_eq_ok.mp hnear
    simp only
    rw [← hclean]
    rcases hplus : plus plow clean with e | stop
    · have hover : ¬ plow + clean ≤ u64Max := by
        intro h
        rw [plus_eq_ok.mpr ⟨h, rfl⟩] at hplus
        cases hplus
      simp [hover]
    · obtain ⟨hsum, rfl⟩ := plus_eq_ok.mp hplus
      have hreap : Manifestus.deriveReap plow len live = plow + clean - len := by
        rw [hclean]
        rfl
      rw [hreap, Except.ok.injEq, and_iff_right ⟨hfit, hsum⟩, eq_comm]

end Word

/-- The cursors' rule that `decode` checks. -/
theorem SpineEntry.decode_cursors {b : Block H} {e : SpineEntry H} {own : Nat} (h : SpineEntry.decode b = .ok e)
    (hown : e.reap = some own) : own ≤ e.plow ∧ e.plow ≤ own + e.tractBlocks := by
  have hgeometry : ∀ x : SpineEntry H, x.geometry = .ok e → own ≤ e.plow ∧ e.plow ≤ own + e.tractBlocks := by
    intro x hx
    unfold SpineEntry.geometry at hx
    split at hx
    · cases hx
    split at hx
    · cases hx
    split at hx
    · cases hx
    next hrule =>
      split at hx
      · cases hx
      · cases hx
        simp only [hown, Option.any_some, Bool.or_eq_true, decide_eq_true_eq] at hrule
        omega
  rcases b with _ | ⟨doc, extra⟩ | id
  · cases h
  · cases doc with
    | spine x => exact hgeometry x h
    | _ => cases h
  · cases h

/-- The derived reap is the largest with a clean space exactly where no live position waits ahead of
the plow, which only the first lap of a tract has; the sums fit on every head that decodes. -/
theorem derived_reap_iff (hlen : 0 < len) (hlive : ∀ p, live.Refers p → p < len) :
    (∃ reap, Word.deriveReap plow len live = .ok reap ∧ CleanReap plow len live reap ∧
      (∀ other, CleanReap plow len live other → other ≤ reap) ∧
      ∀ (b : Block H) (e : SpineEntry H) (own : Nat), SpineEntry.decode b = .ok e → e.plow = plow →
        e.tractBlocks = len → e.reap = some own →
        (∀ m, plow ≤ m → m < own + len → ¬ live.Refers (m % len)) → own ≤ reap) ↔
      Word.Fits plow len live ∧ ∀ p, live.Refers p → p < plow := by
  constructor
  · intro h
    obtain ⟨reap, hrun, hclean, -, -⟩ := h
    exact ⟨((Word.deriveReap_eq_ok hlen hlive).mp hrun).1, fun p hp => hclean.behind hp (hlive p hp)⟩
  · intro h
    obtain ⟨hfits, hbehind⟩ := h
    refine ⟨_, (Word.deriveReap_eq_ok hlen hlive).mpr ⟨hfits, rfl⟩, deriveReap_sound hlive hbehind, ?_, ?_⟩
    · intro other hother
      exact hother.le_deriveReap hlive
    · intro b e own hdec hplow htract hown hclean
      subst hplow htract
      obtain ⟨hle, hlap⟩ := SpineEntry.decode_cursors hdec hown
      exact CleanReap.le_deriveReap hlive ⟨hle, hlap, hclean⟩

/-- Live blocks of the second lap, the plow at 13: the clean space is 13 to 16. -/
theorem derived_reap_iff_lap :
    ∃ reap, Word.deriveReap 13 10 (⟨[(7, ⟨1⟩), (9, ⟨2⟩)], [2]⟩ : LiveSet Digest) = .ok reap ∧ reap = 7 ∧
      CleanReap 13 10 (⟨[(7, ⟨1⟩), (9, ⟨2⟩)], [2]⟩ : LiveSet Digest) reap := by
  have hlive : ∀ p, (⟨[(7, ⟨1⟩), (9, ⟨2⟩)], [2]⟩ : LiveSet Digest).Refers p → p < 10 := by
    intro p hp
    rw [← LiveSet.mem_positions] at hp
    simp only [LiveSet.positions, List.map_cons, List.map_nil, List.cons_append, List.nil_append,
      List.mem_cons, List.not_mem_nil, or_false] at hp
    omega
  have hbehind : ∀ p, (⟨[(7, ⟨1⟩), (9, ⟨2⟩)], [2]⟩ : LiveSet Digest).Refers p → p < 13 :=
    fun p hp => (hlive p hp).trans (by decide)
  obtain ⟨reap, hrun, hclean, -⟩ := (derived_reap_iff (by decide) hlive).mpr
    ⟨Word.Fits.of_head hlive (by decide) (by decide), hbehind⟩
  exact ⟨reap, hrun, Except.ok.inj (hrun.symm.trans (by decide)), hclean⟩

/-- A live block at 5 with the plow at 0: the derived clean space is the whole tract. -/
theorem derived_reap_first_lap :
    Word.deriveReap 0 10 (⟨[(5, ⟨1⟩)], []⟩ : LiveSet Digest) = .ok 0 ∧
      ¬ CleanReap 0 10 (⟨[(5, ⟨1⟩)], []⟩ : LiveSet Digest) 0 := by
  constructor
  · decide
  · intro h
    apply h.clean 5 (by decide) (by decide)
    rw [← LiveSet.mem_positions]
    decide

end Manifestus
