import Manifestus.Engine.Ring
import Manifestus.Flat.Mirror

/-! The head search on a ring whose slots are readable: on a rotated run of generations, with
any slots corrupt, it finds the newest valid entry. -/
set_option linter.unusedSectionVars false

namespace Manifestus
open Prog

variable {H : Type} [Crates H]

namespace Ring

/-- What every slot of the ring classifies as. -/
def Shows (r : Ring H) (cls : Nat → Classified H) : Prop :=
  ∀ slot < r.n, (genAt slot).run r = (.ok (cls slot), r)

theorem shows_of_ready {r : Ring H} {d : Dev H} (h : r.mirror.Ready d)
    (hfit : r.base + r.n ≤ d.count) :
    r.Shows fun slot => classify (r.mirror.view d (r.base + slot)) slot (some r.ringLog2) := by
  intro slot hslot
  simp [genAt, onMirror, Mirror.read_run h (show r.base + slot < d.count by omega)]

/-- `res` is the newest valid entry of `[lo, hi]` with its slot. -/
def Newest (cls : Nat → Classified H) (lo hi : Nat) : Option (Nat × SpineEntry H) → Prop
  | none => ∀ i e, lo ≤ i → i ≤ hi → cls i ≠ .valid e
  | some (s, e) => lo ≤ s ∧ s ≤ hi ∧ cls s = .valid e ∧
      ∀ i e', lo ≤ i → i ≤ hi → cls i = .valid e' → e'.gen ≤ e.gen

/-- Generations rise along the slots of `[lo, hi]` but for one drop, and nothing valid follows
an empty slot. -/
structure Rotated (cls : Nat → Classified H) (lo hi : Nat) : Prop where
  empties : ∀ i j e, lo ≤ i → i < j → j ≤ hi → cls i = .empty → cls j ≠ .valid e
  drop : ∃ h, ∀ i j e e', lo ≤ i → i < j → j ≤ hi → cls i = .valid e → cls j = .valid e' →
    if i ≤ h ∧ h < j then e'.gen < e.gen else e.gen < e'.gen

variable {cls : Nat → Classified H} {lo hi lo' hi' : Nat}

theorem Rotated.mono (h : Rotated cls lo hi) (hlo : lo ≤ lo') (hhi : hi' ≤ hi) :
    Rotated cls lo' hi' where
  empties i j e hi₁ hij hj := h.empties i j e (hlo.trans hi₁) hij (hj.trans hhi)
  drop := by
    obtain ⟨p, hp⟩ := h.drop
    exact ⟨p, fun i j e e' hi₁ hij hj => hp i j e e' (hlo.trans hi₁) hij (hj.trans hhi)⟩

theorem newest_maxByGen {x y : Option (Nat × SpineEntry H)} {mid : Nat} (hx : Newest cls lo mid x)
    (hy : Newest cls (mid + 1) hi y) (hlo : lo ≤ mid) (hmid : mid ≤ hi) :
    Newest cls lo hi (maxByGen x y) := by
  have hcases : ∀ i, i ≤ mid ∨ mid + 1 ≤ i := fun i => by omega
  rcases x with _ | ⟨s, e⟩ <;> rcases y with _ | ⟨t, f⟩
  · intro i e hi₁ hi₂
    rcases hcases i with hc | hc
    · exact hx i e hi₁ hc
    · exact hy i e hc hi₂
  · obtain ⟨ht₁, ht₂, hf, hmax⟩ := hy
    refine ⟨by omega, ht₂, hf, ?_⟩
    intro i e' hi₁ hi₂ he'
    rcases hcases i with hc | hc
    · exact absurd he' (hx i e' hi₁ hc)
    · exact hmax i e' hc hi₂ he'
  · obtain ⟨hs₁, hs₂, he, hmax⟩ := hx
    refine ⟨hs₁, by omega, he, ?_⟩
    intro i e' hi₁ hi₂ he'
    rcases hcases i with hc | hc
    · exact hmax i e' hi₁ hc he'
    · exact absurd he' (hy i e' hc hi₂)
  · obtain ⟨hs₁, hs₂, he, hmaxe⟩ := hx
    obtain ⟨ht₁, ht₂, hf, hmaxf⟩ := hy
    simp only [maxByGen]
    split
    next hle =>
      refine ⟨hs₁, by omega, he, ?_⟩
      intro i e' hi₁ hi₂ he'
      rcases hcases i with hc | hc
      · exact hmaxe i e' hi₁ hc he'
      · exact (hmaxf i e' hc hi₂ he').trans hle
    next hlt =>
      refine ⟨by omega, ht₂, hf, ?_⟩
      intro i e' hi₁ hi₂ he'
      rcases hcases i with hc | hc
      · exact (hmaxe i e' hi₁ hc he').trans (by omega)
      · exact hmaxf i e' hc hi₂ he'

/-- The entry a slot that is not corrupt anchors a bisection with. -/
def Anchors (cls : Nat → Classified H) (lo : Nat) : Option (SpineEntry H) → Prop
  | none => cls lo = .empty
  | some e => cls lo = .valid e

theorem newest_of_right {mid : Nat} {anchor : Option (SpineEntry H)} {e : SpineEntry H}
    {res : Option (Nat × SpineEntry H)} (hrot : Rotated cls lo hi) (ha : Anchors cls lo anchor)
    (hmid : lo < mid) (hhi : mid ≤ hi) (he : cls mid = .valid e)
    (hlt : anchor.all (·.gen < e.gen)) (hres : Newest cls mid hi res) : Newest cls lo hi res := by
  rcases anchor with _ | a
  · exact absurd he (hrot.empties lo mid e le_rfl hmid hhi ha)
  have hae : a.gen < e.gen := by simpa using hlt
  obtain ⟨p, hp⟩ := hrot.drop
  have hsame : ¬ (lo ≤ p ∧ p < mid) := by
    intro hc
    have := hp lo mid a e le_rfl hmid hhi ha he
    rw [if_pos hc] at this
    omega
  have hleft : ∀ i e', lo ≤ i → i < mid → cls i = .valid e' → e'.gen < e.gen := by
    intro i e' hi₁ hi₂ he'
    have := hp i mid e' e hi₁ hi₂ hhi he' he
    rwa [if_neg (by omega)] at this
  rcases res with _ | ⟨s, f⟩
  · exact absurd he (hres mid e le_rfl hhi)
  · obtain ⟨hs₁, hs₂, hf, hmax⟩ := hres
    have hef := hmax mid e le_rfl hhi he
    refine ⟨by omega, hs₂, hf, ?_⟩
    intro i e' hi₁ hi₂ he'
    rcases Nat.lt_or_ge i mid with hc | hc
    · exact (hleft i e' hi₁ hc he').le.trans hef
    · exact hmax i e' hc hi₂ he'

theorem newest_of_left {mid : Nat} {anchor : Option (SpineEntry H)} {res : Option (Nat × SpineEntry H)}
    (hmid : lo < mid) (hhi : mid ≤ hi) (ha : Anchors cls lo anchor)
    (hright : ∀ i e, mid ≤ i → i ≤ hi → cls i = .valid e → ∃ a, anchor = some a ∧ e.gen ≤ a.gen)
    (hres : Newest cls lo (mid - 1) res) : Newest cls lo hi res := by
  rcases res with _ | ⟨s, f⟩
  · intro i e hi₁ hi₂ he
    rcases Nat.lt_or_ge i mid with hc | hc
    · exact hres i e hi₁ (by omega) he
    · obtain ⟨a, rfl, _⟩ := hright i e hc hi₂ he
      exact hres lo a le_rfl (by omega) ha
  · obtain ⟨hs₁, hs₂, hf, hmax⟩ := hres
    refine ⟨hs₁, by omega, hf, ?_⟩
    intro i e' hi₁ hi₂ he'
    rcases Nat.lt_or_ge i mid with hc | hc
    · exact hmax i e' hi₁ (by omega) he'
    · obtain ⟨a, rfl, hle⟩ := hright i e' hc hi₂ he'
      exact hle.trans (hmax lo a le_rfl (by omega) ha)

theorem newest_anchor {anchor : Option (SpineEntry H)} (ha : Anchors cls lo anchor) :
    Newest cls lo lo (anchor.map (lo, ·)) := by
  rcases anchor with _ | a
  · intro i e hi₁ hi₂ he
    obtain rfl : i = lo := le_antisymm hi₂ hi₁
    rw [show cls i = .empty from ha] at he
    cases he
  · refine ⟨le_rfl, le_rfl, ha, ?_⟩
    intro i e' hi₁ hi₂ he'
    obtain rfl : i = lo := le_antisymm hi₂ hi₁
    rw [show cls i = .valid a from ha] at he'
    cases he'
    exact le_rfl

/-- Bisection from an anchor, given that `both` finds the newest entry of smaller ranges. -/
theorem bisect_run {r : Ring H} (hshow : r.Shows cls)
    (both : Nat → Nat → Prog Error (Ring H) (Option (Nat × SpineEntry H))) {top : Nat}
    (hboth : ∀ lo hi, hi < r.n → Rotated cls lo hi → hi + 1 - lo < top →
      ∃ res, (both lo hi).run r = (.ok res, r) ∧ Newest cls lo hi res) :
    ∀ fuel lo anchor hi, hi < r.n → hi - lo ≤ fuel → lo ≤ hi → hi + 1 - lo ≤ top →
      Rotated cls lo hi → Anchors cls lo anchor →
      ∃ res, (bisect both fuel lo anchor hi).run r = (.ok res, r) ∧ Newest cls lo hi res := by
  intro fuel
  induction fuel with
  | zero =>
    intro lo anchor hi _ hfuel hle _ _ ha
    obtain rfl : hi = lo := by omega
    exact ⟨_, rfl, newest_anchor ha⟩
  | succ fuel ih =>
    intro lo anchor hi hn hfuel hle htop hrot ha
    by_cases hlt : lo < hi
    · obtain ⟨mid, hmid⟩ : ∃ mid, mid = (lo + hi + 1) / 2 := ⟨_, rfl⟩
      have hread := hshow mid (by omega)
      simp only [bisect, if_pos hlt, bind_run, ← hmid, hread]
      rcases hcls : cls mid with e | _ | _
      · simp only
        split
        next hall =>
          obtain ⟨res, hrun, hres⟩ := ih mid (some e) hi hn (by omega) (by omega) (by omega)
            (hrot.mono (by omega) le_rfl) hcls
          exact ⟨res, hrun, newest_of_right hrot ha (by omega) (by omega) hcls hall hres⟩
        next hall =>
          obtain ⟨res, hrun, hres⟩ := ih lo anchor (mid - 1) (by omega) (by omega) (by omega)
            (by omega) (hrot.mono le_rfl (by omega)) ha
          refine ⟨res, hrun, newest_of_left (by omega) (by omega) ha ?_ hres⟩
          intro i e' hi₁ hi₂ he'
          rcases anchor with _ | a
          · simp at hall
          have hea : e.gen ≤ a.gen := by simpa using hall
          refine ⟨a, rfl, ?_⟩
          obtain ⟨p, hp⟩ := hrot.drop
          have hcross : lo ≤ p ∧ p < mid := by
            by_contra hc
            have := hp lo mid a e le_rfl (by omega) (by omega) ha hcls
            rw [if_neg hc] at this
            omega
          have := hp lo i a e' le_rfl (by omega) hi₂ ha he'
          rw [if_pos (by omega)] at this
          exact this.le
      · obtain ⟨res, hrun, hres⟩ := ih lo anchor (mid - 1) (by omega) (by omega) (by omega)
          (by omega) (hrot.mono le_rfl (by omega)) ha
        refine ⟨res, hrun, newest_of_left (by omega) (by omega) ha ?_ hres⟩
        intro i e' hi₁ hi₂ he'
        rcases Nat.eq_or_lt_of_le hi₁ with rfl | hlt'
        · rw [hcls] at he'
          cases he'
        · exact absurd he' (hrot.empties mid i e' (by omega) hlt' hi₂ hcls)
      · obtain ⟨x, hxrun, hx⟩ := hboth lo (mid - 1) (by omega) (hrot.mono le_rfl (by omega)) (by omega)
        obtain ⟨y, hyrun, hy⟩ := hboth mid hi hn (hrot.mono (by omega) le_rfl) (by omega)
        refine ⟨maxByGen x y, by simp [hxrun, hyrun], ?_⟩
        have hm : mid - 1 + 1 = mid := by omega
        exact newest_maxByGen hx (hm ▸ hy) (by omega) (by omega)
    · obtain rfl : hi = lo := by omega
      exact ⟨_, by simp [bisect], newest_anchor ha⟩

theorem search_run {r : Ring H} (hshow : r.Shows cls) :
    ∀ fuel lo hi, hi < r.n → hi + 1 - lo < fuel → Rotated cls lo hi →
      ∃ res, (search fuel lo hi).run r = (.ok res, r) ∧ Newest cls lo hi res := by
  intro fuel
  induction fuel with
  | zero => intro lo hi _ hfuel; omega
  | succ fuel ih =>
    intro lo hi hn hfuel hrot
    by_cases hlt : hi < lo
    · refine ⟨none, by simp [search, hlt], ?_⟩
      intro i e hi₁ hi₂
      omega
    · have hbisect := bisect_run hshow (search fuel)
        (fun lo hi hn hrot hs => ih lo hi hn hs hrot) fuel
      simp only [search, if_neg hlt, bind_run, hshow lo (by omega)]
      rcases hcls : cls lo with e | _ | _
      · exact hbisect lo (some e) hi hn (by omega) (by omega) (by omega) hrot hcls
      · exact hbisect lo none hi hn (by omega) (by omega) (by omega) hrot hcls
      · obtain ⟨res, hrun, hres⟩ := ih (lo + 1) hi hn (by omega) (hrot.mono (by omega) le_rfl)
        refine ⟨res, hrun, ?_⟩
        have hne : ∀ i e, lo ≤ i → cls i = .valid e → lo + 1 ≤ i := by
          intro i e hi₁ he
          rcases Nat.eq_or_lt_of_le hi₁ with rfl | hlt'
          · rw [hcls] at he
            cases he
          · exact hlt'
        rcases res with _ | ⟨s, f⟩
        · intro i e hi₁ hi₂ he
          exact hres i e (hne i e hi₁ he) hi₂ he
        · obtain ⟨hs₁, hs₂, hf, hmax⟩ := hres
          exact ⟨by omega, hs₂, hf, fun i e' hi₁ hi₂ he' => hmax i e' (hne i e' hi₁ he') hi₂ he'⟩

/-- On a rotated ring the head search finds the newest valid entry. -/
theorem headSearch_run {r : Ring H} (hshow : r.Shows cls) (hrot : Rotated cls 0 (r.n - 1)) :
    ∃ res, headSearch.run r = (.ok res, r) ∧ Newest cls 0 (r.n - 1) res := by
  have hpos : 0 < r.n := Nat.two_pow_pos r.ringLog2
  obtain ⟨res, hrun, hres⟩ := search_run hshow (r.n + 1) 0 (r.n - 1) (by omega) (by omega) hrot
  exact ⟨res, by simp [headSearch, hrun], hres⟩

/-- On any readable ring the search ends, with a valid entry or none. -/
theorem bisect_total {r : Ring H} (hshow : r.Shows cls)
    (both : Nat → Nat → Prog Error (Ring H) (Option (Nat × SpineEntry H)))
    (hboth : ∀ lo hi, hi < r.n →
      ∃ res, (both lo hi).run r = (.ok res, r) ∧ ∀ s e, res = some (s, e) → s < r.n ∧ cls s = .valid e) :
    ∀ fuel lo anchor hi, lo < r.n → hi < r.n → Anchors cls lo anchor →
      ∃ res, (bisect both fuel lo anchor hi).run r = (.ok res, r) ∧
        ∀ s e, res = some (s, e) → s < r.n ∧ cls s = .valid e := by
  have hanchor : ∀ lo anchor, lo < r.n → Anchors cls lo anchor → ∀ (s : Nat) (e : SpineEntry H),
      anchor.map (lo, ·) = some (s, e) → s < r.n ∧ cls s = .valid e := by
    intro lo anchor hn ha s e h
    rcases anchor with _ | a
    · simp at h
    · simp only [Option.map_some, Option.some.injEq, Prod.mk.injEq] at h
      obtain ⟨rfl, rfl⟩ := h
      exact ⟨hn, ha⟩
  intro fuel
  induction fuel with
  | zero => exact fun lo anchor hi hlo _ ha => ⟨_, rfl, hanchor lo anchor hlo ha⟩
  | succ fuel ih =>
    intro lo anchor hi hlo hn ha
    by_cases hlt : lo < hi
    · obtain ⟨mid, hmid⟩ : ∃ mid, mid = (lo + hi + 1) / 2 := ⟨_, rfl⟩
      simp only [bisect, if_pos hlt, bind_run, ← hmid, hshow mid (by omega)]
      rcases hcls : cls mid with e | _ | _
      · simp only
        split
        · exact ih mid (some e) hi (by omega) hn hcls
        · exact ih lo anchor (mid - 1) hlo (by omega) ha
      · exact ih lo anchor (mid - 1) hlo (by omega) ha
      · obtain ⟨x, hxrun, hx⟩ := hboth lo (mid - 1) (by omega)
        obtain ⟨y, hyrun, hy⟩ := hboth mid hi hn
        refine ⟨maxByGen x y, by simp [hxrun, hyrun], ?_⟩
        intro s e h
        rcases x with _ | x <;> rcases y with _ | y
        · simp [maxByGen] at h
        · exact hy s e h
        · exact hx s e h
        · simp only [maxByGen] at h
          split at h
          · exact hx s e h
          · exact hy s e h
    · exact ⟨_, by simp [bisect, hlt], hanchor lo anchor hlo ha⟩

theorem search_total {r : Ring H} (hshow : r.Shows cls) :
    ∀ fuel lo hi, hi < r.n →
      ∃ res, (search fuel lo hi).run r = (.ok res, r) ∧
        ∀ s e, res = some (s, e) → s < r.n ∧ cls s = .valid e := by
  intro fuel
  induction fuel with
  | zero => exact fun lo hi _ => ⟨none, rfl, by simp⟩
  | succ fuel ih =>
    intro lo hi hn
    by_cases hlt : hi < lo
    · exact ⟨none, by simp [search, hlt], by simp⟩
    · have hbisect := bisect_total hshow (search fuel) (fun lo hi hn => ih lo hi hn) fuel lo
      simp only [search, if_neg hlt, bind_run, hshow lo (by omega)]
      rcases hcls : cls lo with e | _ | _
      · exact hbisect (some e) hi (by omega) hn hcls
      · exact hbisect none hi (by omega) hn hcls
      · exact ih (lo + 1) hi hn

theorem openAt_eq {m : Mirror H} {ringLog2 base : Nat} {head : Option (Nat × SpineEntry H)}
    (h : headSearch.run ⟨m, ringLog2, base, none⟩ = (.ok head, ⟨m, ringLog2, base, none⟩)) :
    (openAt ringLog2 base).run m = (.ok ⟨m, ringLog2, base, head⟩, m) := by
  simp [openAt, h]

/-- Opening a readable ring succeeds; a head it finds is an entry of the ring. -/
theorem openAt_total {m : Mirror H} {d : Dev H} (h : m.Ready d) (ringLog2 base : Nat)
    (hfit : base + 2 ^ ringLog2 ≤ d.count) :
    ∃ head, (openAt ringLog2 base).run m = (.ok ⟨m, ringLog2, base, head⟩, m) ∧
      ∀ s e, head = some (s, e) →
        s < 2 ^ ringLog2 ∧ classify (m.view d (base + s)) s (some ringLog2) = .valid e := by
  have hshow := shows_of_ready (r := ⟨m, ringLog2, base, none⟩) h hfit
  have hpos := Nat.two_pow_pos ringLog2
  obtain ⟨res, hrun, hres⟩ := search_total hshow (2 ^ ringLog2 + 1) 0 (2 ^ ringLog2 - 1)
    (by simp only [n]; omega)
  refine ⟨res, openAt_eq ?_, hres⟩
  simpa [headSearch, n] using hrun

end Ring
end Manifestus
