import Manifestus.Spine.Residence
import Manifestus.Engine.Replicate

/-! A fixed ring with corrupt slots: the bisection, the scan of replication and the scan of the
inspector agree on the newest entry left. -/
set_option linter.unusedSectionVars false

namespace Manifestus
open Prog

variable {H : Type} [Crates H]

/-- An encoded entry is read as itself or not at all. -/
theorem eq_of_classify_encode {e f : SpineEntry H} {slot r : Nat}
    (h : classify e.encode slot (some r) = .valid f) : f = e := by
  unfold classify at h
  split at h
  next hz => cases hz
  · split at h
    next g hg =>
      simp only [Option.getD_some] at h
      split at h
      · cases h
      · split at h
        · cases h
        · cases h
          exact (SpineEntry.geometry_ringLog2 hg).1
    · cases h

theorem gen_of_valid {b : Block H} {slot r : Nat} {e : SpineEntry H}
    (h : classify b slot (some r) = .valid e) : e.gen % 2 ^ r = slot := by
  unfold classify at h
  split at h
  · cases h
  · split at h
    next g hg =>
      simp only [Option.getD_some] at h
      split at h
      · cases h
      · split at h
        · cases h
        next hmod =>
          cases h
          simpa using hmod
    · cases h

theorem classify_empty {b : Block H} {slot r : Nat} (h : classify b slot (some r) = .empty) :
    b = .zero := by
  unfold classify at h
  split at h
  · rfl
  · split at h
    · simp only [Option.getD_some] at h
      split at h
      · cases h
      · split at h <;> cases h
    · cases h

private theorem eq_of_mod {n m x y : Nat} (hx : x ≤ m) (hx' : m < x + n) (hy : y ≤ m) (hy' : m < y + n)
    (h : x % n = y % n) : x = y := by
  rcases lt_trichotomy x y with hlt | heq | hlt
  · have hdvd : n ∣ y - x := (Nat.modEq_iff_dvd' hlt.le).mp h
    have := Nat.le_of_dvd (by omega) hdvd
    omega
  · exact heq
  · have hdvd : n ∣ x - y := (Nat.modEq_iff_dvd' hlt.le).mp h.symm
    have := Nat.le_of_dvd (by omega) hdvd
    omega

/-- The generation a slot holds once `m` is the last one written: of this lap up to the last
slot, of the lap before past it. -/
theorem lap_gen {n m k slot : Nat} (hn : 0 < n) (hk : k ≤ m) (hk' : m < k + n) (hslot : k % n = slot) :
    if slot ≤ m % n then k = m - (m % n - slot) else k + n = m + (slot - m % n) := by
  have ht := Nat.mod_lt m hn
  have hs := Nat.mod_lt k hn
  have hdm := Nat.div_add_mod m n
  split
  next hle =>
    refine eq_of_mod hk hk' (by omega) (by omega) ?_
    have hshift : m - (m % n - slot) = slot + n * (m / n) := by omega
    rw [hshift, Nat.add_mul_mod_self_left, Nat.mod_eq_of_lt (show slot < n by omega), hslot]
  next hgt =>
    rcases Nat.eq_zero_or_pos (m / n) with hz | hpos
    · rw [hz, Nat.mul_zero] at hdm
      have := Nat.mod_eq_of_lt (show k < n by omega)
      omega
    · obtain ⟨q, hq⟩ : ∃ q, m / n = q + 1 := ⟨m / n - 1, by omega⟩
      rw [hq, Nat.mul_add, Nat.mul_one] at hdm
      have hprev : k = slot + n * q := by
        refine eq_of_mod hk hk' (by omega) (by omega) ?_
        rw [Nat.add_mul_mod_self_left, Nat.mod_eq_of_lt (show slot < n by omega), hslot]
      omega

namespace Ring

variable {r : Ring H} {es : List (SpineEntry H)} {f : Nat → Block H} {cls : Nat → Classified H}

/-- What a slot shows after generations from 0 and corruption: its last generation, nothing, or
a corrupt block. -/
theorem rotated_of_genesis (hzero : ∀ slot < r.n, f (r.base + slot) = .zero)
    (hg : ∀ i (hi : i < es.length), es[i].gen = i)
    (hcls : ∀ slot < r.n, cls slot = .corrupt ∨
      cls slot = classify (written r.base r.n f es (r.base + slot)) slot (some r.ringLog2)) :
    Rotated cls 0 (r.n - 1) := by
  have hpos : 0 < r.n := Nat.two_pow_pos _
  rcases Nat.eq_zero_or_pos es.length with hnone | hsome
  · -- nothing was appended
    have hempty : ∀ slot < r.n, ∀ e, cls slot ≠ .valid e := by
      intro slot hslot e he
      rcases hcls slot hslot with hc | hc
      · rw [hc] at he; cases he
      · rw [List.length_eq_zero_iff.mp hnone] at hc
        rw [hc, written, List.foldl_nil, hzero slot hslot] at he
        cases he
    exact ⟨fun i j e _ _ hj _ => hempty j (by omega) e,
      0, fun i j e e' _ hij hj he => absurd he (hempty i (by omega) e)⟩
  obtain ⟨m, hm⟩ : ∃ m, es.length = m + 1 := ⟨es.length - 1, by omega⟩
  have hslot : ∀ slot < r.n, (∃ k, ∃ hk : k < es.length, m < k + r.n ∧ k % r.n = slot ∧
      written r.base r.n f es (r.base + slot) = es[k].encode) ∨
      (m < slot ∧ written r.base r.n f es (r.base + slot) = .zero) := by
    intro slot hlt
    rcases slot_cases (r := r) (f := f) (g := 0) (by simpa using hg) hm slot with
      ⟨k, hk, hmk, hmod, hw⟩ | ⟨hnever, hw⟩
    · exact .inl ⟨k, hk, hmk, by simpa using hmod, hw⟩
    · refine .inr ⟨?_, hw.trans (hzero slot hlt)⟩
      by_contra hle
      exact hnever slot (by omega) (by rw [Nat.zero_add, Nat.mod_eq_of_lt hlt])
  have hvalid : ∀ slot < r.n, ∀ e, cls slot = .valid e →
      ∃ k, e.gen = k ∧ k ≤ m ∧ m < k + r.n ∧ k % r.n = slot := by
    intro slot hlt e he
    rcases hcls slot hlt with hc | hc
    · rw [hc] at he; cases he
    · rw [hc] at he
      rcases hslot slot hlt with ⟨k, hk, hmk, hmod, hw⟩ | ⟨-, hw⟩
      · rw [hw] at he
        exact ⟨k, by rw [eq_of_classify_encode he, hg k hk], by omega, hmk, hmod⟩
      · rw [hw] at he
        cases he
  refine ⟨?_, m % r.n, ?_⟩
  · intro i j e _ hij hj hi he
    obtain ⟨k, -, hkm, hmk, hmod⟩ := hvalid j (by omega) e he
    rcases hcls i (by omega) with hc | hc
    · rw [hc] at hi; cases hi
    · rw [hc] at hi
      have hz := classify_empty hi
      rcases hslot i (by omega) with ⟨k', hk', -, -, hw⟩ | ⟨hlt, -⟩
      · rw [hw] at hz
        cases hz
      · -- the first lap ended before `i`, so `j` was never written
        have hk := Nat.mod_le k r.n
        omega
  · intro i j e e' _ hij hj hi hj'
    obtain ⟨k, hk, hkm, hmk, hmod⟩ := hvalid i (by omega) e hi
    obtain ⟨k', hk', hkm', hmk', hmod'⟩ := hvalid j (by omega) e' hj'
    have h₁ := lap_gen hpos hkm hmk hmod
    have h₂ := lap_gen hpos hkm' hmk' hmod'
    have hle := Nat.mod_le m r.n
    split at h₁ <;> split at h₂ <;> split <;> omega

end Ring

section Scan

variable {d : Dev H} {ringLog2 : Nat}

/-- The slots of a device as a scan from block 0 classifies them. -/
private def seen (d : Dev H) (ringLog2 slot : Nat) : Classified H :=
  classify (d.data slot) slot (some ringLog2)

/-- `best` is the newest valid entry of the slots below `n`. -/
private def Best (cls : Nat → Classified H) (n : Nat) : Option (Nat × SpineEntry H) → Prop
  | none => ∀ i < n, ∀ e, cls i ≠ .valid e
  | some (s, e) => s < n ∧ cls s = .valid e ∧ ∀ i < n, ∀ e', cls i = .valid e' → e'.gen ≤ e.gen

private theorem Best.keep {cls : Nat → Classified H} {n : Nat} {best : Option (Nat × SpineEntry H)}
    (h : Best cls n best)
    (hn : ∀ e, cls n = .valid e → ∃ b, best = some b ∧ e.gen ≤ b.2.gen) : Best cls (n + 1) best := by
  rcases best with _ | ⟨s, b⟩
  · intro i hi e he
    rcases Nat.lt_succ_iff_lt_or_eq.mp hi with hlt | rfl
    · exact h i hlt e he
    · obtain ⟨b, hb, -⟩ := hn e he
      cases hb
  · refine ⟨by have := h.1; omega, h.2.1, fun i hi e he => ?_⟩
    rcases Nat.lt_succ_iff_lt_or_eq.mp hi with hlt | rfl
    · exact h.2.2 i hlt e he
    · obtain ⟨b', hb, hle⟩ := hn e he
      cases hb
      exact hle

private theorem Best.take {cls : Nat → Classified H} {n : Nat} {best : Option (Nat × SpineEntry H)}
    {e : SpineEntry H} (h : Best cls n best) (he : cls n = .valid e)
    (hle : ∀ b, best = some b → b.2.gen ≤ e.gen) : Best cls (n + 1) (some (n, e)) := by
  refine ⟨Nat.lt_succ_self n, he, fun i hi e' he' => ?_⟩
  rcases Nat.lt_succ_iff_lt_or_eq.mp hi with hlt | rfl
  · rcases best with _ | ⟨s, b⟩
    · exact absurd he' (h i hlt e')
    · exact (h.2.2 i hlt e' he').trans (hle _ rfl)
  · rw [he] at he'
    cases he'
    exact le_rfl

private theorem range'_succ_of_pos {a n : Nat} : List.range' a (n + 1) = a :: List.range' (a + 1) n := rfl

private theorem bestGen_go (hs : d.script = []) : ∀ {k a : Nat} {b : Option (Nat × SpineEntry H)},
    a + k ≤ d.count → Best (seen d ringLog2) a b →
    ∃ best', Best (seen d ringLog2) (a + k) best' ∧
      (bestGen.go ringLog2 0 (b.map (·.2.gen)) ((b.map Prod.fst).getD 0) (List.range' a k)).run d =
        (.ok (best'.map (·.2.gen), (best'.map Prod.fst).getD 0), d) := by
  intro k
  induction k with
  | zero => intro a best _ h; exact ⟨best, h, rfl⟩
  | succ k ih =>
    intro a best hfit h
    rw [range'_succ_of_pos]
    have hread := Dev.read_run hs (show 0 + a < d.count by omega)
    rw [Nat.zero_add] at hread
    rcases hc : seen d ringLog2 a with e | _ | _
    · have hcls : classify (d.data a) a (some ringLog2) = .valid e := hc
      by_cases hlt : (best.map (·.2.gen)).all (· < e.gen)
      · obtain ⟨best', hb, hrun⟩ := ih (a := a + 1) (b := some (a, e)) (by omega)
          (h.take hc fun b hb => by
            rw [hb] at hlt
            have : b.2.gen < e.gen := by simpa using hlt
            omega)
        refine ⟨best', by rwa [Nat.add_assoc, Nat.add_comm 1] at hb, ?_⟩
        simp only [bestGen.go, Nat.zero_add, bind_run, hread, hcls]
        rw [if_pos hlt]
        exact hrun
      · obtain ⟨best', hb, hrun⟩ := ih (a := a + 1) (b := best) (by omega) (h.keep fun e' he' => by
          rw [hc] at he'
          cases he'
          rcases best with _ | b
          · simp at hlt
          · exact ⟨b, rfl, by simpa using hlt⟩)
        refine ⟨best', by rwa [Nat.add_assoc, Nat.add_comm 1] at hb, ?_⟩
        simp only [bestGen.go, Nat.zero_add, bind_run, hread, hcls]
        rw [if_neg hlt]
        exact hrun
    all_goals
      have hcls : classify (d.data a) a (some ringLog2) = _ := hc
      obtain ⟨best', hb, hrun⟩ := ih (a := a + 1) (b := best) (by omega)
        (h.keep fun e' he' => by rw [hc] at he'; cases he')
      refine ⟨best', by rwa [Nat.add_assoc, Nat.add_comm 1] at hb, ?_⟩
      simp only [bestGen.go, Nat.zero_add, bind_run, hread, hcls]
      exact hrun

private theorem inspectHead_go (hs : d.script = []) : ∀ {k a : Nat} {b : Option (Nat × SpineEntry H)},
    a + k ≤ d.count → Best (seen d ringLog2) a b →
    ∃ best', Best (seen d ringLog2) (a + k) best' ∧
      (inspectHead.go ringLog2 b (List.range' a k)).run d = (.ok best', d) := by
  intro k
  induction k with
  | zero => intro a best _ h; exact ⟨best, h, rfl⟩
  | succ k ih =>
    intro a best hfit h
    rw [range'_succ_of_pos]
    have hread := Dev.read_run hs (show a < d.count by omega)
    rcases hc : seen d ringLog2 a with e | _ | _
    · have hcls : classify (d.data a) a (some ringLog2) = .valid e := hc
      by_cases hle : best.all (·.2.gen ≤ e.gen)
      · obtain ⟨best', hb, hrun⟩ := ih (a := a + 1) (b := some (a, e)) (by omega)
          (h.take hc fun b hb => by
            rw [hb] at hle
            simpa using hle)
        refine ⟨best', by rwa [Nat.add_assoc, Nat.add_comm 1] at hb, ?_⟩
        simp only [inspectHead.go, bind_run, hread, hcls]
        rw [if_pos hle]
        exact hrun
      · obtain ⟨best', hb, hrun⟩ := ih (a := a + 1) (b := best) (by omega) (h.keep fun e' he' => by
          rw [hc] at he'
          cases he'
          rcases best with _ | b
          · simp at hle
          · exact ⟨b, rfl, by have : ¬ b.2.gen ≤ e.gen := by simpa using hle
                              omega⟩)
        refine ⟨best', by rwa [Nat.add_assoc, Nat.add_comm 1] at hb, ?_⟩
        simp only [inspectHead.go, bind_run, hread, hcls]
        rw [if_neg hle]
        exact hrun
    all_goals
      have hcls : classify (d.data a) a (some ringLog2) = _ := hc
      obtain ⟨best', hb, hrun⟩ := ih (a := a + 1) (b := best) (by omega)
        (h.keep fun e' he' => by rw [hc] at he'; cases he')
      refine ⟨best', by rwa [Nat.add_assoc, Nat.add_comm 1] at hb, ?_⟩
      simp only [inspectHead.go, bind_run, hread, hcls]
      exact hrun

/-- A slot holds only generations that belong there, so the newest entry is one. -/
private theorem Best.unique {n : Nat} {x y : Option (Nat × SpineEntry H)} (hx : Best (seen d ringLog2) n x)
    (hy : Best (seen d ringLog2) n y) : x = y := by
  rcases x with _ | ⟨s, e⟩ <;> rcases y with _ | ⟨t, f⟩
  · rfl
  · exact absurd hy.2.1 (hx t hy.1 f)
  · exact absurd hx.2.1 (hy s hx.1 e)
  · have hgen : e.gen = f.gen := le_antisymm (hy.2.2 s hx.1 e hx.2.1) (hx.2.2 t hy.1 f hy.2.1)
    have hst : s = t := by
      rw [← gen_of_valid hx.2.1, ← gen_of_valid hy.2.1, hgen]
    subst hst
    have := hx.2.1.symm.trans hy.2.1
    cases this
    rfl

end Scan

/-- The head of a fixed ring, whatever slots are corrupt: generations are appended from
genesis on a zeroed ring, then any slots are replaced by blocks that classify as corrupt. The
search ends with the newest valid entry left and its slot, none exactly when no slot is valid,
as the scans of replication and of the inspector do. -/
theorem fixed_ring_head {m₀ m₁ m : Mirror H} {d₀ d c : Dev H} (hm : m₀.Ready d₀) {ringLog2 : Nat}
    (hfit : 2 ^ ringLog2 ≤ d₀.count) (hzero : (zeroRingAt ringLog2 0).run m₀ = (.ok (), m₁))
    {es : List (SpineEntry H)} {q : Ring H}
    (happ : (each Ring.append es).run ⟨m₁, ringLog2, 0, none⟩ = (.ok (), q))
    (hd : q.mirror.primary = some d) (hc : m.Ready c) (hp : m.pending = [])
    (hcount : 2 ^ ringLog2 ≤ c.count)
    (hcorrupt : ∀ slot < 2 ^ ringLog2,
      c.data slot = d.data slot ∨ classify (c.data slot) slot (some ringLog2) = .corrupt) :
    ∃ head, (Ring.openAt ringLog2 0).run m = (.ok ⟨m, ringLog2, 0, head⟩, m) ∧
      (head = none ↔ ∀ slot < 2 ^ ringLog2, ∀ e, classify (c.data slot) slot (some ringLog2) ≠ .valid e) ∧
      (∀ s e, head = some (s, e) → s < 2 ^ ringLog2 ∧ classify (c.data s) s (some ringLog2) = .valid e ∧
        ∀ slot < 2 ^ ringLog2, ∀ e', classify (c.data slot) slot (some ringLog2) = .valid e' →
          e'.gen ≤ e.gen) ∧
      (bestGen (2 ^ ringLog2) ringLog2 0).run c =
        (.ok (head.map (·.2.gen), (head.map Prod.fst).getD 0), c) ∧
      (inspectHead ringLog2).run c = (.ok head, c) := by
  have hpos := Nat.two_pow_pos ringLog2
  obtain ⟨m₁', d₁, hrun₁, h₁, hp₁, hcount₁, -, hdata₁⟩ := zeroRingAt_run hm ringLog2 0 (by omega)
  obtain rfl : m₁ = m₁' := by
    rw [hzero] at hrun₁
    exact (Prod.mk.inj hrun₁).2
  obtain ⟨d', hready, -, hpend, hview, hgen⟩ :=
    Ring.appends_run (q := ⟨m₁, ringLog2, 0, none⟩) h₁ (by simp [Ring.n]; omega) happ
  obtain rfl : d' = d := Option.some.inj (hready.primary.symm.trans hd)
  have hzeros : ∀ slot < 2 ^ ringLog2, m₁.view d₁ (0 + slot) = .zero := by
    intro slot hslot
    rw [Mirror.view_of_pending_nil hp₁, hdata₁, if_pos (by omega)]
  have hblock : ∀ slot, d'.data slot = Ring.written 0 (2 ^ ringLog2) (m₁.view d₁) es (0 + slot) := by
    intro slot
    have hnil : q.mirror.pending = [] := by
      by_cases hes : es = []
      · subst hes
        simp only [each, pure_run, Prod.mk.injEq, true_and] at happ
        rw [← happ]
        exact hp₁
      · exact hpend hes
    rw [← Mirror.view_of_pending_nil (d := d') hnil, hview, Nat.zero_add]
    rfl
  have hrot : Ring.Rotated (fun slot => classify (c.data slot) slot (some ringLog2)) 0 (2 ^ ringLog2 - 1) := by
    refine Ring.rotated_of_genesis (r := ⟨m, ringLog2, 0, none⟩) (f := m₁.view d₁) hzeros
      (fun i hi => by simpa [Ring.nextGen, Ring.headEntry] using (hgen i hi).2) fun slot hslot => ?_
    rcases hcorrupt slot hslot with h | h
    · right
      rw [h, hblock]
      rfl
    · exact .inl h
  have hshow : Ring.Shows ⟨m, ringLog2, 0, none⟩ fun slot => classify (c.data slot) slot (some ringLog2) := by
    have := Ring.shows_of_ready (r := ⟨m, ringLog2, 0, none⟩) hc (by simpa [Ring.n] using hcount)
    simpa [Mirror.view_of_pending_nil hp] using this
  obtain ⟨head, hsearch, hnewest⟩ := Ring.headSearch_run hshow hrot
  have hlast : ∀ i, i ≤ 2 ^ ringLog2 - 1 ↔ i < 2 ^ ringLog2 := fun i => by omega
  have hbest : Best (seen c ringLog2) (2 ^ ringLog2) head := by
    rcases head with _ | ⟨s, e⟩
    · intro i hi e he
      exact hnewest i e (Nat.zero_le i) ((hlast i).mpr hi) he
    · exact ⟨(hlast s).mp hnewest.2.1, hnewest.2.2.1, fun i hi e' he' =>
        hnewest.2.2.2 i e' (Nat.zero_le i) ((hlast i).mpr hi) he'⟩
  have hnone : Best (seen c ringLog2) 0 none := fun i hi => absurd hi (Nat.not_lt_zero i)
  refine ⟨head, Ring.openAt_eq hsearch, ?_, ?_, ?_, ?_⟩
  · constructor
    · rintro rfl
      exact hbest
    · intro hno
      rcases head with _ | ⟨s, e⟩
      · rfl
      · exact absurd hbest.2.1 (hno s hbest.1 e)
  · rintro s e rfl
    exact hbest
  · obtain ⟨best, hb, hrun⟩ := bestGen_go hc.script (k := 2 ^ ringLog2) (a := 0)
      (by omega) hnone
    rw [Nat.zero_add] at hb
    obtain rfl := hb.unique hbest
    have hrange : min (c.count - 0) (2 ^ ringLog2) = 2 ^ ringLog2 := by omega
    simp only [bestGen, bind_run, state_run, hrange, List.range_eq_range']
    exact hrun
  · obtain ⟨best, hb, hrun⟩ := inspectHead_go hc.script (k := 2 ^ ringLog2) (a := 0)
      (by omega) hnone
    rw [Nat.zero_add] at hb
    obtain rfl := hb.unique hbest
    have hrange : min (2 ^ ringLog2) c.count = 2 ^ ringLog2 := by omega
    simp only [inspectHead, bind_run, state_run, hrange, List.range_eq_range']
    exact hrun

section Deflection

private def bare : Dev Digest := ⟨16, fun _ => .zero, none, [], []⟩

/-- `n` chained generations and the hash of the last. -/
private def chainOf : Nat → List (SpineEntry Digest) × Digest
  | 0 => ([], Crates.zeros)
  | n + 1 =>
    let e : SpineEntry Digest := ⟨n, (chainOf n).2, 3, 8, ⟨0⟩, 0, 0, some 0, 0, 0⟩
    ((chainOf n).1 ++ [e], e.bodyHash)

private def zeroed : Mirror Digest := ((zeroRingAt 3 0).run (Mirror.new bare bare)).2

private def lapped : Ring Digest := ((each Ring.append (chainOf 15).1).run ⟨zeroed, 3, 0, none⟩).2

private def lappedDev : Dev Digest := lapped.mirror.a.getD bare

/-- Slot 4, which holds generation 12, is torn. -/
private def deflected : Dev Digest :=
  Image.dev ⟨16, Function.update lappedDev.data 4 (.raw 0)⟩ none

private theorem lapped_primary : lapped.mirror.primary = some lappedDev := by
  have ha : lapped.mirror.a.isSome := by decide +kernel
  obtain ⟨a, ha⟩ := Option.isSome_iff_exists.mp ha
  rw [Mirror.primary, lappedDev, ha]
  rfl

/-- Generations 0 to 14 on eight slots, the block of generation 12 torn: a middle that is no
block of the ring deflects the bisection into both halves. -/
theorem fixed_ring_head_deflected :
    ∃ head, (Ring.openAt 3 0).run (Mirror.new deflected deflected) =
        (.ok ⟨Mirror.new deflected deflected, 3, 0, head⟩, Mirror.new deflected deflected) ∧
      (head = none ↔ ∀ slot < 2 ^ 3, ∀ e, classify (deflected.data slot) slot (some 3) ≠ .valid e) ∧
      (∀ s e, head = some (s, e) → s < 2 ^ 3 ∧ classify (deflected.data s) s (some 3) = .valid e ∧
        ∀ slot < 2 ^ 3, ∀ e', classify (deflected.data slot) slot (some 3) = .valid e' → e'.gen ≤ e.gen) ∧
      (bestGen (2 ^ 3) 3 0).run deflected =
        (.ok (head.map (·.2.gen), (head.map Prod.fst).getD 0), deflected) ∧
      (inspectHead 3).run deflected = (.ok head, deflected) :=
  fixed_ring_head
    ⟨rfl, rfl, by simp [Mirror.staged, Mirror.new], by simp [Mirror.new]⟩ (by decide)
    (show (zeroRingAt 3 0).run (Mirror.new bare bare) = (.ok (), zeroed) from
      Prod.ext (by decide +kernel) rfl)
    (show (each Ring.append (chainOf 15).1).run ⟨zeroed, 3, 0, none⟩ = (.ok (), lapped) from
      Prod.ext (by decide +kernel) rfl)
    lapped_primary ⟨rfl, rfl, by simp [Mirror.staged, Mirror.new], by simp [Mirror.new]⟩ rfl (by decide)
    (by
      intro slot _
      by_cases hs : slot = 4
      · subst hs
        exact .inr rfl
      · exact .inl (Function.update_of_ne hs _ _))

/-- The head of the deflected ring is generation 14 at slot 6. -/
example : ((Ring.openAt 3 0).run (Mirror.new deflected deflected)).1.toOption.bind
    (fun r => r.head.map fun h => (h.1, h.2.gen)) = some (6, 14) := by
  decide +kernel

end Deflection
end Manifestus
