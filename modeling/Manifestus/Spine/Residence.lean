import Manifestus.Engine.Digest
import Manifestus.Engine.Open
import Manifestus.Spine.Search
import Manifestus.Spine.Append
import Mathlib.Data.Nat.ModEq

/-! Head search in a residence entered in the middle of a lap: which first generations and
counts of appends it finds the newest entry for. -/
set_option linter.unusedSectionVars false

namespace Manifestus
open Prog

variable {H : Type} [Crates H]

namespace SpineEntry

/-- What `decode` asks of an entry beside its ring exponent. -/
def Sane (e : SpineEntry H) : Prop :=
  e.tractBlocks ≠ 0 ∧ ∀ reap, e.reap = some reap → reap ≤ e.plow ∧ e.plow - reap ≤ e.tractBlocks

theorem geometry_of_sane {e : SpineEntry H} (h : e.Sane) (h₁ : 1 ≤ e.ringLog2) (h₂ : e.ringLog2 ≤ 32) :
    e.geometry = .ok e := by
  have hring : ¬ (e.ringLog2 = 0 ∨ 32 < e.ringLog2) := by omega
  have hcursor : ¬ (e.reap.any fun reap => e.plow < reap || e.tractBlocks < e.plow - reap) = true := by
    rcases hr : e.reap with _ | reap
    · simp
    · have := h.2 reap hr
      simp
      omega
  simp [geometry, hring, h.1, hcursor, checkedAdd]

theorem geometry_ringLog2 {e e' : SpineEntry H} (h : e.geometry = .ok e') :
    e' = e ∧ 1 ≤ e.ringLog2 ∧ e.ringLog2 ≤ 32 := by
  unfold geometry at h
  split at h
  · cases h
  next hring =>
    split at h
    · cases h
    · split at h
      · cases h
      · split at h
        · cases h
        · cases h
          exact ⟨rfl, by omega, by omega⟩

end SpineEntry

theorem classify_encode {e : SpineEntry H} {r : Nat} (h : e.Sane) (hr : e.ringLog2 = r) (h₁ : 1 ≤ r)
    (h₂ : r ≤ 32) : classify e.encode (e.gen % 2 ^ r) (some r) = .valid e := by
  subst hr
  simp [classify, SpineEntry.encode, sealBlock, SpineEntry.decode, SpineEntry.geometry_of_sane h h₁ h₂]

/-- A valid entry has the exponent it was read with, and that is one a ring can have. -/
theorem ringLog2_of_valid {b : Block H} {slot r : Nat} {e : SpineEntry H}
    (h : classify b slot (some r) = .valid e) : e.ringLog2 = r ∧ 1 ≤ r ∧ r ≤ 32 := by
  unfold classify at h
  split at h
  · cases h
  · split at h
    next f hf =>
      simp only [Option.getD_some] at h
      split at h
      · cases h
      next hr =>
        split at h
        · cases h
        · cases h
          unfold SpineEntry.decode at hf
          split at hf
          · cases hf
          · cases hf
          next g _ =>
            obtain ⟨rfl, h₁, h₂⟩ := SpineEntry.geometry_ringLog2 hf
            have : e.ringLog2 = r := by simpa using hr
            omega
          · cases hf
    · cases h

private theorem mod_add_ne {g i j n : Nat} (hij : i < j) (hj : j < i + n) :
    (g + i) % n ≠ (g + j) % n := by
  intro h
  have hdvd : n ∣ g + j - (g + i) := (Nat.modEq_iff_dvd' (by omega)).mp h
  have := Nat.le_of_dvd (by omega) hdvd
  omega

namespace Ring

/-- The generation the next append must have. -/
def nextGen (r : Ring H) : Nat := (r.headEntry.map fun h => h.gen + 1).getD 0

theorem nextGen_of_chains {r : Ring H} {e : SpineEntry H} (h : r.Chains e) : e.gen = r.nextGen := by
  obtain ⟨_, h⟩ := h
  unfold nextGen
  rcases hh : r.headEntry with _ | head <;> rw [hh] at h
  · simpa using h.1
  · simpa using h.1

/-- The slots after entries are appended in order. -/
def written (base n : Nat) (f : Nat → Block H) (es : List (SpineEntry H)) : Nat → Block H :=
  es.foldl (fun f e => Function.update f (base + e.gen % n) e.encode) f

theorem appends_run {es : List (SpineEntry H)} :
    ∀ {q q' : Ring H} {d : Dev H}, q.mirror.Ready d → q.base + q.n ≤ d.count →
      (each append es).run q = (.ok (), q') →
      ∃ d', q'.mirror.Ready d' ∧ d'.count = d.count ∧ (es ≠ [] → q'.mirror.pending = []) ∧
        q'.mirror.view d' = written q.base q.n (q.mirror.view d) es ∧
        ∀ i (hi : i < es.length), es[i].ringLog2 = q.ringLog2 ∧ es[i].gen = q.nextGen + i := by
  induction es with
  | nil =>
    intro q q' d h _ hrun
    simp only [each, pure_run, Prod.mk.injEq, true_and] at hrun
    subst hrun
    exact ⟨d, h, rfl, by simp, rfl, by simp⟩
  | cons e es ih =>
    intro q q' d h hfit hrun
    simp only [each, bind_run] at hrun
    rcases happ : (append e).run q with ⟨_ | ⟨⟨⟩⟩, q₁⟩ <;> rw [happ] at hrun
    · simp at hrun
    have hc := chains_of_append_ok happ
    obtain ⟨m₁, hrun₁, h₁, hp₁⟩ := append_run h hc hfit
    rw [happ] at hrun₁
    obtain rfl : q₁ = _ := (Prod.mk.inj hrun₁).2
    obtain ⟨d', h', hcount, hp', hview, hgen⟩ := ih h₁ (by simpa [n] using hfit) hrun
    refine ⟨d', h', by simpa using hcount, ?_, ?_, ?_⟩
    · intro _
      by_cases hes : es = []
      · subst hes
        simp only [each, pure_run, Prod.mk.injEq, true_and] at hrun
        rw [← hrun]
        exact hp₁
      · exact hp' hes
    · rw [hview, Mirror.view_of_pending_nil hp₁]
      simp [written, Mirror.drained_data, n]
    · intro i hi
      cases i with
      | zero => exact ⟨hc.1, nextGen_of_chains hc⟩
      | succ i =>
        obtain ⟨hr, hg⟩ := hgen i (by simpa using hi)
        have hnext : nextGen { q with mirror := m₁, head := some (e.gen % q.n, e) } = e.gen + 1 := rfl
        refine ⟨hr, ?_⟩
        rw [List.getElem_cons_succ, hg, hnext, nextGen_of_chains hc]
        omega

theorem written_append (base n : Nat) (f : Nat → Block H) (es : List (SpineEntry H))
    (e : SpineEntry H) :
    written base n f (es ++ [e]) = Function.update (written base n f es) (base + e.gen % n) e.encode := by
  simp [written]

/-- The last generation of a slot is what the slot holds. -/
theorem written_of_last {base n g : Nat} {f : Nat → Block H} {es : List (SpineEntry H)}
    (hg : ∀ i (hi : i < es.length), es[i].gen = g + i) {i : Nat} (hi : i < es.length)
    (hlast : es.length ≤ i + n) : written base n f es (base + (g + i) % n) = es[i].encode := by
  induction es using List.reverseRecOn with
  | nil => simp at hi
  | append_singleton es e ih =>
    have hlen : (es ++ [e]).length = es.length + 1 := by simp
    have he : e.gen = g + es.length := by simpa using hg es.length (by simp)
    rw [written_append]
    by_cases hie : i = es.length
    · subst hie
      simp [he]
    · have hi' : i < es.length := by omega
      have hne := mod_add_ne (g := g) (n := n) hi' (by omega)
      rw [he, Function.update_of_ne (by omega), List.getElem_append_left hi']
      refine ih ?_ hi' (by omega)
      intro j hj
      have := hg j (by omega)
      rwa [List.getElem_append_left hj] at this

theorem written_of_never {base n : Nat} {f : Nat → Block H} {es : List (SpineEntry H)} {l : Nat}
    (h : ∀ e ∈ es, base + e.gen % n ≠ l) : written base n f es l = f l := by
  induction es using List.reverseRecOn with
  | nil => rfl
  | append_singleton es e ih =>
    rw [written_append, Function.update_of_ne (h e (by simp)).symm]
    exact ih fun e he => h e (by simp [he])

variable {cls : Nat → Classified H}

/-- Bisection from a valid anchor climbs to the end of a rising run. -/
theorem bisect_climbs {r : Ring H} (hshow : r.Shows cls)
    (both : Nat → Nat → Prog Error (Ring H) (Option (Nat × SpineEntry H))) {E : Nat → SpineEntry H}
    {t : Nat} : ∀ fuel lo hi, hi < r.n → hi - lo ≤ fuel → lo ≤ t → t ≤ hi →
      (∀ i, lo ≤ i → i ≤ t → cls i = .valid (E i)) →
      (∀ i j, lo ≤ i → i < j → j ≤ t → (E i).gen < (E j).gen) →
      (∀ i, t < i → i ≤ hi → cls i ≠ .corrupt ∧ ∀ e, cls i = .valid e → e.gen ≤ (E lo).gen) →
      (bisect both fuel lo (some (E lo)) hi).run r = (.ok (some (t, E t)), r) := by
  intro fuel
  induction fuel with
  | zero =>
    intro lo hi _ hfuel hlo hhi _ _ _
    obtain rfl : lo = t := by omega
    simp [bisect]
  | succ fuel ih =>
    intro lo hi hn hfuel hlo hhi hE hmono hpast
    by_cases hlt : lo < hi
    · obtain ⟨mid, hmid⟩ : ∃ mid, mid = (lo + hi + 1) / 2 := ⟨_, rfl⟩
      simp only [bisect, if_pos hlt, bind_run, ← hmid, hshow mid (by omega)]
      rcases Nat.lt_or_ge t mid with hcase | hcase
      · have hleft := ih lo (mid - 1) (by omega) (by omega) hlo (by omega) hE hmono
          fun i h₁ h₂ => hpast i h₁ (by omega)
        obtain ⟨hnc, hle⟩ := hpast mid hcase (by omega)
        rcases hcls : cls mid with e | _ | _
        · have := hle e hcls
          simp only [Option.all_some, decide_eq_true_eq]
          rw [if_neg (by omega)]
          exact hleft
        · exact hleft
        · exact absurd hcls hnc
      · have hlt' := hmono lo mid le_rfl (by omega) hcase
        rw [hE mid (by omega) hcase]
        simp only [Option.all_some, decide_eq_true_eq, if_pos hlt']
        exact ih mid hi hn (by omega) hcase hhi (fun i h₁ h₂ => hE i (by omega) h₂)
          (fun i j h₁ h₂ h₃ => hmono i j (by omega) h₂ h₃)
          (fun i h₁ h₂ => ⟨(hpast i h₁ h₂).1, fun e he => ((hpast i h₁ h₂).2 e he).trans hlt'.le⟩)
    · obtain rfl : lo = t := by omega
      simp [bisect, hlt]

/-- From an empty anchor the bisection probes the powers of two downwards: it finds a run of
valid slots `[s, t]` exactly when one of them is a power of two. -/
theorem bisect_from_empty {r : Ring H} (hshow : r.Shows cls)
    (both : Nat → Nat → Prog Error (Ring H) (Option (Nat × SpineEntry H))) {E : Nat → SpineEntry H}
    {s t : Nat} (hE : ∀ i, s ≤ i → i ≤ t → cls i = .valid (E i))
    (hmono : ∀ i j, s ≤ i → i < j → j ≤ t → (E i).gen < (E j).gen)
    (hempty : ∀ i, i < s ∨ t < i → i < r.n → cls i = .empty) :
    ∀ j fuel, j ≤ r.ringLog2 → 2 ^ j - 1 ≤ fuel → (t < 2 ^ j ∨ 2 ^ j < s) →
      (bisect both fuel 0 none (2 ^ j - 1)).run r =
        (.ok (if ∃ i < j, s ≤ 2 ^ i ∧ 2 ^ i ≤ t then some (t, E t) else none), r) := by
  intro j
  induction j with
  | zero =>
    intro fuel _ _ _
    cases fuel <;> simp [bisect]
  | succ j ih =>
    intro fuel hj hfuel hpos
    have hp : 2 ^ (j + 1) = 2 * 2 ^ j := by rw [pow_succ]; omega
    have h0 := Nat.two_pow_pos j
    have hle : 2 ^ (j + 1) ≤ r.n := Nat.pow_le_pow_right (by decide) hj
    obtain ⟨fuel, rfl⟩ : ∃ f, fuel = f + 1 := ⟨fuel - 1, by omega⟩
    have hmid : (0 + (2 ^ (j + 1) - 1) + 1) / 2 = 2 ^ j := by omega
    have hlt : 0 < 2 ^ (j + 1) - 1 := by omega
    simp only [bisect, if_pos hlt, hmid, bind_run, hshow (2 ^ j) (by omega)]
    by_cases hvalid : s ≤ 2 ^ j ∧ 2 ^ j ≤ t
    · have ht' : t < 2 ^ (j + 1) := by omega
      rw [hE _ hvalid.1 hvalid.2, if_pos ⟨j, by omega, hvalid⟩]
      simp only [Option.all_none, if_true]
      refine bisect_climbs hshow both fuel (2 ^ j) (2 ^ (j + 1) - 1) (by omega) (by omega) hvalid.2
        (by omega) (fun i h₁ h₂ => hE i (by omega) h₂) (fun i k h₁ h₂ h₃ => hmono i k (by omega) h₂ h₃) ?_
      intro i h₁ h₂
      rw [hempty i (.inr h₁) (by omega)]
      exact ⟨by simp, by simp⟩
    · rw [hempty _ (by omega) (by omega)]
      simp only
      rw [ih fuel (by omega) (by omega) (by omega)]
      have hiff : (∃ i < j + 1, s ≤ 2 ^ i ∧ 2 ^ i ≤ t) ↔ ∃ i < j, s ≤ 2 ^ i ∧ 2 ^ i ≤ t := by
        constructor
        · rintro ⟨i, hi, h⟩
          refine ⟨i, ?_, h⟩
          by_contra hc
          obtain rfl : i = j := by omega
          exact hvalid h
        · rintro ⟨i, hi, h⟩
          exact ⟨i, by omega, h⟩
      simp only [hiff]

/-- When the head search of a ring of `2 ^ ringLog2` slots entered at generation `g` finds
generation `g + m`: the first append falls on slot 0, or the appends have come round to slot
0, or one of the slots written is a power of two. -/
def Reaches (ringLog2 g m : Nat) : Prop :=
  (1 ≤ ringLog2 ∧ ringLog2 ≤ 32) ∧
    (g % 2 ^ ringLog2 = 0 ∨ 2 ^ ringLog2 ≤ g % 2 ^ ringLog2 + m ∨
      ∃ j < ringLog2, g % 2 ^ ringLog2 ≤ 2 ^ j ∧ 2 ^ j ≤ g % 2 ^ ringLog2 + m)

instance (ringLog2 g m : Nat) : Decidable (Reaches ringLog2 g m) := by
  unfold Reaches
  infer_instance

section Entered

variable {r : Ring H} {es : List (SpineEntry H)} {f : Nat → Block H} {g m : Nat}

/-- The newest generation written to a slot is there, or the slot is untouched. -/
theorem slot_cases (hg : ∀ i (hi : i < es.length), es[i].gen = g + i)
    (hlen : es.length = m + 1) (slot : Nat) :
    (∃ i, ∃ hi : i < es.length, m < i + r.n ∧ (g + i) % r.n = slot ∧
      written r.base r.n f es (r.base + slot) = es[i].encode) ∨
    ((∀ i ≤ m, (g + i) % r.n ≠ slot) ∧
      written r.base r.n f es (r.base + slot) = f (r.base + slot)) := by
  have hpos : 0 < r.n := Nat.two_pow_pos _
  by_cases hex : ∃ i ≤ m, (g + i) % r.n = slot
  · obtain ⟨i, him, hi⟩ := hex
    have hlt := Nat.mod_lt (m - i) hpos
    have hdm := Nat.div_add_mod (m - i) r.n
    obtain ⟨k, hk⟩ : ∃ k, k = i + r.n * ((m - i) / r.n) := ⟨_, rfl⟩
    have hkm : k < es.length := by omega
    have hmod : (g + k) % r.n = slot := by
      rw [hk, ← Nat.add_assoc, Nat.add_mul_mod_self_left, hi]
    refine .inl ⟨k, hkm, by omega, hmod, ?_⟩
    rw [← hmod]
    exact written_of_last hg hkm (by omega)
  · refine .inr ⟨fun i hi hc => hex ⟨i, hi, hc⟩, written_of_never ?_⟩
    intro e he hc
    obtain ⟨i, hi, rfl⟩ := List.mem_iff_getElem.mp he
    rw [hg i hi] at hc
    exact hex ⟨i, by omega, by omega⟩

/-- The slots of an entered residence as the search sees them. -/
private def slots (r : Ring H) (f : Nat → Block H) (es : List (SpineEntry H)) (slot : Nat) :
    Classified H :=
  classify (written r.base r.n f es (r.base + slot)) slot (some r.ringLog2)

private theorem slots_at (hg : ∀ i (hi : i < es.length), es[i].gen = g + i)
    (hr : ∀ i (hi : i < es.length), es[i].ringLog2 = r.ringLog2)
    (hsane : ∀ e ∈ es, e.Sane) (h₁ : 1 ≤ r.ringLog2) (h₂ : r.ringLog2 ≤ 32) {i : Nat}
    (hi : i < es.length) (hlast : es.length ≤ i + r.n) {slot : Nat} (hslot : (g + i) % r.n = slot) :
    slots r f es slot = .valid es[i] := by
  subst hslot
  rw [slots, written_of_last hg hi hlast, ← hg i hi]
  exact classify_encode (hsane _ (List.getElem_mem hi)) (hr i hi) h₁ h₂

/-- The slots from 0 to the newest one rise, what is past them is older than slot 0. -/
private theorem headSearch_lapped (hshow : r.Shows (slots r f es))
    (hzero : ∀ slot < r.n, f (r.base + slot) = .zero)
    (hg : ∀ i (hi : i < es.length), es[i].gen = g + i)
    (hr : ∀ i (hi : i < es.length), es[i].ringLog2 = r.ringLog2) (hsane : ∀ e ∈ es, e.Sane)
    (hlen : es.length = m + 1) (h₁ : 1 ≤ r.ringLog2) (h₂ : r.ringLog2 ≤ 32)
    (hlap : g % r.n = 0 ∨ r.n ≤ g % r.n + m) :
    headSearch.run r = (.ok (some ((g + m) % r.n, es[m])), r) := by
  have hpos : 0 < r.n := Nat.two_pow_pos _
  obtain ⟨t, ht⟩ : ∃ t, t = (g + m) % r.n := ⟨_, rfl⟩
  have htn : t < r.n := ht ▸ Nat.mod_lt _ hpos
  have hs := Nat.mod_lt g hpos
  have htm : t ≤ m := by
    have hadd : t = (g % r.n + m) % r.n := by rw [ht, Nat.mod_add_mod]
    rcases hlap with h0 | hge
    · rw [hadd, h0, Nat.zero_add]
      exact Nat.mod_le _ _
    · have : (g % r.n + m) % r.n = (g % r.n + m - r.n) % r.n := Nat.mod_eq_sub_mod hge
      have := Nat.mod_le (g % r.n + m - r.n) r.n
      omega
  have hindex : ∀ slot ≤ t, (g + (m - (t - slot))) % r.n = slot := by
    intro slot hslot
    have hdm := Nat.div_add_mod (g + m) r.n
    have heq : g + (m - (t - slot)) = slot + r.n * ((g + m) / r.n) := by omega
    rw [heq, Nat.add_mul_mod_self_left, Nat.mod_eq_of_lt (by omega)]
  have hvalid : ∀ slot ≤ t, ∀ hi : m - (t - slot) < es.length,
      slots r f es slot = .valid es[m - (t - slot)] := fun slot hslot hi =>
    slots_at hg hr hsane h₁ h₂ hi (by omega) (hindex slot hslot)
  obtain ⟨E, hE⟩ : ∃ E : Nat → SpineEntry H, ∀ slot ≤ t, ∀ hi : m - (t - slot) < es.length,
      E slot = es[m - (t - slot)] :=
    ⟨fun slot => (es[m - (t - slot)]?).getD es[m], fun slot _ hi => by simp [hi]⟩
  have hgenE : ∀ slot ≤ t, (E slot).gen = g + (m - (t - slot)) := by
    intro slot hslot
    rw [hE slot hslot (by omega), hg]
  have hlast : E t = es[m] := by
    rw [hE t le_rfl (by omega)]
    congr 1
    omega
  have hclimb := bisect_climbs hshow (search r.n) (E := E) (t := t) r.n 0 (r.n - 1) (by omega)
    (by omega) (by omega) (by omega)
    (fun i _ hi => (hvalid i hi (by omega)).trans (by rw [hE i hi]))
    (fun i j _ hij hj => by rw [hgenE i (by omega), hgenE j hj]; omega)
    (fun i hti hi => by
      rcases slot_cases (r := r) (f := f) hg hlen i with
        ⟨k, hk, hmk, hmod, hw⟩ | ⟨_, hw⟩
      · have hcls := slots_at (f := f) hg hr hsane h₁ h₂ hk (by omega) hmod
        rw [hcls]
        refine ⟨by simp, ?_⟩
        intro e he
        cases he
        rw [hg k hk, hgenE 0 (by omega)]
        by_contra hc
        have := hindex (t - (m - k)) (by omega)
        rw [show m - (t - (t - (m - k))) = k by omega, hmod] at this
        omega
      · rw [slots, hw, hzero i (by omega)]
        simp [classify])
  have hanchor := hvalid 0 (by omega) (by omega)
  rw [← hE 0 (by omega) (by omega)] at hanchor
  have hnot : ¬ r.n - 1 < 0 := by omega
  simp only [headSearch, search, bind_run, state_run, hnot, if_false, hshow 0 hpos, hanchor]
  rw [hclimb, hlast, ht]

private theorem headSearch_midlap (hshow : r.Shows (slots r f es))
    (hzero : ∀ slot < r.n, f (r.base + slot) = .zero)
    (hg : ∀ i (hi : i < es.length), es[i].gen = g + i)
    (hr : ∀ i (hi : i < es.length), es[i].ringLog2 = r.ringLog2) (hsane : ∀ e ∈ es, e.Sane)
    (hlen : es.length = m + 1) (h₁ : 1 ≤ r.ringLog2) (h₂ : r.ringLog2 ≤ 32)
    (hpos : 0 < g % r.n) (hmid : g % r.n + m < r.n) :
    headSearch.run r =
      (.ok (if ∃ j < r.ringLog2, g % r.n ≤ 2 ^ j ∧ 2 ^ j ≤ g % r.n + m
        then some (g % r.n + m, es[m]) else none), r) := by
  obtain ⟨s, hs⟩ : ∃ s, s = g % r.n := ⟨_, rfl⟩
  rw [← hs] at hpos hmid ⊢
  have hindex : ∀ i ≤ m, (g + i) % r.n = s + i := by
    intro i hi
    rw [← Nat.mod_add_mod, ← hs, Nat.mod_eq_of_lt (by omega)]
  obtain ⟨E, hE⟩ : ∃ E : Nat → SpineEntry H, ∀ slot, ∀ hi : slot - s < es.length,
      E slot = es[slot - s] :=
    ⟨fun slot => (es[slot - s]?).getD es[m], fun slot hi => by simp [hi]⟩
  have hlast : E (s + m) = es[m] := by
    rw [hE (s + m) (by omega)]
    congr 1
    omega
  have hvalid : ∀ i, s ≤ i → i ≤ s + m → slots r f es i = .valid (E i) := by
    intro i hi₁ hi₂
    rw [hE i (by omega)]
    exact slots_at hg hr hsane h₁ h₂ (by omega) (by omega) ((hindex (i - s) (by omega)).trans (by omega))
  have hempty : ∀ i, i < s ∨ s + m < i → i < r.n → slots r f es i = .empty := by
    intro i hout hi
    rcases slot_cases (r := r) (f := f) hg hlen i with ⟨k, hk, _, hmod, _⟩ | ⟨_, hw⟩
    · have := hindex k (by omega)
      omega
    · rw [slots, hw, hzero i hi]
      rfl
  have hbisect := bisect_from_empty hshow (search r.n) (E := E) (s := s) (t := s + m) hvalid
    (fun i j hi hij hj => by rw [hE i (by omega), hE j (by omega), hg, hg]; omega) hempty
    r.ringLog2 r.n le_rfl (Nat.sub_le _ _) (.inl hmid)
  have hnot : ¬ r.n - 1 < 0 := by omega
  simp only [headSearch, search, bind_run, state_run, hnot, if_false, hshow 0 (by omega),
    hempty 0 (.inl hpos) (by omega)]
  rw [← hlast]
  exact hbisect

/-- The head search of an entered residence: the newest generation, or nothing. -/
theorem headSearch_entered (hshow : r.Shows (slots r f es))
    (hzero : ∀ slot < r.n, f (r.base + slot) = .zero)
    (hg : ∀ i (hi : i < es.length), es[i].gen = g + i)
    (hr : ∀ i (hi : i < es.length), es[i].ringLog2 = r.ringLog2) (hsane : ∀ e ∈ es, e.Sane)
    (hlen : es.length = m + 1) :
    headSearch.run r =
      (.ok (if Reaches r.ringLog2 g m then some ((g + m) % r.n, es[m]) else none), r) := by
  by_cases hring : 1 ≤ r.ringLog2 ∧ r.ringLog2 ≤ 32
  · by_cases hlap : g % r.n = 0 ∨ r.n ≤ g % r.n + m
    · have hreach : Reaches r.ringLog2 g m := ⟨hring, hlap.imp id .inl⟩
      rw [if_pos hreach]
      exact headSearch_lapped hshow hzero hg hr hsane hlen hring.1 hring.2 hlap
    · have hreach : Reaches r.ringLog2 g m ↔
          ∃ j < r.ringLog2, g % r.n ≤ 2 ^ j ∧ 2 ^ j ≤ g % r.n + m := by
        constructor
        · rintro ⟨_, h | h | h⟩
          · exact absurd (.inl h) hlap
          · exact absurd (.inr h) hlap
          · exact h
        · exact fun h => ⟨hring, .inr (.inr h)⟩
      have hslot : (g + m) % r.n = g % r.n + m := by
        rw [← Nat.mod_add_mod, Nat.mod_eq_of_lt (by omega)]
      rw [headSearch_midlap hshow hzero hg hr hsane hlen hring.1 hring.2 (by omega) (by omega)]
      simp only [hreach, hslot]
  · have hno : ∀ slot e, slots r f es slot ≠ .valid e := fun slot e h =>
      hring (ringLog2_of_valid h).2
    obtain ⟨res, hrun, hres⟩ := headSearch_run hshow
      ⟨fun i j e _ _ _ _ => hno j e, 0, fun i j e e' _ _ _ h => absurd h (hno i e)⟩
    rw [if_neg fun h => hring h.1, hrun]
    rcases res with _ | ⟨s, e⟩
    · rfl
    · exact absurd hres.2.2.1 (hno s e)

end Entered

/-- Opening a residence after its region is zeroed and generations are appended. -/
theorem openAt_entered {m₀ m₁ : Mirror H} {d : Dev H} (hm : m₀.Ready d) {ringLog2 base : Nat}
    (hfit : base + 2 ^ ringLog2 ≤ d.count)
    (hzero : (zeroRingAt ringLog2 base).run m₀ = (.ok (), m₁)) {head : Option (Nat × SpineEntry H)}
    {es : List (SpineEntry H)} (hes : es ≠ []) (hsane : ∀ e ∈ es, e.Sane) {q : Ring H}
    (happ : (each append es).run ⟨m₁, ringLog2, base, head⟩ = (.ok (), q)) :
    (∃ d', q.mirror.Ready d' ∧ d'.count = d.count) ∧ (es.getLast hes).gen =
      nextGen ⟨m₁, ringLog2, base, head⟩ + (es.length - 1) ∧
    ∃ slot, (openAt ringLog2 base).run q.mirror.reattach =
      (.ok ⟨q.mirror.reattach, ringLog2, base,
        if Reaches ringLog2 (nextGen ⟨m₁, ringLog2, base, head⟩) (es.length - 1)
        then some (slot, es.getLast hes) else none⟩, q.mirror.reattach) := by
  obtain ⟨m₂, d₂, hrun, h₂, hp₂, hcount, _, hdata⟩ := zeroRingAt_run hm _ _ hfit
  rw [hzero] at hrun
  obtain rfl : m₁ = m₂ := (Prod.mk.inj hrun).2
  have hfit₂ : base + 2 ^ ringLog2 ≤ d₂.count := by omega
  obtain ⟨d', h', hcount', hpend, hview, hgen⟩ :=
    appends_run (q := ⟨m₁, ringLog2, base, head⟩) h₂ hfit₂ happ
  have hlen : es.length = es.length - 1 + 1 := by
    have := List.length_pos_iff.mpr hes
    omega
  have hlast : es.getLast hes = es[es.length - 1] := List.getLast_eq_getElem hes
  refine ⟨⟨d', h', by omega⟩, by rw [hlast, (hgen _ (by omega)).2], ?_⟩
  rw [Mirror.view_of_pending_nil (hpend hes), Mirror.view_of_pending_nil hp₂] at hview
  have hcold := h'.reattach
  have hfit' : base + 2 ^ ringLog2 ≤ (d'.image.dev d'.limit).count := by
    simp only [Image.dev, Dev.image]
    omega
  obtain ⟨r, hr⟩ : ∃ r : Ring H, r = ⟨q.mirror.reattach, ringLog2, base, none⟩ := ⟨_, rfl⟩
  have hshow : r.Shows (slots r d₂.data es) := by
    subst hr
    have := shows_of_ready (r := ⟨q.mirror.reattach, ringLog2, base, none⟩) hcold hfit'
    rw [Mirror.reattach_view, hview] at this
    exact this
  have hsearch := headSearch_entered (m := es.length - 1) hshow
    (by
      subst hr
      intro slot hslot
      have hslot : slot < 2 ^ ringLog2 := hslot
      rw [hdata, if_pos (by simp only; omega)])
    (fun i hi => (hgen i hi).2) (fun i hi => by subst hr; exact (hgen i hi).1) hsane hlen
  subst hr
  rw [← hlast] at hsearch
  exact ⟨_, openAt_eq hsearch⟩

end Ring

/-- A spine that has moved to a residence, with generations appended there: the head search
on the new base finds the newest of them, and the resume starts from it and not from an older
generation of the residence before, exactly under `Reaches`. -/
theorem residence_head_iff {m₀ m₁ : Mirror H} {d : Dev H} (hm : m₀.Ready d) {root : RootEntry H}
    (hfit : root.base + 2 ^ root.ringLog2 ≤ d.count) (hfit' : root.was + 2 ^ root.ringLog2 ≤ d.count)
    (hne : root.was ≠ root.base)
    (hzero : (zeroRingAt root.ringLog2 root.base).run m₀ = (.ok (), m₁))
    {head : Option (Nat × SpineEntry H)} {es : List (SpineEntry H)} (hes : es ≠ [])
    (hsane : ∀ e ∈ es, e.Sane) {q : Ring H}
    (happ : (each Ring.append es).run ⟨m₁, root.ringLog2, root.base, head⟩ = (.ok (), q))
    (hwas : ∀ d', q.mirror.primary = some d' → ∀ slot < 2 ^ root.ringLog2, ∀ e,
      classify (d'.data (root.was + slot)) slot (some root.ringLog2) = .valid e →
        e.gen < (es.getLast hes).gen) :
    ((∃ ring m, (Ring.openAt root.ringLog2 root.base).run q.mirror.reattach = (.ok ring, m) ∧
        ring.headEntry = some (es.getLast hes)) ↔
      Ring.Reaches root.ringLog2 (Ring.nextGen ⟨m₁, root.ringLog2, root.base, head⟩) (es.length - 1)) ∧
    ((∃ ring m, (Vault.openResidence root).run q.mirror.reattach = (.ok ring, m) ∧
        ∃ e, ring.headEntry = some e ∧ (es.getLast hes).gen ≤ e.gen) ↔
      Ring.Reaches root.ringLog2 (Ring.nextGen ⟨m₁, root.ringLog2, root.base, head⟩) (es.length - 1)) := by
  obtain ⟨⟨d', h', hcount⟩, _, slot, hopen⟩ := Ring.openAt_entered hm hfit hzero hes hsane happ
  generalize Ring.nextGen ⟨m₁, root.ringLog2, root.base, head⟩ = g at *
  by_cases hreach : Ring.Reaches root.ringLog2 g (es.length - 1)
  · rw [if_pos hreach] at hopen
    refine ⟨⟨fun _ => hreach, fun _ => ⟨_, _, hopen, rfl⟩⟩, fun _ => hreach, fun _ => ?_⟩
    refine ⟨⟨q.mirror.reattach, root.ringLog2, root.base, some (slot, es.getLast hes)⟩,
      q.mirror.reattach, ?_, es.getLast hes, rfl, le_rfl⟩
    simp [Vault.openResidence, hopen]
  · rw [if_neg hreach] at hopen
    refine ⟨⟨?_, fun h => absurd h hreach⟩, ?_, fun h => absurd h hreach⟩
    · rintro ⟨ring, m, hrun, hhead⟩
      rw [hopen, Prod.mk.injEq, Except.ok.injEq] at hrun
      obtain ⟨rfl, _⟩ := hrun
      simp [Ring.headEntry] at hhead
    · rintro ⟨ring, m, hrun, e, hhead, hle⟩
      exfalso
      have hfit'' : root.was + 2 ^ root.ringLog2 ≤ (d'.image.dev d'.limit).count := by
        simp only [Image.dev, Dev.image]
        omega
      obtain ⟨head', hopen', hvalid⟩ := Ring.openAt_total h'.reattach _ _ hfit''
      simp only [Vault.openResidence, bind_run, hopen, Option.isNone_none, true_and, ne_eq, hne,
        not_false_eq_true, if_true, hopen', Prod.mk.injEq, Except.ok.injEq] at hrun
      obtain ⟨rfl, _⟩ := hrun
      rcases head' with _ | ⟨s, e'⟩
      · simp [Ring.headEntry] at hhead
      · obtain rfl : e' = e := by simpa [Ring.headEntry] using hhead
        obtain ⟨hs, hvalid⟩ := hvalid s e' rfl
        have hlt := hwas d' h'.primary s hs e' (by simpa using hvalid)
        omega

section Hops

private def blank : Dev Digest := ⟨16, fun _ => .zero, none, [], []⟩

private def hopRoot : RootEntry Digest := ⟨3, ⟨0⟩, 2, 8, 4, 15, 2, 1, 0⟩

private def generation (gen : Nat) (prevHash : Digest) : SpineEntry Digest :=
  ⟨gen, prevHash, 2, 4, ⟨0⟩, 0, 0, some 0, 0, 0⟩

private def hopRing : Ring Digest :=
  ⟨((zeroRingAt 2 8).run (Mirror.new blank blank)).2, 2, 8, some (2, generation 14 ⟨0⟩)⟩

private def hopEntry : SpineEntry Digest := generation 15 (generation 14 ⟨0⟩).bodyHash

private def hopped : Ring Digest := ((each Ring.append [hopEntry]).run hopRing).2

instance instDecidableEqOutcome : DecidableEq (Except Error Unit)
  | .ok _, .ok _ => .isTrue rfl
  | .error e, .error f => decidable_of_iff (e = f) (by simp)
  | .ok _, .error _ => .isFalse (by simp)
  | .error _, .ok _ => .isFalse (by simp)

private theorem hopRing_mirror :
    (zeroRingAt hopRoot.ringLog2 hopRoot.base).run (Mirror.new blank blank) = (.ok (), hopRing.mirror) :=
  Prod.ext (by decide +kernel) rfl

private theorem hopped_run :
    (each Ring.append [hopEntry]).run ⟨hopRing.mirror, hopRoot.ringLog2, hopRoot.base, hopRing.head⟩ =
      (.ok (), hopped) :=
  Prod.ext (by decide +kernel) rfl

/-- The residence before holds nothing. -/
private theorem hopped_before {d' : Dev Digest} (h : hopped.mirror.primary = some d') {slot : Nat}
    (hslot : slot < 2 ^ hopRoot.ringLog2) : d'.data (hopRoot.was + slot) = .zero := by
  have ha : hopped.mirror.a.isSome := by decide +kernel
  have hzero : ∀ slot < 2 ^ hopRoot.ringLog2,
      (hopped.mirror.a.getD blank).data (hopRoot.was + slot) = .zero := by decide +kernel
  obtain ⟨a, ha⟩ := Option.isSome_iff_exists.mp ha
  rw [Mirror.primary, ha, Option.some_or, Option.some.injEq] at h
  rw [ha, Option.getD_some, h] at hzero
  exact hzero slot hslot

private theorem hopEntry_sane : ∀ e ∈ [hopEntry], e.Sane := by
  intro e he
  rw [List.mem_singleton.mp he]
  exact ⟨by decide, by rintro reap ⟨⟩; decide⟩

/-- A residence entered at the last of four slots, where one append is not found. -/
theorem residence_head_iff_last_slot :
    ((∃ ring m, (Ring.openAt hopRoot.ringLog2 hopRoot.base).run hopped.mirror.reattach = (.ok ring, m) ∧
        ring.headEntry = some ([hopEntry].getLast (by simp))) ↔
      Ring.Reaches hopRoot.ringLog2
        (Ring.nextGen ⟨hopRing.mirror, hopRoot.ringLog2, hopRoot.base, hopRing.head⟩)
        ([hopEntry].length - 1)) ∧
    ((∃ ring m, (Vault.openResidence hopRoot).run hopped.mirror.reattach = (.ok ring, m) ∧
        ∃ e, ring.headEntry = some e ∧ ([hopEntry].getLast (by simp)).gen ≤ e.gen) ↔
      Ring.Reaches hopRoot.ringLog2
        (Ring.nextGen ⟨hopRing.mirror, hopRoot.ringLog2, hopRoot.base, hopRing.head⟩)
        ([hopEntry].length - 1)) :=
  residence_head_iff (d := blank)
    ⟨rfl, rfl, by simp [Mirror.staged, Mirror.new], by simp [Mirror.new]⟩ (by decide) (by decide)
    (by decide) hopRing_mirror (by simp) hopEntry_sane hopped_run
    (by
      intro d' hd' slot hslot e he
      rw [hopped_before hd' hslot] at he
      cases he)

/-- A migrating vault with two residences of four slots, after `n` commits. -/
def hoppingVault (n : Nat) : Option (Vault Digest) :=
  match (Vault.openMigrating 2 2 1 0 .unlinkOnly).run (Mirror.new blank blank) with
  | (.ok v, _) =>
    match (each (fun i => Vault.commit (Int.ofNat i)) (List.range n)).run v with
    | (.ok _, v) => some v
    | _ => none
  | _ => none

/-- The generation a cold open of the vault's devices resumes at. -/
def resumedGen (v : Vault Digest) : Option Nat :=
  match (Vault.open 2 0 .unlinkOnly).run v.ring.mirror.reattach with
  | (.ok v, _) => v.ring.headEntry.map SpineEntry.gen
  | _ => none

/-- After the third hop the first commit of the residence falls on slot 3: it returned, and a
reopen resumes at the generation before it. -/
theorem third_hop_resumes_older :
    (hoppingVault 15).bind (fun v => v.ring.headEntry.map SpineEntry.gen) = some 15 ∧
      (hoppingVault 15).bind resumedGen = some 14 := by
  decide +kernel

end Hops
end Manifestus
