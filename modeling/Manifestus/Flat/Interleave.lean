import Manifestus.Flat.Mirror
import Manifestus.Engine.Digest

/-! Any interleaving of mirror operations while the primary serves: every read shows the block last
staged or written, and what has been drained is on every device that is still attached. -/
set_option linter.unusedSectionVars false

namespace Manifestus
open Prog

variable {H : Type} [Crates H] {d d' d'' : Dev H} {m m' : Mirror H}

/-- The last block `xs` has for a position. -/
def lastAt (xs : List (Nat × Block H)) (l : Nat) : Option (Block H) :=
  (xs.reverse.find? fun x => x.1 = l).map Prod.snd

theorem lastAt_append (xs ys : List (Nat × Block H)) (l : Nat) :
    lastAt (xs ++ ys) l = (lastAt ys l).or (lastAt xs l) := by
  simp only [lastAt, List.reverse_append, List.find?_append, Option.map_or]

theorem lastAt_singleton (x : Nat × Block H) (l : Nat) : lastAt [x] l = if x.1 = l then some x.2 else none := by
  simp only [lastAt, List.reverse_singleton, List.find?_singleton, decide_eq_true_eq]
  split <;> rfl

theorem Mirror.stagedAt_eq_lastAt (m : Mirror H) (l : Nat) : m.stagedAt l = lastAt m.staged l := rfl

section Device

theorem Dev.landedAll_data (xs : List (Nat × Block H)) (l : Nat) :
    (d.landedAll xs).data l = (lastAt xs l).getD (d.data l) := by
  induction xs generalizing d with
  | nil => rfl
  | cons x xs ih =>
    rw [← List.singleton_append, lastAt_append, lastAt_singleton]
    refine (ih (d := d.landed x)).trans ?_
    rcases lastAt xs l with _ | b
    · rw [Option.none_or, Option.getD_none, landed_data]
      by_cases hl : x.1 = l
      · rw [if_pos hl, ← hl, Function.update_self, Option.getD_some]
      · rw [if_neg hl, Function.update_of_ne (Ne.symm hl), Option.getD_none]
    · rfl

/-- The device answers everything asked of `xs`. -/
def Dev.Serves (d : Dev H) (xs : List (Nat × Block H)) : Prop := d.script = [] ∧ ∀ x ∈ xs, x.1 < d.count

/-- `xs` was written in order, each block where the device has one. -/
structure Dev.Wrote (d : Dev H) (xs : List (Nat × Block H)) (d' : Dev H) : Prop where
  data : d'.data = (d.landedAll xs).data
  count : d'.count = d.count
  inside : ∀ x ∈ xs, x.1 < d.count
  script : d.script = [] → d'.script = []

theorem Dev.landedAll_append (xs ys : List (Nat × Block H)) :
    d.landedAll (xs ++ ys) = (d.landedAll xs).landedAll ys := by
  rw [landedAll, List.foldl_append]
  rfl

/-- What lands depends on the contents alone. -/
theorem Dev.landedAll_congr (h : d'.data = d.data) (xs : List (Nat × Block H)) :
    (d'.landedAll xs).data = (d.landedAll xs).data := by
  induction xs generalizing d d' with
  | nil => exact h
  | cons x xs ih =>
    apply ih
    rw [landed_data, landed_data, h]

namespace Dev.Wrote

theorem refl (d : Dev H) : d.Wrote [] d := ⟨rfl, rfl, by simp, id⟩

theorem trans {xs ys : List (Nat × Block H)} (h : d.Wrote xs d') (h' : d'.Wrote ys d'') : d.Wrote (xs ++ ys) d'' where
  data := by
    have hdata : d'.data = (d.landedAll xs).data := h.data
    rw [h'.data, Dev.landedAll_append, Dev.landedAll_congr hdata]
  count := h'.count.trans h.count
  inside x hx := by
    rcases List.mem_append.mp hx with hx | hx
    · exact h.inside x hx
    · exact (h'.inside x hx).trans_eq h.count
  script hs := h'.script (h.script hs)

end Dev.Wrote

/-- The faults of an operation come from the script. -/
theorem Dev.nextFault_sat (d : Dev H) :
    Sat nextFault d (fun f d' => d.Wrote [] d' ∧ (d.script = [] → f = none)) fun _ _ => False := by
  rcases hs : d.script with _ | ⟨f, rest⟩
  · simp only [Sat, nextFault, hs]
    exact ⟨.refl d, fun _ => trivial⟩
  · simp only [Sat, nextFault, hs]
    exact ⟨⟨rfl, rfl, by simp, by simp [hs]⟩, by simp⟩

theorem Dev.inBounds_sat (lba : Nat) (d : Dev H) :
    Sat (inBounds lba) d (fun _ d' => d' = d ∧ lba < d.count) fun _ _ => d.count ≤ lba := by
  unfold inBounds
  refine sat_state ?_
  split
  next h => exact sat_pure ⟨rfl, h⟩
  next h => exact sat_fail (Nat.not_lt.mp h)

theorem Dev.read_sat (lba : Nat) (d : Dev H) :
    Sat (read lba) d (fun b d' => b = d.data lba ∧ lba < d.count ∧ d.Wrote [] d')
      fun _ _ => ¬ (d.script = [] ∧ lba < d.count) := by
  unfold read
  refine sat_bind ((inBounds_sat lba d).mono (fun _ _ h => h) fun _ _ h hs => absurd hs.2 (Nat.not_lt.mpr h)) ?_
  rintro _ _ ⟨rfl, hlt⟩
  refine sat_bind ((nextFault_sat _).mono (fun _ _ h => h) fun _ _ h => h.elim) ?_
  rintro (_ | f) d₁ ⟨hw, hnone⟩
  · refine sat_state (sat_pure ⟨?_, hlt, hw⟩)
    rw [hw.data]
    rfl
  · exact sat_fail fun hs => absurd (hnone hs.1) (by simp)

theorem Dev.write_sat (lba : Nat) (b : Block H) (d : Dev H) :
    Sat (write lba b) d (fun _ d' => d.Wrote [(lba, b)] d') fun _ _ => ¬ (d.script = [] ∧ lba < d.count) := by
  unfold write
  refine sat_bind ((inBounds_sat lba d).mono (fun _ _ h => h) fun _ _ h hs => absurd hs.2 (Nat.not_lt.mpr h)) ?_
  rintro _ _ ⟨rfl, hlt⟩
  refine sat_bind ((nextFault_sat _).mono (fun _ _ h => h) fun _ _ h => h.elim) ?_
  rintro f d₁ ⟨hw, hnone⟩
  rcases f with _ | f
  · refine ⟨?_, hw.count, by simpa using hlt, hw.script⟩
    show Function.update d₁.data lba b = _
    rw [hw.data]
    rfl
  · rcases f with _ | _ | id <;> exact fun hs => absurd (hnone hs.1) (by simp)

theorem Dev.flush_sat (d : Dev H) :
    Sat flush d (fun _ d' => d.Wrote [] d') fun _ d' => d.script ≠ [] ∧ d.Wrote [] d' := by
  unfold flush
  refine sat_bind ((nextFault_sat _).mono (fun _ _ h => h) fun _ _ h => h.elim) ?_
  rintro f d₁ ⟨hw, hnone⟩
  have hlogged : d.Wrote [] { d₁ with log := d₁.log ++ [.flush] } := ⟨hw.data, hw.count, by simp, hw.script⟩
  have hfault : ∀ g, f = some g → d.script ≠ [] := fun g hg hs => absurd (hnone hs) (by simp [hg])
  rcases f with _ | _ | _ | id
  · exact hlogged
  · exact ⟨hfault _ rfl, hw⟩
  · exact ⟨hfault _ rfl, hlogged⟩
  · exact ⟨hfault _ rfl, hw⟩

theorem Dev.writeRun_sat (bs : List (Block H)) : ∀ (lba : Nat) (d : Dev H),
    Sat (writeRun lba bs) d (fun _ d' => d.Wrote (bs.mapIdx fun i b => (lba + i, b)) d')
      fun _ _ => ¬ d.Serves (bs.mapIdx fun i b => (lba + i, b)) := by
  induction bs with
  | nil => exact fun lba d => sat_pure (.refl d)
  | cons b bs ih =>
    intro lba d
    have hshift : (b :: bs).mapIdx (fun i b => (lba + i, b)) =
        [(lba, b)] ++ bs.mapIdx fun i b => (lba + 1 + i, b) := by
      simp [List.mapIdx_cons, Nat.add_assoc, Nat.add_comm 1]
    rw [hshift]
    refine sat_bind ((write_sat lba b d).mono (fun _ _ h => h) fun _ _ h hs => h ⟨hs.1, hs.2 (lba, b) (by simp)⟩) ?_
    intro _ d₁ h₁
    refine (ih (lba + 1) d₁).mono (fun _ _ h => h₁.trans h) fun _ _ h hs => h ⟨h₁.script hs.1, fun x hx => ?_⟩
    rw [h₁.count]
    exact hs.2 x (List.mem_append_right _ hx)

theorem Dev.readRun_sat (n : Nat) : ∀ (lba : Nat) (d : Dev H),
    Sat (readRun lba n) d
      (fun bs d' => bs = (List.range n).map (fun i => d.data (lba + i)) ∧ (∀ i < n, lba + i < d.count) ∧ d.Wrote [] d')
      fun _ _ => ¬ (d.script = [] ∧ ∀ i < n, lba + i < d.count) := by
  induction n with
  | zero => exact fun lba d => sat_pure ⟨rfl, by simp, .refl d⟩
  | succ n ih =>
    intro lba d
    refine sat_bind ((read_sat lba d).mono (fun _ _ h => h) fun _ _ h hs => h ⟨hs.1, hs.2 0 (Nat.succ_pos n)⟩) ?_
    rintro b d₁ ⟨rfl, hlt, h₁⟩
    have hdata : d₁.data = d.data := h₁.data
    refine sat_bind ((ih (lba + 1) d₁).mono (fun _ _ h => h) fun _ _ h hs => h ⟨h₁.script hs.1, fun i hi => ?_⟩) ?_
    · have := hs.2 (i + 1) (Nat.succ_lt_succ hi)
      rw [h₁.count]
      omega
    rintro bs d₂ ⟨rfl, hin, h₂⟩
    refine sat_pure ⟨?_, fun i hi => ?_, h₁.trans h₂⟩
    · rw [hdata, List.range_succ_eq_map]
      simp [Function.comp_def, Nat.add_assoc, Nat.add_comm 1]
    · cases i with
      | zero => exact hlt
      | succ i =>
        have := hin i (Nat.lt_of_succ_lt_succ hi)
        rw [h₁.count] at this
        omega

/-- A consecutive run starting at `x`. -/
theorem consecutive_mapIdx {x : Nat × Block H} {run : List (Nat × Block H)} (h : Consecutive (x :: run)) :
    ((x :: run).map Prod.snd).mapIdx (fun i b => (x.1 + i, b)) = x :: run := by
  refine List.ext_getElem (by simp) fun i h₁ h₂ => ?_
  rw [List.getElem_mapIdx, List.getElem_map]
  exact Prod.ext (consecutive_getElem h i h₂).symm rfl

theorem writeRuns_sat {runs : List (List (Nat × Block H))} : (∀ run ∈ runs, Consecutive run) → ∀ d : Dev H,
    Sat (writeRuns runs) d (fun _ d' => d.Wrote runs.flatten d') fun _ _ => ¬ d.Serves runs.flatten := by
  induction runs with
  | nil => exact fun _ d => sat_pure (.refl d)
  | cons run runs ih =>
    intro hc d
    simp only [List.mem_cons, forall_eq_or_imp] at hc
    cases run with
    | nil => exact ih hc.2 d
    | cons x run =>
      have hrun := Dev.writeRun_sat ((x :: run).map Prod.snd) x.1 d
      rw [consecutive_mapIdx hc.1] at hrun
      refine sat_bind (hrun.mono (fun _ _ h => h) fun _ _ h hs => h ⟨hs.1, fun y hy => ?_⟩) fun _ d₁ h₁ => ?_
      · exact hs.2 y (List.mem_append_left _ hy)
      · refine (ih hc.2 d₁).mono (fun _ _ h => h₁.trans h) fun _ _ h hs => h ⟨h₁.script hs.1, fun y hy => ?_⟩
        rw [h₁.count]
        exact hs.2 y (List.mem_append_right _ hy)

theorem writeOne_sat (lba : Nat) (b : Block H) (d : Dev H) :
    Sat (writeOne lba b) d (fun _ d' => d.Wrote [(lba, b)] d') fun _ _ => ¬ d.Serves [(lba, b)] := by
  have hgo : ∀ (n : Nat) (d : Dev H), Sat (writeOne.go lba b n) d (fun _ d' => d.Wrote [(lba, b)] d')
      fun _ _ => n = 0 ∨ ¬ d.Serves [(lba, b)] := by
    intro n
    induction n with
    | zero => exact fun d => sat_fail (.inl rfl)
    | succ n ih =>
      intro d
      refine sat_bind ((Dev.write_sat lba b d).mono (fun _ _ h => h) fun _ _ h => .inr fun hs => ?_) fun _ d₁ h₁ => ?_
      · exact h ⟨hs.1, hs.2 (lba, b) (by simp)⟩
      refine sat_bind ((Dev.flush_sat d₁).mono (fun _ _ h => h) fun _ _ h => .inr fun hs => h.1 (h₁.script hs.1))
        fun _ d₂ h₂ => ?_
      have h₁₂ := h₁.trans h₂
      refine sat_bind ((Dev.read_sat lba d₂).mono (fun _ _ h => h) fun _ _ h => .inr fun hs => ?_) ?_
      · refine h ⟨h₁₂.script hs.1, ?_⟩
        rw [h₁₂.count]
        exact hs.2 (lba, b) (by simp)
      rintro back d₃ ⟨rfl, -, h₃⟩
      have hback : d₂.data lba = b := by
        rw [h₁₂.data]
        exact Function.update_self ..
      rw [if_pos hback]
      exact sat_pure (h₁₂.trans h₃)
  exact (hgo 2 d).mono (fun _ _ h => h) fun _ _ h => h.resolve_left (by decide)

/-- A block that reads back as it should is as good as written. -/
theorem Dev.wrote_same {lba : Nat} {b : Block H} (hlt : lba < d.count) (h : d.data lba = b) : d.Wrote [(lba, b)] d where
  data := by
    show d.data = Function.update d.data lba b
    rw [← h, Function.update_eq_self]
  count := rfl
  inside := by simpa using hlt
  script := id

theorem checkBack_sat {pairs : List ((Nat × Block H) × Block H)} : ∀ {d : Dev H}, ((pairs.map Prod.fst).map Prod.fst).Nodup →
    (∀ p ∈ pairs, p.1.1 < d.count ∧ d.data p.1.1 = p.2) →
    Sat (checkBack pairs) d (fun _ d' => d.Wrote (pairs.map Prod.fst) d') fun _ _ => ¬ d.Serves (pairs.map Prod.fst) := by
  induction pairs with
  | nil => exact fun {d} _ _ => sat_pure (.refl d)
  | cons p pairs ih =>
    obtain ⟨⟨lba, buf⟩, got⟩ := p
    intro d hnd hat
    rw [List.map_cons, List.map_cons, List.nodup_cons] at hnd
    simp only [List.mem_cons, forall_eq_or_imp] at hat
    obtain ⟨⟨hlt, rfl⟩, hat⟩ := hat
    -- the later pairs lie elsewhere
    have hrest : ∀ d₁, d.Wrote [(lba, buf)] d₁ →
        Sat (checkBack pairs) d₁ (fun _ d' => d.Wrote ((lba, buf) :: pairs.map Prod.fst) d')
          fun _ _ => ¬ d.Serves ((lba, buf) :: pairs.map Prod.fst) := by
      intro d₁ h₁
      refine (ih hnd.2 fun p hp => ?_).mono (fun _ _ h => h₁.trans h) fun _ _ h hs => h ⟨h₁.script hs.1, fun x hx => ?_⟩
      · obtain ⟨hp₁, hp₂⟩ := hat p hp
        have hne : p.1.1 ≠ lba := fun heq => hnd.1 (List.mem_map.mpr ⟨p.1, List.mem_map_of_mem hp, heq⟩)
        rw [h₁.count, h₁.data]
        exact ⟨hp₁, (Function.update_of_ne hne ..).trans hp₂⟩
      · rw [h₁.count]
        exact hs.2 x (List.mem_cons_of_mem _ hx)
    rw [checkBack]
    by_cases hsame : d.data lba = buf
    · rw [if_neg (not_not.mpr hsame)]
      exact hrest d (Dev.wrote_same hlt hsame)
    · rw [if_pos hsame]
      refine sat_bind ((writeOne_sat lba buf d).mono (fun _ _ h => h) fun _ _ h hs => h ⟨hs.1, fun x hx => ?_⟩)
        fun _ d₁ h₁ => hrest d₁ h₁
      exact hs.2 x (List.mem_singleton.mp hx ▸ List.mem_cons_self)

theorem consecutive_nodup {x : Nat × Block H} {run : List (Nat × Block H)} (h : Consecutive (x :: run)) :
    ((x :: run).map Prod.fst).Nodup := by
  rw [List.nodup_iff_injective_get]
  intro i j hij
  have hi := consecutive_getElem h i (by simpa using i.isLt)
  have hj := consecutive_getElem h j (by simpa using j.isLt)
  simp only [List.get_eq_getElem, List.getElem_map] at hij
  rw [hi, hj] at hij
  exact Fin.ext (Nat.add_left_cancel hij)

theorem verifyRuns_sat {runs : List (List (Nat × Block H))} : (∀ run ∈ runs, Consecutive run) → ∀ d : Dev H,
    Sat (verifyRuns runs) d (fun _ d' => d.Wrote runs.flatten d') fun _ _ => ¬ d.Serves runs.flatten := by
  induction runs with
  | nil => exact fun _ d => sat_pure (.refl d)
  | cons run runs ih =>
    intro hc d
    simp only [List.mem_cons, forall_eq_or_imp] at hc
    cases run with
    | nil => exact ih hc.2 d
    | cons x run =>
      have hat : ∀ {d₁ : Dev H}, d.Wrote [] d₁ → d.Serves ((x :: run) ++ runs.flatten) → d₁.Serves (x :: run) := by
        intro d₁ h₁ hs
        refine ⟨h₁.script hs.1, fun y hy => ?_⟩
        rw [h₁.count]
        exact hs.2 y (List.mem_append_left _ hy)
      have hpos := consecutive_getElem hc.1
      refine sat_bind ((Dev.readRun_sat (x :: run).length x.1 d).mono (fun _ _ h => h) fun _ _ h hs => ?_) ?_
      · refine h ⟨hs.1, fun i hi => ?_⟩
        rw [← hpos i hi]
        exact hs.2 _ (List.mem_append_left _ (List.getElem_mem _))
      rintro back d₁ ⟨rfl, hin, h₁⟩
      have hdata : d₁.data = d.data := h₁.data
      set back := (List.range (x :: run).length).map fun i => d.data (x.1 + i) with hback
      have hlen : back.length = (x :: run).length := by simp [hback]
      have hfst : ((x :: run).zip back).map Prod.fst = x :: run := List.map_fst_zip hlen.ge
      have hnd : ((((x :: run).zip back).map Prod.fst).map Prod.fst).Nodup := by
        rw [hfst]
        exact consecutive_nodup hc.1
      have hsame : ∀ p ∈ (x :: run).zip back, p.1.1 < d₁.count ∧ d₁.data p.1.1 = p.2 := by
        intro p hp
        obtain ⟨i, hi, rfl⟩ := List.mem_iff_getElem.mp hp
        rw [List.length_zip, hlen, min_self] at hi
        rw [List.getElem_zip, h₁.count, hdata, hpos i hi]
        exact ⟨hin i hi, by simp [hback]⟩
      have hcheck := checkBack_sat hnd hsame
      rw [hfst] at hcheck
      refine sat_bind (hcheck.mono (fun _ _ h => h) fun _ _ h hs => h (hat h₁ hs)) fun _ d₂ h₂ => ?_
      refine (ih hc.2 d₂).mono (fun _ _ h => h₁.trans (h₂.trans h)) fun _ _ h hs => h ?_
      have h₁₂ := h₁.trans h₂
      refine ⟨h₁₂.script hs.1, fun y hy => ?_⟩
      rw [h₁₂.count]
      exact hs.2 y (List.mem_append_right _ hy)

/-- A batch, positions repeated or not, leaves the last block of each position. -/
theorem writeEach_sat (blocks : List (Nat × Block H)) (d : Dev H) :
    Sat (writeEach blocks) d (fun _ d' => d.Wrote blocks d') fun _ _ => ¬ d.Serves blocks := by
  have hc := runsOf_consecutive blocks
  have hwrite := writeRuns_sat hc d
  have hverify := verifyRuns_sat hc
  rw [runsOf_flatten] at hwrite hverify
  refine sat_bind hwrite fun _ d₁ h₁ => ?_
  refine sat_bind ((Dev.flush_sat d₁).mono (fun _ _ h => h) fun _ _ h hs => h.1 (h₁.script hs.1)) fun _ d₂ h₂ => ?_
  have h₁₂ : d.Wrote blocks d₂ := by simpa using h₁.trans h₂
  refine (hverify d₂).mono (fun _ d₃ h₃ => ?_) fun _ _ h hs => h ⟨h₁₂.script hs.1, fun x hx => ?_⟩
  · have h := h₁₂.trans h₃
    refine ⟨?_, h.count, h₁₂.inside, h.script⟩
    funext l
    rw [h.data, Dev.landedAll_data, Dev.landedAll_data, lastAt_append, Option.or_self]
  · rw [h₁₂.count]
    exact hs.2 x hx

/-- An extended device: what it held, then zeros. -/
structure Dev.Grew (d d' : Dev H) : Prop where
  count : d.count ≤ d'.count
  data : ∀ l < d'.count, d'.data l = if l < d.count then d.data l else .zero
  script : d.script = [] → d'.script = []

theorem Dev.grow_sat (n : Nat) (d : Dev H) :
    Sat (grow n) d (fun _ d' => d.Grew d') fun _ d' => d.script = [] → d' = d := by
  unfold grow
  refine sat_state ?_
  split
  · exact sat_fail fun _ => rfl
  split
  · exact sat_pure ⟨le_rfl, fun l hl => (if_pos hl).symm, id⟩
  next hn =>
    split
    · exact sat_fail fun _ => rfl
    · refine sat_bind ((nextFault_sat _).mono (fun _ _ h => h) fun _ _ h => h.elim) ?_
      rintro f d₁ ⟨hw, hnone⟩
      rcases f with _ | f
      · have hcount := hw.count
        have hdata : d₁.data = d.data := hw.data
        refine ⟨?_, fun l _ => ?_, hw.script⟩
        · show d.count ≤ n
          omega
        · show (if l < d₁.count then d₁.data l else .zero) = _
          rw [hcount, hdata]
      · exact sat_fail fun hs => absurd (hnone hs) (by simp)

end Device

/-- What a device shows where nothing was written since the start. -/
def Dev.initial (d : Dev H) (l : Nat) : Block H := if l < d.count then d.data l else .zero

/-- The device holds `array` over what it held at first, as `x₀`. -/
structure Dev.Holds (x₀ : Dev H) (array : Nat → Option (Block H)) (x : Dev H) : Prop where
  count : x₀.count ≤ x.count
  data : ∀ l < x.count, x.data l = (array l).getD (x₀.initial l)
  inside : ∀ l, (array l).isSome → l < x.count

namespace Dev.Holds

variable {x₀ x x' : Dev H} {array : Nat → Option (Block H)}

theorem start (x : Dev H) : x.Holds (fun _ => none) x := ⟨le_rfl, fun _ hl => (if_pos hl).symm, by simp⟩

theorem wrote {xs : List (Nat × Block H)} (h : x₀.Holds array x) (hw : x.Wrote xs x') :
    x₀.Holds (fun l => (lastAt xs l).or (array l)) x' where
  count := h.count.trans_eq hw.count.symm
  data l hl := by
    rw [hw.count] at hl
    rw [hw.data, Dev.landedAll_data, h.data l hl]
    cases lastAt xs l <;> rfl
  inside l hl := by
    rw [hw.count]
    rcases hlast : lastAt xs l with _ | b <;> rw [hlast] at hl
    · exact h.inside l hl
    · obtain ⟨y, hy, -⟩ := Option.map_eq_some_iff.mp hlast
      have hpos : y.1 = l := by simpa using List.find?_some hy
      exact hpos ▸ hw.inside y (List.mem_reverse.mp (List.mem_of_find?_eq_some hy))

theorem grew (h : x₀.Holds array x) (hg : x.Grew x') : x₀.Holds array x' where
  count := h.count.trans hg.count
  data l hl := by
    rw [hg.data l hl]
    split
    next hlt => exact h.data l hlt
    next hge =>
      have hnone : array l = none := by
        by_contra hsome
        exact hge (h.inside l (Option.isSome_iff_ne_none.mpr hsome))
      have hout : ¬ l < x₀.count := fun hlt => hge (hlt.trans_le h.count)
      rw [hnone, Option.getD_none, Dev.initial, if_neg hout]
  inside l hl := (h.inside l hl).trans_le hg.count

end Dev.Holds

namespace Mirror

/-- A write phase that took the devices still attached along `R`. -/
structure Spread (R : Dev H → Dev H → Prop) (m : Mirror H) (d' : Dev H) (m' : Mirror H) : Prop where
  primary : m'.primary = some d'
  secondary : ∀ y', m'.secondary = some y' → ∃ y, m.secondary = some y ∧ R y y'
  buffers : m.SameBuffers m'

variable {R : Dev H → Dev H → Prop} {x : Prog Error (Dev H) Unit}

/-- The secondary follows or is given up. -/
theorem onSecondary_spread (hx : ∀ y, Sat x y (fun _ y' => R y y') fun _ _ => True) (m : Mirror H) :
    ∃ m', (onSecondary x).run m = (.ok (), m') ∧ m'.a = m.a ∧ m.SameBuffers m' ∧
      ∀ y', m'.b = some y' → ∃ y, m.b = some y ∧ R y y' := by
  rcases hb : m.b with _ | b
  · exact ⟨m, by simp [onSecondary, hb], rfl, ⟨rfl, rfl⟩, by simp [hb]⟩
  · have hr := hx b
    unfold Sat at hr
    rcases hrun : x.run b with ⟨_ | _, b'⟩ <;> rw [hrun] at hr
    · exact ⟨{ { m with b := some b' }.mark with
          b := none, dropped := some b', degraded := true, events := m.events ++ [.mirrorDegraded] },
        by simp [onSecondary, hb, onB_run hb hrun, dropB, mark], rfl, ⟨rfl, rfl⟩, by simp⟩
    · exact ⟨{ m with b := some b' }.mark, by simp [onSecondary, hb, onB_run hb hrun], rfl, ⟨rfl, rfl⟩,
        fun y' hy' => ⟨b, rfl, by cases hy'; exact hr⟩⟩

theorem everywhere_spread (hp : m.primary = some d) (hd : x.run d = (.ok (), d'))
    (hx : ∀ y, Sat x y (fun _ y' => R y y') fun _ _ => True) :
    ∃ m', (everywhere x).run m = (.ok (), m') ∧ m.Spread R d' m' := by
  rcases ha : m.a with _ | a
  · rcases hb : m.b with _ | b
    · simp [primary, ha, hb] at hp
    · obtain rfl : b = d := by simpa [primary, ha, hb] using hp
      refine ⟨{ m with b := some d' }.mark, by simp [everywhere, ha, hb, onB_run hb hd], ?_, ?_, rfl, rfl⟩
      · simp [mark, primary, ha]
      · simp [secondary, mark, ha]
  · obtain rfl : a = d := by simpa [primary, ha] using hp
    obtain ⟨m', hrun, ha', hbuf, hsec⟩ := onSecondary_spread hx { m with a := some d' }.mark
    refine ⟨m', by simp [everywhere, ha, onA_run ha hd, hrun], ?_, fun y' hy' => ?_, hbuf⟩
    · rw [primary, ha']
      rfl
    · rw [secondary, ha'] at hy'
      rw [secondary, ha]
      exact hsec y' (by simpa [mark] using hy')

/-- The primary refuses, as it was: nothing is asked of the secondary. -/
theorem everywhere_refused {e : Error} (hp : m.primary = some d) (hd : x.run d = (.error e, d)) :
    ∃ m', (everywhere x).run m = (.error e, m') ∧ m.Spread Eq d m' := by
  rcases ha : m.a with _ | a
  · rcases hb : m.b with _ | b
    · simp [primary, ha, hb] at hp
    · obtain rfl : b = d := by simpa [primary, ha, hb] using hp
      refine ⟨{ m with b := some b }.mark, by simp [everywhere, ha, hb, onB_run hb hd], ?_, ?_, rfl, rfl⟩
      · simp [mark, primary, ha]
      · simp [secondary, mark, ha]
  · obtain rfl : a = d := by simpa [primary, ha] using hp
    refine ⟨{ m with a := some a }.mark, by simp [everywhere, ha, onA_run ha hd], ?_, ?_, rfl, rfl⟩
    · simp [mark, primary]
    · simp [secondary, mark, ha]

theorem Spread.ready (h : m.Spread R d' m') (hp : m.pending = []) (hs : d'.script = [])
    (hcached : ∀ e ∈ m.cache, e.1 < d'.count ∧ e.2.2 = d'.data e.1) : m'.Ready d' where
  primary := h.primary
  script := hs
  staged := by
    rw [staged, h.buffers.1, hp]
    simp
  cached := by
    rw [h.buffers.2]
    exact hcached

/-- A batch written at once, positions repeated or not. -/
theorem writeVerifiedBatchNow_spread {blocks : List (Nat × Block H)} (h : m.Ready d) (hp : m.pending = [])
    (hin : ∀ x ∈ blocks, x.1 < d.count) :
    ∃ m' d', (writeVerifiedBatchNow blocks).run m = (.ok (), m') ∧ d.Wrote blocks d' ∧ m'.Ready d' ∧ m'.pending = [] ∧
      ∀ y', m'.secondary = some y' → ∃ y, m.secondary = some y ∧ y.Wrote blocks y' := by
  obtain ⟨ha₁, hb₁, hp₁, hc₁⟩ := foldl_forget_fields blocks m
  have hall := fun y => (writeEach_sat blocks y).mono (fun _ _ h => h) fun _ _ _ => trivial
  have hd := writeEach_sat blocks d
  unfold Sat at hd
  rcases hrun : (writeEach blocks).run d with ⟨e | _, d'⟩ <;> rw [hrun] at hd
  · exact absurd ⟨h.script, hin⟩ hd
  obtain ⟨m', hrun', hspread⟩ : ∃ m', (writeVerifiedBatchNow blocks).run m = (.ok (), m') ∧
      (blocks.foldl (fun m x => m.forget x.1) m).Spread (fun y y' => y.Wrote blocks y') d' m' := by
    simp only [writeVerifiedBatchNow, bind_run, update_run, state_run]
    generalize blocks.foldl (fun m x => m.forget x.1) m = m₁ at *
    have hprim₁ : m₁.primary = some d := by
      rw [primary, ha₁, hb₁]
      exact h.primary
    split
    next hboth =>
      obtain ⟨a, ha⟩ := Option.isSome_iff_exists.mp hboth.1
      obtain ⟨b, hb⟩ := Option.isSome_iff_exists.mp hboth.2.1
      obtain rfl : a = d := by simpa [primary, ha] using hprim₁
      have hb' := hall b
      unfold Sat at hb'
      rcases hx : (writeEach blocks).run b with ⟨_ | _, b'⟩ <;> rw [hx] at hb'
      · refine ⟨{ { m₁ with a := some d', b := some b' }.mark with
            b := none, dropped := some b', degraded := true, events := m₁.events ++ [.mirrorDegraded] },
          by simp [onBoth_run ha hb hrun hx, dropB, mark], rfl, ?_, rfl, rfl⟩
        simp [secondary, mark]
      · refine ⟨{ m₁ with a := some d', b := some b' }.mark, by simp [onBoth_run ha hb hrun hx], rfl, ?_, rfl, rfl⟩
        intro y' hy'
        obtain rfl : b' = y' := by simpa [secondary, mark] using hy'
        exact ⟨b, by simp [secondary, ha, hb], hb'⟩
    · exact everywhere_spread hprim₁ hrun hall
  refine ⟨m', d', hrun', hd, ?_, hspread.buffers.1.trans (hp₁.trans hp), ?_⟩
  · refine hspread.ready (hp₁.trans hp) (hd.script h.script) fun e he => ?_
    obtain ⟨hmem, hnot⟩ := hc₁ e he
    obtain ⟨hlt, heq⟩ := h.cached e hmem
    rw [hd.count, hd.data, Dev.landedAll_data_of_notMem hnot]
    exact ⟨hlt, heq⟩
  · intro y' hy'
    obtain ⟨y, hy, hw⟩ := hspread.secondary y' hy'
    rw [secondary, ha₁, hb₁] at hy
    exact ⟨y, hy, hw⟩

theorem lastAt_refs (m : Mirror H) (l : Nat) : lastAt m.refs l = m.stagedAt l := by
  rcases hlast : lastAt m.refs l with _ | b
  · rw [lastAt, Option.map_eq_none_iff, List.find?_eq_none] at hlast
    rcases hs : m.stagedAt l with _ | b
    · rfl
    · exact absurd (hlast (l, b) (List.mem_reverse.mpr (mem_refs.mpr hs))) (by simp)
  · obtain ⟨y, hy, rfl⟩ := Option.map_eq_some_iff.mp hlast
    have hpos : y.1 = l := by simpa using List.find?_some hy
    rw [← hpos]
    exact (mem_refs.mp (List.mem_reverse.mp (List.mem_of_find?_eq_some hy))).symm

/-- Since the mirror was attached as `m₀` the blocks `w` were staged or written. -/
structure Flat (m₀ : Mirror H) (d₀ : Dev H) (w : List (Nat × Block H)) (m : Mirror H) (d : Dev H) : Prop where
  ready : m.Ready d
  array : ∃ array, (∀ l, (m.stagedAt l).or (array l) = lastAt w l) ∧ d₀.Holds array d ∧
    ∀ y, m.secondary = some y → ∃ y₀, m₀.secondary = some y₀ ∧ y₀.Holds array y

namespace Flat

variable {m₀ : Mirror H} {d₀ : Dev H} {w xs : List (Nat × Block H)}

theorem stagedAt_of_pending_nil (h : m.pending = []) (l : Nat) : m.stagedAt l = none := by
  rw [stagedAt_eq_none]
  simp [staged, h]

/-- Nothing is staged and `xs` is written. -/
theorem written (h : Flat m₀ d₀ w m d) (hp : m.pending = []) (hw : d.Wrote xs d') (hready : m'.Ready d')
    (hp' : m'.pending = []) (hsec : ∀ y', m'.secondary = some y' → ∃ y, m.secondary = some y ∧ y.Wrote xs y') :
    Flat m₀ d₀ (w ++ xs) m' d' := by
  obtain ⟨array, harray, hd, hy⟩ := h.array
  refine ⟨hready, _, fun l => ?_, hd.wrote hw, fun y' hy' => ?_⟩
  · rw [stagedAt_of_pending_nil hp', Option.none_or, lastAt_append, ← harray, stagedAt_of_pending_nil hp, Option.none_or]
  · obtain ⟨y, hsome, hwy⟩ := hsec y' hy'
    obtain ⟨y₀, hy₀, hholds⟩ := hy y hsome
    exact ⟨y₀, hy₀, hholds.wrote hwy⟩

theorem drain (h : Flat m₀ d₀ w m d) :
    ∃ m' d', drain.run m = (.ok (), m') ∧ Flat m₀ d₀ w m' d' ∧ m'.pending = [] ∧ d'.count = d.count := by
  by_cases hp : m.pending = []
  · exact ⟨m, d, by simp [Mirror.drain, hp], h, hp, rfl⟩
  · have h₁ : ({ m with pending := [] } : Mirror H).Ready d :=
      ⟨h.ready.primary, h.ready.script, by simp [staged], h.ready.cached⟩
    obtain ⟨m', d', hrun, hw, hready, hp', hsec⟩ := writeVerifiedBatchNow_spread h₁ rfl fun x hx =>
      h.ready.staged _ (mem_staged_of_stagedAt (mem_refs.mp hx))
    obtain ⟨array, harray, hd, hy⟩ := h.array
    refine ⟨m', d', by simp [Mirror.drain, hp, hrun], ⟨hready, _, fun l => ?_, hd.wrote hw, fun y' hy' => ?_⟩, hp', hw.count⟩
    · rw [stagedAt_of_pending_nil hp', Option.none_or, lastAt_refs]
      exact harray l
    · obtain ⟨y, hsome, hwy⟩ := hsec y' hy'
      obtain ⟨y₀, hy₀, hholds⟩ := hy y hsome
      exact ⟨y₀, hy₀, hholds.wrote hwy⟩

/-- Nothing but the buffers has changed. -/
theorem buffered (h : Flat m₀ d₀ w m d) (hready : m'.Ready d) (hsec : m'.secondary = m.secondary)
    (hstaged : ∀ l, m'.stagedAt l = (lastAt xs l).or (m.stagedAt l)) : Flat m₀ d₀ (w ++ xs) m' d := by
  obtain ⟨array, harray, hd, hy⟩ := h.array
  refine ⟨hready, array, fun l => ?_, hd, fun y hy' => hy y (hsec ▸ hy')⟩
  rw [hstaged, lastAt_append, ← harray, Option.or_assoc]

/-- The block every read shows. -/
theorem view (h : Flat m₀ d₀ w m d) {l : Nat} (hl : l < d.count) : m.view d l = (lastAt w l).getD (d₀.initial l) := by
  obtain ⟨array, harray, hd, -⟩ := h.array
  rw [Mirror.view, ← harray, hd.data l hl]
  cases m.stagedAt l <;> rfl

end Flat

theorem Ready.stage (h : m.Ready d) {blocks : List (Nat × Block H)} (hin : ∀ x ∈ blocks, x.1 < d.count) :
    (m.stage blocks).Ready d ∧ (m.stage blocks).secondary = m.secondary ∧
      (m.stage blocks).staged = m.staged ++ blocks := by
  unfold Mirror.stage
  split
  next hnil =>
    rw [List.isEmpty_iff] at hnil
    exact ⟨h, rfl, by simp [hnil]⟩
  · obtain ⟨ha, hb, hp, hc⟩ := foldl_forget_fields blocks m
    generalize blocks.foldl (fun m x => m.forget x.1) m = m₁ at *
    have hstaged : ({ m₁ with pending := m.pending ++ [⟨blocks.length, blocks⟩] } : Mirror H).staged =
        m.staged ++ blocks := by
      show (m.pending ++ [_]).flatMap Batch.items = m.pending.flatMap Batch.items ++ blocks
      simp
    refine ⟨⟨?_, h.script, ?_, fun e he => h.cached e (hc e he).1⟩, ?_, hstaged⟩
    · rw [← h.primary]
      show m₁.a.or m₁.b = m.a.or m.b
      rw [ha, hb]
    · rw [hstaged]
      intro x hx
      exact (List.mem_append.mp hx).elim (h.staged x) (hin x)
    · show (if m₁.a.isSome then m₁.b else none) = if m.a.isSome then m.b else none
      rw [ha, hb]

theorem secondary_stageOne (lba : Nat) (b : Block H) : (m.stageOne lba b).secondary = m.secondary := by
  unfold stageOne
  split
  · split <;> rfl
  · rfl

theorem secondary_reserveStaged (n : Nat) : (m.reserveStaged n).secondary = m.secondary := by
  unfold reserveStaged
  split <;> rfl

/-- What a caller may ask of a mirror. -/
inductive Request (H : Type) where
  | stage (blocks : List (Nat × Block H))
  | reserveStaged (n : Nat)
  | stageOne (lba : Nat) (b : Block H)
  | drain
  | writeVerified (lba : Nat) (b : Block H)
  | writeVerifiedBatch (blocks : List (Nat × Block H))
  | flush
  | grow (newBlocks : Nat)
  | read (lba : Nat)
  | readCached (lba : Nat)
  | readRun (lba n : Nat)
  | readMany (lbas : List Nat)

namespace Request

def run : Request H → Prog Error (Mirror H) (List (Block H))
  | .stage blocks => update (Mirror.stage blocks) >>= fun _ => pure []
  | .reserveStaged n => update (Mirror.reserveStaged n) >>= fun _ => pure []
  | .stageOne lba b => update (Mirror.stageOne lba b) >>= fun _ => pure []
  | .drain => Mirror.drain >>= fun _ => pure []
  | .writeVerified lba b => Mirror.writeVerified lba b >>= fun _ => pure []
  | .writeVerifiedBatch blocks => Mirror.writeVerifiedBatch blocks >>= fun _ => pure []
  | .flush => Mirror.flush >>= fun _ => pure []
  | .grow newBlocks => Mirror.grow newBlocks >>= fun _ => pure []
  | .read lba => Mirror.read lba >>= fun b => pure [b]
  | .readCached lba => Mirror.readCached lba >>= fun b => pure [b]
  | .readRun lba n => Mirror.readRun lba n
  | .readMany lbas => Mirror.readMany lbas

/-- What it stages or writes. -/
def blocks : Request H → List (Nat × Block H)
  | .stage blocks => blocks
  | .stageOne lba b => [(lba, b)]
  | .writeVerified lba b => [(lba, b)]
  | .writeVerifiedBatch blocks => blocks
  | _ => []

/-- The positions it reads. -/
def reads : Request H → List Nat
  | .read lba => [lba]
  | .readCached lba => [lba]
  | .readRun lba n => (List.range n).map (lba + ·)
  | .readMany lbas => lbas
  | _ => []

/-- It asks nothing past the end of the primary, which would fail. -/
def Within (op : Request H) (m : Mirror H) : Prop :=
  ∃ d, m.primary = some d ∧ (∀ x ∈ op.blocks, x.1 < d.count) ∧ ∀ l ∈ op.reads, l < d.count

def IsRead : Request H → Prop
  | .read _ | .readCached _ | .readRun _ _ | .readMany _ => True
  | _ => False

theorem IsRead.blocks {op : Request H} (h : op.IsRead) : op.blocks = [] := by
  cases op <;> first | rfl | exact absurd h id

/-- The mirror after some requests, answered or refused. -/
def after : List (Request H) → Mirror H → Mirror H
  | [], m => m
  | op :: ops, m => after ops (op.run.run m).2

/-- Each request stays within the primary as it then is. -/
def Fits : List (Request H) → Mirror H → Prop
  | [], _ => True
  | op :: ops, m => op.Within m ∧ Fits ops (op.run.run m).2

end Request

/-- An answer dropped does not change what is left. -/
theorem silent_run (x : Prog Error (Mirror H) Unit) (m : Mirror H) :
    ((x >>= fun _ => pure ([] : List (Block H))).run m).2 = (x.run m).2 := by
  rw [bind_run]
  rcases x.run m with ⟨_ | _, m'⟩ <;> rfl

namespace Flat

variable {m₀ : Mirror H} {d₀ : Dev H} {w : List (Nat × Block H)}

/-- A write phase after a drain. -/
theorem spread (h : Flat m₀ d₀ w m d) (hp : m.pending = []) (m₁ : Mirror H)
    {xs : List (Nat × Block H)} (hw : d.Wrote xs d') (ha : m₁.a = m.a) (hb : m₁.b = m.b) (hp₁ : m₁.pending = m.pending)
    (hcache : ∀ e ∈ m₁.cache, e ∈ m.cache ∧ e.1 ∉ xs.map Prod.fst) (hs : m₁.Spread (fun y y' => y.Wrote xs y') d' m') :
    Flat m₀ d₀ (w ++ xs) m' d' ∧ m'.pending = [] := by
  have hpend : m'.pending = [] := hs.buffers.1.trans (hp₁.trans hp)
  refine ⟨h.written hp hw ?_ hpend fun y' hy' => ?_, hpend⟩
  · refine hs.ready (hp₁.trans hp) (hw.script h.ready.script) fun e he => ?_
    obtain ⟨hmem, hnot⟩ := hcache e he
    obtain ⟨hlt, heq⟩ := h.ready.cached e hmem
    rw [hw.count, hw.data, Dev.landedAll_data_of_notMem hnot]
    exact ⟨hlt, heq⟩
  · obtain ⟨y, hy, hwy⟩ := hs.secondary y' hy'
    rw [secondary, ha, hb] at hy
    exact ⟨y, hy, hwy⟩

theorem writeVerified (h : Flat m₀ d₀ w m d) {lba : Nat} (hl : lba < d.count) (b : Block H) :
    ∃ m' d', (writeVerified lba b).run m = (.ok (), m') ∧ Flat m₀ d₀ (w ++ [(lba, b)]) m' d' ∧ m'.pending = [] := by
  obtain ⟨m₁, d₁, hrun₁, h₁, hp₁, hcount⟩ := h.drain
  have hall := fun y => (writeOne_sat lba b y).mono (fun _ _ h => h) fun _ _ _ => trivial
  have hd := writeOne_sat lba b d₁
  unfold Sat at hd
  rcases hrun : (writeOne lba b).run d₁ with ⟨e | _, d'⟩ <;> rw [hrun] at hd
  · exact absurd ⟨h₁.ready.script, by simpa [hcount] using hl⟩ hd
  obtain ⟨m', hrun', hs⟩ := everywhere_spread (m := m₁.forget lba) h₁.ready.primary hrun hall
  refine ⟨m', d', by simp [Mirror.writeVerified, hrun₁, hrun'], h₁.spread hp₁ (m₁.forget lba) hd rfl rfl rfl (fun e he => ?_) hs⟩
  obtain ⟨hmem, hne⟩ := List.mem_filter.mp he
  exact ⟨hmem, by simpa using hne⟩

theorem writeVerifiedBatch (h : Flat m₀ d₀ w m d) {blocks : List (Nat × Block H)} (hin : ∀ x ∈ blocks, x.1 < d.count) :
    ∃ m' d', (writeVerifiedBatch blocks).run m = (.ok (), m') ∧ Flat m₀ d₀ (w ++ blocks) m' d' ∧ m'.pending = [] := by
  obtain ⟨m₁, d₁, hrun₁, h₁, hp₁, hcount⟩ := h.drain
  obtain ⟨m', d', hrun, hw, hready, hp', hsec⟩ := writeVerifiedBatchNow_spread h₁.ready hp₁ (hcount ▸ hin)
  exact ⟨m', d', by simp [Mirror.writeVerifiedBatch, hrun₁, hrun], h₁.written hp₁ hw hready hp' hsec, hp'⟩

/-- A refused grow leaves the primary as it was. -/
theorem grow (h : Flat m₀ d₀ w m d) (n : Nat) :
    ∃ d', Flat m₀ d₀ w ((grow n).run m).2 d' ∧ ((grow n).run m).2.pending = [] := by
  obtain ⟨m₁, d₁, hrun₁, h₁, hp₁, -⟩ := h.drain
  have hrun : (Mirror.grow n).run m = (everywhere (Dev.grow n)).run m₁ := by simp [Mirror.grow, hrun₁]
  rw [hrun]
  have hall := fun y => (Dev.grow_sat n (H := H) y).mono (fun _ _ h => h) fun _ _ _ => trivial
  have hd := Dev.grow_sat n d₁
  obtain ⟨array, harray, hd₁, hy⟩ := h₁.array
  unfold Sat at hd
  rcases hgrow : (Dev.grow n).run d₁ with ⟨e | _, d'⟩ <;> rw [hgrow] at hd
  · obtain rfl : d' = d₁ := hd h₁.ready.script
    obtain ⟨m', hrun', hs⟩ := everywhere_refused h₁.ready.primary hgrow
    rw [hrun']
    have hp' : m'.pending = [] := hs.buffers.1.trans hp₁
    refine ⟨d', ⟨hs.ready hp₁ h₁.ready.script h₁.ready.cached, array, fun l => ?_, hd₁, fun y' hy' => ?_⟩, hp'⟩
    · rw [stagedAt_of_pending_nil hp', ← harray, stagedAt_of_pending_nil hp₁]
    · obtain ⟨y, hsome, rfl⟩ := hs.secondary y' hy'
      exact hy y hsome
  · obtain ⟨m', hrun', hs⟩ := everywhere_spread h₁.ready.primary hgrow hall
    rw [hrun']
    have hp' : m'.pending = [] := hs.buffers.1.trans hp₁
    refine ⟨d', ⟨hs.ready hp₁ (hd.script h₁.ready.script) fun e he => ?_, array, fun l => ?_, hd₁.grew hd,
      fun y' hy' => ?_⟩, hp'⟩
    · obtain ⟨hlt, heq⟩ := h₁.ready.cached e he
      have hlt' := hlt.trans_le hd.count
      exact ⟨hlt', by rw [hd.data _ hlt', if_pos hlt, heq]⟩
    · rw [stagedAt_of_pending_nil hp', ← harray, stagedAt_of_pending_nil hp₁]
    · obtain ⟨y, hsome, hg⟩ := hs.secondary y' hy'
      obtain ⟨y₀, hy₀, hholds⟩ := hy y hsome
      exact ⟨y₀, hy₀, hholds.grew hg⟩

/-- A secondary that fails to flush stays attached. -/
theorem flush (h : Flat m₀ d₀ w m d) : ∃ d', Flat m₀ d₀ w ((flush).run m).2 d' ∧ ((flush).run m).2.pending = [] := by
  obtain ⟨m₁, d₁, hrun₁, h₁, hp₁, -⟩ := h.drain
  obtain ⟨array, harray, hd₁, hy⟩ := h₁.array
  have hd := Dev.flush_sat d₁
  unfold Sat at hd
  rcases hflush : Dev.flush.run d₁ with ⟨e | _, d'⟩ <;> rw [hflush] at hd
  · have hfault : d₁.script ≠ [] ∧ d₁.Wrote [] d' := hd
    exact absurd h₁.ready.script hfault.1
  have hkeep : ∀ m' : Mirror H, m'.primary = some d' → m'.pending = m₁.pending → m'.cache = m₁.cache →
      (∀ y', m'.secondary = some y' → ∃ y, m₁.secondary = some y ∧ y.Wrote [] y') →
      ∃ d', Flat m₀ d₀ w m' d' ∧ m'.pending = [] := by
    intro m' hprim hpend hcache hsec
    refine ⟨d', ?_, hpend.trans hp₁⟩
    have hready : m'.Ready d' := by
      refine ⟨hprim, hd.script h₁.ready.script, ?_, ?_⟩
      · rw [staged, hpend, hp₁]
        simp
      · rw [hcache, hd.count, hd.data]
        exact h₁.ready.cached
    simpa using h₁.written hp₁ hd hready (hpend.trans hp₁) hsec
  have hprim := h₁.ready.primary
  have hrun : (Mirror.flush).run m = (do
      let m ← state
      if m.a.isSome then onA Dev.flush
      if m.b.isSome then onB Dev.flush : Prog Error (Mirror H) Unit).run m₁ := by
    simp [Mirror.flush, hrun₁]
  rw [hrun]
  rcases ha : m₁.a with _ | a
  · rcases hb : m₁.b with _ | b
    · simp [primary, ha, hb] at hprim
    · obtain rfl : b = d₁ := by simpa [primary, ha, hb] using hprim
      have hafter : ((do
          let m ← state
          if m.a.isSome then onA Dev.flush
          if m.b.isSome then onB Dev.flush : Prog Error (Mirror H) Unit).run m₁).2 =
          { m₁ with b := some d' }.mark := by
        simp [ha, hb, onB_run hb hflush]
      rw [hafter]
      exact hkeep _ (by simp [primary, mark, ha]) rfl rfl (by simp [secondary, mark, ha])
  · obtain rfl : a = d₁ := by simpa [primary, ha] using hprim
    rcases hb : m₁.b with _ | b
    · have hafter : ((do
          let m ← state
          if m.a.isSome then onA Dev.flush
          if m.b.isSome then onB Dev.flush : Prog Error (Mirror H) Unit).run m₁).2 =
          { m₁ with a := some d' }.mark := by
        simp [ha, hb, onA_run ha hflush]
      rw [hafter]
      exact hkeep _ (by simp [primary, mark]) rfl rfl (by simp [secondary, mark, hb])
    · have hb' := Dev.flush_sat b
      unfold Sat at hb'
      rcases hx : Dev.flush.run b with ⟨r, b'⟩
      rw [hx] at hb'
      have hw : b.Wrote [] b' := by
        rcases r with _ | _
        · exact hb'.2
        · exact hb'
      have hafter : ((do
          let m ← state
          if m.a.isSome then onA Dev.flush
          if m.b.isSome then onB Dev.flush : Prog Error (Mirror H) Unit).run m₁).2 =
          ({ ({ m₁ with a := some d' } : Mirror H).mark with b := some b' } : Mirror H).mark := by
        simp [ha, hb, onA_run ha hflush, onB_run (m := { m₁ with a := some d', b := some b }.mark) rfl hx]
      rw [hafter]
      refine hkeep _ (by simp [primary, mark]) rfl rfl fun y' hy' => ⟨b, by simp [secondary, ha, hb], ?_⟩
      obtain rfl : b' = y' := by simpa [secondary, mark] using hy'
      exact hw

theorem agrees (h : Flat m₀ d₀ w m d) (ha : m.Agrees m') (hready : m'.Ready d) : Flat m₀ d₀ w m' d := by
  have hsec : m'.secondary = m.secondary := by
    rw [show m' = _ from ha]
    rfl
  have hstaged : ∀ l, m'.stagedAt l = m.stagedAt l := fun l => by
    rw [stagedAt_eq_lastAt, ha.staged, ← stagedAt_eq_lastAt]
  simpa using h.buffered hready hsec (show ∀ l, _ = (lastAt [] l).or _ from hstaged)

/-- What a read answers, and that it changes nothing but the cache. -/
theorem reads (h : Flat m₀ d₀ w m d) {op : Request H} (hin : ∀ l ∈ op.reads, l < d.count) (hr : op.IsRead) :
    ∃ m', op.run.run m = (.ok (op.reads.map fun l => (lastAt w l).getD (d₀.initial l)), m') ∧ Flat m₀ d₀ w m' d := by
  have hview : op.reads.map (m.view d) = op.reads.map fun l => (lastAt w l).getD (d₀.initial l) :=
    List.map_congr_left fun l hl => h.view (hin l hl)
  rw [← hview]
  cases op with
  | read lba =>
    have hl : lba < d.count := hin lba (List.mem_singleton_self lba)
    exact ⟨m, by simp [Request.run, Request.reads, read_run h.ready hl], h⟩
  | readCached lba =>
    have hl : lba < d.count := hin lba (List.mem_singleton_self lba)
    obtain ⟨m', hrun, ha, hready⟩ := readCached_run h.ready hl
    exact ⟨m', by simp [Request.run, Request.reads, hrun], h.agrees ha hready⟩
  | readRun lba n =>
    rcases n with _ | n
    · have hnone : (readRun lba 0).run m = (.ok [], m) := by
        have hany : (m.staged.any fun x => decide (lba ≤ x.1) && decide (x.1 < lba + 0)) = false := by
          rw [List.any_eq_false]
          intro x _
          simp
        have hdev : (Dev.readRun lba 0).run d = (.ok [], d) := rfl
        simp only [readRun, bind_run, state_run, hany, Bool.false_eq_true, if_false]
        exact onFirst_run h.ready.primary hdev
      exact ⟨m, by simp [Request.run, Request.reads, hnone], h⟩
    · have hlast : lba + n < d.count := hin (lba + n) (List.mem_map.mpr ⟨n, by simp, rfl⟩)
      have hrun := readRun_run h.ready (show lba + (n + 1) ≤ d.count by omega)
      exact ⟨m, by simp [Request.run, Request.reads, hrun, Function.comp_def], h⟩
  | readMany lbas => exact ⟨m, readMany_run h.ready hin, h⟩
  | _ => exact absurd hr id

/-- One request, whatever it is. -/
theorem op (h : Flat m₀ d₀ w m d) {op : Request H} (hwithin : op.Within m) :
    ∃ d', Flat m₀ d₀ (w ++ op.blocks) (op.run.run m).2 d' := by
  obtain ⟨d₁, hprim, hblocks, hreads⟩ := hwithin
  obtain rfl : d = d₁ := Option.some.inj (h.ready.primary.symm.trans hprim)
  have hread : op.IsRead → ∃ d', Flat m₀ d₀ (w ++ op.blocks) (op.run.run m).2 d' := by
    intro hr
    obtain ⟨m', hrun, h'⟩ := h.reads hreads hr
    refine ⟨d, ?_⟩
    rw [hrun, hr.blocks, List.append_nil]
    exact h'
  cases op with
  | stage blocks =>
    have hin : ∀ x ∈ blocks, x.1 < d.count := hblocks
    obtain ⟨hready, hsec, hstaged⟩ := h.ready.stage hin
    have h' : Flat m₀ d₀ (w ++ blocks) (m.stage blocks) d := h.buffered hready hsec fun l => by
      rw [stagedAt_eq_lastAt, hstaged, lastAt_append]
      rfl
    exact ⟨d, h'⟩
  | reserveStaged n =>
    have h' : Flat m₀ d₀ (w ++ []) (m.reserveStaged n) d :=
      h.buffered (h.ready.reserveStaged n) (secondary_reserveStaged n) fun l => by
        rw [stagedAt_eq_lastAt, staged_reserveStaged]
        rfl
    exact ⟨d, h'⟩
  | stageOne lba b =>
    have hl : lba < d.count := hblocks _ (List.mem_singleton_self _)
    have h' : Flat m₀ d₀ (w ++ [(lba, b)]) (m.stageOne lba b) d :=
      h.buffered (h.ready.stageOne hl b) (secondary_stageOne lba b) fun l => by
        rw [stagedAt_eq_lastAt, staged_stageOne, lastAt_append]
        rfl
    exact ⟨d, h'⟩
  | drain =>
    obtain ⟨m', d', hrun, h', -⟩ := h.drain
    exact ⟨d', by simpa [Request.run, Request.blocks, hrun] using h'⟩
  | writeVerified lba b =>
    obtain ⟨m', d', hrun, h', -⟩ := h.writeVerified (hblocks _ (List.mem_singleton_self _)) b
    exact ⟨d', by simpa [Request.run, Request.blocks, hrun] using h'⟩
  | writeVerifiedBatch blocks =>
    have hin : ∀ x ∈ blocks, x.1 < d.count := hblocks
    obtain ⟨m', d', hrun, h', -⟩ := h.writeVerifiedBatch hin
    exact ⟨d', by simpa [Request.run, Request.blocks, hrun] using h'⟩
  | flush =>
    obtain ⟨d', h', -⟩ := h.flush
    have hsame : ((Request.flush (H := H)).run.run m).2 = (Mirror.flush.run m).2 := silent_run Mirror.flush m
    exact ⟨d', by simpa [Request.blocks, hsame] using h'⟩
  | grow n =>
    obtain ⟨d', h', -⟩ := h.grow n
    have hsame : ((Request.grow (H := H) n).run.run m).2 = ((Mirror.grow n).run m).2 := silent_run (Mirror.grow n) m
    exact ⟨d', by simpa [Request.blocks, hsame] using h'⟩
  | read lba => exact hread trivial
  | readCached lba => exact hread trivial
  | readRun lba n => exact hread trivial
  | readMany lbas => exact hread trivial

theorem ops {ops : List (Request H)} : ∀ {w m d}, Flat m₀ d₀ w m d → Request.Fits ops m →
    ∃ d', Flat m₀ d₀ (w ++ ops.flatMap Request.blocks) (Request.after ops m) d' := by
  induction ops with
  | nil => exact fun {w m d} h _ => ⟨d, by simpa [Request.after] using h⟩
  | cons op ops ih =>
    intro w m d h hfits
    obtain ⟨d', h'⟩ := h.op hfits.1
    obtain ⟨d'', h''⟩ := ih h' hfits.2
    exact ⟨d'', by simpa [Request.after] using h''⟩

/-- A mirror newly attached. -/
theorem start (hprim : m₀.primary = some d₀) (hscript : d₀.script = []) (hpend : m₀.pending = []) (hcache : m₀.cache = []) :
    Flat m₀ d₀ [] m₀ d₀ where
  ready := ⟨hprim, hscript, by simp [staged, hpend], by simp [hcache]⟩
  array := by
    refine ⟨fun _ => none, fun l => ?_, .start d₀, fun y hy => ⟨y, hy, .start y⟩⟩
    rw [stagedAt_of_pending_nil hpend]
    rfl

end Flat

/-- Every interleaving of requests on a mirror whose primary does not fail: each read path answers
with the block last staged or written, and a drain leaves it on the primary and on the secondary
if it is still attached. -/
theorem mirror_is_array {m₀ : Mirror H} {d₀ : Dev H} (hprim : m₀.primary = some d₀) (hscript : d₀.script = [])
    (hpend : m₀.pending = []) (hcache : m₀.cache = []) {ops : List (Request H)} (hfits : Request.Fits ops m₀) :
    (∀ op : Request H, op.IsRead → op.Within (Request.after ops m₀) → (op.run.run (Request.after ops m₀)).1 =
      .ok (op.reads.map fun l => (lastAt (ops.flatMap Request.blocks) l).getD (d₀.initial l))) ∧
    ∃ m d, drain.run (Request.after ops m₀) = (.ok (), m) ∧ m.pending = [] ∧ m.primary = some d ∧
      (∀ l < d.count, d.data l = (lastAt (ops.flatMap Request.blocks) l).getD (d₀.initial l)) ∧
      ∀ y, m.secondary = some y → ∃ y₀, m₀.secondary = some y₀ ∧
        ∀ l < y.count, y.data l = (lastAt (ops.flatMap Request.blocks) l).getD (y₀.initial l) := by
  obtain ⟨d, h⟩ := (Flat.start hprim hscript hpend hcache).ops hfits
  rw [List.nil_append] at h
  constructor
  · rintro op hr ⟨d₁, hprim₁, -, hreads⟩
    obtain rfl : d = d₁ := Option.some.inj (h.ready.primary.symm.trans hprim₁)
    obtain ⟨m', hrun, -⟩ := h.reads hreads hr
    rw [hrun]
  · obtain ⟨m', d', hrun, h', hp', -⟩ := h.drain
    obtain ⟨array, harray, hd, hy⟩ := h'.array
    have hlast : ∀ l, array l = lastAt (ops.flatMap Request.blocks) l := fun l => by
      rw [← harray, Flat.stagedAt_of_pending_nil hp', Option.none_or]
    refine ⟨m', d', hrun, hp', h'.ready.primary, fun l hl => ?_, fun y hy' => ?_⟩
    · rw [← hlast, hd.data l hl]
    · obtain ⟨y₀, hy₀, hholds⟩ := hy y hy'
      exact ⟨y₀, hy₀, fun l hl => by rw [← hlast, hholds.data l hl]⟩

/-- Two devices of four blocks that may grow to eight; the second loses its third write. -/
def pair : Mirror Digest :=
  Mirror.new ⟨4, fun _ => .zero, some 8, [], []⟩ ⟨4, fun _ => .zero, some 8, [none, none, none, none, some .lost], []⟩

def requests : List (Request Digest) :=
  [.stageOne 1 (.raw 1), .stage [(1, .raw 2), (2, .raw 3)], .readCached 1, .drain, .readCached 1, .reserveStaged 2,
    .stageOne 1 (.raw 4), .writeVerified 3 (.raw 5), .grow 6, .writeVerifiedBatch [(5, .raw 6)], .flush, .stageOne 0 (.raw 7)]

theorem requests_fit : Request.Fits requests pair := by
  refine ⟨?_, ?_, ?_, ?_, ?_, ?_, ?_, ?_, ?_, ?_, ?_, ?_, trivial⟩
  all_goals exact ⟨_, rfl, by decide, by decide⟩

theorem mirror_is_array_requests :
    ((Request.readMany [0, 1, 2, 3, 5]).run.run (Request.after requests pair)).1 = .ok [.raw 7, .raw 4, .raw 3, .raw 5, .raw 6] :=
  (mirror_is_array (show pair.primary = some _ from rfl) rfl rfl rfl requests_fit).1 (.readMany [0, 1, 2, 3, 5]) trivial
    ⟨_, rfl, by decide, by decide⟩
end Mirror
end Manifestus
