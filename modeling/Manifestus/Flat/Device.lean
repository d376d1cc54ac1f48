import Manifestus.Engine.Mirror

/-! A device without faults is an array: what each operation leaves of it. -/
set_option linter.unusedSectionVars false

namespace Manifestus
open Prog

variable {H : Type} [Crates H] {d : Dev H}

namespace Dev

/-- The device after a write that landed. -/
def landed (d : Dev H) (x : Nat × Block H) : Dev H :=
  { d with data := Function.update d.data x.1 x.2, log := d.log ++ [.write x.1 x.2] }

def flushed (d : Dev H) : Dev H := { d with log := d.log ++ [.flush] }

/-- The device after a whole batch landed, in order. -/
def landedAll (d : Dev H) (blocks : List (Nat × Block H)) : Dev H := blocks.foldl landed d

/-- The device extended to `n` blocks. -/
def grown (d : Dev H) (n : Nat) : Dev H :=
  { d with
    count := n
    data := fun l => if l < d.count then d.data l else .zero
    log := d.log ++ [.grow n] }

@[simp] theorem landed_count (x : Nat × Block H) : (d.landed x).count = d.count := rfl
@[simp] theorem landed_script (x : Nat × Block H) : (d.landed x).script = d.script := rfl
@[simp] theorem landed_limit (x : Nat × Block H) : (d.landed x).limit = d.limit := rfl
@[simp] theorem landed_data (x : Nat × Block H) :
    (d.landed x).data = Function.update d.data x.1 x.2 := rfl
@[simp] theorem flushed_count : d.flushed.count = d.count := rfl
@[simp] theorem flushed_script : d.flushed.script = d.script := rfl
@[simp] theorem flushed_limit : d.flushed.limit = d.limit := rfl
@[simp] theorem flushed_data : d.flushed.data = d.data := rfl

@[simp] theorem landedAll_count (blocks : List (Nat × Block H)) :
    (d.landedAll blocks).count = d.count := by
  induction blocks generalizing d with
  | nil => rfl
  | cons x blocks ih => exact ih

@[simp] theorem landedAll_script (blocks : List (Nat × Block H)) :
    (d.landedAll blocks).script = d.script := by
  induction blocks generalizing d with
  | nil => rfl
  | cons x blocks ih => exact ih

@[simp] theorem landedAll_limit (blocks : List (Nat × Block H)) :
    (d.landedAll blocks).limit = d.limit := by
  induction blocks generalizing d with
  | nil => rfl
  | cons x blocks ih => exact ih

theorem landedAll_log (blocks : List (Nat × Block H)) :
    (d.landedAll blocks).log = d.log ++ blocks.map fun x => .write x.1 x.2 := by
  induction blocks generalizing d with
  | nil => simp [landedAll]
  | cons x blocks ih =>
    rw [landedAll, List.foldl_cons]
    exact ih.trans (by simp [landed])

theorem landedAll_data_of_notMem {blocks : List (Nat × Block H)} {l : Nat}
    (h : l ∉ blocks.map Prod.fst) : (d.landedAll blocks).data l = d.data l := by
  induction blocks generalizing d with
  | nil => rfl
  | cons x blocks ih =>
    simp only [List.map_cons, List.mem_cons, not_or] at h
    rw [landedAll, List.foldl_cons]
    refine (ih h.2).trans ?_
    simp [Function.update_of_ne h.1]

theorem landedAll_data_of_mem {blocks : List (Nat × Block H)} {x : Nat × Block H}
    (hnd : (blocks.map Prod.fst).Nodup) (hx : x ∈ blocks) :
    (d.landedAll blocks).data x.1 = x.2 := by
  induction blocks generalizing d with
  | nil => simp at hx
  | cons y blocks ih =>
    rw [List.map_cons, List.nodup_cons] at hnd
    rw [landedAll, List.foldl_cons]
    rcases List.mem_cons.mp hx with rfl | hx
    · exact (landedAll_data_of_notMem hnd.1).trans (by simp)
    · exact ih hnd.2 hx

theorem inBounds_run {lba : Nat} (h : lba < d.count) : (inBounds lba).run d = (.ok (), d) := by
  simp [inBounds, h]

theorem nextFault_run (h : d.script = []) : nextFault.run d = (.ok none, d) := by
  simp [nextFault, h]

theorem read_run (h : d.script = []) {lba : Nat} (hl : lba < d.count) :
    (read lba).run d = (.ok (d.data lba), d) := by
  simp [read, inBounds_run hl, nextFault_run h]

/-- Past its end a device refuses to read. -/
theorem read_run_of_le {lba : Nat} (hl : d.count ≤ lba) :
    (read lba).run d = (.error (.bounds lba), d) := by
  simp [read, inBounds, Nat.not_lt.mpr hl]

theorem write_run (h : d.script = []) {lba : Nat} (hl : lba < d.count) (b : Block H) :
    (write lba b).run d = (.ok (), d.landed (lba, b)) := by
  simp [write, inBounds_run hl, nextFault_run h, land, landed]

theorem flush_run (h : d.script = []) : flush.run d = (.ok (), d.flushed) := by
  simp [flush, nextFault_run h, flushed]

theorem readRun_run (h : d.script = []) {n : Nat} :
    ∀ {lba : Nat}, lba + n ≤ d.count →
      (readRun lba n).run d = (.ok ((List.range n).map fun i => d.data (lba + i)), d) := by
  induction n with
  | zero => simp [readRun]
  | succ n ih =>
    intro lba hl
    simp only [readRun, bind_run, read_run h (show lba < d.count by omega),
      ih (show lba + 1 + n ≤ d.count by omega), pure_run]
    rw [List.range_succ_eq_map]
    simp [Nat.add_assoc, Nat.add_comm 1]

theorem collect_read_run (h : d.script = []) {lbas : List Nat} (hl : ∀ l ∈ lbas, l < d.count) :
    (readMany lbas).run d = (.ok (lbas.map d.data), d) := by
  unfold readMany
  induction lbas with
  | nil => simp [collect]
  | cons l lbas ih =>
    simp only [List.mem_cons, forall_eq_or_imp] at hl
    simp [collect, read_run h hl.1, ih hl.2]

/-- Whether a grow to `n` is accepted. -/
def Accepts (d : Dev H) (n : Nat) : Prop := ∃ limit, d.limit = some limit ∧ (n ≤ d.count ∨ n ≤ limit)

theorem grow_run (h : d.script = []) {n : Nat} (ha : d.Accepts n) :
    (grow n).run d = (.ok (), if n ≤ d.count then d else d.grown n) := by
  obtain ⟨limit, hlimit, hn⟩ := ha
  by_cases hc : n ≤ d.count
  · simp [grow, hlimit, hc]
  · have hl : ¬ limit < n := by omega
    simp [grow, hlimit, hc, hl, nextFault_run h, grown]

theorem grow_run_of_not {n : Nat} (ha : ¬ d.Accepts n) :
    ∃ e, (grow n).run d = (.error e, d) := by
  rcases hd : d.limit with _ | limit
  · exact ⟨_, by simp [grow, hd]; rfl⟩
  · have hn : ¬ (n ≤ d.count ∨ n ≤ limit) := fun hn => ha ⟨limit, hd, hn⟩
    rw [not_or, not_le, not_le] at hn
    exact ⟨.io, by simp [grow, hd, Nat.not_le.mpr hn.1, hn.2]⟩

end Dev

theorem writeOne_run (h : d.script = []) {lba : Nat} (hl : lba < d.count) (b : Block H) :
    (writeOne lba b).run d = (.ok (), (d.landed (lba, b)).flushed) := by
  simp [writeOne, writeOne.go, Dev.write_run h hl, Dev.flush_run (d := d.landed (lba, b)) h,
    Dev.read_run (d := (d.landed (lba, b)).flushed) h hl]

/-- Positions that follow each other. -/
def Consecutive : List (Nat × Block H) → Prop
  | [] => True
  | [_] => True
  | x :: y :: rest => y.1 = x.1 + 1 ∧ Consecutive (y :: rest)

theorem runsOf_flatten (blocks : List (Nat × Block H)) : (runsOf blocks).flatten = blocks := by
  induction blocks with
  | nil => rfl
  | cons x rest ih =>
    unfold runsOf
    split
    next y run runs heq =>
      rw [heq] at ih
      split <;> simp_all
    next => simp [ih]

theorem runsOf_consecutive (blocks : List (Nat × Block H)) :
    ∀ run ∈ runsOf blocks, Consecutive run := by
  induction blocks with
  | nil => simp [runsOf]
  | cons x rest ih =>
    unfold runsOf
    split
    next y run runs heq =>
      rw [heq] at ih
      simp only [List.mem_cons, forall_eq_or_imp] at ih
      split
      next hxy =>
        simp only [List.mem_cons, forall_eq_or_imp]
        exact ⟨⟨hxy, ih.1⟩, ih.2⟩
      next =>
        simp only [List.mem_cons, forall_eq_or_imp]
        exact ⟨trivial, ih.1, ih.2⟩
    next =>
      simp only [List.mem_cons, forall_eq_or_imp]
      exact ⟨trivial, ih⟩

theorem consecutive_getElem {x : Nat × Block H} {run : List (Nat × Block H)}
    (h : Consecutive (x :: run)) : ∀ i (hi : i < (x :: run).length), (x :: run)[i].1 = x.1 + i := by
  induction run generalizing x with
  | nil =>
    intro i hi
    have : i = 0 := by simpa using hi
    simp [this]
  | cons y run ih =>
    intro i hi
    cases i with
    | zero => rfl
    | succ i =>
      have := ih h.2 i (by simpa using hi)
      rw [List.getElem_cons_succ, this, h.1]
      omega

theorem writeRun_run (h : d.script = []) {run : List (Nat × Block H)} :
    ∀ {x : Nat × Block H}, Consecutive (x :: run) → (∀ y ∈ x :: run, y.1 < d.count) →
      (Dev.writeRun x.1 ((x :: run).map Prod.snd)).run d = (.ok (), d.landedAll (x :: run)) := by
  induction run generalizing d with
  | nil =>
    intro x _ hb
    simp [Dev.writeRun, Dev.write_run h (hb x (by simp)), Dev.landedAll]
  | cons y run ih =>
    intro x hc hb
    have hy : y.1 = x.1 + 1 := hc.1
    have hrest := ih (d := d.landed x) h hc.2 (fun z hz => hb z (List.mem_cons_of_mem _ hz))
    rw [hy] at hrest
    simp only [List.map_cons] at hrest ⊢
    rw [Dev.writeRun, bind_run, Dev.write_run h (hb x (by simp))]
    exact hrest

theorem writeRuns_run (h : d.script = []) {runs : List (List (Nat × Block H))}
    (hc : ∀ run ∈ runs, Consecutive run) (hb : ∀ y ∈ runs.flatten, y.1 < d.count) :
    (writeRuns runs).run d = (.ok (), d.landedAll runs.flatten) := by
  induction runs generalizing d with
  | nil => simp [writeRuns, Dev.landedAll]
  | cons run runs ih =>
    simp only [List.mem_cons, forall_eq_or_imp] at hc
    simp only [List.flatten_cons, List.mem_append] at hb
    cases run with
    | nil => simpa [writeRuns] using ih h hc.2 fun y hy => hb y (.inr hy)
    | cons x run =>
      rw [writeRuns, bind_run, writeRun_run h hc.1 fun y hy => hb y (.inl hy)]
      simp only
      rw [ih (d := d.landedAll (x :: run)) (by simpa using h) hc.2
        (fun y hy => by simpa using hb y (.inr hy))]
      simp [Dev.landedAll]

theorem checkBack_run {pairs : List ((Nat × Block H) × Block H)}
    (h : ∀ p ∈ pairs, p.2 = p.1.2) : (checkBack pairs).run d = (.ok (), d) := by
  induction pairs with
  | nil => simp [checkBack]
  | cons p pairs ih =>
    obtain ⟨⟨lba, buf⟩, got⟩ := p
    simp only [List.mem_cons, forall_eq_or_imp] at h
    obtain ⟨rfl, h⟩ := h
    simp [checkBack, ih h]

theorem verifyRuns_run (h : d.script = []) {runs : List (List (Nat × Block H))}
    (hc : ∀ run ∈ runs, Consecutive run) (hb : ∀ y ∈ runs.flatten, y.1 < d.count)
    (hd : ∀ y ∈ runs.flatten, d.data y.1 = y.2) : (verifyRuns runs).run d = (.ok (), d) := by
  induction runs with
  | nil => simp [verifyRuns]
  | cons run runs ih =>
    simp only [List.mem_cons, forall_eq_or_imp] at hc
    simp only [List.flatten_cons, List.mem_append] at hb hd
    have hrest := ih hc.2 (fun y hy => hb y (.inr hy)) (fun y hy => hd y (.inr hy))
    cases run with
    | nil => simpa [verifyRuns] using hrest
    | cons x run =>
      have hpos := consecutive_getElem hc.1
      have hlast : x.1 + (x :: run).length ≤ d.count := by
        have hl := hb ((x :: run)[run.length]) (.inl (List.getElem_mem _))
        rw [hpos run.length (by simp)] at hl
        simp only [List.length_cons]
        omega
      rw [verifyRuns, bind_run, Dev.readRun_run h hlast]
      simp only [bind_run]
      rw [checkBack_run]
      · exact hrest
      · intro p hp
        obtain ⟨i, hi, rfl⟩ := List.mem_iff_getElem.mp hp
        have hi' : i < (x :: run).length := by
          rw [List.length_zip] at hi
          omega
        rw [List.getElem_zip]
        simp only [List.getElem_map, List.getElem_range]
        rw [← hpos i hi']
        exact hd _ (.inl (List.getElem_mem _))

/-- A batch of distinct positions is written in order, flushed once, and read back equal. -/
theorem writeEach_run (h : d.script = []) {blocks : List (Nat × Block H)}
    (hnd : (blocks.map Prod.fst).Nodup) (hb : ∀ x ∈ blocks, x.1 < d.count) :
    (writeEach blocks).run d = (.ok (), (d.landedAll blocks).flushed) := by
  have hflat := runsOf_flatten blocks
  have hc := runsOf_consecutive blocks
  rw [writeEach, bind_run, writeRuns_run h hc (by rwa [hflat]), hflat]
  simp only [bind_run]
  rw [Dev.flush_run (by simpa using h)]
  refine verifyRuns_run (by simpa using h) hc ?_ ?_
  · rw [hflat]
    simpa using hb
  · rw [hflat]
    intro y hy
    exact Dev.landedAll_data_of_mem hnd hy

end Manifestus
