import Manifestus.Flat.Interleave

/-! A drain that fails. The staging is emptied before the batch is written, so blocks that the primary
did not take are staged no more; which blocks it had read back equal is kept in a record beside it. -/
set_option linter.unusedSectionVars false

namespace Manifestus
open Prog

variable {H : Type} [Crates H] {d d' d'' : Dev H} {m m' : Mirror H}

section Record

variable {α β : Type}

/-- A device with a record of the blocks it read back equal. -/
abbrev Recorded (H : Type) := Dev H × List (Nat × Block H)

/-- `x`, recording nothing. -/
def silent (x : Prog Error (Dev H) α) : Prog Error (Recorded H) α := zoom Prod.fst (fun d s => (d, s.2)) x

/-- `checkBack`, recording what is verified. -/
def checkBackRec : List ((Nat × Block H) × Block H) → Prog Error (Recorded H) Unit
  | [] => pure ()
  | ((lba, buf), got) :: rest => do
    if got ≠ buf then silent (writeOne lba buf)
    update fun s => (s.1, s.2 ++ [(lba, buf)])
    checkBackRec rest

/-- `verifyRuns`, recording what is verified. -/
def verifyRunsRec : List (List (Nat × Block H)) → Prog Error (Recorded H) Unit
  | [] => pure ()
  | [] :: runs => verifyRunsRec runs
  | (x :: run) :: runs => do
    let back ← silent (Dev.readRun x.1 (x :: run).length)
    checkBackRec ((x :: run).zip back)
    verifyRunsRec runs

/-- `writeEach`, recording what is verified. -/
def writeEachRec (blocks : List (Nat × Block H)) : Prog Error (Recorded H) Unit := do
  silent (writeRuns (runsOf blocks))
  silent Dev.flush
  verifyRunsRec (runsOf blocks)

/-- The blocks of a batch that the device reads back equal before it fails, if it fails. -/
def Dev.verified (d : Dev H) (blocks : List (Nat × Block H)) : List (Nat × Block H) :=
  ((writeEachRec blocks).run (d, [])).2.2

/-- `x` does on the device what `y` does. -/
def Records (x : Prog Error (Recorded H) α) (y : Prog Error (Dev H) α) : Prop :=
  ∀ s, ((x.run s).1, (x.run s).2.1) = y.run s.1

theorem records_silent (y : Prog Error (Dev H) α) : Records (silent y) y := fun _ => rfl

theorem records_bind {x : Prog Error (Recorded H) α} {y : Prog Error (Dev H) α}
    {f : α → Prog Error (Recorded H) β} {g : α → Prog Error (Dev H) β} (hx : Records x y)
    (hf : ∀ a, Records (f a) (g a)) : Records (x >>= f) (y >>= g) := by
  intro s
  have h := hx s
  rw [bind_run, bind_run, ← h]
  rcases x.run s with ⟨_ | a, s'⟩
  · rfl
  · exact hf a s'

theorem records_note {f : Recorded H → Recorded H} (hf : ∀ s, (f s).1 = s.1) {x : Prog Error (Recorded H) α}
    {y : Prog Error (Dev H) α} (hx : Records x y) : Records (update f >>= fun _ => x) y := by
  intro s
  have h := hx (f s)
  rw [hf] at h
  exact h

theorem checkBackRec_records (pairs : List ((Nat × Block H) × Block H)) :
    Records (checkBackRec pairs) (checkBack pairs) := by
  induction pairs with
  | nil => exact fun _ => rfl
  | cons p pairs ih =>
    obtain ⟨⟨lba, buf⟩, got⟩ := p
    have hrest := records_note (f := fun s => (s.1, s.2 ++ [(lba, buf)])) (fun _ => rfl) ih
    rw [checkBackRec, checkBack]
    by_cases hsame : got ≠ buf
    · rw [if_pos hsame, if_pos hsame]
      exact records_bind (records_silent _) fun _ => hrest
    · rw [if_neg hsame, if_neg hsame]
      exact hrest

theorem verifyRunsRec_records : ∀ runs : List (List (Nat × Block H)), Records (verifyRunsRec runs) (verifyRuns runs) := by
  intro runs
  induction runs with
  | nil => exact fun _ => rfl
  | cons run runs ih =>
    cases run with
    | nil => exact ih
    | cons x run =>
      apply records_bind (records_silent _)
      intro back
      exact records_bind (checkBackRec_records _) fun _ => ih

/-- The record changes nothing on the device. -/
theorem writeEachRec_records (blocks : List (Nat × Block H)) : Records (writeEachRec blocks) (writeEach blocks) := by
  apply records_bind (records_silent _)
  intro _
  exact records_bind (records_silent _) fun _ => verifyRunsRec_records _

end Record

section Faults

namespace Dev

/-- The next `n` operations show no fault. -/
def Fresh (d : Dev H) (n : Nat) : Prop := ∀ f ∈ d.script.take n, f = none

/-- `n` operations went through. -/
structure Spent (d : Dev H) (n : Nat) (d' : Dev H) : Prop where
  fresh : d.Fresh n
  script : d'.script = d.script.drop n
  count : d'.count = d.count

theorem Fresh.mono {a b : Nat} (h : d.Fresh b) (hle : a ≤ b) : d.Fresh a :=
  fun f hf => h f ((List.take_sublist_take_left hle).subset hf)

theorem Spent.fresh_iff {a b : Nat} (h : d.Spent a d') : d.Fresh (a + b) ↔ d'.Fresh b := by
  unfold Fresh
  rw [h.script, List.take_add]
  constructor
  · intro hall f hf
    exact hall f (List.mem_append_right _ hf)
  · intro hall f hf
    rcases List.mem_append.mp hf with hf | hf
    · exact h.fresh f hf
    · exact hall f hf

theorem Spent.refl (d : Dev H) : d.Spent 0 d := ⟨by simp [Fresh], rfl, rfl⟩

theorem Spent.trans {a b : Nat} (h : d.Spent a d') (h' : d'.Spent b d'') : d.Spent (a + b) d'' where
  fresh := h.fresh_iff.mpr h'.fresh
  script := by rw [h'.script, h.script, List.drop_drop]
  count := h'.count.trans h.count

theorem nextFault_spent (d : Dev H) :
    Sat nextFault d (fun f d' => d'.data = d.data ∧ (f = none → d.Spent 1 d') ∧ (f ≠ none → ¬ d.Fresh 1))
      fun _ _ => False := by
  rcases hs : d.script with _ | ⟨f, rest⟩
  · simp only [Sat, nextFault, hs]
    exact ⟨trivial, fun _ => ⟨by simp [Fresh, hs], by simp [hs], rfl⟩, fun h => absurd rfl h⟩
  · simp only [Sat, nextFault, hs]
    refine ⟨trivial, fun hf => ⟨by simp [Fresh, hs, hf], by simp [hs], rfl⟩, fun hf h => hf ?_⟩
    exact h f (by simp [hs])

/-- A read goes through where the device has the block and shows no fault. -/
theorem read_spent (lba : Nat) (d : Dev H) :
    Sat (read lba) d (fun b d' => b = d.data lba ∧ lba < d.count ∧ d.Spent 1 d' ∧ d'.data = d.data)
      fun _ _ => ¬ (d.Fresh 1 ∧ lba < d.count) := by
  unfold read
  refine sat_bind ((inBounds_sat lba d).mono (fun _ _ h => h) fun _ _ h hs => absurd hs.2 (Nat.not_lt.mpr h)) ?_
  intro _ d₀ h₀
  obtain ⟨rfl, hlt⟩ := h₀
  refine sat_bind ((nextFault_spent _).mono (fun _ _ h => h) fun _ _ h => h.elim) ?_
  intro f d₁ h₁
  obtain ⟨hdata, hspent, hfault⟩ := h₁
  rcases f with _ | f
  · exact sat_state (sat_pure ⟨by rw [hdata], hlt, hspent rfl, hdata⟩)
  · exact sat_fail fun hs => hfault (by simp) hs.1

theorem write_spent (lba : Nat) (b : Block H) (d : Dev H) :
    Sat (write lba b) d (fun _ d' => lba < d.count ∧ d.Spent 1 d' ∧ d'.data = Function.update d.data lba b)
      fun _ _ => ¬ (d.Fresh 1 ∧ lba < d.count) := by
  unfold write
  refine sat_bind ((inBounds_sat lba d).mono (fun _ _ h => h) fun _ _ h hs => absurd hs.2 (Nat.not_lt.mpr h)) ?_
  intro _ d₀ h₀
  obtain ⟨rfl, hlt⟩ := h₀
  refine sat_bind ((nextFault_spent _).mono (fun _ _ h => h) fun _ _ h => h.elim) ?_
  intro f d₁ h₁
  obtain ⟨hdata, hspent, hfault⟩ := h₁
  rcases f with _ | f
  · have h := hspent rfl
    refine ⟨hlt, ⟨h.fresh, h.script, h.count⟩, ?_⟩
    show Function.update d₁.data lba b = _
    rw [hdata]
  · rcases f with _ | _ | id <;> exact fun hs => hfault (by simp) hs.1

theorem flush_spent (d : Dev H) :
    Sat flush d (fun _ d' => d.Spent 1 d' ∧ d'.data = d.data) fun _ _ => ¬ d.Fresh 1 := by
  unfold flush
  refine sat_bind ((nextFault_spent _).mono (fun _ _ h => h) fun _ _ h => h.elim) ?_
  intro f d₁ h₁
  obtain ⟨hdata, hspent, hfault⟩ := h₁
  rcases f with _ | _ | _ | id
  · have h := hspent rfl
    exact ⟨⟨h.fresh, h.script, h.count⟩, hdata⟩
  · exact hfault (by simp)
  · exact hfault (by simp)
  · exact hfault (by simp)

/-- The device has every block of `xs` and shows no fault for `n` operations. -/
def Answers (d : Dev H) (xs : List (Nat × Block H)) (n : Nat) : Prop := d.Fresh n ∧ ∀ x ∈ xs, x.1 < d.count

theorem Answers.left {xs ys : List (Nat × Block H)} {a b : Nat} (h : d.Answers (xs ++ ys) (a + b)) :
    d.Answers xs a :=
  ⟨h.1.mono (Nat.le_add_right a b), fun x hx => h.2 x (List.mem_append_left _ hx)⟩

theorem Answers.right {xs ys : List (Nat × Block H)} {a b : Nat} (h : d.Answers (xs ++ ys) (a + b))
    (hs : d.Spent a d') : d'.Answers ys b := by
  constructor
  · exact hs.fresh_iff.mp h.1
  · intro x hx
    rw [hs.count]
    exact h.2 x (List.mem_append_right _ hx)

theorem writeRun_spent (bs : List (Block H)) : ∀ (lba : Nat) (d : Dev H),
    Sat (writeRun lba bs) d (fun _ d' => d.Spent bs.length d')
      fun _ _ => ¬ d.Answers (bs.mapIdx fun i b => (lba + i, b)) bs.length := by
  induction bs with
  | nil => exact fun lba d => sat_pure (.refl d)
  | cons b bs ih =>
    intro lba d
    have hshift : (b :: bs).mapIdx (fun i b => (lba + i, b)) =
        [(lba, b)] ++ bs.mapIdx fun i b => (lba + 1 + i, b) := by
      simp [List.mapIdx_cons, Nat.add_assoc, Nat.add_comm 1]
    rw [hshift, List.length_cons, Nat.add_comm]
    refine sat_bind ((write_spent lba b d).mono (fun _ _ h => h.2.1) fun _ _ h hs => ?_) ?_
    · exact h ⟨hs.left.1, hs.2 (lba, b) (by simp)⟩
    intro _ d₁ h₁
    exact (ih (lba + 1) d₁).mono (fun _ _ h => h₁.trans h) fun _ _ h hs => h (hs.right h₁)

theorem readRun_spent (n : Nat) : ∀ (lba : Nat) (d : Dev H),
    Sat (readRun lba n) d (fun _ d' => d.Spent n d')
      fun _ _ => ¬ (d.Fresh n ∧ ∀ i < n, lba + i < d.count) := by
  induction n with
  | zero => exact fun lba d => sat_pure (.refl d)
  | succ n ih =>
    intro lba d
    have hsum : n + 1 = 1 + n := Nat.add_comm n 1
    refine sat_bind ((read_spent lba d).mono (fun _ _ h => h.2.2.1) fun _ _ h hs => ?_) ?_
    · exact h ⟨hs.1.mono (by omega), hs.2 0 (by omega)⟩
    intro b d₁ h₁
    refine sat_bind ((ih (lba + 1) d₁).mono (fun _ _ h => h) fun _ _ h hs => ?_) ?_
    · refine h ⟨h₁.fresh_iff.mp (hsum ▸ hs.1), fun i hi => ?_⟩
      have := hs.2 (i + 1) (by omega)
      rw [h₁.count]
      omega
    intro bs d₂ h₂
    exact sat_pure (hsum ▸ h₁.trans h₂)

end Dev

theorem writeRuns_spent {runs : List (List (Nat × Block H))} : (∀ run ∈ runs, Consecutive run) → ∀ d : Dev H,
    Sat (writeRuns runs) d (fun _ d' => d.Spent runs.flatten.length d')
      fun _ _ => ¬ d.Answers runs.flatten runs.flatten.length := by
  induction runs with
  | nil => exact fun _ d => sat_pure (.refl d)
  | cons run runs ih =>
    intro hc d
    simp only [List.mem_cons, forall_eq_or_imp] at hc
    cases run with
    | nil => exact ih hc.2 d
    | cons x run =>
      have hrun := Dev.writeRun_spent ((x :: run).map Prod.snd) x.1 d
      rw [consecutive_mapIdx hc.1, List.length_map] at hrun
      rw [List.flatten_cons, List.length_append]
      refine sat_bind (hrun.mono (fun _ _ h => h) fun _ _ h hs => h hs.left) ?_
      intro _ d₁ h₁
      exact (ih hc.2 d₁).mono (fun _ _ h => h₁.trans h) fun _ _ h hs => h (hs.right h₁)

/-- Blocks read back equal are recorded and nothing else is done. -/
theorem checkBackRec_run {pairs : List ((Nat × Block H) × Block H)} (h : ∀ p ∈ pairs, p.2 = p.1.2) :
    ∀ s : Recorded H, (checkBackRec pairs).run s = (.ok (), (s.1, s.2 ++ pairs.map Prod.fst)) := by
  induction pairs with
  | nil => intro s; simp [checkBackRec]
  | cons p pairs ih =>
    obtain ⟨⟨lba, buf⟩, got⟩ := p
    simp only [List.mem_cons, forall_eq_or_imp] at h
    obtain ⟨rfl, h⟩ := h
    intro s
    simp [checkBackRec, ih h]

/-- What a verification records: all of `xs`, or the part before the block it failed at. -/
def Cut (xs : List (Nat × Block H)) (log log' : List (Nat × Block H)) : Prop :=
  ∃ done rest, xs = done ++ rest ∧ rest ≠ [] ∧ log' = log ++ done

theorem verifyRunsRec_spent {runs : List (List (Nat × Block H))} : (∀ run ∈ runs, Consecutive run) →
    ∀ s : Recorded H, (∀ y ∈ runs.flatten, s.1.data y.1 = y.2) →
    Sat (verifyRunsRec runs) s
      (fun _ s' => s'.2 = s.2 ++ runs.flatten ∧ s.1.Spent runs.flatten.length s'.1)
      fun _ s' => Cut runs.flatten s.2 s'.2 ∧ ¬ s.1.Answers runs.flatten runs.flatten.length := by
  induction runs with
  | nil => exact fun _ s _ => sat_pure ⟨by simp, .refl s.1⟩
  | cons run runs ih =>
    intro hc s hdata
    simp only [List.mem_cons, forall_eq_or_imp] at hc
    cases run with
    | nil => exact ih hc.2 s hdata
    | cons x run =>
      rw [List.flatten_cons] at hdata ⊢
      rw [List.length_append]
      have hpos := consecutive_getElem hc.1
      have hread := ((Dev.readRun_sat (x :: run).length x.1 s.1).and (Dev.readRun_spent (x :: run).length x.1 s.1))
      have hsilent : Sat (silent (Dev.readRun x.1 (x :: run).length)) s
          (fun back s' => back = (List.range (x :: run).length).map (fun i => s.1.data (x.1 + i)) ∧
            s'.2 = s.2 ∧ s'.1.data = s.1.data ∧ s.1.Spent (x :: run).length s'.1)
          fun _ s' => s'.2 = s.2 ∧ ¬ s.1.Answers (x :: run) (x :: run).length := by
        unfold Sat silent at *
        rw [zoom_run]
        rcases hr : (Dev.readRun x.1 (x :: run).length).run s.1 with ⟨_ | back, d'⟩
        · rw [hr] at hread
          refine ⟨rfl, fun hs => hread.2 ⟨hs.1, fun i hi => ?_⟩⟩
          rw [← hpos i hi]
          exact hs.2 _ (List.getElem_mem _)
        · rw [hr] at hread
          exact ⟨hread.1.1, rfl, hread.1.2.2.data, hread.2⟩
      refine sat_bind (hsilent.mono (fun _ _ h => h) fun _ s' h => ⟨?_, fun hs => h.2 hs.left⟩) ?_
      · exact ⟨[], _, rfl, by simp, by rw [h.1, List.append_nil]⟩
      intro back s₁ h₁
      obtain ⟨rfl, hlog, hsame, hspent⟩ := h₁
      have hback : ∀ p ∈ (x :: run).zip ((List.range (x :: run).length).map fun i => s.1.data (x.1 + i)),
          p.2 = p.1.2 := by
        intro p hp
        obtain ⟨i, hi, rfl⟩ := List.mem_iff_getElem.mp hp
        have hi' : i < (x :: run).length := by
          rw [List.length_zip] at hi
          omega
        rw [List.getElem_zip, List.getElem_map, List.getElem_range, ← hpos i hi']
        exact hdata _ (List.mem_append_left _ (List.getElem_mem _))
      refine sat_run (checkBackRec_run hback s₁) ?_
      rw [List.map_fst_zip (by simp), hlog]
      have hrest := ih hc.2 (s₁.1, s.2 ++ (x :: run)) fun y hy => by
        rw [hsame]
        exact hdata y (List.mem_append_right _ hy)
      refine hrest.mono (fun _ s' h => ⟨?_, hspent.trans h.2⟩) fun _ s' h => ⟨?_, fun hs => h.2 (hs.right hspent)⟩
      · rw [h.1, List.append_assoc]
      · obtain ⟨done, rest, hcut, hne, hlog'⟩ := h.1
        exact ⟨(x :: run) ++ done, rest, by rw [hcut, List.append_assoc], hne, by rw [hlog', List.append_assoc]⟩

/-- A batch of distinct positions goes through exactly where the device has them and shows no fault in
as many writes, a flush and as many reads; then all of it is verified, and not all of it otherwise. -/
theorem writeEachRec_spent {blocks : List (Nat × Block H)} (hnd : (blocks.map Prod.fst).Nodup) (d : Dev H) :
    Sat (writeEachRec blocks) (d, [])
      (fun _ s' => s'.2 = blocks ∧ d.Answers blocks (2 * blocks.length + 1))
      fun _ s' => (blocks ≠ [] → Cut blocks [] s'.2) ∧ ¬ d.Answers blocks (2 * blocks.length + 1) := by
  have hc := runsOf_consecutive blocks
  have hwrite := (writeRuns_sat hc d).and (writeRuns_spent hc d)
  rw [runsOf_flatten] at hwrite
  have hnone : blocks ≠ [] → Cut blocks [] [] := fun hne => ⟨[], blocks, rfl, hne, rfl⟩
  have hsum : 2 * blocks.length + 1 = blocks.length + (1 + blocks.length) := by omega
  rw [hsum]
  have hfirst : Sat (silent (writeRuns (runsOf blocks))) (d, ([] : List (Nat × Block H)))
      (fun _ s' => s'.2 = [] ∧ d.Wrote blocks s'.1 ∧ d.Spent blocks.length s'.1)
      fun _ s' => s'.2 = [] ∧ ¬ d.Answers blocks blocks.length := by
    unfold Sat silent at *
    rw [zoom_run]
    rcases hr : (writeRuns (runsOf blocks)).run d with ⟨_ | _, d'⟩ <;> rw [hr] at hwrite
    · exact ⟨rfl, hwrite.2⟩
    · exact ⟨rfl, hwrite⟩
  refine sat_bind (hfirst.mono (fun _ _ h => h) fun _ s' h => ⟨fun hne => by rw [h.1]; exact hnone hne, fun hs => ?_⟩) ?_
  · exact h.2 ⟨hs.1.mono (by omega), hs.2⟩
  intro _ s₁ h₁
  obtain ⟨hlog₁, hwrote, hspent₁⟩ := h₁
  have hflush := Dev.flush_spent s₁.1
  have hsecond : Sat (silent Dev.flush) s₁ (fun _ s' => s'.2 = [] ∧ s₁.1.Spent 1 s'.1 ∧ s'.1.data = s₁.1.data)
      fun _ s' => s'.2 = [] ∧ ¬ s₁.1.Fresh 1 := by
    unfold Sat silent at *
    rw [zoom_run]
    rcases hr : Dev.flush.run s₁.1 with ⟨_ | _, d'⟩ <;> rw [hr] at hflush
    · exact ⟨hlog₁, hflush⟩
    · exact ⟨hlog₁, hflush⟩
  refine sat_bind (hsecond.mono (fun _ _ h => h) fun _ s' h => ⟨fun hne => by rw [h.1]; exact hnone hne, fun hs => ?_⟩) ?_
  · exact h.2 ((hspent₁.fresh_iff.mp hs.1).mono (by omega))
  intro _ s₂ h₂
  obtain ⟨hlog₂, hspent₂, hdata₂⟩ := h₂
  have hspent := hspent₁.trans hspent₂
  have hverify := verifyRunsRec_spent hc s₂ fun y hy => by
    rw [runsOf_flatten] at hy
    rw [hdata₂, hwrote.data]
    exact Dev.landedAll_data_of_mem hnd hy
  rw [runsOf_flatten, hlog₂] at hverify
  refine hverify.mono (fun _ s' h => ⟨h.1, ?_⟩) fun _ s' h => ⟨fun _ => h.1, fun hs => h.2 ?_⟩
  · exact ⟨by rw [← Nat.add_assoc]; exact hspent.fresh_iff.mpr h.2.fresh, hwrote.inside⟩
  · rw [← Nat.add_assoc] at hs
    exact ⟨hspent.fresh_iff.mp hs.1, fun x hx => by rw [hspent.count]; exact hs.2 x hx⟩

/-- A batch of distinct positions is written where the primary answers it, and then all of it is
verified; otherwise a block of it is not. -/
theorem writeEach_outcome {blocks : List (Nat × Block H)} (hnd : (blocks.map Prod.fst).Nodup) (d : Dev H) :
    (((writeEach blocks).run d).1 = .ok () ∧ d.Answers blocks (2 * blocks.length + 1) ∧ d.verified blocks = blocks) ∨
    ∃ e, ((writeEach blocks).run d).1 = .error e ∧ ¬ d.Answers blocks (2 * blocks.length + 1) ∧
      (blocks ≠ [] → ∃ x ∈ blocks, x ∉ d.verified blocks) := by
  have hspent := writeEachRec_spent hnd d
  have hsame := writeEachRec_records blocks (d, [])
  unfold Dev.verified
  unfold Sat at hspent
  rcases hr : (writeEachRec blocks).run (d, []) with ⟨e | ⟨⟩, s'⟩
  · rw [hr] at hspent hsame
    refine .inr ⟨e, by rw [← hsame], hspent.2, ?_⟩
    intro hne
    obtain ⟨done, rest, hcut, hrest, hlog⟩ := hspent.1 hne
    obtain ⟨x, rest, rfl⟩ := List.exists_cons_of_ne_nil hrest
    refine ⟨x, by rw [hcut]; simp, ?_⟩
    -- positions are distinct, so the block that failed is not one of those before it
    intro hx
    rw [hlog, List.nil_append] at hx
    rw [hcut, List.map_append, List.map_cons] at hnd
    exact (List.nodup_append.mp hnd).2.2 _ (List.mem_map_of_mem hx) _ List.mem_cons_self rfl
  · rw [hr] at hspent hsame
    exact .inl ⟨by rw [← hsame], hspent.2, hspent.1⟩

end Faults

namespace Mirror

/-- A batch goes through where it does on the primary; nothing is staged anew. -/
theorem writeVerifiedBatchNow_outcome {p : Dev H} (hp : m.primary = some p) (blocks : List (Nat × Block H)) :
    ∃ m', (writeVerifiedBatchNow blocks).run m = (((writeEach blocks).run p).1, m') ∧ m'.pending = m.pending := by
  obtain ⟨ha₁, hb₁, hpend₁, -⟩ := foldl_forget_fields blocks m
  simp only [writeVerifiedBatchNow, bind_run, update_run, state_run]
  generalize blocks.foldl (fun m x => m.forget x.1) m = m₁ at *
  have hp₁ : m₁.primary = some p := by
    rw [primary, ha₁, hb₁]
    exact hp
  rcases hw : (writeEach blocks).run p with ⟨r, p'⟩
  split
  next hboth =>
    obtain ⟨a, ha⟩ := Option.isSome_iff_exists.mp hboth.1
    obtain ⟨b, hb⟩ := Option.isSome_iff_exists.mp hboth.2.1
    obtain rfl : a = p := by simpa [primary, ha] using hp₁
    rcases hx : (writeEach blocks).run b with ⟨rb, b'⟩
    rcases r with e | ⟨⟩
    · exact ⟨{ m₁ with a := some p', b := some b' }.mark, by simp [onBoth_run ha hb hw hx], hpend₁⟩
    · rcases rb with e | ⟨⟩
      · exact ⟨{ { m₁ with a := some p', b := some b' }.mark with
            b := none, dropped := some b', degraded := true
            events := m₁.events ++ [.mirrorDegraded] },
          by simp [onBoth_run ha hb hw hx, dropB, mark], hpend₁⟩
      · exact ⟨{ m₁ with a := some p', b := some b' }.mark, by simp [onBoth_run ha hb hw hx], hpend₁⟩
  · rcases r with e | ⟨⟩
    · obtain ⟨m', hrun, -, hsame⟩ := everywhere_run_error hp₁ hw
      exact ⟨m', hrun, hsame.1.trans hpend₁⟩
    · obtain ⟨m', hrun, -, hsame⟩ := everywhere_run hp₁ hw
      exact ⟨m', hrun, hsame.1.trans hpend₁⟩

/-- A drain goes through where its batch does on the primary, and leaves nothing staged either way. -/
theorem drain_outcome {p : Dev H} (hp : m.primary = some p) (hpend : m.pending ≠ []) :
    ∃ m', drain.run m = (((writeEach m.refs).run p).1, m') ∧ m'.pending = [] := by
  obtain ⟨m', hrun, hp'⟩ := writeVerifiedBatchNow_outcome (m := { m with pending := [] }) hp m.refs
  exact ⟨m', by simp [drain, hpend, hrun], hp'⟩

/-- One failed drain after another. -/
inductive Retried : Mirror H → Mirror H → Prop
  | refl (m : Mirror H) : Retried m m
  | step {m m₁ m' : Mirror H} {e : Error} : drain.run m = (.error e, m₁) → Retried m₁ m' → Retried m m'

/-- A staged block is not lost: reads show it, the next drain that goes through verifies it on the
primary, and a write whose drain fails writes nothing of its own. -/
structure Kept (m : Mirror H) (l : Nat) (b : Block H) : Prop where
  shown : ((read l).run m).1 = .ok b
  drained : ∀ m₁ m₂, Retried m m₁ → drain.run m₁ = (.ok (), m₂) →
    ∃ p, m₁.primary = some p ∧ (l, b) ∈ p.verified m₁.refs
  ordered : ∀ m₁ m₂ e, Retried m m₁ → drain.run m₁ = (.error e, m₂) →
    ∀ lba buf, (writeVerified lba buf).run m₁ = (.error e, m₂)

theorem verified_nil (p : Dev H) : p.verified [] = [] := by
  unfold Dev.verified
  simp only [writeEachRec, runsOf, writeRuns, verifyRunsRec, silent, bind_run, zoom_run, pure_run]
  rcases Dev.flush.run p with ⟨_ | _, p'⟩ <;> rfl

/-- Nothing is kept where nothing is staged: the next drain writes nothing. -/
theorem not_kept_of_pending_nil (h : m.pending = []) (l : Nat) (b : Block H) : ¬ m.Kept l b := by
  intro hkept
  obtain ⟨p, -, hmem⟩ := hkept.drained m m (.refl m) (by simp [drain, h])
  have hrefs : m.refs = [] := by simp [refs, staged, h, dedupLast]
  rw [hrefs, verified_nil] at hmem
  exact absurd hmem (by simp)

/-- A request that starts with a drain. -/
def Request.Drains : Request H → Prop
  | .drain | .writeVerified _ _ | .writeVerifiedBatch _ | .flush | .grow _ => True
  | _ => False

/-- Where the drain fails, the request has failed with it. -/
theorem Request.run_of_drain_error {op : Request H} (hop : op.Drains) {e : Error}
    (h : Mirror.drain.run m = (.error e, m')) : op.run.run m = (.error e, m') := by
  cases op with
  | drain => simp [Request.run, h]
  | writeVerified lba b => simp [Request.run, Mirror.writeVerified, h]
  | writeVerifiedBatch blocks => simp [Request.run, Mirror.writeVerifiedBatch, h]
  | flush => simp [Request.run, Mirror.flush, h]
  | grow n => simp [Request.run, Mirror.grow, h]
  | _ => exact absurd hop id

theorem stagedAt_of_staged_nil (h : m.staged = []) (l : Nat) : m.stagedAt l = none := by simp [stagedAt, h]

theorem refs_ne_nil (h : m.staged ≠ []) : m.refs ≠ [] := by
  obtain ⟨x, hx⟩ := List.exists_mem_of_ne_nil _ h
  intro hnil
  have hnone : m.stagedAt x.1 = none := by
    by_contra hsome
    obtain ⟨b, hb⟩ := Option.ne_none_iff_exists'.mp hsome
    have hmem : (x.1, b) ∈ m.refs := mem_refs.mpr hb
    rw [hnil] at hmem
    exact absurd hmem (by simp)
  exact stagedAt_eq_none.mp hnone x hx rfl

end Mirror

/-- A block is staged and the primary shows a fault after `n` operations. -/
def stagedOne (n : Nat) : Mirror Digest :=
  (Mirror.new ⟨4, fun _ => .zero, none, List.replicate n none ++ [some .lost], []⟩ ⟨4, fun _ => .zero, none, [], []⟩).stage
    [(2, sealBlock (.lone 5 [1]))]

end Manifestus
