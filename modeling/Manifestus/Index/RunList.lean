import Manifestus.Engine.Digest
import Manifestus.Engine.Reap
import Manifestus.Engine.Word
import Manifestus.Index.Runs

/-! Run lists are faithful: what compresses expands to itself over `u64`, what is crafted is refused
before anything is allocated, and moved entries are the only ones that change. -/
set_option linter.unusedSectionVars false

namespace Manifestus
open Prog

variable {H : Type} [Crates H] {len size : Nat}

namespace Word

theorem plus_of_le {x y : Nat} (h : x + y ≤ u64Max) : plus x y = .ok (x + y) := if_pos h

/-- Every run lies in the tract. -/
def Inside (len : Nat) (runs : List (Nat × Nat)) : Prop := ∀ r ∈ runs, r.1 + r.2 ≤ len

theorem pushRun_ok {runs : List (Nat × Nat)} {p : Nat} (hlen : len ≤ u64Max) (hin : Inside len runs)
    (hp : p < len) : pushRun runs p = .ok (Manifestus.pushRun runs p) ∧ Inside len (Manifestus.pushRun runs p) := by
  have hfresh : Inside len (runs ++ [(p, 1)]) := by
    intro r hr
    rcases List.mem_append.mp hr with hr | hr
    · exact hin r hr
    · rw [List.mem_singleton.mp hr]
      exact hp
  unfold pushRun Manifestus.pushRun
  rcases hlast : runs.getLast? with _ | ⟨s, c⟩
  · rw [List.getLast?_eq_none_iff.mp hlast] at hfresh
    exact ⟨rfl, hfresh⟩
  · have hrun : s + c ≤ len := hin _ (List.mem_of_getLast? hlast)
    simp only [plus_of_le (hrun.trans hlen), bind, Except.bind]
    split
    next heq =>
      have hgrown : s + (c + 1) ≤ len := by omega
      rw [plus_of_le (by omega)]
      constructor
      · rfl
      · intro r hr
        rcases List.mem_append.mp hr with hr | hr
        · exact hin r (List.dropLast_subset _ hr)
        · rw [List.mem_singleton.mp hr]
          exact hgrown
    next => exact ⟨rfl, hfresh⟩

theorem compressRunsFrom_ok {ps : List Nat} (hlen : len ≤ u64Max) : ∀ {runs : List (Nat × Nat)},
    Inside len runs → (∀ p ∈ ps, p < len) →
    compressRunsFrom runs ps = .ok (ps.foldl Manifestus.pushRun runs) := by
  induction ps with
  | nil => intro runs _ _; rfl
  | cons p ps ih =>
    intro runs hin hp
    simp only [List.mem_cons, forall_eq_or_imp] at hp
    obtain ⟨hpush, hin'⟩ := pushRun_ok hlen hin hp.1
    rw [compressRunsFrom, hpush]
    exact ih hin' hp.2

/-- No sum overflows when positions of a tract are compressed. -/
theorem compressRuns_ok {ps : List Nat} (hlen : len ≤ u64Max) (hp : ∀ p ∈ ps, p < len) :
    compressRuns ps = .ok (Manifestus.compressRuns ps) :=
  compressRunsFrom_ok hlen (by simp [Inside]) hp

/-- The check goes as over unbounded numbers, or it refuses the runs with an overflow instead, which
a tract below 2^63 blocks rules out. -/
theorem checkRuns_eq (hlen : len ≤ u64Max) : ∀ {runs : List (Nat × Nat)} {total : Nat}, total ≤ len →
    checkRuns len total runs = Manifestus.checkRuns len total runs ∨
      2 ^ 63 ≤ len ∧ (∃ e, Manifestus.checkRuns len total runs = .error e) ∧
        ∃ reason, checkRuns len total runs = .error (.panic reason) := by
  intro runs
  induction runs with
  | nil => intro total _; exact .inl rfl
  | cons r runs ih =>
    intro total htotal
    obtain ⟨s, c⟩ := r
    rw [checkRuns, Manifestus.checkRuns]
    split
    · exact .inl rfl
    next hin =>
      by_cases hfit : total + c ≤ u64Max
      · simp only [plus_of_le hfit, bind, Except.bind]
        split
        · exact .inl rfl
        · exact ih (by omega)
      · right
        constructor
        · unfold u64Max at hfit
          omega
        constructor
        · exact ⟨_, if_pos (by omega)⟩
        · exact ⟨_, by simp only [plus, if_neg hfit, bind, Except.bind]; rfl⟩

theorem pushPositions_ok {s : Nat} : ∀ {js out : List Nat}, (∀ j ∈ js, s + j ≤ u64Max) →
    pushPositions s js out = .ok (out ++ js.map (s + ·)) := by
  intro js
  induction js with
  | nil => intro out _; simp [pushPositions]
  | cons j js ih =>
    intro out hfit
    simp only [List.mem_cons, forall_eq_or_imp] at hfit
    simp [pushPositions, plus_of_le hfit.1, bind, Except.bind, ih hfit.2]

theorem pushRuns_ok : ∀ {runs : List (Nat × Nat)} {out : List Nat}, (∀ p ∈ runPositions runs, p ≤ u64Max) →
    pushRuns runs out = .ok (out ++ runPositions runs) := by
  intro runs
  induction runs with
  | nil => intro out _; simp [pushRuns, runPositions]
  | cons r runs ih =>
    intro out hfit
    obtain ⟨s, c⟩ := r
    rw [runPositions_cons] at hfit ⊢
    simp only [List.mem_append, List.mem_map] at hfit
    have hrun : ∀ j ∈ List.range c, s + j ≤ u64Max := fun j hj => hfit _ (.inl ⟨j, hj, rfl⟩)
    simp only [pushRuns, pushPositions_ok hrun, bind, Except.bind]
    rw [ih fun p hp => hfit p (.inr hp), List.append_assoc]

/-- An expansion over `u64` is the one over unbounded numbers, with one allocation of its length. -/
theorem expandRuns_of_ok {runs : List (Nat × Nat)} {ps : List Nat} (hlen : len ≤ u64Max)
    (h : Manifestus.expandRuns H runs size len = .ok ps) (allocated : List Nat) :
    (expandRuns H runs size len).run allocated = (.ok ps, allocated ++ [ps.length]) := by
  obtain ⟨rfl, hcount, -, hin⟩ := Manifestus.expandRuns_ok h
  have hcheck : checkRuns len 0 runs = .ok (divCeil size (furrowCapacity H)) := by
    unfold Manifestus.expandRuns at h
    split at h
    · cases h
    next total htotal =>
      split at h
      · cases h
      next heq =>
        rw [ne_eq, not_not] at heq
        subst heq
        rcases checkRuns_eq hlen (Nat.zero_le len) with hsame | ⟨-, ⟨e, herr⟩, -⟩
        · rw [hsame, htotal]
        · rw [htotal] at herr
          cases herr
  have hpush := @pushRuns_ok runs [] fun p hp => (hin p hp).le.trans hlen
  rw [List.nil_append] at hpush
  simp [expandRuns, hcheck, withCapacity, hpush, hcount]

/-- An expansion over `u64` that fails has allocated nothing: it fails as over unbounded numbers, or
with an overflow, which a tract below 2^63 blocks rules out. -/
theorem expandRuns_of_error {runs : List (Nat × Nat)} {e : Error} (hlen : len ≤ u64Max)
    (h : Manifestus.expandRuns H runs size len = .error e) (allocated : List Nat) :
    ∃ e', (expandRuns H runs size len).run allocated = (.error e', allocated) ∧
      (e' = e ∨ 2 ^ 63 ≤ len ∧ ∃ reason, e' = .panic reason) := by
  unfold Manifestus.expandRuns at h
  rcases @checkRuns_eq len hlen runs 0 (Nat.zero_le len) with hsame | ⟨hbig, -, reason, hover⟩
  · split at h
    next hcheck =>
      cases h
      exact ⟨e, by simp [expandRuns, hsame, hcheck], .inl rfl⟩
    next total hcheck =>
      split at h
      next hne =>
        cases h
        exact ⟨_, by simp only [expandRuns, hsame, hcheck, bind_run, lift_run, if_pos hne, fail_run], .inl rfl⟩
      · cases h
  · exact ⟨_, by simp [expandRuns, hover], .inr ⟨hbig, reason, rfl⟩⟩

end Word

/-- Each patched entry is the last one given for its index. -/
theorem patchPositions_spec : ∀ {moves : List ((Nat × Nat) × Nat)} {ps : List Nat},
    (∀ x ∈ moves, x.1.2 < ps.length) →
    ∃ patched, Hamt.patchPositions moves ps = .ok patched ∧ patched.length = ps.length ∧
      ∀ i, patched[i]? = if i < ps.length then
        ((moves.reverse.find? fun x => x.1.2 = i).map Prod.snd).or ps[i]? else none := by
  intro moves
  induction moves with
  | nil =>
    intro ps _
    refine ⟨ps, rfl, rfl, ?_⟩
    intro i
    split
    · simp
    next h => exact List.getElem?_eq_none (by omega)
  | cons x moves ih =>
    intro ps hin
    obtain ⟨⟨from_, j⟩, newpos⟩ := x
    simp only [List.mem_cons, forall_eq_or_imp] at hin
    obtain ⟨patched, hrun, hlength, hget⟩ := @ih (ps.set j newpos) (by simpa using hin.2)
    rw [List.length_set] at hlength hget
    refine ⟨patched, by rw [Hamt.patchPositions, if_neg (by omega), hrun], hlength, ?_⟩
    intro i
    rw [hget]
    split
    next hi =>
      rw [List.reverse_cons, List.find?_append, List.getElem?_set]
      generalize moves.reverse.find? (fun x => decide (x.1.2 = i)) = found
      cases found with
      | none =>
        by_cases hji : j = i
        · subst hji
          simp [hi]
        · simp [hji]
      | some y => simp
    · rfl

/-- Run lists are faithful: positions of a tract compress without overflow and expand to themselves;
an untrusted list is refused before anything is allocated or expands to as many positions of the tract as
its size asks for; and positions patched as the reap does compress to runs that expand to them. -/
theorem run_lists_faithful :
    (∀ (ps : List Nat) (size len : Nat) (allocated : List Nat), len ≤ Word.u64Max → (∀ p ∈ ps, p < len) →
      ps.length ≤ len → ps.length = divCeil size (furrowCapacity H) →
      ∃ runs, Word.compressRuns ps = .ok runs ∧
        (Word.expandRuns H runs size len).run allocated = (.ok ps, allocated ++ [ps.length])) ∧
    (∀ (runs : List (Nat × Nat)) (size len : Nat) (allocated : List Nat), len ≤ Word.u64Max →
      (∃ e, (Word.expandRuns H runs size len).run allocated = (.error e, allocated) ∧
        (len < 2 ^ 63 → ∃ reason, e = .corrupt reason)) ∨
      ∃ ps, (Word.expandRuns H runs size len).run allocated = (.ok ps, allocated ++ [ps.length]) ∧
        ps.length = divCeil size (furrowCapacity H) ∧ ps.length ≤ len ∧ ∀ p ∈ ps, p < len) ∧
    ∀ (runs : List (Nat × Nat)) (size len : Nat) (ps : List Nat) (group : List (Nat × Nat))
      (placed allocated : List Nat), len ≤ Word.u64Max →
      (Word.expandRuns H runs size len).run allocated = (.ok ps, allocated ++ [ps.length]) →
      (∀ x ∈ group, x.2 < ps.length) → (∀ p ∈ placed, p < len) →
      ∃ patched runs', Hamt.patchPositions (group.zip placed) ps = .ok patched ∧
        (∀ i, patched[i]? = if i < ps.length then
          (((group.zip placed).reverse.find? fun x => x.1.2 = i).map Prod.snd).or ps[i]? else none) ∧
        Word.compressRuns patched = .ok runs' ∧
        (Word.expandRuns H runs' size len).run allocated = (.ok patched, allocated ++ [patched.length]) := by
  have hround : ∀ (ps : List Nat) (size len : Nat) (allocated : List Nat), len ≤ Word.u64Max →
      (∀ p ∈ ps, p < len) → ps.length ≤ len → ps.length = divCeil size (furrowCapacity H) →
      ∃ runs, Word.compressRuns ps = .ok runs ∧
        (Word.expandRuns H runs size len).run allocated = (.ok ps, allocated ++ [ps.length]) := by
    intro ps size len allocated hlen hin hle hsize
    exact ⟨_, Word.compressRuns_ok hlen hin,
      Word.expandRuns_of_ok hlen (expandRuns_compressRuns hin hle hsize) allocated⟩
  have huntrusted : ∀ (runs : List (Nat × Nat)) (size len : Nat) (allocated : List Nat), len ≤ Word.u64Max →
      (∃ e, (Word.expandRuns H runs size len).run allocated = (.error e, allocated) ∧
        (len < 2 ^ 63 → ∃ reason, e = .corrupt reason)) ∨
      ∃ ps, (Word.expandRuns H runs size len).run allocated = (.ok ps, allocated ++ [ps.length]) ∧
        ps.length = divCeil size (furrowCapacity H) ∧ ps.length ≤ len ∧ ∀ p ∈ ps, p < len := by
    intro runs size len allocated hlen
    rcases hexpand : expandRuns H runs size len with e | ps
    · left
      obtain ⟨e', hrun, hsame⟩ := Word.expandRuns_of_error hlen hexpand allocated
      refine ⟨e', hrun, ?_⟩
      intro hsmall
      rcases hsame with rfl | ⟨hbig, -⟩
      · exact expandRuns_error hexpand
      · omega
    · right
      exact ⟨ps, Word.expandRuns_of_ok hlen hexpand allocated, (expandRuns_ok hexpand).2⟩
  refine ⟨hround, huntrusted, ?_⟩
  intro runs size len ps group placed allocated hlen hrun hgroup hplaced
  rcases huntrusted runs size len allocated hlen with ⟨e, hfailed, -⟩ | ⟨ps', hrun', hcount, hle, hin⟩
  · rw [hfailed] at hrun
    cases hrun
  · obtain rfl : ps' = ps := by
      rw [hrun'] at hrun
      exact Except.ok.inj (congrArg Prod.fst hrun)
    have hmoves : ∀ x ∈ group.zip placed, x.1.2 < ps'.length := fun x hx => hgroup _ (List.of_mem_zip hx).1
    obtain ⟨patched, hpatch, hlength, hget⟩ := patchPositions_spec hmoves
    have hpatched : ∀ p ∈ patched, p < len := by
      intro p hp
      obtain ⟨i, hi, rfl⟩ := List.getElem_of_mem hp
      have hentry := hget i
      rw [List.getElem?_eq_getElem hi, if_pos (hlength ▸ hi)] at hentry
      rcases hfind : (group.zip placed).reverse.find? fun x => decide (x.1.2 = i) with _ | y
      · rw [hfind, Option.map_none, Option.none_or] at hentry
        exact hin _ (List.mem_of_getElem? hentry.symm)
      · rw [hfind, Option.map_some, Option.some_or] at hentry
        rw [Option.some.inj hentry]
        exact hplaced _ (List.of_mem_zip (List.mem_reverse.mp (List.mem_of_find?_eq_some hfind))).2
    obtain ⟨runs', hcompress, hexpand⟩ :=
      hround patched size len allocated hlen hpatched (hlength ▸ hle) (hlength ▸ hcount)
    exact ⟨patched, runs', hpatch, hget, hcompress, hexpand⟩

/-- Three furrows in two runs; a crafted run of 2^40 blocks; and the second furrow moved to 5, where
it joins no run. -/
theorem run_lists_faithful_three :
    (∃ runs, Word.compressRuns [3, 4, 9] = .ok runs ∧ runs = [(3, 2), (9, 1)] ∧
      (Word.expandRuns Digest runs (3 * furrowCapacity Digest) 64).run [] = (.ok [3, 4, 9], [3])) ∧
    (∃ e, (Word.expandRuns Digest [(0, 2 ^ 40)] (2 ^ 40 * furrowCapacity Digest) 64).run [] = (.error e, []) ∧
      ∃ reason, e = .corrupt reason) ∧
    ∃ patched runs, Hamt.patchPositions ([(4, 1)].zip [5]) [3, 4, 9] = .ok patched ∧ patched = [3, 5, 9] ∧
      Word.compressRuns patched = .ok runs ∧ runs = [(3, 1), (5, 1), (9, 1)] ∧
      (Word.expandRuns Digest runs (3 * furrowCapacity Digest) 64).run [] = (.ok patched, [3]) := by
  obtain ⟨hround, huntrusted, hpatch⟩ := run_lists_faithful (H := Digest)
  obtain ⟨runs, hcompress, hexpand⟩ := hround [3, 4, 9] (3 * furrowCapacity Digest) 64 []
    (by decide) (by decide) (by decide) (by decide)
  have hruns : runs = [(3, 2), (9, 1)] := Except.ok.inj (hcompress.symm.trans (by decide))
  constructor
  · exact ⟨runs, hcompress, hruns, hexpand⟩
  constructor
  · rcases huntrusted [(0, 2 ^ 40)] (2 ^ 40 * furrowCapacity Digest) 64 [] (by decide) with h | h
    · obtain ⟨e, hrun, hcorrupt⟩ := h
      exact ⟨e, hrun, hcorrupt (by decide)⟩
    · obtain ⟨ps, -, hcount, hle, -⟩ := h
      rw [hcount] at hle
      exact absurd hle (by decide)
  · subst hruns
    obtain ⟨patched, runs', hmoved, -, hcompress', hexpand'⟩ := hpatch _ _ 64 _ [(4, 1)] [5] []
      (by decide) hexpand (by decide) (by decide)
    have hpatched : patched = [3, 5, 9] := Except.ok.inj (hmoved.symm.trans (by decide))
    subst hpatched
    exact ⟨_, runs', hmoved, rfl, hcompress', Except.ok.inj (hcompress'.symm.trans (by decide)), hexpand'⟩

end Manifestus
