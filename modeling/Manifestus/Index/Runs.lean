import Manifestus.Engine.Doc

/-! Run lists and the furrow blocks they name. -/
set_option linter.unusedSectionVars false

namespace Manifestus

variable {H : Type} [Crates H]

theorem runPositions_append (xs ys : List (Nat × Nat)) :
    runPositions (xs ++ ys) = runPositions xs ++ runPositions ys := by
  simp [runPositions]

theorem runPositions_cons (r : Nat × Nat) (rs : List (Nat × Nat)) :
    runPositions (r :: rs) = (List.range r.2).map (r.1 + ·) ++ runPositions rs := by
  simp [runPositions]

theorem checkRuns_ok {len : Nat} {runs : List (Nat × Nat)} :
    ∀ {total t : Nat}, total ≤ len → checkRuns len total runs = .ok t →
      t = total + (runPositions runs).length ∧ t ≤ len ∧ ∀ p ∈ runPositions runs, p < len := by
  induction runs with
  | nil =>
    intro total t hle h
    simp only [checkRuns, Except.ok.injEq] at h
    subst h
    simp [runPositions, hle]
  | cons r runs ih =>
    intro total t hle h
    obtain ⟨s, c⟩ := r
    simp only [checkRuns] at h
    split at h
    · cases h
    next hin =>
      split at h
      · cases h
      next htotal =>
        obtain ⟨ht, htle, hp⟩ := ih (by omega) h
        rw [runPositions_cons]
        refine ⟨by simp; omega, htle, ?_⟩
        intro p hmem
        rcases List.mem_append.mp hmem with hmem | hmem
        · obtain ⟨j, hj, rfl⟩ := List.mem_map.mp hmem
          have := List.mem_range.mp hj
          simp only at this ⊢
          omega
        · exact hp p hmem

theorem checkRuns_of_bounds {len : Nat} {runs : List (Nat × Nat)} :
    ∀ {total : Nat}, (∀ r ∈ runs, r.1 < len ∧ r.1 + r.2 ≤ len) →
      total + (runPositions runs).length ≤ len →
      checkRuns len total runs = .ok (total + (runPositions runs).length) := by
  induction runs with
  | nil => intro total _ _; simp [checkRuns, runPositions]
  | cons r runs ih =>
    intro total hin hle
    obtain ⟨s, c⟩ := r
    simp only [List.mem_cons, forall_eq_or_imp] at hin
    rw [runPositions_cons] at hle ⊢
    simp only [List.length_append, List.length_map, List.length_range] at hle ⊢
    rw [checkRuns, if_neg (by omega), if_neg (by omega), ih hin.2 (by omega)]
    congr 1
    omega

theorem expandRuns_ok {len size : Nat} {runs : List (Nat × Nat)} {ps : List Nat}
    (h : expandRuns H runs size len = .ok ps) :
    ps = runPositions runs ∧ ps.length = divCeil size (furrowCapacity H) ∧ ps.length ≤ len ∧
      ∀ p ∈ ps, p < len := by
  unfold expandRuns at h
  split at h
  · cases h
  next total htotal =>
    obtain ⟨ht, hle, hp⟩ := checkRuns_ok (Nat.zero_le _) htotal
    split at h
    · cases h
    next heq =>
      simp only [Except.ok.injEq] at h
      subst h
      rw [ne_eq, not_not] at heq
      exact ⟨rfl, by omega, by omega, hp⟩

theorem checkRuns_mono {len len' : Nat} (hlen : len ≤ len') {runs : List (Nat × Nat)} :
    ∀ {total t : Nat}, checkRuns len total runs = .ok t → checkRuns len' total runs = .ok t := by
  induction runs with
  | nil => intro total t h; exact h
  | cons r runs ih =>
    intro total t h
    obtain ⟨s, c⟩ := r
    simp only [checkRuns] at h ⊢
    split at h
    · cases h
    · split at h
      · cases h
      · rw [if_neg (by omega), if_neg (by omega)]
        exact ih h

theorem checkRuns_error {len : Nat} : ∀ {runs : List (Nat × Nat)} {start : Nat} {e : Error},
    checkRuns len start runs = .error e → ∃ reason, e = .corrupt reason := by
  intro runs
  induction runs with
  | nil => intro start e h; cases h
  | cons r runs ih =>
    intro start e h
    rw [checkRuns] at h
    split at h
    · cases h
      exact ⟨_, rfl⟩
    · split at h
      · cases h
        exact ⟨_, rfl⟩
      · exact ih h

/-- Runs are refused as corrupt. -/
theorem expandRuns_error {len size : Nat} {runs : List (Nat × Nat)} {e : Error}
    (h : expandRuns H runs size len = .error e) : ∃ reason, e = .corrupt reason := by
  unfold expandRuns at h
  split at h
  next hcheck =>
    cases h
    exact checkRuns_error hcheck
  · split at h
    · cases h
      exact ⟨_, rfl⟩
    · cases h

/-- A larger tract expands the same runs. -/
theorem expandRuns_mono {len len' size : Nat} (hlen : len ≤ len') {runs : List (Nat × Nat)}
    {ps : List Nat} (h : expandRuns H runs size len = .ok ps) : expandRuns H runs size len' = .ok ps := by
  unfold expandRuns at h ⊢
  split at h
  · cases h
  next total htotal =>
    rw [checkRuns_mono hlen htotal]
    exact h

theorem runPositions_pushRun (runs : List (Nat × Nat)) (p : Nat) :
    runPositions (pushRun runs p) = runPositions runs ++ [p] := by
  unfold pushRun
  split
  next s c hlast =>
    have hsplit : runs = runs.dropLast ++ [(s, c)] := (List.dropLast_append_getLast? _ hlast).symm
    split
    next heq =>
      conv_rhs => rw [hsplit]
      simp [runPositions, List.range_succ, heq]
    · simp [runPositions]
  next hnone =>
    rw [List.getLast?_eq_none_iff] at hnone
    simp [hnone, runPositions]

theorem runPositions_foldl (ps : List Nat) (runs : List (Nat × Nat)) :
    runPositions (ps.foldl pushRun runs) = runPositions runs ++ ps := by
  induction ps generalizing runs with
  | nil => simp
  | cons p ps ih => rw [List.foldl_cons, ih, runPositions_pushRun, List.append_assoc]; rfl

theorem pushRun_pos {runs : List (Nat × Nat)} (h : ∀ r ∈ runs, 0 < r.2) (p : Nat) :
    ∀ r ∈ pushRun runs p, 0 < r.2 := by
  unfold pushRun
  split
  next s c hlast =>
    split
    · intro r hr
      rcases List.mem_append.mp hr with hr | hr
      · exact h r (List.dropLast_subset _ hr)
      · rw [List.mem_singleton.mp hr]
        exact Nat.succ_pos c
    · intro r hr
      rcases List.mem_append.mp hr with hr | hr
      · exact h r hr
      · rw [List.mem_singleton.mp hr]
        exact Nat.one_pos
  next =>
    intro r hr
    rw [List.mem_singleton.mp hr]
    exact Nat.one_pos

theorem compressRuns_pos (ps : List Nat) : ∀ r ∈ compressRuns ps, 0 < r.2 := by
  have : ∀ runs : List (Nat × Nat), (∀ r ∈ runs, 0 < r.2) → ∀ r ∈ ps.foldl pushRun runs, 0 < r.2 := by
    induction ps with
    | nil => exact fun runs h => h
    | cons p ps ih => exact fun runs h => ih _ (pushRun_pos h p)
  exact this [] (by simp)

/-- Positions that go on where the last run ends start no run. -/
theorem length_foldl_pushRun_extend (n : Nat) : ∀ {runs : List (Nat × Nat)} {s c : Nat}, runs.getLast? = some (s, c) →
    ((List.range' (s + c) n).foldl pushRun runs).length = runs.length := by
  induction n with
  | zero => intro runs s c _; rfl
  | succ n ih =>
    intro runs s c hlast
    have hpush : pushRun runs (s + c) = runs.dropLast ++ [(s, c + 1)] := by
      unfold pushRun
      rw [hlast]
      simp
    have hlen : (runs.dropLast ++ [(s, c + 1)]).length = runs.length := by
      have : 0 < runs.length := List.length_pos_iff.mpr fun hnil => by simp [hnil] at hlast
      rw [List.length_append, List.length_dropLast, List.length_singleton]
      omega
    rw [List.range'_succ, List.foldl_cons, hpush, show s + c + 1 = s + (c + 1) by omega, ih (by simp), hlen]

/-- The last run ends at the position pushed last. -/
theorem pushRun_last (runs : List (Nat × Nat)) (p : Nat) : ∃ s c, (pushRun runs p).getLast? = some (s, c) ∧
    s + c = p + 1 ∧ (pushRun runs p).length ≤ runs.length + 1 := by
  unfold pushRun
  split
  next s c hlast =>
    split
    next heq => exact ⟨s, c + 1, by simp, by omega, by simp⟩
    · exact ⟨p, 1, by simp, rfl, by simp⟩
  next => exact ⟨p, 1, by simp, rfl, by simp⟩

theorem length_foldl_pushRun_range (runs : List (Nat × Nat)) (p n : Nat) :
    ((List.range' p n).foldl pushRun runs).length ≤ runs.length + 1 := by
  cases n with
  | zero => simp
  | succ n =>
    obtain ⟨s, c, hlast, hend, hlen⟩ := pushRun_last runs p
    rw [List.range'_succ, List.foldl_cons, ← hend, length_foldl_pushRun_extend n hlast]
    exact hlen

/-- Positions around a lap make two runs at most. -/
theorem length_compressRuns_lap {a len n : Nat} (hlen : 0 < len) (hn : n ≤ len) :
    (compressRuns ((List.range n).map fun i => (a + i) % len)).length ≤ 2 := by
  obtain ⟨k, hk⟩ : ∃ k, k = min n (len - a % len) := ⟨_, rfl⟩
  have hlt : a % len < len := Nat.mod_lt a hlen
  have hsplit : (List.range n).map (fun i => (a + i) % len) = List.range' (a % len) k ++ List.range' 0 (n - k) := by
    refine List.ext_getElem (by simp; omega) fun i hi hi' => ?_
    rw [List.length_map, List.length_range] at hi
    rw [List.getElem_map, List.getElem_range, ← Nat.mod_add_mod, List.getElem_append]
    split
    next hik =>
      rw [List.length_range'] at hik
      rw [List.getElem_range', Nat.mod_eq_of_lt (by omega)]
      omega
    next hik =>
      rw [List.length_range'] at hik
      rw [List.getElem_range', Nat.mod_eq_sub_mod (by omega), Nat.mod_eq_of_lt (by omega)]
      simp only [List.length_range']
      omega
  rw [compressRuns, hsplit, List.foldl_append]
  have hfirst := length_foldl_pushRun_range [] (a % len) k
  have hsecond := length_foldl_pushRun_range ((List.range' (a % len) k).foldl pushRun []) 0 (n - k)
  simp only [List.length_nil] at hfirst
  omega

/-- Compressing a position list and expanding it again gives the list. -/
theorem expandRuns_compressRuns {ps : List Nat} {size len : Nat} (hlt : ∀ p ∈ ps, p < len)
    (hle : ps.length ≤ len) (hsize : ps.length = divCeil size (furrowCapacity H)) :
    expandRuns H (compressRuns ps) size len = .ok ps := by
  have hpos : runPositions (compressRuns ps) = ps := by
    have h := runPositions_foldl ps []
    simpa [compressRuns, runPositions] using h
  have hin : ∀ r ∈ compressRuns ps, r.1 < len ∧ r.1 + r.2 ≤ len := by
    intro r hr
    have hr2 := compressRuns_pos ps r hr
    have hmem : ∀ j < r.2, r.1 + j ∈ ps := by
      intro j hj
      rw [← hpos]
      exact List.mem_flatMap.mpr ⟨r, hr, List.mem_map.mpr ⟨j, List.mem_range.mpr hj, rfl⟩⟩
    have h₁ := hlt _ (hmem 0 hr2)
    have h₂ := hlt _ (hmem (r.2 - 1) (by omega))
    omega
  unfold expandRuns
  rw [checkRuns_of_bounds hin (by rw [hpos]; omega)]
  simp [hpos, hsize]

theorem payloads_append {key : Key} (xs ys : List (Block H)) :
    ∀ index, payloads key index (xs ++ ys) =
      match payloads key index xs with
      | .error e => .error e
      | .ok a =>
        match payloads key (index + xs.length) ys with
        | .error e => .error e
        | .ok b => .ok (a ++ b) := by
  induction xs with
  | nil =>
    intro index
    simp only [List.nil_append, payloads, List.length_nil, Nat.add_zero]
    split <;> simp_all
  | cons x xs ih =>
    intro index
    simp only [List.cons_append, payloads, ih]
    rcases furrowPayload key index x with e | a
    · rfl
    · simp only [List.length_cons, Nat.add_assoc, Nat.add_comm 1]
      rcases payloads key (index + 1) xs with e | b
      · rfl
      · simp only
        rcases payloads key (index + (xs.length + 1)) ys with e | c
        · rfl
        · simp

theorem furrowPayload_ok {key : Key} {index : Nat} {b : Block H} {payload : Bytes}
    (h : furrowPayload key index b = .ok payload) :
    ∃ extra, b = .sealed (.furrow key index payload) extra := by
  unfold furrowPayload at h
  split at h
  · cases h
  · unfold decodeDoc at h
    rcases b with _ | ⟨doc, extra⟩ | id
    · simp at h
    · rcases doc with _ | _ | ⟨depth, _, _⟩ | _ | _ | _ | ⟨k, i, p⟩ | _ <;> simp only at h
      · cases h
      · cases h
      · split at h
        · cases h
        next hdoc =>
          split at hdoc <;> cases hdoc
        · cases h
      · cases h
      · cases h
      · cases h
      · split at h
        · cases h
        next hne =>
          rw [not_or, ne_eq, not_not, ne_eq, not_not] at hne
          cases h
          exact ⟨extra, by rw [hne.1, hne.2]⟩
      · cases h
    · simp at h

theorem furrowPayload_furrow {key : Key} {index : Nat} {payload : Bytes} {extra : Nat} :
    furrowPayload (H := H) key index (.sealed (.furrow key index payload) extra) = .ok payload := by
  simp [furrowPayload, sealedHp, decodeDoc]

/-- The blocks of a value that reads are furrows of its key in order. -/
theorem payloads_ok {key : Key} {bufs : List (Block H)} :
    ∀ {index : Nat} {value : Bytes}, payloads key index bufs = .ok value →
      ∀ j (hj : j < bufs.length), ∃ payload extra, bufs[j] = .sealed (.furrow key (index + j) payload) extra := by
  induction bufs with
  | nil => intro index value _ j hj; simp at hj
  | cons b bufs ih =>
    intro index value h j hj
    simp only [payloads] at h
    split at h
    · cases h
    next payload hp =>
      split at h
      · cases h
      next rest hrest =>
        cases j with
        | zero =>
          obtain ⟨extra, rfl⟩ := furrowPayload_ok hp
          exact ⟨payload, extra, rfl⟩
        | succ j =>
          obtain ⟨p, x, hb⟩ := ih hrest j (by simpa using hj)
          exact ⟨p, x, by rw [List.getElem_cons_succ, hb]; congr 2; omega⟩

theorem payloads_furrows {key : Key} (pieces : List Bytes) :
    ∀ index, payloads (H := H) key index
        (pieces.zipIdx.map fun x => encodeFurrow key (index + x.2) x.1) = .ok pieces.flatten := by
  induction pieces with
  | nil => intro index; rfl
  | cons piece pieces ih =>
    intro index
    have hshift : (pieces.zipIdx 1).map (fun x => encodeFurrow (H := H) key (index + x.2) x.1) =
        pieces.zipIdx.map fun x => encodeFurrow key (index + 1 + x.2) x.1 := by
      rw [show (1 : Nat) = 0 + 1 by rfl, List.zipIdx_succ]
      simp [Function.comp_def, Nat.add_assoc, Nat.add_comm 1]
    rw [List.zipIdx_cons, List.map_cons, Nat.zero_add, hshift, payloads, ih]
    simp [encodeFurrow, sealBlock, furrowPayload_furrow]

theorem payloads_append_ok {key : Key} {xs ys : List (Block H)} {index : Nat} {value : Bytes}
    (h : payloads key index (xs ++ ys) = .ok value) :
    ∃ a b, payloads key index xs = .ok a ∧ payloads key (index + xs.length) ys = .ok b ∧ value = a ++ b := by
  rw [payloads_append] at h
  split at h
  · cases h
  next a ha =>
    split at h
    · cases h
    next b hb =>
      cases h
      exact ⟨a, b, ha, hb, rfl⟩

theorem le_mul_divCeil {x y : Nat} (hy : 0 < y) : x ≤ divCeil x y * y := by
  unfold divCeil
  have h := Nat.div_add_mod (x + y - 1) y
  have := Nat.mod_lt (x + y - 1) hy
  rw [Nat.mul_comm] at h
  omega

/-- A nonempty run of consecutive positions. -/
def IsRun (run : List Nat) : Prop :=
  run ≠ [] ∧ run = (List.range run.length).map (run.headD 0 + ·)

theorem IsRun.snoc {run : List Nat} {last : Nat} (h : IsRun run) (hlast : run.getLast? = some last) :
    IsRun (run ++ [last + 1]) := by
  obtain ⟨hne, hrun⟩ := h
  have hhead : (run ++ [last + 1]).headD 0 = run.headD 0 := by
    cases run with
    | nil => exact absurd rfl hne
    | cons => rfl
  have hpos : 0 < run.length := List.length_pos_iff.mpr hne
  have hend : last + 1 = run.headD 0 + run.length := by
    rw [List.getLast?_eq_getElem?] at hlast
    have hget : run[run.length - 1]? = some (run.headD 0 + (run.length - 1)) := by
      conv_lhs => rw [hrun]
      rw [List.getElem?_map, List.getElem?_range (by simp; omega)]
      simp
    rw [hget] at hlast
    cases hlast
    omega
  refine ⟨by simp, ?_⟩
  rw [hhead, List.length_append, List.length_singleton, List.range_succ, List.map_append, ← hrun, hend]
  rfl

private theorem cutRuns_go {limit : Nat} {rest : List Nat} :
    ∀ (run : List Nat) (last : Nat), IsRun run → run.getLast? = some last →
      (cutRuns.go limit run last rest).flatten = run ++ rest ∧
        ∀ r ∈ cutRuns.go limit run last rest, IsRun r := by
  induction rest with
  | nil => intro run last h _; simp [cutRuns.go, h]
  | cons p rest ih =>
    intro run last h hlast
    rw [cutRuns.go]
    split
    · obtain ⟨hflat, hall⟩ := ih [p] p ⟨by simp, by simp⟩ rfl
      exact ⟨by simp [hflat], by simpa [h] using hall⟩
    next hcond =>
      rw [not_or, ne_eq, not_not] at hcond
      obtain ⟨rfl, -⟩ := hcond
      obtain ⟨hflat, hall⟩ := ih _ (last + 1) (h.snoc hlast) (by simp)
      exact ⟨by simpa using hflat, hall⟩

/-- Positions are read run by run. -/
theorem cutRuns_spec (limit : Nat) (ps : List Nat) :
    (cutRuns limit ps).flatten = ps ∧ ∀ r ∈ cutRuns limit ps, IsRun r := by
  cases ps with
  | nil => simp [cutRuns]
  | cons p rest => exact cutRuns_go [p] p ⟨by simp, by simp⟩ rfl

end Manifestus
