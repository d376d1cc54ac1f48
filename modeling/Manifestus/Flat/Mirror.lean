import Manifestus.Flat.Device

/-! A mirror whose primary has no faults is one flat array: the staged blocks over the
primary's contents. The secondary may fail at any point and be dropped. -/
set_option linter.unusedSectionVars false

namespace Manifestus
open Prog

variable {H : Type} [Crates H] {m m' : Mirror H} {d : Dev H}

section Staged

private def byPos (x y : Nat × Block H) : Prop := x.1 ≤ y.1

private instance : DecidableRel (byPos (H := H)) := fun x y => inferInstanceAs (Decidable (x.1 ≤ y.1))

private instance : Std.Total (byPos (H := H)) := ⟨fun x y => Nat.le_total x.1 y.1⟩

private instance : IsTrans (Nat × Block H) byPos := ⟨fun _ _ _ h h' => Nat.le_trans h h'⟩

/-- A stable sort keeps the stagings of one position in order. -/
private theorem filter_sort (l : List (Nat × Block H)) (p : Nat) :
    (l.insertionSort byPos).filter (fun x => x.1 = p) = l.filter fun x => x.1 = p := by
  have hpair : (l.filter fun x => x.1 = p).Pairwise byPos := by
    apply List.pairwise_of_forall_mem_list
    intro x hx y hy
    have hx := (List.mem_filter.mp hx).2
    have hy := (List.mem_filter.mp hy).2
    simp only [decide_eq_true_eq] at hx hy
    exact Nat.le_of_eq (hx.trans hy.symm)
  have hsub := List.sublist_insertionSort hpair (List.filter_sublist (l := l))
  have hsub' := hsub.filter fun x => x.1 = p
  rw [List.filter_filter] at hsub'
  simp only [Bool.and_self] at hsub'
  refine (hsub'.eq_of_length ?_).symm
  exact ((List.perm_insertionSort byPos l).filter _).length_eq.symm

private theorem dedupLast_head (x : Nat × Block H) (rest : List (Nat × Block H)) :
    ∃ y ys, Mirror.dedupLast (x :: rest) = y :: ys := by
  unfold Mirror.dedupLast
  split
  · split
    · exact ⟨_, _, rfl⟩
    · exact ⟨_, _, rfl⟩
  · exact ⟨_, _, rfl⟩

private theorem mem_of_mem_dedupLast {x : Nat × Block H} {l : List (Nat × Block H)}
    (h : x ∈ Mirror.dedupLast l) : x ∈ l := by
  induction l with
  | nil => exact h
  | cons y l ih =>
    unfold Mirror.dedupLast at h
    split at h
    next z zs heq =>
      rw [heq] at ih
      split at h
      · exact List.mem_cons_of_mem _ (ih h)
      · rcases List.mem_cons.mp h with rfl | h
        · exact List.mem_cons_self
        · exact List.mem_cons_of_mem _ (ih h)
    next => exact (List.mem_singleton.mp h) ▸ List.mem_cons_self

private theorem dedupLast_strict {l : List (Nat × Block H)} (h : l.Pairwise byPos) :
    (Mirror.dedupLast l).Pairwise fun x y => x.1 < y.1 := by
  induction l with
  | nil => exact List.Pairwise.nil
  | cons x l ih =>
    rw [List.pairwise_cons] at h
    have ih := ih h.2
    unfold Mirror.dedupLast
    split
    next y ys heq =>
      rw [heq] at ih
      split
      · exact ih
      next hne =>
        rw [List.pairwise_cons] at ih ⊢
        have hxy : x.1 < y.1 := by
          have hy : y ∈ l := mem_of_mem_dedupLast (heq ▸ List.mem_cons_self)
          have hle : x.1 ≤ y.1 := h.1 y hy
          omega
        refine ⟨?_, List.pairwise_cons.mpr ih⟩
        intro z hz
        rcases List.mem_cons.mp hz with rfl | hz
        · exact hxy
        · exact hxy.trans (ih.1 z hz)
    next => exact List.pairwise_singleton _ _

/-- The position of the first block kept is the position of the first block. -/
private theorem dedupLast_first {x y : Nat × Block H} {l ys : List (Nat × Block H)}
    (h : Mirror.dedupLast (x :: l) = y :: ys) : y.1 = x.1 := by
  unfold Mirror.dedupLast at h
  split at h
  · split at h
    next hxy =>
      injection h with h₁ _
      rw [← h₁, hxy]
    · injection h with h₁ _
      rw [h₁]
  · injection h with h₁ _
    rw [h₁]

private theorem mem_dedupLast {x : Nat × Block H} {l : List (Nat × Block H)}
    (h : l.Pairwise byPos) :
    x ∈ Mirror.dedupLast l ↔ (l.filter fun y => y.1 = x.1).getLast? = some x := by
  induction l with
  | nil => simp [Mirror.dedupLast]
  | cons y l ih =>
    rw [List.pairwise_cons] at h
    have ih := ih h.2
    cases l with
    | nil =>
      by_cases hy : y.1 = x.1
      · simp [Mirror.dedupLast, hy, eq_comm]
      · have hne : x ≠ y := fun hxy => hy (by rw [hxy])
        simp [Mirror.dedupLast, hy, hne]
    | cons z l =>
      obtain ⟨w, ws, hw⟩ := dedupLast_head z l
      have hwz := dedupLast_first hw
      have hnext : ∀ k, (k = z.1) → ∃ q, ((z :: l).filter fun y => y.1 = k).getLast? = some q := by
        rintro k rfl
        have hne : ((z :: l).filter fun y => y.1 = z.1) ≠ [] := by simp
        exact ⟨_, List.getLast?_eq_some_getLast hne⟩
      rw [Mirror.dedupLast, hw]
      simp only
      by_cases hy : y.1 = x.1
      · rw [List.filter_cons_of_pos (by simpa using hy), List.getLast?_cons]
        by_cases hyw : y.1 = w.1
        · rw [if_pos hyw, ← hw, ih]
          obtain ⟨q, hq⟩ := hnext x.1 (by rw [← hy, hyw, hwz])
          rw [hq]
          simp
        · rw [if_neg hyw]
          have hzy : y.1 ≤ z.1 := h.1 z List.mem_cons_self
          have hempty : ((z :: l).filter fun v => v.1 = x.1) = [] := by
            apply List.filter_eq_nil_iff.mpr
            intro v hv
            have hzv : z.1 ≤ v.1 := by
              rcases List.mem_cons.mp hv with rfl | hv
              · exact Nat.le_refl _
              · exact (List.pairwise_cons.mp h.2).1 v hv
            simp only [decide_eq_true_eq]
            omega
          rw [hempty]
          rw [hempty, hw] at ih
          simp only [List.getLast?_nil, reduceCtorEq, iff_false] at ih
          simp only [List.mem_cons, Option.getD_none, List.getLast?_nil, Option.some.injEq]
          constructor
          · rintro (rfl | hx)
            · rfl
            · exact absurd (List.mem_cons.mpr hx) ih
          · rintro rfl
            exact .inl rfl
      · rw [List.filter_cons_of_neg (by simpa using hy)]
        by_cases hyw : y.1 = w.1
        · rw [if_pos hyw, ← hw, ih]
        · rw [if_neg hyw, ← ih, hw, List.mem_cons (b := y)]
          have hne : x ≠ y := fun hxy => hy (by rw [hxy])
          simp [hne]

namespace Mirror

private theorem sorted_staged (m : Mirror H) : (m.staged.insertionSort byPos).Pairwise byPos :=
  List.pairwise_insertionSort byPos m.staged

private theorem refs_eq (m : Mirror H) : m.refs = dedupLast (m.staged.insertionSort byPos) := rfl

theorem stagedAt_eq (m : Mirror H) (p : Nat) :
    m.stagedAt p = ((m.staged.filter fun x => x.1 = p).getLast?).map Prod.snd := by
  rw [stagedAt, List.getLast?_eq_head?_reverse, ← List.filter_reverse, List.head?_filter]

theorem mem_refs {x : Nat × Block H} : x ∈ m.refs ↔ m.stagedAt x.1 = some x.2 := by
  rw [refs_eq, mem_dedupLast (sorted_staged m), filter_sort, stagedAt_eq]
  constructor
  · intro h
    rw [h, Option.map_some]
  · intro h
    obtain ⟨y, hy, hyx⟩ := Option.map_eq_some_iff.mp h
    have hpos := (List.mem_filter.mp (List.mem_of_getLast? hy)).2
    simp only [decide_eq_true_eq] at hpos
    rw [hy, Option.some.injEq]
    exact Prod.ext hpos hyx

theorem refs_nodup (m : Mirror H) : (m.refs.map Prod.fst).Nodup := by
  rw [refs_eq, List.nodup_iff_pairwise_ne, List.pairwise_map]
  exact (dedupLast_strict (sorted_staged m)).imp fun h => Nat.ne_of_lt h

theorem mem_staged_of_stagedAt {p : Nat} {b : Block H} (h : m.stagedAt p = some b) :
    (p, b) ∈ m.staged := by
  rw [stagedAt_eq] at h
  obtain ⟨y, hy, rfl⟩ := Option.map_eq_some_iff.mp h
  obtain ⟨hmem, hpos⟩ := List.mem_filter.mp (List.mem_of_getLast? hy)
  simp only [decide_eq_true_eq] at hpos
  rwa [← hpos]

theorem stagedAt_eq_none {p : Nat} : m.stagedAt p = none ↔ ∀ x ∈ m.staged, x.1 ≠ p := by
  rw [stagedAt_eq, Option.map_eq_none_iff, List.getLast?_eq_none_iff, List.filter_eq_nil_iff]
  simp

end Mirror
end Staged

namespace Mirror

/-- The device that answers reads. -/
def primary (m : Mirror H) : Option (Dev H) := m.a.or m.b

/-- The device written after the primary. -/
def secondary (m : Mirror H) : Option (Dev H) := if m.a.isSome then m.b else none

/-- `d` is the primary and has no fault; staged positions lie on it, the cache agrees with it. -/
structure Ready (m : Mirror H) (d : Dev H) : Prop where
  primary : m.primary = some d
  script : d.script = []
  staged : ∀ x ∈ m.staged, x.1 < d.count
  cached : ∀ e ∈ m.cache, e.1 < d.count ∧ e.2.2 = d.data e.1

/-- The block at a position as every read shows it. -/
def view (m : Mirror H) (d : Dev H) (lba : Nat) : Block H := (m.stagedAt lba).getD (d.data lba)

/-- Equal but for the index cache and the events. -/
def Agrees (m m' : Mirror H) : Prop :=
  m' = { m with cache := m'.cache, uses := m'.uses }

/-- The devices are as they were. -/
def Untouched (m m' : Mirror H) : Prop :=
  m' = { m with
    pending := m'.pending, cache := m'.cache, uses := m'.uses, events := m'.events }

theorem Agrees.refl (m : Mirror H) : m.Agrees m := rfl

theorem Agrees.trans {m₁ m₂ m₃ : Mirror H} (h : m₁.Agrees m₂) (h' : m₂.Agrees m₃) :
    m₁.Agrees m₃ := by
  unfold Agrees at *
  rw [h', h]

theorem Agrees.untouched (h : m.Agrees m') : m.Untouched m' := by
  unfold Agrees at h
  unfold Untouched
  rw [h]

theorem Untouched.refl (m : Mirror H) : m.Untouched m := rfl

theorem Untouched.trans {m₁ m₂ m₃ : Mirror H} (h : m₁.Untouched m₂) (h' : m₂.Untouched m₃) :
    m₁.Untouched m₃ := by
  unfold Untouched at *
  rw [h', h]

theorem Agrees.pending (h : m.Agrees m') : m'.pending = m.pending := by
  rw [show m' = _ from h]

theorem Agrees.staged (h : m.Agrees m') : m'.staged = m.staged := by
  rw [Mirror.staged, h.pending, Mirror.staged]

theorem Agrees.primary (h : m.Agrees m') : m'.primary = m.primary := by
  rw [show m' = _ from h]
  rfl

theorem Agrees.view (h : m.Agrees m') (d : Dev H) : m'.view d = m.view d := by
  funext l
  rw [Mirror.view, Mirror.view, stagedAt, stagedAt, h.staged]

theorem view_of_staged {p : Nat} {b : Block H} (h : m.stagedAt p = some b) : m.view d p = b := by
  rw [view, h, Option.getD_some]

theorem view_of_not_staged {p : Nat} (h : m.stagedAt p = none) : m.view d p = d.data p := by
  rw [view, h, Option.getD_none]

theorem view_of_pending_nil (h : m.pending = []) : m.view d = d.data := by
  funext p
  apply view_of_not_staged
  rw [stagedAt_eq_none]
  simp [staged, h]

theorem onFirst_run {α : Type} {x : Prog Error (Dev H) α} {r : Except Error α}
    (hp : m.primary = some d) (hx : x.run d = (r, d)) : (onFirst x).run m = (r, m) := by
  obtain ⟨a, b, _⟩ := m
  cases a with
  | some a =>
    obtain rfl : a = d := by simpa [primary] using hp
    simp [onFirst, hx]
  | none =>
    cases b with
    | some b =>
      obtain rfl : b = d := by simpa [primary] using hp
      simp [onFirst, hx]
    | none => simp [primary] at hp

theorem read_run (h : m.Ready d) {lba : Nat} (hl : lba < d.count) :
    (read lba).run m = (.ok (m.view d lba), m) := by
  rcases hs : m.stagedAt lba with _ | b
  · simp [read, hs, view_of_not_staged hs, onFirst_run h.primary (Dev.read_run h.script hl)]
  · simp [read, hs, view_of_staged hs]

theorem collect_read_run (h : m.Ready d) {lbas : List Nat} (hl : ∀ l ∈ lbas, l < d.count) :
    (collect read lbas).run m = (.ok (lbas.map (m.view d)), m) := by
  induction lbas with
  | nil => simp [collect]
  | cons l lbas ih =>
    simp only [List.mem_cons, forall_eq_or_imp] at hl
    simp [collect, read_run h hl.1, ih hl.2]

theorem readRun_run (h : m.Ready d) {lba n : Nat} (hl : lba + n ≤ d.count) :
    (readRun lba n).run m = (.ok ((List.range n).map fun i => m.view d (lba + i)), m) := by
  simp only [readRun, bind_run, state_run]
  split
  · rw [collect_read_run h]
    · simp [Function.comp_def]
    · intro l hl'
      obtain ⟨i, hi, rfl⟩ := List.mem_map.mp hl'
      have := List.mem_range.mp hi
      omega
  next hany =>
    rw [onFirst_run h.primary (Dev.readRun_run h.script hl)]
    congr 2
    apply List.map_congr_left
    intro i hi
    refine (view_of_not_staged ?_).symm
    rw [stagedAt_eq_none]
    rintro x hx hxi
    apply hany
    rw [List.any_eq_true]
    have := List.mem_range.mp hi
    exact ⟨x, hx, by simp; omega⟩

theorem readMany_run (h : m.Ready d) {lbas : List Nat} (hl : ∀ l ∈ lbas, l < d.count) :
    (readMany lbas).run m = (.ok (lbas.map (m.view d)), m) := by
  simp only [readMany, bind_run, state_run]
  split
  next hp =>
    rw [onFirst_run h.primary (Dev.collect_read_run h.script hl),
      view_of_pending_nil (List.isEmpty_iff.mp hp)]
  · exact collect_read_run h hl

theorem mem_of_mem_evict {c : List (Nat × Nat × Block H)} {e : Nat × Nat × Block H}
    (he : e ∈ evict c) : e ∈ c := by
  unfold evict at he
  split at he
  · split at he
    · exact (List.mem_filter.mp he).1
    · exact he
  · exact he

theorem readCached_run (h : m.Ready d) {lba : Nat} (hl : lba < d.count) :
    ∃ m', (readCached lba).run m = (.ok (m.view d lba), m') ∧ m.Agrees m' ∧ m'.Ready d := by
  rcases hs : m.stagedAt lba with _ | b
  · rcases hc : m.cache.find? (fun e => e.1 = lba) with _ | e
    · have hu : ({ m with uses := m.uses + 1 } : Mirror H).Ready d :=
        ⟨h.primary, h.script, h.staged, h.cached⟩
      refine ⟨{ m with
        uses := m.uses + 1
        cache := (evict m.cache).orderedInsert (fun x y => x.1 ≤ y.1)
          (lba, m.uses + 1, m.view d lba) }, ?_, rfl, h.primary, h.script, h.staged, ?_⟩
      · have hv : ({ m with uses := m.uses + 1 } : Mirror H).view d lba = m.view d lba := rfl
        simp [readCached, hs, hc, read_run hu hl, hv]
      · intro e he
        rcases (List.mem_orderedInsert _).mp he with rfl | he
        · exact ⟨hl, view_of_not_staged hs⟩
        · exact h.cached e (mem_of_mem_evict he)
    · have he := h.cached e (List.mem_of_find?_eq_some hc)
      have hpos : e.1 = lba := by simpa using List.find?_some hc
      refine ⟨{ m with
        uses := m.uses + 1
        cache := m.cache.map fun x => if x.1 = lba then (x.1, m.uses + 1, x.2.2) else x },
        ?_, rfl, h.primary, h.script, h.staged, ?_⟩
      · simp [readCached, hs, hc, view_of_not_staged hs, he.2, hpos]
      · intro x hx
        obtain ⟨y, hy, rfl⟩ := List.mem_map.mp hx
        have := h.cached y hy
        split <;> exact this
  · exact ⟨m, by simp [readCached, hs, view_of_staged hs], .refl m, h⟩

@[simp] theorem forget_staged (lba : Nat) : (m.forget lba).staged = m.staged := rfl

theorem staged_stageOne (lba : Nat) (b : Block H) :
    (m.stageOne lba b).staged = m.staged ++ [(lba, b)] := by
  unfold stageOne
  split
  next batch hlast =>
    split
    · have hsplit : m.pending = m.pending.dropLast ++ [batch] :=
        (List.dropLast_append_getLast? batch hlast).symm
      rw [staged, staged]
      conv_rhs => rw [hsplit]
      simp
    · simp [staged]
  next => simp [staged]

theorem staged_reserveStaged (n : Nat) : (m.reserveStaged n).staged = m.staged := by
  unfold reserveStaged
  split <;> simp [staged]

theorem stageOne_cached {lba : Nat} {b : Block H} {e : Nat × Nat × Block H}
    (he : e ∈ (m.stageOne lba b).cache) : e ∈ m.cache := by
  have hf : e ∈ (m.forget lba).cache := by
    unfold stageOne at he
    split at he
    · split at he <;> exact he
    · exact he
  exact (List.mem_filter.mp hf).1

theorem primary_stageOne (lba : Nat) (b : Block H) : (m.stageOne lba b).primary = m.primary := by
  unfold stageOne
  split
  · split <;> rfl
  · rfl

theorem Ready.stageOne (h : m.Ready d) {lba : Nat} (hl : lba < d.count) (b : Block H) :
    (m.stageOne lba b).Ready d where
  primary := (primary_stageOne lba b).trans h.primary
  script := h.script
  staged := by
    intro x hx
    rw [staged_stageOne, List.mem_append] at hx
    rcases hx with hx | hx
    · exact h.staged x hx
    · rw [List.mem_singleton.mp hx]
      exact hl
  cached e he := h.cached e (stageOne_cached he)

theorem Ready.reserveStaged (h : m.Ready d) (n : Nat) : (m.reserveStaged n).Ready d := by
  refine ⟨?_, h.script, ?_, ?_⟩
  · rw [← h.primary]
    unfold Mirror.reserveStaged
    split <;> rfl
  · rw [staged_reserveStaged]
    exact h.staged
  · intro e he
    refine h.cached e ?_
    unfold Mirror.reserveStaged at he
    split at he <;> exact he

theorem view_stageOne (lba : Nat) (b : Block H) :
    (m.stageOne lba b).view d = Function.update (m.view d) lba b := by
  funext p
  rw [view, stagedAt_eq, staged_stageOne, List.filter_append]
  by_cases hp : p = lba
  · subst hp
    simp
  · rw [Function.update_of_ne hp, view, stagedAt_eq]
    simp [Ne.symm hp]

theorem view_reserveStaged (n : Nat) : (m.reserveStaged n).view d = m.view d := by
  funext p
  rw [view, view, stagedAt, stagedAt, staged_reserveStaged]

/-- The primary once everything staged is written out. -/
def drained (m : Mirror H) (d : Dev H) : Dev H :=
  if m.pending.isEmpty then d else (d.landedAll m.refs).flushed

@[simp] theorem drained_count : (m.drained d).count = d.count := by
  unfold drained
  split <;> simp

@[simp] theorem drained_script : (m.drained d).script = d.script := by
  unfold drained
  split <;> simp

@[simp] theorem drained_limit : (m.drained d).limit = d.limit := by
  unfold drained
  split <;> simp

theorem drained_data (m : Mirror H) (d : Dev H) : (m.drained d).data = m.view d := by
  unfold drained
  split
  next hp => rw [view_of_pending_nil (List.isEmpty_iff.mp hp)]
  · funext p
    rcases hs : m.stagedAt p with _ | b
    · rw [view_of_not_staged hs, Dev.flushed_data, Dev.landedAll_data_of_notMem]
      intro hp
      obtain ⟨x, hx, rfl⟩ := List.mem_map.mp hp
      rw [mem_refs, hs] at hx
      exact absurd hx (by simp)
    · rw [view_of_staged hs, Dev.flushed_data]
      exact Dev.landedAll_data_of_mem (x := (p, b)) m.refs_nodup (mem_refs.mpr hs)

/-- The part of the mirror a write phase leaves alone. -/
def SameBuffers (m m' : Mirror H) : Prop := m'.pending = m.pending ∧ m'.cache = m.cache

theorem onA_run {α : Type} {x : Prog Error (Dev H) α} {r : Except Error α} {a a' : Dev H}
    (ha : m.a = some a) (hx : x.run a = (r, a')) :
    (onA x).run m = (r, { m with a := some a' }.mark) := by
  simp [onA, ha, hx]

theorem onB_run {α : Type} {x : Prog Error (Dev H) α} {r : Except Error α} {b b' : Dev H}
    (hb : m.b = some b) (hx : x.run b = (r, b')) :
    (onB x).run m = (r, { m with b := some b' }.mark) := by
  simp [onB, hb, hx]

theorem onBoth_run {x : Prog Error (Dev H) Unit} {ra rb : Except Error Unit}
    {a a' b b' : Dev H} (ha : m.a = some a) (hb : m.b = some b) (hxa : x.run a = (ra, a'))
    (hxb : x.run b = (rb, b')) :
    (onBoth x).run m = (.ok (ra, rb), { m with a := some a', b := some b' }.mark) := by
  unfold onBoth
  simp only [ha, hb]
  change (Except.ok ((x.run a).1, (x.run b).1),
    ({ m with a := some (x.run a).2, b := some (x.run b).2 } : Mirror H).mark) = _
  rw [hxa, hxb]

private theorem onSecondary_run (x : Prog Error (Dev H) Unit) :
    ∃ m', (onSecondary x).run m = (.ok (), m') ∧ m'.a = m.a ∧ m.SameBuffers m' := by
  rcases hb : m.b with _ | b
  · exact ⟨m, by simp [onSecondary, hb], rfl, rfl, rfl⟩
  · rcases hx : x.run b with ⟨_ | _, b'⟩
    · exact ⟨{ { m with b := some b' }.mark with
          b := none, dropped := some b', degraded := true, events := m.events ++ [.mirrorDegraded] },
        by simp [onSecondary, hb, onB_run hb hx, dropB, mark], rfl, rfl, rfl⟩
    · exact ⟨{ m with b := some b' }.mark, by simp [onSecondary, hb, onB_run hb hx], rfl, rfl, rfl⟩

theorem everywhere_run {x : Prog Error (Dev H) Unit} {d' : Dev H} (hp : m.primary = some d)
    (hx : x.run d = (.ok (), d')) :
    ∃ m', (everywhere x).run m = (.ok (), m') ∧ m'.primary = some d' ∧ m.SameBuffers m' := by
  rcases ha : m.a with _ | a
  · rcases hb : m.b with _ | b
    · simp [primary, ha, hb] at hp
    · obtain rfl : b = d := by simpa [primary, ha, hb] using hp
      refine ⟨{ m with b := some d' }.mark, by simp [everywhere, ha, hb, onB_run hb hx], ?_, rfl, rfl⟩
      simp [mark, primary, ha]
  · obtain rfl : a = d := by simpa [primary, ha] using hp
    obtain ⟨m', hm', ha', hs⟩ := onSecondary_run (m := { m with a := some d' }.mark) x
    refine ⟨m', by simp [everywhere, ha, onA_run ha hx, hm'], ?_, hs⟩
    rw [primary, ha']
    rfl

theorem everywhere_run_error {x : Prog Error (Dev H) Unit} {e : Error} {d' : Dev H}
    (hp : m.primary = some d) (hx : x.run d = (.error e, d')) :
    ∃ m', (everywhere x).run m = (.error e, m') ∧ m'.primary = some d' ∧ m.SameBuffers m' := by
  rcases ha : m.a with _ | a
  · rcases hb : m.b with _ | b
    · simp [primary, ha, hb] at hp
    · obtain rfl : b = d := by simpa [primary, ha, hb] using hp
      refine ⟨{ m with b := some d' }.mark, by simp [everywhere, ha, hb, onB_run hb hx], ?_, rfl, rfl⟩
      simp [mark, primary, ha]
  · obtain rfl : a = d := by simpa [primary, ha] using hp
    exact ⟨{ m with a := some d' }.mark, by simp [everywhere, ha, onA_run ha hx], rfl, rfl, rfl⟩

theorem foldl_forget_fields (l : List (Nat × Block H)) (m : Mirror H) :
    (l.foldl (fun m x => m.forget x.1) m).a = m.a ∧ (l.foldl (fun m x => m.forget x.1) m).b = m.b ∧
    (l.foldl (fun m x => m.forget x.1) m).pending = m.pending ∧
    ∀ e ∈ (l.foldl (fun m x => m.forget x.1) m).cache, e ∈ m.cache ∧ e.1 ∉ l.map Prod.fst := by
  induction l generalizing m with
  | nil => simp
  | cons x l ih =>
    obtain ⟨ha, hb, hp, hc⟩ := ih (m.forget x.1)
    refine ⟨ha, hb, hp, ?_⟩
    intro e he
    obtain ⟨hmem, hnot⟩ := hc e he
    obtain ⟨hmem, hne⟩ := List.mem_filter.mp hmem
    refine ⟨hmem, ?_⟩
    simp only [List.map_cons, List.mem_cons, not_or]
    exact ⟨by simpa using hne, hnot⟩

theorem writeVerifiedBatchNow_run {blocks : List (Nat × Block H)} (h : m.Ready d)
    (hp : m.pending = []) (hnd : (blocks.map Prod.fst).Nodup) (hbound : ∀ x ∈ blocks, x.1 < d.count) :
    ∃ m', (writeVerifiedBatchNow blocks).run m = (.ok (), m') ∧
      m'.Ready (d.landedAll blocks).flushed ∧ m'.pending = [] := by
  obtain ⟨ha₁, hb₁, hp₁, hc₁⟩ := foldl_forget_fields blocks m
  have hwrite := writeEach_run h.script hnd hbound
  obtain ⟨m', hrun, hprim, hpend, hcache⟩ : ∃ m', (writeVerifiedBatchNow blocks).run m = (.ok (), m') ∧
      m'.primary = some (d.landedAll blocks).flushed ∧
      (blocks.foldl (fun m x => m.forget x.1) m).SameBuffers m' := by
    simp only [writeVerifiedBatchNow, bind_run, update_run, state_run]
    generalize blocks.foldl (fun m x => m.forget x.1) m = m₁ at *
    have hprim₁ : m₁.primary = some d := by
      rw [primary, ha₁, hb₁]
      exact h.primary
    split
    next hboth =>
      obtain ⟨a, ha⟩ := Option.isSome_iff_exists.mp hboth.1
      obtain ⟨b, hb⟩ := Option.isSome_iff_exists.mp hboth.2.1
      obtain rfl : a = d := by simpa [primary, ha] using hprim₁
      rcases hx : (writeEach blocks).run b with ⟨_ | _, b'⟩
      · exact ⟨{ { m₁ with a := some (a.landedAll blocks).flushed, b := some b' }.mark with
            b := none, dropped := some b', degraded := true
            events := m₁.events ++ [.mirrorDegraded] },
          by simp [onBoth_run ha hb hwrite hx, dropB, mark], rfl, rfl, rfl⟩
      · exact ⟨{ m₁ with a := some (a.landedAll blocks).flushed, b := some b' }.mark,
          by simp [onBoth_run ha hb hwrite hx], rfl, rfl, rfl⟩
    · exact everywhere_run hprim₁ hwrite
  refine ⟨m', hrun, ⟨hprim, by simpa using h.script, ?_, ?_⟩, hpend.trans (hp₁.trans hp)⟩
  · rw [staged, hpend, hp₁, hp]
    simp
  · intro e he
    rw [hcache] at he
    obtain ⟨hmem, hnot⟩ := hc₁ e he
    obtain ⟨hlt, heq⟩ := h.cached e hmem
    exact ⟨by simpa using hlt, heq.trans (Dev.landedAll_data_of_notMem hnot).symm⟩

theorem drain_run (h : m.Ready d) :
    ∃ m', drain.run m = (.ok (), m') ∧ m'.Ready (m.drained d) ∧ m'.pending = [] := by
  by_cases hp : m.pending = []
  · exact ⟨m, by simp [drain, hp], by simpa [drained, hp] using h, hp⟩
  · have hbounds : ∀ x ∈ m.refs, x.1 < d.count := by
      intro x hx
      exact h.staged _ (mem_staged_of_stagedAt (mem_refs.mp hx))
    have h₁ : ({ m with pending := [] } : Mirror H).Ready d :=
      ⟨h.primary, h.script, by simp [staged], h.cached⟩
    obtain ⟨m', hrun, hready, hpend⟩ := writeVerifiedBatchNow_run h₁ rfl m.refs_nodup hbounds
    refine ⟨m', by simp [drain, hp, hrun], ?_, hpend⟩
    simpa [drained, hp] using hready

/-- A verified write: everything staged is written out, then the block. -/
theorem writeVerified_run (h : m.Ready d) {lba : Nat} (hl : lba < d.count) (b : Block H) :
    ∃ m', (writeVerified lba b).run m = (.ok (), m') ∧
      m'.Ready ((m.drained d).landed (lba, b)).flushed ∧ m'.pending = [] := by
  obtain ⟨m₁, hrun₁, h₁, hp₁⟩ := drain_run h
  have hwrite := writeOne_run h₁.script (show lba < (m.drained d).count by simpa using hl) b
  obtain ⟨m', hrun, hprim, hpend, hcache⟩ :=
    everywhere_run (m := m₁.forget lba) h₁.primary hwrite
  refine ⟨m', by simp [writeVerified, hrun₁, hrun], ⟨hprim, h₁.script, ?_, ?_⟩, hpend.trans hp₁⟩
  · rw [staged, hpend]
    exact h₁.staged
  · intro e he
    rw [hcache] at he
    obtain ⟨hmem, hne⟩ := List.mem_filter.mp he
    obtain ⟨hlt, heq⟩ := h₁.cached e hmem
    refine ⟨hlt, heq.trans ?_⟩
    simp only [Dev.flushed_data, Dev.landed_data]
    rw [Function.update_of_ne (by simpa using hne)]

theorem grow_run (h : m.Ready d) {n : Nat} (ha : d.Accepts n) :
    ∃ m', (grow n).run m = (.ok (), m') ∧
      m'.Ready (if n ≤ d.count then m.drained d else (m.drained d).grown n) ∧ m'.pending = [] := by
  obtain ⟨m₁, hrun₁, h₁, hp₁⟩ := drain_run h
  have hgrow := Dev.grow_run h₁.script (n := n) (by simpa [Dev.Accepts] using ha)
  rw [drained_count] at hgrow
  obtain ⟨m', hrun, hprim, hpend, hcache⟩ := everywhere_run h₁.primary hgrow
  refine ⟨m', by simp [grow, hrun₁, hrun], ⟨hprim, ?_, ?_, ?_⟩, hpend.trans hp₁⟩
  · split <;> exact h₁.script
  · rw [staged, hpend, hp₁]
    simp
  · intro e he
    rw [hcache] at he
    obtain ⟨hlt, heq⟩ := h₁.cached e he
    split
    · exact ⟨hlt, heq⟩
    next hn =>
      have hlt' : e.1 < d.count := by simpa using hlt
      exact ⟨by simp only [Dev.grown]; omega, by simp [Dev.grown, hlt', heq]⟩

theorem grow_run_of_not (h : m.Ready d) {n : Nat} (ha : ¬ d.Accepts n) :
    ∃ e m', (grow n).run m = (.error e, m') ∧ m'.Ready (m.drained d) ∧ m'.pending = [] := by
  obtain ⟨m₁, hrun₁, h₁, hp₁⟩ := drain_run h
  obtain ⟨e, hgrow⟩ := Dev.grow_run_of_not (d := m.drained d) (n := n) (by simpa [Dev.Accepts] using ha)
  obtain ⟨m', hrun, hprim, hpend, hcache⟩ := everywhere_run_error h₁.primary hgrow
  refine ⟨e, m', by simp [grow, hrun₁, hrun], ⟨hprim, h₁.script, ?_, ?_⟩, hpend.trans hp₁⟩
  · rw [staged, hpend, hp₁]
    simp
  · rw [hcache]
    exact h₁.cached

theorem Ready.reattach (h : m.Ready d) : m.reattach.Ready (d.image.dev d.limit) := by
  refine ⟨?_, rfl, by simp [Mirror.staged, Mirror.reattach], by simp [Mirror.reattach]⟩
  have hp := h.primary
  unfold Mirror.primary at hp ⊢
  rcases ha : m.a with _ | a
  · rcases hb : m.b with _ | b
    · simp [ha, hb] at hp
    · simp only [ha, hb, Option.none_or, Option.some.injEq] at hp
      simp [Mirror.reattach, ha, hb, hp]
  · simp only [ha, Option.some_or, Option.some.injEq] at hp
    simp [Mirror.reattach, ha, hp]

@[simp] theorem reattach_view : m.reattach.view (d.image.dev d.limit) = d.data := by
  rw [view_of_pending_nil rfl]
  rfl

end Mirror
end Manifestus
