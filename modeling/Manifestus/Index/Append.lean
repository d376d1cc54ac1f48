import Manifestus.Index.Access
import Mathlib.Data.Nat.ModEq

/-! Appending at the plow: new blocks land where nothing is referenced and nothing was
appended since the reap. -/
set_option linter.unusedSectionVars false

namespace Manifestus
open Prog Store

variable {H : Type} [Crates H] {d : Dev H}

namespace Mirror

/-- Staging distinct positions in order. -/
theorem stageMany {xs : List (Nat × Block H)} : ∀ {m : Mirror H}, m.Ready d →
    (xs.map Prod.fst).Nodup → (∀ x ∈ xs, x.1 < d.count) →
    let m' := xs.foldl (fun m x => m.stageOne x.1 x.2) m
    m'.Ready d ∧ m.Untouched m' ∧ m'.events = m.events ∧ m'.staged = m.staged ++ xs ∧
      (∀ x ∈ xs, m'.view d x.1 = x.2) ∧
      ∀ l, l ∉ xs.map Prod.fst → m'.view d l = m.view d l := by
  induction xs with
  | nil => intro m h _ _; exact ⟨h, .refl m, rfl, by simp, by simp, by simp⟩
  | cons x xs ih =>
    intro m h hnd hlt
    simp only [List.mem_cons, forall_eq_or_imp] at hlt
    rw [List.map_cons, List.nodup_cons] at hnd
    obtain ⟨h', hun, hevents, hst, hnew, hold⟩ := ih (h.stageOne hlt.1 x.2) hnd.2 hlt.2
    have hone : m.Untouched (m.stageOne x.1 x.2) := by
      unfold Untouched stageOne
      split
      · split <;> rfl
      · rfl
    have honeEvents : (m.stageOne x.1 x.2).events = m.events := by
      unfold stageOne
      split
      · split <;> rfl
      · rfl
    refine ⟨h', hone.trans hun, hevents.trans honeEvents, ?_, ?_, ?_⟩
    · rw [List.foldl_cons, hst, staged_stageOne, List.append_assoc]
      rfl
    · intro y hy
      rw [List.foldl_cons]
      rcases List.mem_cons.mp hy with rfl | hy
      · rw [hold y.1 hnd.1, view_stageOne, Function.update_self]
      · exact hnew y hy
    · intro l hl
      rw [List.map_cons, List.mem_cons, not_or] at hl
      rw [List.foldl_cons, hold l hl.2, view_stageOne, Function.update_of_ne hl.1]

end Mirror

/-- The errors an append may give. -/
def Error.Refused : Error → Prop
  | .tractFull => True
  | .fenced _ => True
  | _ => False

namespace Tract

/-- The cursors stand less than a lap apart. -/
structure Cursors (t : Tract) : Prop where
  pos : 0 < t.len
  order : t.reap ≤ t.plow
  lap : t.plow ≤ t.reap + t.len

/-- Appended since the reap. -/
def Behind (t : Tract) (p : Nat) : Prop := ∃ q, t.reap ≤ q ∧ q < t.plow ∧ p = q % t.len

/-- The blocks `make i` appended at `ps`. -/
structure Appended (live : Liveness H) (d : Dev H) (make : Nat → Block H) (ps : List Nat)
    (s s' : Store H) : Prop where
  on : s'.On d
  hamt : s'.hamt = s.hamt
  untouched : s.mirror.Untouched s'.mirror
  staged : ∀ x ∈ s'.mirror.staged, x ∈ s.mirror.staged ∨
    ∃ i p, ps[i]? = some p ∧ x = (s.tract.base + p, make i)
  tract : s'.tract = { s.tract with plow := s.tract.plow + ps.length }
  cursors : s'.tract.Cursors
  nodup : ps.Nodup
  fresh : ∀ p ∈ ps, p < s.tract.len ∧ live.isReferenced p = false ∧ ¬ s.tract.Behind p
  behind : ∀ p, s'.tract.Behind p ↔ s.tract.Behind p ∨ p ∈ ps
  placed : ∀ i p, ps[i]? = some p → s'.view d p = make i
  frame : ∀ p, p ∉ ps → s'.view d p = s.view d p
  inside : ∀ i p, ps[i]? = some p → p = (s.tract.plow + i) % s.tract.len
  events : s'.mirror.events = s.mirror.events
  fenced : ∀ limit ∈ s.tract.fenceLimit, s.tract.plow + ps.length ≤ limit

/-- A refused append: nothing but an event, of a referenced position in the clean space. -/
structure Balked (live : Liveness H) (d : Dev H) (s s' : Store H) : Prop where
  on : s'.On d
  tract : s'.tract = s.tract
  hamt : s'.hamt = s.hamt
  view : s'.view d = s.view d
  untouched : s.mirror.Untouched s'.mirror
  staged : s'.mirror.staged = s.mirror.staged
  quiet : s'.mirror.events = s.mirror.events ∨ ∃ q, s.tract.plow ≤ q ∧ q < s.tract.plow + s.tract.cleanBlocks ∧
    live.isReferenced (q % s.tract.len) = true

variable {s : Store H} {live : Liveness H}

theorem Balked.refl (hon : s.On d) : Balked live d s s := ⟨hon, rfl, rfl, rfl, .refl _, rfl, .inl rfl⟩

theorem lap_distinct {len a b : Nat} (h : a < b) (hb : b < a + len) : a % len ≠ b % len := by
  intro he
  have hdvd : len ∣ b - a := (Nat.modEq_iff_dvd' (by omega)).mp he
  have := Nat.le_of_dvd (by omega) hdvd
  omega

/-- One position of every lap is `p`. -/
theorem lap_represented {len p : Nat} (a : Nat) (hp : p < len) : ∃ q, a ≤ q ∧ q < a + len ∧ q % len = p := by
  have hpos : 0 < len := by omega
  refine ⟨a + (p + len - a % len) % len, Nat.le_add_right _ _, Nat.add_lt_add_left (Nat.mod_lt _ hpos) _, ?_⟩
  have hmod := Nat.mod_lt a hpos
  rw [Nat.add_mod, Nat.mod_mod, ← Nat.add_mod]
  have hsum : a + (p + len - a % len) = p + len * (a / len + 1) := by
    have := Nat.div_add_mod a len
    rw [Nat.mul_add, Nat.mul_one]
    omega
  rw [hsum, Nat.add_mul_mod_self_left, Nat.mod_eq_of_lt hp]

theorem stageAll_appended (hon : s.On d) (hcur : s.tract.Cursors) {n : Nat} {make : Nat → Block H}
    (hclean : n ≤ s.tract.cleanBlocks)
    (hfence : ∀ limit ∈ s.tract.fenceLimit, s.tract.plow + n ≤ limit)
    (hfree : ∀ i < n, live.isReferenced ((s.tract.plow + i) % s.tract.len) = false) :
    Appended live d make ((List.range n).map fun i => (s.tract.plow + i) % s.tract.len) s
      { s with
        mirror := s.tract.stageAll make n s.mirror
        tract := { s.tract with plow := s.tract.plow + n } } := by
  obtain ⟨hpos, horder, hlap⟩ := hcur
  have hfits := hon.fits
  have hroom : s.tract.plow + n ≤ s.tract.reap + s.tract.len := by
    unfold cleanBlocks at hclean
    omega
  set pos := fun i => (s.tract.plow + i) % s.tract.len with hpos_def
  have hlt : ∀ i, pos i < s.tract.len := fun i => Nat.mod_lt _ hpos
  have hnd : ((List.range n).map pos).Nodup := by
    rw [List.nodup_map_iff_inj_on List.nodup_range]
    intro i hi j hj hij
    rw [List.mem_range] at hi hj
    rcases lt_trichotomy i j with h | h | h
    · exact absurd hij (lap_distinct (by omega) (by omega))
    · exact h
    · exact absurd hij.symm (lap_distinct (by omega) (by omega))
  set xs := (List.range n).map fun i => (s.tract.base + pos i, make i) with hxs
  have hfst : xs.map Prod.fst = ((List.range n).map pos).map (s.tract.base + ·) := by
    simp [hxs, Function.comp_def]
  have hstage : s.tract.stageAll make n s.mirror =
      xs.foldl (fun m x => m.stageOne x.1 x.2) (s.mirror.reserveStaged n) := by
    rw [hxs, List.foldl_map]
    rfl
  obtain ⟨hready, hun, hevents, hst, hnew, hold⟩ := Mirror.stageMany (hon.ready.reserveStaged n)
    (by rw [hfst]; exact hnd.map (add_right_injective _)) (by
      intro x hx
      obtain ⟨i, -, rfl⟩ := List.mem_map.mp hx
      have := hlt i
      simp only
      omega)
  rw [← hstage] at hready hun hevents hst hnew hold
  have hreserve : s.mirror.Untouched (s.mirror.reserveStaged n) := by
    unfold Mirror.Untouched Mirror.reserveStaged
    split <;> rfl
  refine
    { on := ⟨hready, hfits⟩
      hamt := rfl
      untouched := hreserve.trans hun
      staged := ?_
      tract := by simp
      cursors := ⟨hpos, by simp only; omega, by simpa using hroom⟩
      nodup := hnd
      fresh := ?_
      behind := ?_
      placed := ?_
      frame := ?_
      inside := ?_
      events := by
        rw [hevents]
        unfold Mirror.reserveStaged
        split <;> rfl
      fenced := by simpa using hfence }
  · intro x hx
    rw [hst, Mirror.staged_reserveStaged, List.mem_append] at hx
    rcases hx with hx | hx
    · exact .inl hx
    · obtain ⟨i, hi, rfl⟩ := List.mem_map.mp hx
      exact .inr ⟨i, pos i, by simp [List.mem_range.mp hi], rfl⟩
  · intro p hp
    obtain ⟨i, hi, rfl⟩ := List.mem_map.mp hp
    rw [List.mem_range] at hi
    refine ⟨hlt i, hfree i hi, ?_⟩
    rintro ⟨q, hq₁, hq₂, hq⟩
    exact lap_distinct (by omega) (by omega) hq.symm
  · intro p
    constructor
    · rintro ⟨q, hq₁, hq₂, rfl⟩
      rcases Nat.lt_or_ge q s.tract.plow with h | h
      · exact .inl ⟨q, hq₁, h, rfl⟩
      · simp only at hq₂
        refine .inr (List.mem_map.mpr ⟨q - s.tract.plow, List.mem_range.mpr (by omega), ?_⟩)
        simp only [hpos_def]
        congr 1
        omega
    · rintro (⟨q, hq₁, hq₂, rfl⟩ | hp)
      · exact ⟨q, hq₁, by simp only; omega, rfl⟩
      · obtain ⟨i, hi, rfl⟩ := List.mem_map.mp hp
        rw [List.mem_range] at hi
        exact ⟨s.tract.plow + i, by simp only; omega, by simp only; omega, rfl⟩
  · intro i p hp
    have hi : i < n := by
      have := (List.getElem?_eq_some_iff.mp hp).1
      simpa using this
    simp only [List.getElem?_map, List.getElem?_range hi, Option.map_some, Option.some.injEq] at hp
    subst hp
    exact hnew (s.tract.base + pos i, make i) (List.mem_map.mpr ⟨i, List.mem_range.mpr hi, rfl⟩)
  · intro p hp
    rw [Store.view, Store.view]
    simp only
    rw [hold, Mirror.view_reserveStaged]
    rw [hfst]
    intro hmem
    obtain ⟨q, hq, hqp⟩ := List.mem_map.mp hmem
    obtain rfl : q = p := by omega
    exact hp hq
  · intro i p hp
    have hi : i < n := by
      have := (List.getElem?_eq_some_iff.mp hp).1
      simpa using this
    simpa [List.getElem?_map, List.getElem?_range hi, hpos_def] using hp.symm

theorem appendWith_sat (hon : s.On d) (hcur : s.tract.Cursors) (n : Nat) (make : Nat → Block H) :
    Sat (appendWith live n make) s (fun ps s' => ps.length = n ∧ Appended live d make ps s s')
      (fun e s' => e.Refused ∧ Balked live d s s') := by
  simp only [Sat, appendWith, bind_run, state_run]
  split
  next hrun =>
    split at hrun
    · simp at hrun
    next hclean =>
      split at hrun
      · simp at hrun
      next hfence =>
        split at hrun
        · simp [onMirror, Mirror.emit] at hrun
        next hfind =>
          simp only [bind_run, update_run, pure_run, Prod.mk.injEq, Except.ok.injEq] at hrun
          obtain ⟨rfl, rfl⟩ := hrun
          refine ⟨by simp, stageAll_appended hon hcur (by omega) (fun limit hlimit => ?_) fun i hi => ?_⟩
          · rw [Option.mem_def.mp hlimit] at hfence
            simpa using hfence
          · have := List.find?_eq_none.mp hfind i (List.mem_range.mpr hi)
            simpa using this
  next hrun =>
    split at hrun
    · simp only [fail_run, Prod.mk.injEq, Except.error.injEq] at hrun
      obtain ⟨rfl, rfl⟩ := hrun
      exact ⟨trivial, .refl hon⟩
    · split at hrun
      · simp only [fail_run, Prod.mk.injEq, Except.error.injEq] at hrun
        obtain ⟨rfl, rfl⟩ := hrun
        exact ⟨trivial, .refl hon⟩
      · split at hrun
        next i hfind =>
          simp only [onMirror, Mirror.emit, bind_run, zoom_run, update_run, fail_run, Prod.mk.injEq,
            Except.error.injEq] at hrun
          obtain ⟨rfl, rfl⟩ := hrun
          have hi := List.mem_range.mp (List.mem_of_find?_eq_some hfind)
          have hlive := List.find?_some hfind
          refine ⟨trivial, ⟨⟨hon.ready.primary, hon.ready.script, hon.ready.staged, hon.ready.cached⟩, hon.fits⟩, rfl,
            rfl, rfl, rfl, rfl, .inr ⟨s.tract.plow + i, by omega, ?_, hlive⟩⟩
          omega
        · simp at hrun

/-- One block appended at `p`. -/
theorem appendOne_sat (hon : s.On d) (hcur : s.tract.Cursors) (b : Block H) :
    Sat (appendOne live b) s (fun p s' => Appended live d (fun _ => b) [p] s s')
      (fun e s' => e.Refused ∧ Balked live d s s') := by
  unfold appendOne append
  refine sat_bind (appendWith_sat hon hcur 1 _) fun ps s' h => ?_
  obtain ⟨hlen, happ⟩ := h
  obtain ⟨p, rfl⟩ := List.length_eq_one_iff.mp hlen
  refine sat_pure ?_
  have hplaced : ∀ i q, [p][i]? = some q → i = 0 := by
    intro i q hi
    have := (List.getElem?_eq_some_iff.mp hi).1
    simpa using this
  exact
    { happ with
      staged := fun x hx => by
        rcases happ.staged x hx with h | ⟨i, q, hi, rfl⟩
        · exact .inl h
        · exact .inr ⟨i, q, hi, by rw [hplaced i q hi]; rfl⟩
      placed := fun i q hi => by rw [happ.placed i q hi, hplaced i q hi]; rfl }

end Tract
end Manifestus
