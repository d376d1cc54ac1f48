import Manifestus.Index.State

/-! The live set as a set of positions: what an update adds and removes, when every hash on record
is the hash of the block there. -/
set_option linter.unusedSectionVars false

namespace Manifestus

variable {H : Type} [Crates H]

namespace LiveSet

/-- Every hash of the set is the one `hashes` gives its position. -/
def Known (hashes : Nat → Option H) (l : LiveSet H) : Prop := ∀ e ∈ l.map, hashes e.1 = some e.2

variable {l : LiveSet H} {hashes : Nat → Option H}

theorem get?_isSome {p : Nat} : (l.get? p).isSome = true ↔ p ∈ spots l.map := by
  simp only [get?, Option.isSome_map, List.find?_isSome, decide_eq_true_eq, mem_spots]

theorem refers_iff {p : Nat} : l.Refers p ↔ p ∈ spots l.map ∨ p ∈ l.referenced := by
  simp only [Refers, liveness, Bool.or_eq_true, get?_isSome, List.contains_iff_mem]

theorem Known.get? (h : l.Known hashes) {p : Nat} {hash : H} (hg : l.get? p = some hash) :
    hashes p = some hash := by
  obtain ⟨e, he, rfl⟩ := Option.map_eq_some_iff.mp hg
  have hp : e.1 = p := by simpa using List.find?_some he
  rw [← hp]
  exact h e (List.mem_of_find?_eq_some he)

theorem refers_empty (p : Nat) : ¬ (empty : LiveSet H).Refers p := by
  simp [refers_iff, empty]

theorem refers_insert {e : Nat × H} {p : Nat} : (l.insert e).Refers p ↔ l.Refers p ∨ p = e.1 := by
  simp only [refers_iff, insert, mem_spots, List.mem_cons, List.mem_filter, decide_eq_true_eq]
  constructor
  · rintro (⟨x, rfl | ⟨hx, -⟩, rfl⟩ | hp)
    · exact .inr rfl
    · exact .inl (.inl ⟨x, hx, rfl⟩)
    · exact .inl (.inr hp)
  · rintro ((⟨x, hx, rfl⟩ | hp) | rfl)
    · by_cases hxe : x.1 = e.1
      · exact .inl ⟨e, .inl rfl, hxe.symm⟩
      · exact .inl ⟨x, .inr ⟨hx, hxe⟩, rfl⟩
    · exact .inr hp
    · exact .inl ⟨e, .inl rfl, rfl⟩

theorem Known.insert (h : l.Known hashes) {e : Nat × H} (he : hashes e.1 = some e.2) :
    (l.insert e).Known hashes := by
  intro x hx
  rcases List.mem_cons.mp hx with rfl | hx
  · exact he
  · exact h x (List.mem_filter.mp hx).1

theorem refers_applyAdded {e : Nat × H} {p : Nat} : (l.applyAdded e).Refers p ↔ l.Refers p ∨ p = e.1 := by
  rw [applyAdded, refers_insert, refers_iff, refers_iff]
  simp only [dereference, List.mem_filter, decide_eq_true_eq]
  constructor
  · rintro ((hp | ⟨hp, -⟩) | rfl)
    · exact .inl (.inl hp)
    · exact .inl (.inr hp)
    · exact .inr rfl
  · rintro ((hp | hp) | rfl)
    · exact .inl (.inl hp)
    · by_cases hpe : p = e.1
      · exact .inr hpe
      · exact .inl (.inr ⟨hp, hpe⟩)
    · exact .inr rfl

theorem refers_applyRemoved (h : l.Known hashes) {e : Nat × H} (he : hashes e.1 = some e.2) {p : Nat} :
    (l.applyRemoved e).Refers p ↔ l.Refers p ∧ p ≠ e.1 := by
  have hmap : ∀ q, q ∈ spots (if l.get? e.1 = some e.2 then l.erase e.1 else l).map ↔
      q ∈ spots l.map ∧ q ≠ e.1 := by
    intro q
    split
    · simp only [erase, mem_spots, List.mem_filter, decide_eq_true_eq]
      constructor
      · rintro ⟨x, ⟨hx, hne⟩, rfl⟩
        exact ⟨⟨x, hx, rfl⟩, hne⟩
      · rintro ⟨⟨x, hx, rfl⟩, hne⟩
        exact ⟨x, ⟨hx, hne⟩, rfl⟩
    next hne =>
      -- a position on record has the hash `hashes` gives it
      refine ⟨fun hq => ⟨hq, ?_⟩, fun hq => hq.1⟩
      rintro rfl
      obtain ⟨hash, hg⟩ := Option.isSome_iff_exists.mp (get?_isSome.mpr hq)
      have := h.get? hg
      rw [he] at this
      exact hne (by rw [hg, this])
  have href : (if l.get? e.1 = some e.2 then l.erase e.1 else l).referenced = l.referenced := by
    split <;> rfl
  rw [applyRemoved, refers_iff, refers_iff]
  simp only [dereference, List.mem_filter, decide_eq_true_eq, href]
  rw [hmap]
  tauto

theorem Known.applyRemoved (h : l.Known hashes) (e : Nat × H) : (l.applyRemoved e).Known hashes := by
  intro x hx
  simp only [LiveSet.applyRemoved, dereference] at hx
  split at hx
  · exact h x (List.mem_filter.mp hx).1
  · exact h x hx

variable (hashes) in
/-- What the set holds after a delta: added first, then removed. -/
theorem apply_spec (h : l.Known hashes) {δ : Delta H} (hadd : ∀ e ∈ δ.added, hashes e.1 = some e.2)
    (hrem : ∀ e ∈ δ.removed, hashes e.1 = some e.2) :
    (l.apply δ).Known hashes ∧
      ∀ p, (l.apply δ).Refers p ↔ (l.Refers p ∨ p ∈ spots δ.added) ∧ p ∉ spots δ.removed := by
  have hadded : ∀ (es : List (Nat × H)) (l : LiveSet H), l.Known hashes → (∀ e ∈ es, hashes e.1 = some e.2) →
      (es.foldl applyAdded l).Known hashes ∧ ∀ p, (es.foldl applyAdded l).Refers p ↔ l.Refers p ∨ p ∈ spots es := by
    intro es
    induction es with
    | nil => intro l hl _; exact ⟨hl, by simp⟩
    | cons e es ih =>
      intro l hl hes
      simp only [List.mem_cons, forall_eq_or_imp] at hes
      have hl' : (l.applyAdded e).Known hashes := Known.insert (l := l.dereference e.1) hl hes.1
      obtain ⟨hk, hp⟩ := ih (l.applyAdded e) hl' hes.2
      refine ⟨hk, fun p => ?_⟩
      rw [List.foldl_cons, hp, refers_applyAdded, spots_cons, List.mem_cons, or_assoc]
  have hremoved : ∀ (es : List (Nat × H)) (l : LiveSet H), l.Known hashes → (∀ e ∈ es, hashes e.1 = some e.2) →
      (es.foldl LiveSet.applyRemoved l).Known hashes ∧
        ∀ p, (es.foldl LiveSet.applyRemoved l).Refers p ↔ l.Refers p ∧ p ∉ spots es := by
    intro es
    induction es with
    | nil => intro l hl _; exact ⟨hl, by simp⟩
    | cons e es ih =>
      intro l hl hes
      simp only [List.mem_cons, forall_eq_or_imp] at hes
      obtain ⟨hk, hp⟩ := ih (l.applyRemoved e) (hl.applyRemoved e) hes.2
      refine ⟨hk, fun p => ?_⟩
      rw [List.foldl_cons, hp, refers_applyRemoved hl hes.1, spots_cons, List.mem_cons, not_or, and_assoc]
  obtain ⟨hk, hp⟩ := hadded δ.added l h hadd
  obtain ⟨hk', hp'⟩ := hremoved δ.removed _ hk hrem
  exact ⟨hk', fun p => by rw [apply, hp', hp]⟩

theorem refers_markReferenced {q p : Nat} : (l.markReferenced q).Refers p ↔ l.Refers p ∨ p = q := by
  unfold markReferenced
  split
  next hin =>
    refine ⟨.inl, ?_⟩
    rintro (hp | rfl)
    · exact hp
    · rw [refers_iff]
      exact hin.imp_left get?_isSome.mp
  · simp only [refers_iff, List.mem_cons]
    tauto

theorem mem_positions {l : LiveSet H} {p : Nat} : p ∈ l.positions ↔ l.Refers p := by
  rw [refers_iff, positions, List.mem_append]
  rfl

/-- What a finished walk refers to. -/
theorem refers_ofWalk (blocks : List (Nat × H)) (positions : List Nat) (p : Nat) :
    (ofWalk blocks positions).Refers p ↔ p ∈ spots blocks ∨ p ∈ positions := by
  have hinsert : ∀ (es : List (Nat × H)) (l : LiveSet H),
      (es.foldl LiveSet.insert l).Refers p ↔ l.Refers p ∨ p ∈ spots es := by
    intro es
    induction es with
    | nil => intro l; simp
    | cons e es ih =>
      intro l
      rw [List.foldl_cons, ih, refers_insert, spots_cons, List.mem_cons, or_assoc]
  have hmark : ∀ (ps : List Nat) (l : LiveSet H), (ps.foldl markReferenced l).Refers p ↔ l.Refers p ∨ p ∈ ps := by
    intro ps
    induction ps with
    | nil => intro l; simp
    | cons q ps ih =>
      intro l
      rw [List.foldl_cons, ih, refers_markReferenced, List.mem_cons, or_assoc]
  rw [ofWalk, hmark, hinsert]
  simp [refers_empty]

variable (hashes) in
/-- The set of a finished walk. -/
theorem ofWalk_spec {blocks : List (Nat × H)} (positions : List Nat)
    (h : ∀ e ∈ blocks, hashes e.1 = some e.2) :
    (ofWalk blocks positions).Known hashes ∧
      ∀ p, (ofWalk blocks positions).Refers p ↔ p ∈ spots blocks ∨ p ∈ positions := by
  have hinsert : ∀ (es : List (Nat × H)) (l : LiveSet H), l.Known hashes → (∀ e ∈ es, hashes e.1 = some e.2) →
      (es.foldl LiveSet.insert l).Known hashes := by
    intro es
    induction es with
    | nil => exact fun l hl _ => hl
    | cons e es ih =>
      intro l hl hes
      simp only [List.mem_cons, forall_eq_or_imp] at hes
      exact ih (l.insert e) (hl.insert hes.1) hes.2
  have hmark : ∀ (ps : List Nat) (l : LiveSet H), l.Known hashes → (ps.foldl markReferenced l).Known hashes := by
    intro ps
    induction ps with
    | nil => exact fun l hl => hl
    | cons q ps ih =>
      intro l hl
      refine ih _ ?_
      unfold markReferenced
      split <;> exact hl
  exact ⟨hmark positions _ (hinsert blocks empty (by intro e he; cases he) h), refers_ofWalk blocks positions⟩

end LiveSet
end Manifestus
