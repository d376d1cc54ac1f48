import Manifestus.Flat.Device

/-! What a power loss leaves of a device whose log ended quietly before the writes it cuts. -/
set_option linter.unusedSectionVars false

namespace Manifestus

variable {H : Type} [Crates H] {i j : Image H} {d : Dev H}

/-- Since the last flush nothing was written. -/
def Quiet (ops : List (DevOp H)) : Prop :=
  ∀ kept later, ops = kept ++ later → DevOp.flush ∉ later → ∀ op ∈ later, op.isGrow = true

theorem quiet_nil : Quiet ([] : List (DevOp H)) := by
  intro kept later h _ op hop
  rw [List.nil_eq_append_iff] at h
  rw [h.2] at hop
  cases hop

theorem quiet_flush (ops : List (DevOp H)) : Quiet (ops ++ [.flush]) := by
  intro kept later h hno op hop
  rcases List.eq_nil_or_concat later with rfl | ⟨rest, last, rfl⟩
  · cases hop
  · rw [List.concat_eq_append, ← List.append_assoc] at h
    have hlast := (List.append_inj' h rfl).2
    simp only [List.cons.injEq, and_true] at hlast
    exact absurd (by simp [hlast]) hno

theorem Quiet.grow {ops : List (DevOp H)} (h : Quiet ops) (n : Nat) : Quiet (ops ++ [.grow n]) := by
  intro kept later heq hno op hop
  rcases List.eq_nil_or_concat later with rfl | ⟨rest, last, rfl⟩
  · cases hop
  · rw [List.concat_eq_append] at heq hno hop
    rw [← List.append_assoc] at heq
    obtain ⟨hops, hlast⟩ := List.append_inj' heq rfl
    simp only [List.cons.injEq, and_true] at hlast
    rcases List.mem_append.mp hop with hop | hop
    · exact h kept rest hops (fun hf => hno (List.mem_append_left _ hf)) op hop
    · rw [List.mem_singleton.mp hop, ← hlast]
      rfl

/-- `j` is `i` with some of the blocks of `xs` written, whole or torn. -/
structure Image.Torn (i : Image H) (xs : List (Nat × Block H)) (j : Image H) : Prop where
  count : j.count = i.count
  data : ∀ l, j.data l = i.data l ∨ ∃ b, (l, b) ∈ xs ∧ (j.data l = b ∨ ∃ id, j.data l = .raw id)

theorem Image.Torn.nil (h : i.Torn [] j) : j = i := by
  obtain ⟨jc, jd⟩ := j
  obtain ⟨ic, id⟩ := i
  obtain ⟨rfl, hdata⟩ := h
  congr
  funext l
  exact (hdata l).resolve_right (by simp)

theorem Image.after_append (i : Image H) (ops ops' : List (DevOp H)) :
    i.after (ops ++ ops') = (i.after ops).after ops' := by
  simp [Image.after]

/-- The writes of a batch, as a log has them. -/
def writesOf (xs : List (Nat × Block H)) : List (DevOp H) := xs.map fun x => .write x.1 x.2

theorem mem_writesOf {xs : List (Nat × Block H)} {l : Nat} {b : Block H} :
    DevOp.write l b ∈ writesOf xs ↔ (l, b) ∈ xs := by
  simp only [writesOf, List.mem_map, DevOp.write.injEq]
  constructor
  · rintro ⟨x, hx, rfl, rfl⟩
    exact hx
  · intro h
    exact ⟨(l, b), h, rfl, rfl⟩

/-- Writes and flushes change nothing but the blocks written. -/
theorem Image.torn_after {xs : List (Nat × Block H)} {ops : List (DevOp H)} : ∀ {i : Image H},
    (∀ op ∈ ops, op = .flush ∨ ∃ x ∈ xs, op = .write x.1 x.2) → i.Torn xs (i.after ops) := by
  induction ops with
  | nil => intro i _; exact ⟨rfl, fun l => .inl rfl⟩
  | cons op ops ih =>
    intro i h
    simp only [List.mem_cons, forall_eq_or_imp] at h
    obtain ⟨hcount, hdata⟩ := ih (i := i.step op) h.2
    rcases h.1 with rfl | ⟨x, hx, rfl⟩
    · exact ⟨hcount, hdata⟩
    · refine ⟨hcount, fun l => ?_⟩
      rcases hdata l with hl | hl
      · by_cases hlx : l = x.1
        · subst hlx
          refine .inr ⟨x.2, hx, .inl ?_⟩
          simpa [Image.after, Image.step] using hl
        · left
          simpa [Image.after, Image.step, hlx] using hl
      · exact .inr hl

/-- A power loss among writes after a quiet log. -/
theorem Image.Survives.torn {ops rest : List (DevOp H)} {xs : List (Nat × Block H)} (hq : Quiet ops)
    (hrest : ∀ op ∈ rest, op = .flush ∨ ∃ x ∈ xs, op = .write x.1 x.2) (h : i.Survives (ops ++ rest) j) :
    (i.after ops).Torn xs j := by
  obtain ⟨kept, later, heq, hno, hcount, hdata⟩ := h
  have hgrow : ∀ l : List (DevOp H), (∀ op ∈ l, op ∈ rest) → l.filter DevOp.isGrow = [] := by
    intro l hl
    rw [List.filter_eq_nil_iff]
    intro op hop
    rcases hrest op (hl op hop) with rfl | ⟨x, -, rfl⟩ <;> simp [DevOp.isGrow]
  have hwrite : ∀ l b, DevOp.write l b ∈ rest → (l, b) ∈ xs := by
    intro l b hmem
    rcases hrest _ hmem with hf | ⟨x, hx, hxw⟩
    · cases hf
    · simp only [DevOp.write.injEq] at hxw
      rw [hxw.1, hxw.2]
      exact hx
  have hcount' : j.count = (i.after ops).count := by
    rw [hcount, Image.after_append]
    exact (Image.torn_after hrest).count
  rcases List.append_eq_append_iff.mp heq with ⟨mid, hk, hl⟩ | ⟨mid, hk, hl⟩
  · -- everything before the writes is kept
    subst hk hl
    refine ⟨hcount', fun l => ?_⟩
    rcases hdata l with hl | ⟨b, hb, hl⟩
    · rw [hgrow later fun op hop => List.mem_append_right _ hop, List.append_nil, Image.after_append] at hl
      rw [hl]
      exact (Image.torn_after fun op hop => hrest op (List.mem_append_left _ hop)).data l
    · exact .inr ⟨b, hwrite l b (List.mem_append_right _ hb), hl⟩
  · -- the cut lies in the quiet tail
    subst hk hl
    have hmid := hq kept mid rfl fun hf => hno (List.mem_append_left _ hf)
    refine ⟨hcount', fun l => ?_⟩
    rcases hdata l with hl | ⟨b, hb, hl⟩
    · left
      rw [List.filter_append, List.filter_eq_self.mpr hmid, hgrow rest fun op hop => hop, List.append_nil] at hl
      exact hl
    · rcases List.mem_append.mp hb with hb | hb
      · exact absurd (hmid _ hb) (by simp [DevOp.isGrow])
      · exact .inr ⟨b, hwrite l b hb, hl⟩

/-- A quiet device survives as it is. -/
theorem Image.Survives.quiet {ops : List (DevOp H)} (hq : Quiet ops) (h : i.Survives ops j) :
    j = i.after ops := by
  have hall : i.Survives (ops ++ []) j := by simpa using h
  have htorn : (i.after ops).Torn [] j := Image.Survives.torn hq (by simp) hall
  exact htorn.nil

end Manifestus
