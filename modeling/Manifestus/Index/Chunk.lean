import Manifestus.Engine.Doc
import Mathlib.Tactic.IntervalCases
import Mathlib.Tactic.NormNum

/-! Key chunks are the base-32 digits of the key shifted by the four bits that fill the last
level; distinct keys differ in one of the 52. -/
set_option linter.unusedSectionVars false

namespace Manifestus

private theorem window_of_lt {k : Key} {b : Nat} (hb : b < 31) :
    k.byte b * 256 + k.byte (b + 1) = k.toNat / 2 ^ (8 * (30 - b)) % 65536 := by
  have hexp : 8 * (31 - b) = 8 * (30 - b) + 8 := by omega
  have hexp' : 8 * (31 - (b + 1)) = 8 * (30 - b) := by omega
  unfold Key.byte
  rw [hexp, hexp', pow_add, ← Nat.div_div_eq_div_mul]
  generalize k.toNat / 2 ^ (8 * (30 - b)) = y
  omega

private theorem low_digit {y s : Nat} (hs : s ≤ 11) : y % 65536 / 2 ^ s % 32 = y / 2 ^ s % 32 := by
  interval_cases s <;> omega

/-- Chunk `d` is the digit of weight `51 - d`. -/
theorem chunk_val {k : Key} {d : Nat} (hd : d < maxDepth) :
    (chunk k d).val = k.toNat * 16 / 32 ^ (51 - d) % 32 := by
  have hd : d < 52 := hd
  unfold chunk Key.window
  simp only
  rcases Nat.lt_or_ge d 50 with h | h
  · have hbyte : d * 5 / 8 < 31 := by omega
    have hexp : 8 * (30 - d * 5 / 8) + (11 - d * 5 % 8) = 5 * (50 - d) + 1 := by omega
    rw [if_pos (by omega), window_of_lt hbyte, low_digit (by omega), Nat.div_div_eq_div_mul, ← pow_add,
      hexp]
    have hweight : (32 : Nat) ^ (51 - d) = 2 ^ (5 * (50 - d) + 1) * 16 := by
      rw [show (32 : Nat) = 2 ^ 5 by rfl, ← pow_mul, show (16 : Nat) = 2 ^ 4 by rfl, ← pow_add]
      congr 1
      omega
    rw [hweight, Nat.mul_div_mul_right _ _ (by decide)]
  · obtain rfl | rfl : d = 50 ∨ d = 51 := by omega
    · norm_num [Key.byte]
      omega
    · norm_num [Key.byte]
      omega

private theorem eq_of_digits : ∀ {n x y : Nat}, x < 32 ^ n → y < 32 ^ n →
    (∀ j < n, x / 32 ^ j % 32 = y / 32 ^ j % 32) → x = y := by
  intro n
  induction n with
  | zero => intro x y hx hy _; omega
  | succ n ih =>
    intro x y hx hy h
    have hlow := h 0 (by omega)
    have hhigh : x / 32 = y / 32 := by
      apply ih
      · exact Nat.div_lt_of_lt_mul (by rw [← pow_succ']; exact hx)
      · exact Nat.div_lt_of_lt_mul (by rw [← pow_succ']; exact hy)
      · intro j hj
        have := h (j + 1) (by omega)
        rwa [pow_succ', ← Nat.div_div_eq_div_mul, ← Nat.div_div_eq_div_mul] at this
    simp only [pow_zero, Nat.div_one] at hlow
    omega

/-- Keys that agree in every chunk are equal. -/
theorem chunk_ext {k k' : Key} (h : ∀ d < maxDepth, chunk k d = chunk k' d) : k = k' := by
  have heq : k.toNat * 16 = k'.toNat * 16 := by
    apply eq_of_digits (n := 52)
    · have := k.isLt
      calc k.toNat * 16 < 2 ^ 256 * 16 := by omega
        _ ≤ 32 ^ 52 := by decide
    · have := k'.isLt
      calc k'.toNat * 16 < 2 ^ 256 * 16 := by omega
        _ ≤ 32 ^ 52 := by decide
    · intro j hj
      have hd : 51 - j < maxDepth := by
        show 51 - j < 52
        omega
      have := congrArg Fin.val (h (51 - j) hd)
      rw [chunk_val hd, chunk_val hd] at this
      rwa [show 51 - (51 - j) = j by omega] at this
  exact BitVec.eq_of_toNat_eq (by omega)

/-- The chunks of `k` from the root down are `path`. -/
def OnPath (path : List (Fin 32)) (k : Key) : Prop :=
  ∀ i (hi : i < path.length), chunk k i = path[i]

theorem onPath_nil (k : Key) : OnPath [] k := fun i hi => by simp at hi

theorem OnPath.snoc {path : List (Fin 32)} {k : Key} (h : OnPath path k) {i : Fin 32}
    (hi : chunk k path.length = i) : OnPath (path ++ [i]) k := by
  intro j hj
  rcases Nat.lt_or_ge j path.length with hlt | hge
  · rw [List.getElem_append_left hlt]
    exact h j hlt
  · have hjeq : j = path.length := by
      rw [List.length_append, List.length_singleton] at hj
      omega
    subst hjeq
    simpa using hi

theorem OnPath.chunk_eq {path : List (Fin 32)} {k : Key} {i : Fin 32} (h : OnPath (path ++ [i]) k) :
    chunk k path.length = i := by
  have := h path.length (by simp)
  simpa using this

theorem OnPath.init {path : List (Fin 32)} {k : Key} {i : Fin 32} (h : OnPath (path ++ [i]) k) :
    OnPath path k := by
  intro j hj
  have := h j (by simp; omega)
  rwa [List.getElem_append_left hj] at this

/-- Two different keys on one path part below the last level. -/
theorem OnPath.length_lt {path : List (Fin 32)} {k k' : Key} (h : OnPath path k) (h' : OnPath path k')
    (hne : k ≠ k') : path.length < maxDepth := by
  by_contra hge
  apply hne
  apply chunk_ext
  intro d hd
  rw [h d (by omega), h' d (by omega)]

end Manifestus
