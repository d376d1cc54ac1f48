import Manifestus.Engine.Digest
import Manifestus.Index.Chunk
import Manifestus.Index.Insert
import Mathlib.Tactic.Ring

/-! Routes: the key bits a trie descent reads. A chunk is one base-32 digit, so a route with one
chunk replaced differs from its base in that digit alone, and two keys part at one. -/
set_option linter.unusedSectionVars false

namespace Manifestus
open Prog

variable {H : Type} [Crates H]

private theorem div_digit {x q r W i : Nat} (hW : 0 < W) (hr : r < W) (hx : x = W * q + r) :
    x / (W * i) = q / i := by
  subst hx
  rw [← Nat.div_div_eq_div_mul, Nat.mul_add_div hW, Nat.div_eq_of_lt hr, Nat.add_zero]

/-- One base-32 digit replaced leaves the others. -/
private theorem digit_replaced {x x' c v j : Nat} (hc : x / 32 ^ j % 32 = c) (hv : v < 32)
    (h : x' + c * 32 ^ j = x + v * 32 ^ j) :
    x' / 32 ^ j % 32 = v ∧ ∀ i, i ≠ j → x' / 32 ^ i % 32 = x / 32 ^ i % 32 := by
  have hW : 0 < 32 ^ j := by positivity
  obtain ⟨q, hq⟩ : ∃ q, q = x / 32 ^ j / 32 := ⟨_, rfl⟩
  obtain ⟨r, hr⟩ : ∃ r, r = x % 32 ^ j := ⟨_, rfl⟩
  have hrlt : r < 32 ^ j := hr ▸ Nat.mod_lt _ hW
  have hx : x = 32 ^ j * (32 * q + c) + r := by
    have hdigits : x / 32 ^ j = 32 * q + c := by omega
    rw [← hdigits, hr, Nat.div_add_mod]
  have hx' : x' = 32 ^ j * (32 * q + v) + r := by
    rw [hx] at h
    have hexpand : ∀ y, 32 ^ j * (32 * q + y) = 32 ^ j * (32 * q) + y * 32 ^ j := by
      intro y
      ring
    rw [hexpand] at h ⊢
    omega
  constructor
  · have := div_digit (i := 1) hW hrlt hx'
    rw [Nat.mul_one, Nat.div_one] at this
    omega
  · intro i hi
    rcases Nat.lt_or_gt_of_ne hi with hlt | hgt
    · -- below the replaced digit both are the digits of the remainder
      obtain ⟨m, rfl⟩ : ∃ m, j = i + 1 + m := ⟨j - (i + 1), by omega⟩
      have hlow : ∀ {y z}, y = 32 ^ (i + 1 + m) * z + r → y / 32 ^ i % 32 = r / 32 ^ i % 32 := by
        intro y z hy
        have hsplit : y = r + 32 ^ i * (32 * (32 ^ m * z)) := by
          rw [hy, pow_add, pow_add, pow_one]
          ring
        rw [hsplit, Nat.add_mul_div_left _ _ (by positivity), Nat.add_mul_mod_self_left]
      rw [hlow hx, hlow hx']
    · obtain ⟨m, rfl⟩ : ∃ m, i = j + (1 + m) := ⟨i - (j + 1), by omega⟩
      have hhigh : ∀ {y z}, z < 32 → y = 32 ^ j * (32 * q + z) + r →
          y / 32 ^ (j + (1 + m)) = q / 32 ^ m := by
        intro y z hz hy
        rw [pow_add, div_digit hW hrlt hy, pow_add, pow_one, ← Nat.div_div_eq_div_mul]
        congr 1
        omega
      rw [hhigh (hc ▸ Nat.mod_lt _ (by decide)) hx, hhigh hv hx']

theorem Key.byte_lt (k : Key) (i : Nat) : k.byte i < 256 := Nat.mod_lt _ (by decide)

/-- A byte written replaces one base-256 digit. -/
theorem Key.setByte_toNat {k : Key} {i v : Nat} (hi : i < 32) (hv : v < 256) :
    (k.setByte i v).toNat + k.byte i * 2 ^ (8 * (31 - i)) = k.toNat + v * 2 ^ (8 * (31 - i)) := by
  unfold Key.setByte Key.byte
  have hk := k.isLt
  have hspan : 2 ^ (8 * (31 - i)) * 2 ^ (8 * (i + 1)) = 2 ^ 256 := by
    rw [← pow_add]
    congr 1
    omega
  have hbytes : 2 ^ (8 * (i + 1)) = 256 * 2 ^ (8 * i) := by
    rw [show (256 : Nat) = 2 ^ 8 by rfl, ← pow_add]
    congr 1
    omega
  have hP : 0 < 2 ^ (8 * (31 - i)) := by positivity
  generalize 2 ^ (8 * (31 - i)) = P at *
  have hx : k.toNat / P < 2 ^ (8 * (i + 1)) := Nat.div_lt_of_lt_mul (by rw [hspan]; exact hk)
  have hsum := Nat.div_add_mod k.toNat P
  have hr : k.toNat % P < P := Nat.mod_lt _ hP
  generalize k.toNat % P = r at *
  generalize k.toNat / P = x at *
  rw [Nat.mod_eq_of_lt hv, ← hsum]
  have hnew : P * (x - x % 256 + v) + r < 2 ^ 256 := by
    have hlt : x - x % 256 + v + 1 ≤ 2 ^ (8 * (i + 1)) := by omega
    calc P * (x - x % 256 + v) + r < P * (x - x % 256 + v + 1) := by rw [Nat.mul_add_one]; omega
      _ ≤ P * 2 ^ (8 * (i + 1)) := Nat.mul_le_mul_left _ hlt
      _ = 2 ^ 256 := hspan
  have hdigit : P * x = P * (x - x % 256) + x % 256 * P := by
    rw [Nat.mul_comm (x % 256) P, ← Nat.mul_add]
    congr 1
    omega
  have hval : P * x + r - x % 256 * P + v * P = P * (x - x % 256 + v) + r := by
    rw [Nat.mul_add, Nat.mul_comm v P]
    omega
  rw [BitVec.toNat_ofNat, hval, Nat.mod_eq_of_lt hnew, Nat.mul_add, Nat.mul_comm v P]
  omega

/-- The byte after a written one stands. -/
theorem Key.byte_succ_setByte {k : Key} {i v : Nat} (hi : i < 31) (hv : v < 256) :
    (k.setByte i v).byte (i + 1) = k.byte (i + 1) := by
  have hset := Key.setByte_toNat (k := k) (by omega : i < 32) hv
  unfold Key.byte at *
  have hexp : 8 * (31 - i) = 8 * (31 - (i + 1)) + 8 := by omega
  rw [hexp, pow_add] at hset
  generalize k.toNat / (2 ^ (8 * (31 - (i + 1))) * 2 ^ 8) % 256 = c at hset
  have hdiv := congrArg (· / 2 ^ (8 * (31 - (i + 1)))) hset
  have hmul : ∀ y, y * (2 ^ (8 * (31 - (i + 1))) * 2 ^ 8) = 2 ^ (8 * (31 - (i + 1))) * (y * 256) := by
    intro y
    rw [show (2 : Nat) ^ 8 = 256 by rfl]
    ring
  simp only [hmul, Nat.add_mul_div_left _ _ (show 0 < 2 ^ (8 * (31 - (i + 1))) by positivity)] at hdiv
  omega

/-- Both bytes of a window written. -/
private theorem setWindow_toNat {k : Key} {b w : Nat} (hb : b < 31) (hw : w < 65536) :
    ((k.setByte b (w / 256)).setByte (b + 1) (w % 256)).toNat +
      (k.byte b * 256 + k.byte (b + 1)) * 2 ^ (8 * (30 - b)) = k.toNat + w * 2 ^ (8 * (30 - b)) := by
  have hfirst := Key.setByte_toNat (k := k) (by omega : b < 32) (by omega : w / 256 < 256)
  have hsecond := Key.setByte_toNat (k := k.setByte b (w / 256)) (by omega : b + 1 < 32)
    (by omega : w % 256 < 256)
  have hexp : 8 * (31 - b) = 8 * (30 - b) + 8 := by omega
  have hexp' : 8 * (31 - (b + 1)) = 8 * (30 - b) := by omega
  rw [Key.byte_succ_setByte hb (by omega), hexp'] at hsecond
  rw [hexp, pow_add, show (2 : Nat) ^ 8 = 256 by rfl] at hfirst
  have hparts : w * 2 ^ (8 * (30 - b)) =
      w / 256 * (2 ^ (8 * (30 - b)) * 256) + w % 256 * 2 ^ (8 * (30 - b)) := by
    conv_lhs => rw [← Nat.div_add_mod w 256]
    ring
  have hold : (k.byte b * 256 + k.byte (b + 1)) * 2 ^ (8 * (30 - b)) =
      k.byte b * (2 ^ (8 * (30 - b)) * 256) + k.byte (b + 1) * 2 ^ (8 * (30 - b)) := by ring
  rw [hparts, hold]
  omega

private theorem window_lt (k : Key) {d : Nat} : k.window d < 65536 := by
  unfold Key.window
  have hhigh := Key.byte_lt k (d * 5 / 8)
  have hlow := Key.byte_lt k (d * 5 / 8 + 1)
  dsimp only
  split <;> omega

/-- A five-bit field of a window replaced. -/
private theorem field_replaced {w v s : Nat} (hw : w < 65536) (hv : v < 32) (hs : s ≤ 11) :
    w - w / 2 ^ s % 32 * 2 ^ s + v * 2 ^ s < 65536 ∧
      w - w / 2 ^ s % 32 * 2 ^ s + v * 2 ^ s + w / 2 ^ s % 32 * 2 ^ s = w + v * 2 ^ s := by
  interval_cases s <;> omega

/-- The last level has one bit. -/
theorem chunk_last (k : Key) : (chunk k 51).val % 16 = 0 := by
  rw [chunk_val (by decide)]
  omega

/-- A route with a chunk replaced differs from its base by that digit. -/
theorem routeWithChunk_toNat {base : Key} {d : Nat} {slot : Fin 32} (hd : d < maxDepth)
    (hlast : d = 51 → slot.val % 16 = 0) :
    (routeWithChunk base d slot).toNat * 16 + (chunk base d).val * 32 ^ (51 - d) =
      base.toNat * 16 + slot.val * 32 ^ (51 - d) := by
  have hd : d < 52 := hd
  have hslot := slot.isLt
  unfold routeWithChunk chunk
  dsimp only
  have hfield := field_replaced (s := 11 - d * 5 % 8) (window_lt base (d := d)) hslot (by omega)
  generalize hc : base.window d / 2 ^ (11 - d * 5 % 8) % 32 = c at *
  have hclt : c < 32 := hc ▸ Nat.mod_lt _ (by decide)
  generalize hnew : base.window d - c * 2 ^ (11 - d * 5 % 8) + slot.val * 2 ^ (11 - d * 5 % 8) = new at *
  obtain ⟨hnewlt, hsum⟩ := hfield
  rcases Nat.lt_or_ge d 50 with h | h
  · have hbyte : d * 5 / 8 < 31 := by omega
    rw [if_pos (by omega)]
    have hset := setWindow_toNat (k := base) hbyte hnewlt
    have hwindow : base.window d = base.byte (d * 5 / 8) * 256 + base.byte (d * 5 / 8 + 1) := by
      unfold Key.window
      dsimp only
      rw [if_pos (by omega)]
    rw [← hwindow] at hset
    have hweight : 32 ^ (51 - d) = 2 ^ (11 - d * 5 % 8) * 2 ^ (8 * (30 - d * 5 / 8)) * 16 := by
      rw [show (32 : Nat) = 2 ^ 5 by rfl, ← pow_mul, show (16 : Nat) = 2 ^ 4 by rfl, ← pow_add, ← pow_add]
      congr 1
      omega
    rw [hweight]
    generalize 2 ^ (8 * (30 - d * 5 / 8)) = P at *
    generalize 2 ^ (11 - d * 5 % 8) = S at *
    have hmul := congrArg (· * P) hsum
    have hassoc : ∀ y, y * (S * P * 16) = y * S * P * 16 := by
      intro y
      ring
    simp only [Nat.add_mul] at hmul
    rw [hassoc, hassoc]
    omega
  · -- the last two levels lie in byte 31, with zeros after it
    obtain rfl | rfl : d = 50 ∨ d = 51 := by omega
    · have hset := Key.setByte_toNat (k := base) (by decide : 31 < 32) (by omega : new / 256 < 256)
      norm_num [Key.window] at hsum hset hnew ⊢
      omega
    · have hset := Key.setByte_toNat (k := base) (by decide : 31 < 32) (by omega : new / 256 < 256)
      have hlast := hlast rfl
      norm_num [Key.window] at hc hsum hset hnew ⊢
      omega

/-- `routeWithChunk` sets the chunk at `d` and no other. -/
theorem chunk_routeWithChunk {base : Key} {d : Nat} {slot : Fin 32} (hd : d < maxDepth)
    (hslot : ∃ k, chunk k d = slot) :
    chunk (routeWithChunk base d slot) d = slot ∧
      ∀ j < maxDepth, j ≠ d → chunk (routeWithChunk base d slot) j = chunk base j := by
  have hlast : d = 51 → slot.val % 16 = 0 := by
    intro h
    obtain ⟨k, rfl⟩ := hslot
    subst h
    exact chunk_last k
  obtain ⟨hat, hother⟩ := digit_replaced (chunk_val hd).symm slot.isLt (routeWithChunk_toNat hd hlast)
  constructor
  · apply Fin.ext
    rw [chunk_val hd, hat]
  · intro j hj hne
    apply Fin.ext
    have hd : d < 52 := hd
    have hj' : j < 52 := hj
    rw [chunk_val hj, chunk_val hj, hother (51 - j) (by omega)]

/-- Distinct keys part at a first level. -/
theorem exists_fork {k k' : Key} {depth : Nat} (hne : k ≠ k')
    (hagree : ∀ j < depth, chunk k j = chunk k' j) :
    ∃ n, depth + n < maxDepth ∧ chunk k (depth + n) ≠ chunk k' (depth + n) ∧
      ∀ j < depth + n, chunk k j = chunk k' j := by
  have hdiffer : ∃ d, chunk k d ≠ chunk k' d ∧ d < maxDepth := by
    by_contra hnone
    apply hne
    apply chunk_ext
    intro d hd
    by_contra h
    exact hnone ⟨d, h, hd⟩
  classical
  obtain ⟨hfork, hlt⟩ := Nat.find_spec hdiffer
  have hbelow : depth ≤ Nat.find hdiffer := by
    by_contra h
    exact hfork (hagree _ (by omega))
  refine ⟨Nat.find hdiffer - depth, ?_⟩
  rw [Nat.add_sub_cancel' hbelow]
  refine ⟨hlt, hfork, ?_⟩
  intro j hj
  by_contra h
  exact Nat.find_min hdiffer hj ⟨h, by omega⟩

namespace Hamt

/-- The node at which two keys part, a slot each. -/
def forkNode (depth : Nat) (a b : Key × Child H) : Node H :=
  ⟨depth, a.1, Function.update (Function.update (fun _ => none) (chunk a.1 depth) (some a.2))
    (chunk b.1 depth) (some b.2)⟩

/-- A node with the one child at `idx`. -/
def linkNode (depth : Nat) (key : Key) (idx : Nat) : Node H :=
  ⟨depth, key, Function.update (fun _ => none) (chunk key depth) (some (.dirty idx))⟩

/-- The arena nodes from the fork, `n` levels down, up to `depth`; the first is at `start`. -/
def splitChain (start depth : Nat) (a b : Key × Child H) : Nat → List (Node H)
  | 0 => [forkNode depth a b]
  | n + 1 => splitChain start (depth + 1) a b n ++ [linkNode depth a.1 (start + n)]

theorem length_splitChain {start : Nat} {a b : Key × Child H} :
    ∀ {n depth : Nat}, (splitChain start depth a b n).length = n + 1 := by
  intro n
  induction n with
  | zero => intro depth; rfl
  | succ n ih => intro depth; rw [splitChain, List.length_append, ih, List.length_singleton]

/-- `split` builds the chain down to the fork and no further. -/
theorem split_chain {a b : Key × Child H} : ∀ {n fuel depth : Nat} {s : Store H}, n < fuel →
    depth + n < maxDepth → (∀ j, depth ≤ j → j < depth + n → chunk a.1 j = chunk b.1 j) →
    chunk a.1 (depth + n) ≠ chunk b.1 (depth + n) →
    (split fuel depth a b).run s = (.ok (.dirty (s.hamt.arena.length + n)),
      { s with hamt := { s.hamt with
        arena := s.hamt.arena ++ splitChain s.hamt.arena.length depth a b n } }) := by
  intro n
  induction n with
  | zero =>
    intro fuel depth s hfuel hmax _ hfork
    obtain ⟨fuel, rfl⟩ : ∃ f, fuel = f + 1 := ⟨fuel - 1, by omega⟩
    simp only [Nat.add_zero] at hmax hfork
    simp [split, chunkAt_run hmax, hfork, pushNode_run, splitChain, forkNode]
  | succ n ih =>
    intro fuel depth s hfuel hmax hagree hfork
    obtain ⟨fuel, rfl⟩ : ∃ f, fuel = f + 1 := ⟨fuel - 1, by omega⟩
    have hhere := hagree depth le_rfl (by omega)
    have hassoc : depth + (n + 1) = depth + 1 + n := by omega
    rw [hassoc] at hmax hfork
    have hrun := @ih fuel (depth + 1) s (by omega) hmax
      (fun j hj hj' => hagree j (by omega) (by omega)) hfork
    have hlen : (s.hamt.arena ++ splitChain s.hamt.arena.length (depth + 1) a b n).length =
        s.hamt.arena.length + (n + 1) := by rw [List.length_append, length_splitChain]
    simp only [split, bind_run, chunkAt_run (by omega : depth < maxDepth), hhere, if_true, hrun,
      pushNode_run, pure_run, hlen, splitChain, linkNode, List.append_assoc]

end Hamt

/-- Chunks separate keys: distinct keys differ at a level, `split` from any level they agree up to
ends with the fork at level 51 at most, and a replaced chunk is the only one that changes. -/
theorem chunks_separate_keys :
    (∀ k k' : Key, k ≠ k' → ∃ d < maxDepth, chunk k d ≠ chunk k' d) ∧
    (∀ (a b : Key × Child H) (depth : Nat) (s : Store H), a.1 ≠ b.1 →
      (∀ j < depth, chunk a.1 j = chunk b.1 j) →
      ∃ n, depth + n ≤ 51 ∧ chunk a.1 (depth + n) ≠ chunk b.1 (depth + n) ∧
        (Hamt.split Hamt.descentFuel depth a b).run s = (.ok (.dirty (s.hamt.arena.length + n)),
          { s with hamt := { s.hamt with
            arena := s.hamt.arena ++ Hamt.splitChain s.hamt.arena.length depth a b n } })) ∧
    ∀ (base : Key) (d : Nat) (slot : Fin 32), d < maxDepth → (∃ k, chunk k d = slot) →
      chunk (routeWithChunk base d slot) d = slot ∧
        ∀ j < maxDepth, j ≠ d → chunk (routeWithChunk base d slot) j = chunk base j := by
  constructor
  · intro k k' hne
    obtain ⟨n, hlt, hfork, -⟩ := exists_fork hne (fun j (hj : j < 0) => absurd hj (Nat.not_lt_zero j))
    exact ⟨_, hlt, hfork⟩
  constructor
  · intro a b depth s hne hagree
    obtain ⟨n, hlt, hfork, hbelow⟩ := exists_fork hne hagree
    have hlt : depth + n < 52 := hlt
    have hfuel : n < Hamt.descentFuel := by
      show n < 53
      omega
    exact ⟨n, by omega, hfork, Hamt.split_chain hfuel hlt (fun j _ hj => hbelow j hj) hfork⟩
  · intro base d slot hd hslot
    exact chunk_routeWithChunk hd hslot

/-- The keys 0 and 1 differ in the padded last level, from every level on. -/
theorem chunks_separate_keys_last :
    (∃ d < maxDepth, chunk 0#256 d ≠ chunk 1#256 d) ∧
    (∃ n, 7 + n ≤ 51 ∧ chunk 0#256 (7 + n) ≠ chunk 1#256 (7 + n)) ∧
    chunk (routeWithChunk 1#256 49 31) 49 = 31 ∧ chunk (routeWithChunk 1#256 49 31) 51 = 16 := by
  obtain ⟨hdiffer, hsplit, hroute⟩ := chunks_separate_keys (H := Digest)
  constructor
  · exact hdiffer 0#256 1#256 (by decide)
  constructor
  · obtain ⟨n, hn, hfork, -⟩ := hsplit (0#256, .dirty 0) (1#256, .dirty 1) 7
      ⟨⟨none, none, false, [], [], [], 0, none, []⟩, ⟨4, 4, 0, 0, none⟩, Hamt.empty⟩ (by decide) (by decide)
    exact ⟨n, hn, hfork⟩
  · obtain ⟨hat, hother⟩ := hroute 1#256 49 31 (by decide) ⟨BitVec.allOnes 256, by decide⟩
    exact ⟨hat, (hother 51 (by decide) (by decide)).trans (by decide)⟩

end Manifestus
