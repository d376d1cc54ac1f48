import Manifestus.Engine.Wire

/-! An encoding small enough to evaluate, for blocks written out in full. -/
namespace Manifestus
namespace PlainVsf

/-- The eight bytes of a number, the lowest first. -/
def bytes8 (x : UInt64) : Bytes := (List.range 8).map fun i => UInt8.ofNat (x.toNat / 256 ^ i)

def number (bytes : Bytes) : Nat := bytes.foldr (fun b n => b.toNat + 256 * n) 0

/-- A number takes one byte where it fits. -/
def flatten : VsfType → Bytes
  | .u x => if x < 256 then [0x75, 0x33, x.toUInt8] else [0x75, 0x36] ++ bytes8 x
  | .hp bytes => [0x68, UInt8.ofNat bytes.length] ++ bytes
  | .d name => [0x64, UInt8.ofNat name.length] ++ name
  | .e6 time => [0x65, 0x36] ++ bytes8 time.toUInt64
  | .v kind bytes => [0x76, kind, UInt8.ofNat bytes.length, UInt8.ofNat (bytes.length / 256)] ++ bytes
  | _ => [0x7A]

def parse (bytes : Bytes) (ptr : Nat) : Except String (VsfType × Nat) :=
  match bytes.drop ptr with
  | 0x75 :: 0x33 :: x :: _ => .ok (.u3 x, ptr + 3)
  | 0x75 :: 0x36 :: rest => .ok (.u6 (UInt64.ofNat (number (rest.take 8))), ptr + 10)
  | 0x68 :: len :: rest => .ok (.hp (rest.take len.toNat), ptr + (len.toNat + 2))
  | 0x64 :: len :: rest => .ok (.d (rest.take len.toNat), ptr + (len.toNat + 2))
  | 0x65 :: 0x36 :: rest => .ok (.e6 (UInt64.ofNat (number (rest.take 8))).toInt64, ptr + 10)
  | 0x76 :: kind :: low :: high :: rest =>
    let len := low.toNat + 256 * high.toNat
    .ok (.v kind (rest.take len), ptr + (len + 4))
  | 0x7A :: _ => .ok (.other 0, ptr + 1)
  | _ => .error "unknown type"

/-- The bytes folded into one number, written over 32 bytes. -/
def hash (bytes : Bytes) : Hash32 :=
  let x := bytes.foldl (fun a b => (a * 1000003 + b.toNat + 1) % (2 ^ 61 - 1)) 7
  ⟨(List.range 32).map fun i => UInt8.ofNat (x / 256 ^ i), by simp⟩

theorem number_bytes8 (x : UInt64) : UInt64.ofNat (number (bytes8 x)) = x := by
  have hx := x.toNat_lt
  have hnumber : number (bytes8 x) = x.toNat := by
    simp only [number, bytes8, List.range, List.range.loop, List.map_cons, List.map_nil, List.foldr_cons,
      List.foldr_nil, UInt8.toNat_ofNat']
    omega
  rw [hnumber, UInt64.ofNat_toNat]

theorem length_bytes8 (x : UInt64) : (bytes8 x).length = 8 := by simp [bytes8]

theorem parse_flatten (v : VsfType) (hv : v.Written) (front rest : Bytes) : ∃ w,
    parse (front ++ flatten v ++ rest) front.length = .ok (w, front.length + (flatten v).length) ∧ v.ReadAs w := by
  have hdrop : (front ++ flatten v ++ rest).drop front.length = flatten v ++ rest := by
    rw [List.append_assoc, List.drop_left]
  rw [parse, hdrop]
  cases v with
  | u x =>
    by_cases hx : x < 256
    · refine ⟨.u3 x.toUInt8, by simp [flatten, hx], ?_⟩
      have hlow : x.toUInt8.toUInt64 = x := by
        apply UInt64.toNat_inj.mp
        rw [UInt8.toNat_toUInt64, UInt64.toNat_toUInt8, Nat.mod_eq_of_lt (by simpa [UInt64.lt_iff_toNat_lt] using hx)]
      exact congrArg some hlow
    · exact ⟨.u6 x, by simp [flatten, hx, number_bytes8, length_bytes8], rfl⟩
  | hp bytes =>
    have hlen : bytes.length = 32 := hv
    exact ⟨.hp bytes, by simp [flatten, hlen], rfl⟩
  | d name =>
    have hlen : name.length < 256 := hv
    exact ⟨.d name, by simp [flatten, Nat.mod_eq_of_lt hlen], rfl⟩
  | e6 time => exact ⟨.e6 time, by simp [flatten, number_bytes8, length_bytes8], rfl⟩
  | _ => exact absurd hv not_false

theorem parse_gt {bytes : Bytes} {ptr : Nat} {v : VsfType} {next : Nat} (h : parse bytes ptr = .ok (v, next)) :
    ptr < next := by
  unfold parse at h
  split at h <;> cases h <;> omega

end PlainVsf

instance : Vsf where
  flatten := PlainVsf.flatten
  parse := PlainVsf.parse
  blake3 := PlainVsf.hash
  hpLen := 34
  flatten_hp h := by simp [PlainVsf.flatten, h.property]
  flatten_d _ := rfl
  parse_flatten := PlainVsf.parse_flatten
  parse_gt := PlainVsf.parse_gt

end Manifestus
