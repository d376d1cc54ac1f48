import Manifestus.Engine.Block

/-! A digest small enough to evaluate, for runs on concrete devices. -/
namespace Manifestus

structure Digest where
  val : Nat
  deriving DecidableEq, Repr

namespace Digest

def mix (xs : List Nat) : Nat := xs.foldl (fun a x => (a * 1000003 + x + 1) % (2 ^ 61 - 1)) 7

/-- The numbers a document is made of, its schema first. -/
def numbers : Doc Digest → List Nat
  | .spine e => [1, e.gen, e.prevHash.val, e.ringLog2, e.tractBlocks, e.hamtHash.val, e.hamtLba,
      e.plow, e.reap.elim 0 (· + 1), e.live, e.eagleTime.toNat]
  | .root e => [2, e.gen, e.prevHash.val, e.ringLog2, e.base, e.was, e.since, e.residences,
      e.residency, e.eagleTime.toNat]
  | .node depth route slots => [3, depth, route.toNat] ++ (List.finRange 32).flatMap fun i =>
      (slots i).elim [0] fun p => [1, p.1.val, p.2]
  | .lone key value => [4, key.toNat] ++ value.map UInt8.toNat
  | .extent key size runs => [5, key.toNat, size] ++ runs.flatMap fun r => [r.1, r.2]
  | .direct key size furrows => [6, key.toNat, size] ++ furrows
  | .furrow key index payload => [7, key.toNat, index] ++ payload.map UInt8.toNat
  | .foreign id => [8, id]

end Digest

instance : Crates Digest where
  decEq := inferInstance
  zeros := ⟨0⟩
  hash doc extra := ⟨Digest.mix (Digest.numbers doc ++ [extra]) + 1⟩
  hash_ne_zeros doc extra h := by simp at h
  hpLen := 36
  hpLen_le := by decide
  order l := l
  order_perm l := .refl l

end Manifestus
