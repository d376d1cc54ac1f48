import Manifestus.Engine.Ring
import Manifestus.Flat.Mirror

/-! What zeroing a ring region and appending generations leave on the primary. -/
set_option linter.unusedSectionVars false

namespace Manifestus
open Prog

variable {H : Type} [Crates H]

/-- Zero written to each of `slots` positions from `base`, as `zeroRingAt` does. -/
private theorem zeroSlots_run {m : Mirror H} {d : Dev H} (h : m.Ready d) (base : Nat) :
    ∀ slots : List Nat, (∀ s ∈ slots, base + s < d.count) → slots ≠ [] →
      ∃ m' d', (each (fun slot => Mirror.writeVerified (base + slot) .zero) slots).run m = (.ok (), m') ∧
        m'.Ready d' ∧ m'.pending = [] ∧ d'.count = d.count ∧ d'.limit = d.limit ∧
        ∀ l, d'.data l = if ∃ s ∈ slots, l = base + s then .zero else m.view d l := by
  intro slots
  induction slots generalizing m d with
  | nil => simp
  | cons s slots ih =>
    intro hb _
    simp only [List.mem_cons, forall_eq_or_imp] at hb
    obtain ⟨m₁, hrun, h₁, hp₁⟩ := Mirror.writeVerified_run h hb.1 .zero
    have hdata : ∀ l, (((m.drained d).landed (base + s, Block.zero)).flushed).data l =
        if l = base + s then .zero else m.view d l := by
      intro l
      simp [Mirror.drained_data, Function.update_apply]
    by_cases hne : slots = []
    · subst hne
      refine ⟨m₁, _, by simp [each, hrun], h₁, hp₁, by simp, by simp, ?_⟩
      intro l
      rw [hdata]
      simp
    · obtain ⟨m', d', hrun', h', hp', hcount, hlimit, hd'⟩ := ih h₁ (by simpa using hb.2) hne
      refine ⟨m', d', by simp [each, hrun, hrun'], h', hp', by simpa using hcount,
        by simpa using hlimit, ?_⟩
      intro l
      rw [hd', Mirror.view_of_pending_nil hp₁, hdata]
      by_cases h₁ : l = base + s <;> by_cases h₂ : ∃ s ∈ slots, l = base + s <;> simp [h₁, h₂]

theorem zeroRingAt_run {m : Mirror H} {d : Dev H} (h : m.Ready d) (ringLog2 base : Nat)
    (hfit : base + 2 ^ ringLog2 ≤ d.count) :
    ∃ m' d', (zeroRingAt ringLog2 base).run m = (.ok (), m') ∧ m'.Ready d' ∧ m'.pending = [] ∧
      d'.count = d.count ∧ d'.limit = d.limit ∧
      ∀ l, d'.data l = if base ≤ l ∧ l < base + 2 ^ ringLog2 then .zero else m.view d l := by
  have hpos := Nat.two_pow_pos ringLog2
  obtain ⟨m', d', hrun, hready, hp, hcount, hlimit, hdata⟩ :=
    zeroSlots_run h base (List.range (2 ^ ringLog2))
      (fun s hs => by have := List.mem_range.mp hs; omega) (by simp)
  refine ⟨m', d', hrun, hready, hp, hcount, hlimit, fun l => ?_⟩
  rw [hdata]
  have hiff : (∃ s ∈ List.range (2 ^ ringLog2), l = base + s) ↔ base ≤ l ∧ l < base + 2 ^ ringLog2 := by
    constructor
    · rintro ⟨s, hs, rfl⟩
      have := List.mem_range.mp hs
      omega
    · intro hl
      exact ⟨l - base, List.mem_range.mpr (by omega), by omega⟩
  simp only [hiff]

namespace Ring

/-- `entry` is the next generation of the ring. -/
def Chains (r : Ring H) (entry : SpineEntry H) : Prop :=
  entry.ringLog2 = r.ringLog2 ∧
    match r.headEntry with
    | some h => entry.gen = h.gen + 1 ∧ entry.prevHash = h.bodyHash
    | none => entry.gen = 0 ∧ entry.prevHash = Crates.zeros

theorem append_eq {r : Ring H} {entry : SpineEntry H} (hc : r.Chains entry) :
    (append entry).run r =
      (onMirror (Mirror.writeVerified (r.base + entry.gen % r.n) entry.encode) >>= fun _ =>
        update fun q => { q with head := some (entry.gen % r.n, entry) }).run r := by
  obtain ⟨hr, hc⟩ := hc
  rcases hh : r.headEntry with _ | h
  · rw [hh] at hc
    simp [append, hh, hc.1, hc.2, hr]
  · rw [hh] at hc
    simp [append, hh, hc.1, hc.2, hr]

theorem append_run {r : Ring H} {d : Dev H} {entry : SpineEntry H} (h : r.mirror.Ready d)
    (hc : r.Chains entry) (hfit : r.base + r.n ≤ d.count) :
    ∃ m', (append entry).run r =
        (.ok (), { r with mirror := m', head := some (entry.gen % r.n, entry) }) ∧
      m'.Ready ((r.mirror.drained d).landed (r.base + entry.gen % r.n, entry.encode)).flushed ∧
      m'.pending = [] := by
  have hslot : entry.gen % r.n < r.n := Nat.mod_lt _ (Nat.two_pow_pos _)
  obtain ⟨m', hrun, hready, hp⟩ :=
    Mirror.writeVerified_run h (show r.base + entry.gen % r.n < d.count by omega) entry.encode
  refine ⟨m', ?_, hready, hp⟩
  rw [append_eq hc]
  simp [onMirror, hrun]

theorem chains_of_append_ok {r r' : Ring H} {entry : SpineEntry H}
    (h : (append entry).run r = (.ok (), r')) : r.Chains entry := by
  by_cases hr : entry.ringLog2 = r.ringLog2
  · refine ⟨hr, ?_⟩
    rcases hh : r.headEntry with _ | head
    · by_cases hg : entry.gen = 0
      · by_cases hp : entry.prevHash = Crates.zeros
        · exact ⟨hg, hp⟩
        · simp [append, hh, hg, hp] at h
      · simp [append, hh, hg] at h
    · by_cases hg : entry.gen = head.gen + 1
      · by_cases hp : entry.prevHash = head.bodyHash
        · exact ⟨hg, hp⟩
        · simp [append, hh, hg, hp] at h
      · simp [append, hh, hg] at h
  · exfalso
    rcases hh : r.headEntry with _ | head
    · by_cases hg : entry.gen = 0 <;> by_cases hp : entry.prevHash = Crates.zeros <;>
        simp [append, hh, hg, hp, hr] at h
    · by_cases hg : entry.gen = head.gen + 1 <;> by_cases hp : entry.prevHash = head.bodyHash <;>
        simp [append, hh, hg, hp, hr] at h

end Ring
end Manifestus
