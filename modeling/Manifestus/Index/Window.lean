import Manifestus.Index.Reap
import Manifestus.Index.Live
import Manifestus.Engine.Digest

/-! A reap window that went through: what it moved, where to, and what it left alone. -/
set_option linter.unusedSectionVars false

namespace Manifestus
open Prog Store

variable {H : Type} [Crates H] {d : Dev H} {live : LiveSet H} {s s' : Store H} {t t' : Tree H}

/-- What a delete leaves of a block where zero is erase. -/
def Block.Erased (b : Block H) : Prop := b = .zero

theorem Block.Erased.unsealed (b : Block H) (h : b.Erased) : sealedHp b = none := by
  rw [show b = .zero from h]
  rfl

/-- A position the plow has not reached on this lap. -/
def Tract.CleanAt (t : Tract) (p : Nat) : Prop := ∃ q, t.plow ≤ q ∧ q < t.reap + t.len ∧ p = q % t.len

theorem Tract.Cursors.cleanAt_iff {t : Tract} (h : t.Cursors) {p : Nat} : t.CleanAt p ↔ p < t.len ∧ ¬ t.Behind p := by
  constructor
  · rintro ⟨q, hlo, hhi, rfl⟩
    exact ⟨Nat.mod_lt _ h.pos, not_behind hlo hhi⟩
  · rintro ⟨hp, hb⟩
    obtain ⟨q, hlo, hhi, rfl⟩ := lap_represented t.reap hp
    refine ⟨q, ?_, hhi, rfl⟩
    by_contra hlt
    exact hb ⟨q, hlo, not_le.mp hlt, rfl⟩

namespace Hamt

/-- The positions of a window of `window` blocks at the reap. -/
def InWindow (s : Store H) (window p : Nat) : Prop :=
  ∃ q, s.tract.reap ≤ q ∧ q < s.tract.reap + min window (s.tract.plow - s.tract.reap) ∧ p = q % s.tract.len

theorem InWindow.behind {window p : Nat} (h : InWindow s window p) : s.tract.Behind p := by
  obtain ⟨q, hlo, hhi, rfl⟩ := h
  exact ⟨q, hlo, by omega, rfl⟩

/-- Everything live in the window moves to clean space and nothing visible changes. -/
theorem reapWindow_moves (h : Accounted Block.Erased live d s t) {window : Nat}
    (hout : ∀ p, InWindow s window p → p ∉ spots s.hamt.delta.added)
    (hrun : (reapWindow live.liveness window).run s = (.ok (), s')) :
    ∃ t' added removed, Accounted Block.Erased live d s' t' ∧
      (∀ key, ((lookup key).run s').1 = ((lookup key).run s).1) ∧
      (∀ p, InWindow s window p → ¬ t'.Claims p) ∧
      (∀ p, t'.Claims p → ¬ t.Claims p → s.tract.CleanAt p) ∧
      (∀ p < s.tract.len, ¬ s.tract.CleanAt p → s'.view d p = s.view d p) ∧ s.mirror.Untouched s'.mirror ∧
      s'.hamt.delta = ⟨s.hamt.delta.added ++ added, s.hamt.delta.removed ++ removed⟩ ∧
      (∀ p, p ∈ spots added ∧ p ∉ spots removed ↔ t'.Claims p ∧ ¬ t.Claims p) ∧
      (∀ p, p ∈ spots removed ∧ p ∉ spots added ↔ t.Claims p ∧ ¬ t'.Claims p) ∧
      (∀ e ∈ added ++ removed, t.Claims e.1 ∨ t'.Claims e.1 → sealedHp (s'.view d e.1) = some e.2) ∧
      s'.tract.reap = s.tract.reap + min window (s.tract.plow - s.tract.reap) := by
  have hsat := reapWindow_sat Block.Erased.unsealed h window
  unfold Sat at hsat
  rw [hrun] at hsat
  obtain ⟨s₁, t', hm, rfl, hcovered⟩ := hsat
  obtain ⟨added, removed, hadd, hrem, -, hnew, hold⟩ := hm.delta
  have hacc := hm.accounted
  have hclaims := h.claims_of_delta hacc hadd hrem hnew
  have hclean : ∀ p ∈ spots added, s.tract.CleanAt p := by
    intro p hp
    obtain ⟨e, he, rfl⟩ := mem_spots.mp hp
    obtain ⟨q, -, -, hq⟩ := (hacc.added e (by rw [hadd]; exact List.mem_append_right _ he)).1
    refine h.cursors.cleanAt_iff.mpr ⟨?_, fun hb => hnew e he (.inr hb)⟩
    rw [hq, hm.steps.len]
    exact Nat.mod_lt _ h.cursors.pos
  -- a block appended is not one the index held
  have hfresh : ∀ p ∈ spots added, ¬ t.Claims p := by
    intro p hp
    obtain ⟨e, he, rfl⟩ := mem_spots.mp hp
    exact (h.unrecorded (hnew e he)).1
  have hgone : ∀ p, InWindow s window p → ¬ t'.Claims p := by
    intro p hw hc
    have hb := hw.behind
    obtain ⟨hp, hnr⟩ := (hacc.claims p).mp hc
    rw [hadd, spots_append, List.mem_append] at hp
    rcases hp with hlive | hp | hp
    · obtain ⟨q, hlo, hhi, rfl⟩ := hw
      exact hnr (hcovered q hlo hhi hlive)
    · exact hout p hw hp
    · exact (h.cursors.cleanAt_iff.mp (hclean p hp)).2 hb
  have hreap := hm.steps.reap
  have honward := hm.steps.onward
  have hsize : windowSize s window ≤ s.tract.plow - s.tract.reap := Nat.min_le_right _ _
  have horder := h.cursors.order
  -- what the delta records as added is past the new reap
  have hbehind : ∀ e ∈ s₁.hamt.delta.added,
      ({ s₁.tract with reap := s.tract.reap + windowSize s window } : Tract).Behind e.1 := by
    intro e he
    obtain ⟨q, hlo, hhi, hq⟩ := (hacc.added e he).1
    refine ⟨q, ?_, hhi, hq⟩
    rw [hreap] at hlo
    rw [hm.steps.len] at hq
    show s.tract.reap + windowSize s window ≤ q
    by_contra hlt
    have hw : InWindow s window e.1 := ⟨q, hlo, not_le.mp hlt, hq⟩
    rw [hadd, List.mem_append] at he
    rcases he with he | he
    · exact hout _ hw (mem_spots.mpr ⟨e, he, rfl⟩)
    · exact hnew e he (.inr hw.behind)
  refine ⟨t', added, removed, ?_, fun key => ?_, hgone, fun p hc hno => ?_, fun p hp hno => ?_, hm.steps.untouched, ?_,
    fun p => ?_, fun p => ?_, fun e he hc => ?_, rfl⟩
  · have hcursors : ({ s₁.tract with reap := s.tract.reap + windowSize s window } : Tract).Cursors := by
      have hlap := hacc.cursors.lap
      rw [hreap] at hlap
      exact ⟨hacc.cursors.pos, show s.tract.reap + windowSize s window ≤ s₁.tract.plow by omega,
        show s₁.tract.plow ≤ s.tract.reap + windowSize s window + s₁.tract.len by omega⟩
    exact ⟨⟨hacc.on.ready, hacc.on.fits⟩, hcursors, hacc.rep, hacc.sep, hacc.claims,
      fun e he => ⟨hbehind e he, (hacc.added e he).2⟩, hacc.removed, hacc.known, hacc.record⟩
  · obtain ⟨u, hlook, -⟩ := lookup_run h.on h.rep key
    obtain ⟨u', hlook', -⟩ := lookup_run
      (s := { s₁ with tract := { s₁.tract with reap := s.tract.reap + windowSize s window } })
      ⟨hacc.on.ready, hacc.on.fits⟩ hacc.rep key
    rw [hlook, hlook', hm.find]
  · exact hclean p (((hclaims p).mp hc).1.resolve_left hno)
  · exact hm.steps.frame p (.inr (not_not.mp fun hb => hno (h.cursors.cleanAt_iff.mpr ⟨hp, hb⟩)))
  · show s₁.hamt.delta = _
    rw [← hadd, ← hrem]
  · rw [hclaims]
    constructor
    · exact fun hp => ⟨⟨.inr hp.1, hp.2⟩, hfresh p hp.1⟩
    · exact fun hc => ⟨hc.1.1.resolve_left hc.2, hc.1.2⟩
  · rw [hclaims]
    constructor
    · rintro ⟨hp, hno⟩
      obtain ⟨e, he, rfl⟩ := mem_spots.mp hp
      exact ⟨(hold e he).resolve_right hno, fun hc => hc.2 hp⟩
    · rintro ⟨hc, hno⟩
      refine ⟨not_not.mp fun hp => hno ⟨.inl hc, hp⟩, fun hp => hfresh p hp hc⟩
  · show sealedHp (s₁.view d e.1) = some e.2
    have hshows : Stands Block.Erased d s₁ e := by
      rcases List.mem_append.mp he with he | he
      · exact (hacc.added e (by rw [hadd]; exact List.mem_append_right _ he)).2
      · exact (hacc.removed e (by rw [hrem]; exact List.mem_append_right _ he)).2
    refine hshows.resolve_right fun herased => ?_
    have hsealed : ∃ hash, sealedHp (s₁.view d e.1) = some hash := by
      rcases hc with hc | hc
      · rw [hm.steps.frame _ (h.kept hc)]
        exact h.rep.sealed hc
      · exact hacc.rep.sealed hc
    obtain ⟨hash, hh⟩ := hsealed
    rw [Block.Erased.unsealed _ herased.2] at hh
    cases hh

/-- One committed value at position 0 of a tract of eight blocks. -/
def oneLone : Store Digest where
  mirror := ⟨some ⟨8, Function.update (fun _ => .zero) 0 (encodeLone 5 [1, 2]), none, [], []⟩, none, true, [], [], [], 0,
    none, []⟩
  tract := ⟨0, 8, 1, 0, none⟩
  hamt := ⟨some (.committed (Crates.hash (.lone 5 [1, 2]) 0) 0), [], ⟨[], []⟩, 0⟩

def oneLoneLive : LiveSet Digest := ⟨[(0, Crates.hash (.lone 5 [1, 2]) 0)], []⟩

theorem oneLone_accounted : Accounted Block.Erased oneLoneLive
    ⟨8, Function.update (fun _ => .zero) 0 (encodeLone 5 [1, 2]), none, [], []⟩ oneLone
    (.leaf (Crates.hash (.lone 5 [1, 2]) 0) 0 5 [1, 2] []) where
  on := ⟨⟨rfl, rfl, by simp [oneLone, Mirror.staged], by simp [oneLone]⟩, le_rfl⟩
  cursors := ⟨by decide, by decide, by decide⟩
  rep := ⟨rfl, onPath_nil 5, .lone (by decide) (show _ = Block.sealed _ 0 from rfl) rfl⟩
  sep := ⟨by simp, by simp⟩
  claims p := by
    rw [LiveSet.refers_iff]
    simp [Tree.Claims, oneLone, oneLoneLive, spots]
  added := by simp [oneLone]
  removed := by simp [oneLone]
  known := by
    intro e he
    rw [List.mem_singleton.mp he]
    exact .inl rfl
  record := by simp [oneLone, oneLoneLive]

theorem reapWindow_moves_lone : ∃ s', (reapWindow oneLoneLive.liveness 1).run oneLone = (.ok (), s') ∧
    ((lookup 5).run s').1 = .ok (some [1, 2]) ∧ s'.tract.reap = 1 ∧ s'.hamt.delta.removed.map Prod.fst = [0] := by
  have hok : ((reapWindow oneLoneLive.liveness 1).run oneLone).1 = .ok () := by decide +kernel
  obtain ⟨t', added, removed, -, hlook, hrest⟩ := reapWindow_moves oneLone_accounted (by simp [oneLone]) (Prod.ext hok rfl)
  refine ⟨_, Prod.ext hok rfl, ?_, hrest.2.2.2.2.2.2.2.2, by decide +kernel⟩
  rw [hlook]
  decide +kernel

end Hamt
end Manifestus
