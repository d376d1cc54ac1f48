import Manifestus.Vault.LiveIndex

/-! The clean space. A reap window is sorted by the committed index, so a block appended since the last
commit keeps its place although the reap goes past it. Where no window covers such a block, the clean
space of every generation is free of the blocks its root leads to. -/
set_option linter.unusedSectionVars false

namespace Manifestus
open Prog

variable {H : Type} [Crates H]

/-- No block of the window was appended since the last commit, unless it was removed again. -/
def Vault.Clear (v : Vault H) (w : Nat) : Prop :=
  ∀ q, v.tract.reap ≤ q → q < v.tract.reap + min w (v.tract.plow - v.tract.reap) →
    q % v.tract.len ∈ spots v.hamt.delta.added → q % v.tract.len ∈ spots v.hamt.delta.removed

theorem Vault.clear_of_added {v : Vault H} (h : v.hamt.delta.added = []) (w : Nat) : v.Clear w := by
  intro q _ _ hq
  simp [h] at hq

/-- Reap windows are clear; any other step is taken anywhere. -/
def Clearly (v : Vault H) : Step → Prop
  | .stage w => v.Clear w
  | _ => True

/-- A vault under way as in `Reached`, without power losses, all of whose reap windows were clear. -/
inductive Tended : Vault H → Prop where
  | start {m m' : Mirror H} {v : Vault H} {ringLog2 : Nat} {now : Int} (hm : ErrorFree m)
      (hblank : ∀ x, m.a = some x ∨ m.b = some x → x.Blank) (h₁ : 1 ≤ ringLog2) (h₂ : ringLog2 ≤ 32)
      (hopen : (Vault.open ringLog2 now .unlinkOnly).run m = (.ok v, m')) : Tended v
  | step {v : Vault H} (h : Tended v) (x : Step) (hx : Clearly v x) : Tended (x.after v)
  | reopen {m' : Mirror H} {v v' : Vault H} {ringLog2 : Nat} {now : Int} (h : Tended v)
      (hopen : (Vault.open ringLog2 now .unlinkOnly).run v.ring.mirror.reattach = (.ok v', m')) : Tended v'

/-- The clean space holds nothing of the index: none of what is committed, and of what is in memory
nothing the reap is about to pass. -/
structure Kempt (x : Scene H) : Prop where
  behind : ∀ p, x.committed.Claims p → x.vault.tract.Behind p
  retired : ∀ reap ∈ x.vault.pendingReap, ∀ q, x.vault.tract.reap ≤ q → q < reap →
    ¬ x.current.Claims (q % x.vault.tract.len)
  clean : ∃ reap, x.entry.reap = some reap ∧
    ∀ q, x.entry.plow ≤ q → q < reap + x.entry.tractBlocks → ¬ x.committed.Claims (q % x.entry.tractBlocks)
  quiet : ∀ lba, .liveLapAverted lba ∉ x.vault.ring.mirror.events

section Arithmetic

variable {plow len p : Nat}

/-- A tract made longer has all of the old one behind its plow. -/
theorem Tract.realign_behind {t : Tract} {n : Nat} (hn : t.len < n) (hp : p < t.len) : (t.realign n).Behind p := by
  have hmod := Nat.mod_lt t.plow (show 0 < n by omega)
  have hdiv := Nat.div_add_mod t.plow n
  -- the plow is set on the first block that is new
  obtain ⟨j, hj⟩ : ∃ j, t.plow + (t.len + n - t.plow % n) % n = n * j + t.len := by
    rcases Nat.lt_or_ge (t.len + n - t.plow % n) n with hlt | hge
    · refine ⟨t.plow / n + 1, ?_⟩
      rw [Nat.mod_eq_of_lt hlt, Nat.mul_add, Nat.mul_one]
      omega
    · refine ⟨t.plow / n, ?_⟩
      rw [Nat.mod_eq_sub_mod hge, Nat.mod_eq_of_lt (by omega)]
      omega
  refine ⟨n * j + p, ?_, ?_, ?_⟩
  · show t.plow + (t.len + n - t.plow % n) % n - t.len ≤ _
    omega
  · show _ < t.plow + (t.len + n - t.plow % n) % n
    omega
  · show p = (n * j + p) % n
    rw [Nat.mul_add_mod, Nat.mod_eq_of_lt (by omega)]

end Arithmetic

namespace Kempt

variable {m₀ : Mirror H} {k r : Nat} {allowed : Map → Prop} {G : Vault H → Step → Prop} {x y : Scene H}

/-- What is behind stays behind whatever else is appended, and the index in memory gains new blocks only. -/
theorem edited {v : Vault H} {d : Dev H} {e : SpineEntry H} {T C C' : Tree H} {s' : Store H} (h : Kempt ⟨v, d, e, T, C⟩)
    (hx : InUse m₀ k allowed r v d e T C) (hs : Steps v.live d v.store s') (hin : C.Within v.store C') :
    Kempt ⟨v.withStore s', d, e, T, C'⟩ where
  behind p hp := hs.behind p (h.behind p hp)
  retired reap hreap q hlo hhi hc := by
    have hlen : s'.tract.len = v.tract.len := hs.len
    have hsame : s'.tract.reap = v.tract.reap := hs.reap
    simp only [show (v.withStore s').tract = s'.tract from rfl, hlen, hsame] at hlo hc
    rcases hin _ hc with hc | hb
    · exact h.retired reap hreap q hlo hhi hc
    · have hle := (hx.pending reap hreap).2
      exact hb ⟨q, hlo, by show q < v.tract.plow; omega, rfl⟩
  clean := h.clean
  quiet := by
    rcases hs.quiet with heq | ⟨p, hp, hb⟩
    · rw [show (v.withStore s').ring.mirror.events = s'.mirror.events from rfl, heq]
      exact h.quiet
    · exact absurd (h.behind p ((hx.live p).mp hp)) hb

theorem move (hx : x.Used m₀ k allowed r) (hmove : Move Clearly r x y) (hy : y.Used m₀ k allowed r) (h : Kempt x) :
    Kempt y := by
  cases hmove with
  | edit hs hin => exact h.edited hx hs hin
  | @stage v d e T C C' s' w hG hs hin hmoved =>
    refine { h.edited hx hs hin with retired := ?_ }
    intro reap hreap q hlo hhi hc
    obtain rfl : v.tract.reap + Hamt.windowSize v.store w = reap := by simpa using hreap
    have hlen : s'.tract.len = v.tract.len := hs.len
    have hsame : s'.tract.reap = v.tract.reap := hs.reap
    simp only [show (v.withStore s').tract = s'.tract from rfl, hlen, hsame] at hlo hc
    have hsize : Hamt.windowSize v.store w ≤ v.tract.plow - v.tract.reap := Nat.min_le_right _ _
    have hold : C.Claims (q % v.tract.len) :=
      (hin _ hc).resolve_right fun hb => hb ⟨q, hlo, by show q < v.tract.plow; omega, rfl⟩
    obtain ⟨hin', hnr⟩ := (hx.indexed.claims _).mp hold
    rcases hin' with hl | ha
    · exact hmoved q hlo hhi hl hc
    · exact hnr (hG q hlo hhi ha)
  | beat hland _ _ hplow hreap hlen =>
    refine ⟨h.behind, h.retired, ?_, fun lba hl => h.quiet lba (hland.events ▸ hl)⟩
    rw [hplow, hreap, hlen]
    exact h.clean
  | @land v d d' e e' T C m' reap hland _ _ hplow hreap hlen hretired =>
    have hbehind : ∀ p, C.Claims p → ({ v.tract with reap := reap } : Tract).Behind p := by
      intro p hp
      obtain ⟨q, hlo, hhi, rfl⟩ : v.tract.Behind p := by
        rcases hx.indexed.kept hp with hl | hb
        · exact h.behind p ((hx.live p).mp hl)
        · exact hb
      rcases hretired with ⟨-, rfl⟩ | hr
      · exact ⟨q, hlo, hhi, rfl⟩
      · exact ⟨q, not_lt.mp fun hlt => h.retired reap hr q hlo hlt hp, hhi, rfl⟩
    refine ⟨hbehind, by simp, ⟨reap, hreap, fun q hlo hhi hc => ?_⟩, fun lba hl => h.quiet lba (hland.events ▸ hl)⟩
    simp only [hplow, hlen] at hlo hhi hc
    exact Tract.not_behind (t := { v.tract with reap := reap }) hlo hhi (hbehind _ hc)
  | refence => exact ⟨h.behind, h.retired, h.clean, h.quiet⟩
  | waive hG => exact ⟨h.behind, h.retired, h.clean, h.quiet⟩
  | reload => exact ⟨h.behind, by simp [Vault.reloaded], h.clean, h.quiet⟩
  | drain _ _ hevents => exact ⟨h.behind, h.retired, h.clean, fun lba hl => h.quiet lba (hevents ▸ hl)⟩
  | @realign v d d' e T C m' n live hn _ _ hevents =>
    refine ⟨fun p hp => ?_, by simp [Vault.reloaded], h.clean, fun lba hl => h.quiet lba (hevents ▸ hl)⟩
    have hlt : p < v.tract.len := (hx.sound.claims_lt hp).trans_le hx.len
    exact Tract.realign_behind hn hlt

/-- A generation that recorded a clean space is found with it when its index has been walked. -/
theorem walked {m : Mirror H} {d d' : Dev H} {e : SpineEntry H} {T C : Tree H} {v : Vault H} {w : Walk H}
    (h : Kempt ⟨v, d, e, T, C⟩) (hx : InUse m₀ k allowed r (Vault.walked m r e w) d' e T T) (hevents : m.events = []) :
    Kempt ⟨Vault.walked m r e w, d', e, T, T⟩ where
  behind p hp := by
    obtain ⟨reap, hreap, hclean⟩ := h.clean
    obtain ⟨hpos, horder⟩ := hx.sound.spine.fits.sane
    obtain ⟨h₁, h₂⟩ := horder reap hreap
    obtain ⟨q, hlo, hhi, hq⟩ := Tract.lap_represented reap (hx.sound.claims_lt hp)
    have hlt : q < e.plow := by
      refine not_le.mp fun hle => hclean q hle hhi ?_
      rw [hq]
      exact hp
    exact ⟨q, deriveReap_behind ((hx.live p).mpr hp) hlt (by omega) hq, hlt, hq.symm⟩
  retired := by simp [Vault.walked, Vault.unsettled]
  clean := h.clean
  quiet := by simp [Vault.walked, Vault.unsettled, hevents]

end Kempt

/-- In use, the clean space clean. -/
def Keeping (r : Nat) (v : Vault H) : Prop :=
  ∃ m₀ k d e T C, InUse m₀ k (fun _ => True) r v d e T C ∧ Kempt ⟨v, d, e, T, C⟩

namespace Keeping

variable {r : Nat} {v v' : Vault H}

theorem step (h : Keeping r v) {x : Step} (hx : Clearly v x) : Keeping r (x.after v) := by
  obtain ⟨m₀, k, d, e, T, C, huse, hkempt⟩ := h
  obtain ⟨⟨u, d', e', T', C'⟩, hu, huse', hmoves⟩ := huse.step_leads hx
  obtain ⟨hkempt', -⟩ := hmoves.keep (fun hx hm hy hk => Kempt.move hx hm hy hk) huse hkempt
  cases hu
  exact ⟨m₀, k, d', e', T', C', huse', hkempt'⟩

/-- A commit that returns Ok leaves nothing uncommitted. -/
theorem commit (h : Keeping r v) (now : Int) :
    Sat (Vault.commitNow now) v (fun _ v' => Keeping r v' ∧ v'.hamt.delta.added = []) fun _ v' => Keeping r v' := by
  obtain ⟨m₀, k, d, e, T, C, huse, hkempt⟩ := h
  refine (huse.commitWithin_sat (G := Clearly) _ now trivial).mono ?_ ?_
  · rintro _ v' ⟨d', e', C', huse', -, hmoves, hdelta⟩
    exact ⟨⟨m₀, k, d', e', C', C', huse', (hmoves.keep Kempt.move huse hkempt).1⟩, by rw [hdelta]⟩
  · rintro _ v' ⟨-, d', e', C', huse', -, hmoves⟩
    exact ⟨m₀, k, d', e', T, C', huse', (hmoves.keep Kempt.move huse hkempt).1⟩

/-- A rescue starts each window from a commit. -/
theorem rescues : Rescues (fun v : Vault H => Keeping r v ∧ v.hamt.delta.added = []) (Keeping r) where
  weaken h := h.1
  stage := by
    rintro v ⟨⟨m₀, k, d, e, T, C, huse, hkempt⟩, hadded⟩ w
    refine (huse.reapStaged_sat (G := Clearly) (w := w) (Vault.clear_of_added hadded w)).mono ?_ ?_
    · rintro _ v' ⟨C', huse', -, hmoves⟩
      exact ⟨m₀, k, d, e, T, C', huse', (hmoves.keep Kempt.move huse hkempt).1⟩
    · rintro _ v' ⟨-, C', huse', -, hmoves⟩
      exact ⟨m₀, k, d, e, T, C', huse', (hmoves.keep Kempt.move huse hkempt).1⟩
  commit h now := h.commit now
  grow := by
    rintro v ⟨m₀, k, d, e, T, C, huse, hkempt⟩ n hn now
    have hlong : Sat (Vault.lengthen n >>= fun _ => Vault.commitNow now) v
        (fun _ v' => Keeping r v' ∧ v'.hamt.delta.added = []) fun _ v' => Keeping r v' := by
      refine sat_bind ((huse.lengthen_sat (G := Clearly) hn).mono (fun _ _ hx => hx) ?_) ?_
      · rintro _ v' ⟨d', huse', hmoves⟩
        exact ⟨m₀, k, d', e, T, C, huse', (hmoves.keep Kempt.move huse hkempt).1⟩
      · rintro _ v₁ ⟨d₁, huse₁, hmoves⟩
        exact Keeping.commit ⟨m₀, k, d₁, e, T, T, huse₁, (hmoves.keep Kempt.move huse hkempt).1⟩ now
    unfold Sat at hlong ⊢
    rw [Vault.growNow_run, if_neg (by omega)]
    exact hlong
  waive := by
    rintro v ⟨⟨m₀, k, d, e, T, C, huse, hkempt⟩, hadded⟩
    exact ⟨⟨m₀, k, d, e, T, C, huse.fence none, ⟨hkempt.behind, hkempt.retired, hkempt.clean, hkempt.quiet⟩⟩, hadded⟩
  refence := by
    rintro v ⟨⟨m₀, k, d, e, T, C, huse, hkempt⟩, hadded⟩
    refine (huse.refence_sat (G := Clearly)).mono ?_ fun _ _ hf => hf
    rintro _ v' ⟨huse', hmoves, hsame⟩
    exact ⟨⟨m₀, k, d, e, T, C, huse', (hmoves.keep Kempt.move huse hkempt).1⟩, hsame ▸ hadded⟩
  long := by
    rintro v ⟨m₀, k, d, e, T, C, huse, hkempt⟩
    exact huse.indexed.cursors.pos

/-- A cold reopen. -/
theorem reopen (h : Keeping r v) (ringLog2 : Nat) (now : Int) :
    ∃ w, (Vault.open ringLog2 now .unlinkOnly).run v.ring.mirror.reattach = (.ok w, w.ring.mirror) ∧ Keeping r w := by
  obtain ⟨m₀, k, d, e, T, C, huse, hkempt⟩ := h
  obtain ⟨herr, hsess, hcount⟩ := huse.attached.toSession.reattach
  obtain ⟨w, hwalked, -, hwake⟩ := open_walked (fun _ => True) herr.parts hsess (e := e) (T := T) (r := r)
    huse.sound ((Nat.add_le_add_left huse.len _).trans hcount) trivial ringLog2 now
  have hkept : Keeping r (Vault.walked v.ring.mirror.reattach r e w) :=
    ⟨_, 0, _, e, T, T, hwalked, hkempt.walked hwalked (Mirror.fromParts_fields herr.parts).2.2.2.2⟩
  refine hwake (sat_bind (rescues.refence ⟨hkept, rfl⟩) fun _ v₁ h₁ => sat_state ?_)
  split
  · exact rescues.unwedge_sat _ h₁
  · exact sat_pure h₁.1

end Keeping

theorem Tended.keeping {v : Vault H} (h : Tended v) : ∃ r, Keeping r v := by
  induction h with
  | start hm hblank h₁ h₂ hopen =>
    obtain ⟨d, hsess⟩ := hm.session
    obtain ⟨-, d', e, huse, hfresh⟩ := open_blank hm.parts hsess hblank h₁ h₂ hopen
    refine ⟨_, _, _, d', e, .empty, .empty, huse.restart (fun _ => True) trivial, ?_⟩
    refine ⟨fun p hp => hp.elim, by simp [hfresh.pending], ⟨0, by rw [hfresh.entry]; rfl, fun q _ _ hc => hc.elim⟩, ?_⟩
    simp [hfresh.events]
  | step h x hx ih =>
    obtain ⟨r, hk⟩ := ih
    exact ⟨r, hk.step hx⟩
  | reopen h hopen ih =>
    obtain ⟨r, hk⟩ := ih
    obtain ⟨w, hrun, hw⟩ := hk.reopen _ _
    rw [hrun] at hopen
    cases hopen
    exact ⟨r, hw⟩

/-- The live set of a vault under way holds the positions its committed root leads to. -/
theorem Reached.live_iff {m : Mirror H} {k : Nat} {v : Vault H} (h : Reached m k v) :
    ∃ d e, v.ring.mirror.primary = some d ∧ v.ring.headEntry = some e ∧
      ∀ p, p ∈ v.live.positions ↔ e.Reaches d.data v.tract.base p := by
  obtain ⟨r, com, cur, d, e, T, C, h, -⟩ := h.serves
  refine ⟨d, e, h.attached.ready.primary, h.headEntry, fun p => ?_⟩
  rw [LiveSet.mem_positions, h.live, h.base]
  exact h.sound.reaches_iff.symm

namespace Digest

/-- A key put, put again twice and deleted, then put once more in a batch whose second value makes the
ladder reap before it lands. -/
def reapedBatch : List Op :=
  [.put (key 1) [1] 1, .put (key 1) [2] 2, .put (key 1) [3] 3, .delete (key 1) 4,
    .putBatch [(key 1, [4]), (key 2, List.replicate 31417 0)] 5]

end Digest

end Manifestus
