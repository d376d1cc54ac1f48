import Manifestus.Flat.Mirror
import Manifestus.Flat.Phase

/-! What reaches the primary of a mirror. Where every block the mirror is given satisfies a condition, so
does every block the primary holds, every write its log shows, and every block a power loss leaves of
it. -/
set_option linter.unusedSectionVars false

namespace Manifestus
open Prog

variable {H : Type} [Crates H] {P P' : Nat → Block H → Prop} {n : Nat} {d : Dev H} {m : Mirror H}

/-- The primary is one of the devices. -/
theorem Mirror.attached_of_primary (h : m.primary = some d) : m.a = some d ∨ m.b = some d := by
  rcases ha : m.a with _ | a
  · rw [Mirror.primary, ha, Option.none_or] at h
    exact .inr h
  · rw [Mirror.primary, ha, Option.some_or] at h
    exact .inl h

/-- A condition on the blocks written at a position that zeroed and torn blocks meet. -/
structure Legible (P : Nat → Block H → Prop) : Prop where
  zero : ∀ l, P l .zero
  torn : ∀ l id, P l (.raw id)

/-- A device of at least `n` blocks, without faults to come, written with blocks of `P` only. -/
structure Dev.Scribed (P : Nat → Block H → Prop) (n : Nat) (d : Dev H) : Prop where
  script : d.script = []
  room : n ≤ d.count
  log : ∀ l b, .write l b ∈ d.log → P l b
  data : ∀ l, P l (d.data l)

/-- What has been written survives a power loss, or the block is one of the old ones, or blank, or torn. -/
theorem Image.Survives.scribed {i j : Image H} {ops : List (DevOp H)} (hP : Legible P) (h : i.Survives ops j)
    (hold : ∀ l, P l (i.data l)) (hnew : ∀ l b, .write l b ∈ ops → P l b) (l : Nat) : P l (j.data l) := by
  have hafter : ∀ (ops : List (DevOp H)) (i : Image H), (∀ l, P l (i.data l)) → (∀ l b, .write l b ∈ ops → P l b) →
      ∀ l, P l ((i.after ops).data l) := by
    intro ops
    induction ops with
    | nil =>
      intro i hi _
      exact hi
    | cons op ops ih =>
      intro i hi hops
      apply ih (i.step op)
      · intro l
        cases op with
        | write lba b =>
          show P l (Function.update i.data lba b l)
          by_cases hl : l = lba
          · subst hl
            rw [Function.update_self]
            exact hops l b (by simp)
          · rw [Function.update_of_ne hl]
            exact hi l
        | flush => exact hi l
        | grow count =>
          show P l (if l < i.count then i.data l else .zero)
          split
          · exact hi l
          · exact hP.zero l
      · exact fun l b hb => hops l b (by simp [hb])
  obtain ⟨kept, later, rfl, -, -, hdata⟩ := h
  cases hdata l with
  | inl heq =>
    rw [heq]
    apply hafter _ _ hold
    intro l b hb
    apply hnew
    cases List.mem_append.mp hb with
    | inl hb => exact List.mem_append_left _ hb
    | inr hb => exact List.mem_append_right _ (List.mem_of_mem_filter hb)
  | inr hlate =>
    obtain ⟨b, hb, heq | ⟨id, heq⟩⟩ := hlate
    · rw [heq]
      exact hnew l b (List.mem_append_right _ hb)
    · rw [heq]
      exact hP.torn l id

/-- An invariant of devices without faults to come that flushing keeps, and so does landing blocks of `W`. -/
structure Dev.Closed (W : Nat → Block H → Prop) (I : Dev H → Prop) : Prop where
  script : ∀ {d : Dev H}, I d → d.script = []
  landed : ∀ {d : Dev H} {l : Nat} {b : Block H}, W l b → I d → I (d.landed (l, b))
  flushed : ∀ {d : Dev H}, I d → I d.flushed

namespace Dev.Closed

variable {W : Nat → Block H → Prop} {I : Dev H → Prop} (hI : Dev.Closed W I)
include hI

theorem read (lba : Nat) : Steady I (Dev.read (H := H) lba) := by
  intro d h
  unfold Sat
  by_cases hlt : lba < d.count
  · rw [Dev.read_run (hI.script h) hlt]
    exact h
  · rw [Dev.read_run_of_le (Nat.not_lt.mp hlt)]
    exact h

theorem readRun (len : Nat) : ∀ lba, Steady I (Dev.readRun (H := H) lba len) := by
  induction len with
  | zero => exact fun _ => steady_pure _
  | succ len ih => exact fun lba => (hI.read lba).bind fun _ => (ih _).bind fun _ => steady_pure _

theorem readMany (lbas : List Nat) : Steady I (Dev.readMany (H := H) lbas) := steady_collect hI.read lbas

theorem write {lba : Nat} {b : Block H} (hb : W lba b) : Steady I (Dev.write lba b) := by
  intro d h
  unfold Sat
  by_cases hlt : lba < d.count
  · rw [Dev.write_run (hI.script h) hlt]
    exact hI.landed hb h
  · have hrefused : (Dev.write lba b).run d = (.error (.bounds lba), d) := by simp [Dev.write, Dev.inBounds, hlt]
    rw [hrefused]
    exact h

theorem flush : Steady I (Dev.flush (H := H)) := by
  intro d h
  unfold Sat
  rw [Dev.flush_run (hI.script h)]
  exact hI.flushed h

theorem writeOne {lba : Nat} {b : Block H} (hb : W lba b) : Steady I (writeOne lba b) := by
  have hgo : ∀ tries, Steady I (writeOne.go lba b tries) := by
    intro tries
    induction tries with
    | zero => exact steady_fail _
    | succ tries ih =>
      exact (hI.write hb).bind fun _ => hI.flush.bind fun _ => (hI.read lba).bind fun _ => steady_ite (steady_pure _) ih
  exact hgo 2

theorem writeRun {bs : List (Block H)} : ∀ {lba : Nat}, (∀ i, ∀ h : i < bs.length, W (lba + i) bs[i]) →
    Steady I (Dev.writeRun lba bs) := by
  induction bs with
  | nil => exact fun _ => steady_pure _
  | cons b bs ih =>
    intro lba hbs
    apply (hI.write (hbs 0 (by simp))).bind
    intro _
    apply ih
    intro i hi
    have hnext := hbs (i + 1) (by simpa using hi)
    rw [show lba + 1 + i = lba + (i + 1) by omega]
    simpa using hnext

theorem writeRuns {runs : List (List (Nat × Block H))} (hc : ∀ run ∈ runs, Consecutive run)
    (hW : ∀ x ∈ runs.flatten, W x.1 x.2) : Steady I (writeRuns runs) := by
  induction runs with
  | nil => exact steady_pure _
  | cons run runs ih =>
    simp only [List.mem_cons, forall_eq_or_imp] at hc
    have hrest := ih hc.2 fun x hx => hW x (by simp [hx])
    cases run with
    | nil => exact hrest
    | cons x run =>
      apply Steady.bind
      · apply hI.writeRun
        intro i hi
        have hlen : i < (x :: run).length := by simpa using hi
        have hpos := consecutive_getElem hc.1 i hlen
        rw [← hpos, List.getElem_map]
        exact hW _ (List.mem_append_left _ (List.getElem_mem _))
      · exact fun _ => hrest

theorem checkBack {pairs : List ((Nat × Block H) × Block H)} (hW : ∀ p ∈ pairs, W p.1.1 p.1.2) :
    Steady I (checkBack pairs) := by
  induction pairs with
  | nil => exact steady_pure _
  | cons p pairs ih =>
    obtain ⟨⟨lba, buf⟩, got⟩ := p
    simp only [List.mem_cons, forall_eq_or_imp] at hW
    rw [Manifestus.checkBack]
    by_cases hsame : got ≠ buf
    · rw [if_pos hsame]
      exact (hI.writeOne hW.1).bind fun _ => ih hW.2
    · rw [if_neg hsame]
      exact ih hW.2

theorem verifyRuns {runs : List (List (Nat × Block H))} (hW : ∀ x ∈ runs.flatten, W x.1 x.2) :
    Steady I (verifyRuns runs) := by
  induction runs with
  | nil => exact steady_pure _
  | cons run runs ih =>
    have hrest := ih fun x hx => hW x (by simp [hx])
    cases run with
    | nil => exact hrest
    | cons x run =>
      apply (hI.readRun _ _).bind
      intro back
      apply (hI.checkBack ?_).bind
      · exact fun _ => hrest
      · intro p hp
        exact hW _ (List.mem_append_left _ (List.of_mem_zip hp).1)

/-- A batch of such blocks, whatever becomes of it. -/
theorem writeEach {blocks : List (Nat × Block H)} (hW : ∀ x ∈ blocks, W x.1 x.2) :
    Steady I (writeEach blocks) := by
  have hflat : ∀ x ∈ (runsOf blocks).flatten, W x.1 x.2 := by
    rw [runsOf_flatten]
    exact hW
  exact (hI.writeRuns (runsOf_consecutive blocks) hflat).bind fun _ => hI.flush.bind fun _ => hI.verifyRuns hflat

end Dev.Closed

namespace Dev.Scribed

theorem mono (hP : ∀ l b, P l b → P' l b) (h : d.Scribed P n) : d.Scribed P' n :=
  ⟨h.script, h.room, fun l b hb => hP l b (h.log l b hb), fun l => hP l _ (h.data l)⟩

theorem landed (h : d.Scribed P n) {l : Nat} {b : Block H} (hb : P l b) : (d.landed (l, b)).Scribed P n := by
  constructor
  · exact h.script
  · exact h.room
  · intro l' b' hmem
    cases List.mem_append.mp hmem with
    | inl hmem => exact h.log l' b' hmem
    | inr hmem =>
      obtain ⟨rfl, rfl⟩ : l' = l ∧ b' = b := by simpa using hmem
      exact hb
  · intro l'
    show P l' (Function.update d.data l b l')
    by_cases hl : l' = l
    · subst hl
      rw [Function.update_self]
      exact hb
    · rw [Function.update_of_ne hl]
      exact h.data l'

theorem flushed (h : d.Scribed P n) : d.flushed.Scribed P n := by
  constructor
  · exact h.script
  · exact h.room
  · intro l b hmem
    cases List.mem_append.mp hmem with
    | inl hmem => exact h.log l b hmem
    | inr hmem => simp at hmem
  · exact h.data

theorem closed : Dev.Closed P (Dev.Scribed P n) := ⟨fun h => h.script, fun hb h => h.landed hb, fun h => h.flushed⟩

theorem grow (hP : Legible P) (c : Nat) : Steady (Dev.Scribed P n) (Dev.grow (H := H) c) := by
  intro d h
  unfold Sat
  by_cases hacc : d.Accepts c
  · rw [Dev.grow_run h.script hacc]
    show Dev.Scribed P n (if c ≤ d.count then d else d.grown c)
    split
    · exact h
    next hc =>
      constructor
      · exact h.script
      · exact h.room.trans (Nat.le_of_lt (Nat.not_le.mp hc))
      · intro l b hmem
        cases List.mem_append.mp hmem with
        | inl hmem => exact h.log l b hmem
        | inr hmem => simp at hmem
      · intro l
        show P l (if l < d.count then d.data l else .zero)
        split
        · exact h.data l
        · exact hP.zero l
  · obtain ⟨err, hrefused⟩ := Dev.grow_run_of_not hacc
    rw [hrefused]
    exact h

end Dev.Scribed

namespace Mirror

variable {I : Dev H → Prop}

/-- A phase of the primary, whatever it returns. -/
theorem everywhere_keeps {x : Prog Error (Dev H) Unit} (hx : Steady I x) (hd : m.primary = some d) (hI : I d) :
    ∃ d', ((everywhere x).run m).2.primary = some d' ∧ I d' ∧ m.SameBuffers ((everywhere x).run m).2 := by
  have hafter := hx.after hI
  rcases hrun : x.run d with ⟨err | _, d'⟩ <;> rw [hrun] at hafter
  · obtain ⟨m', hrun', hprim, hsame⟩ := everywhere_run_error hd hrun
    rw [hrun']
    exact ⟨d', hprim, hafter, hsame⟩
  · obtain ⟨m', hrun', hprim, hsame⟩ := everywhere_run hd hrun
    rw [hrun']
    exact ⟨d', hprim, hafter, hsame⟩

/-- So with a batch, the positions of which leave the cache. -/
theorem writeVerifiedBatchNow_keeps {blocks : List (Nat × Block H)} (hx : Steady I (writeEach blocks))
    (hd : m.primary = some d) (hI : I d) :
    ∃ d', ((writeVerifiedBatchNow blocks).run m).2.primary = some d' ∧ I d' ∧
      (blocks.foldl (fun m x => m.forget x.1) m).SameBuffers ((writeVerifiedBatchNow blocks).run m).2 := by
  obtain ⟨ha₁, hb₁, -⟩ := foldl_forget_fields blocks m
  have hd₁ : (blocks.foldl (fun m x => m.forget x.1) m).primary = some d := by
    rw [primary, ha₁, hb₁]
    exact hd
  unfold writeVerifiedBatchNow
  rw [bind_run, update_run]
  dsimp only
  generalize blocks.foldl (fun m x => m.forget x.1) m = m₁ at *
  rw [bind_run, state_run]
  dsimp only
  by_cases hboth : m₁.a.isSome ∧ m₁.b.isSome ∧ parBatchThreshold ≤ blocks.length
  · rw [if_pos hboth]
    obtain ⟨a, ha⟩ := Option.isSome_iff_exists.mp hboth.1
    obtain ⟨b, hb⟩ := Option.isSome_iff_exists.mp hboth.2.1
    obtain rfl : a = d := by simpa [primary, ha] using hd₁
    have hafter := hx.after hI
    rcases hrun : (writeEach blocks).run a with ⟨ra, a'⟩
    rcases hrunb : (writeEach blocks).run b with ⟨rb, b'⟩
    rw [hrun] at hafter
    rw [bind_run, onBoth_run ha hb hrun hrunb]
    have hprim : ∀ {m₂ : Mirror H}, m₂.a = some a' → m₂.primary = some a' := by
      intro m₂ ha₂
      rw [primary, ha₂]
      rfl
    cases ra with
    | error err => exact ⟨a', hprim rfl, hafter, rfl, rfl⟩
    | ok _ =>
      cases rb with
      | error err => exact ⟨a', hprim rfl, hafter, rfl, rfl⟩
      | ok _ => exact ⟨a', hprim rfl, hafter, rfl, rfl⟩
  · rw [if_neg hboth]
    exact everywhere_keeps hx hd₁ hI

end Mirror

/-- The primary is written with blocks of `P`, and what is staged will be. -/
structure Mirror.Scribed (P : Nat → Block H → Prop) (n : Nat) (m : Mirror H) : Prop where
  primary : ∃ d, m.primary = some d ∧ d.Scribed P n
  staged : ∀ x ∈ m.staged, P x.1 x.2

namespace Mirror.Scribed

theorem mono (hP : ∀ l b, P l b → P' l b) (h : m.Scribed P n) : m.Scribed P' n := by
  obtain ⟨d, hd, hs⟩ := h.primary
  exact ⟨⟨d, hd, hs.mono hP⟩, fun x hx => hP _ _ (h.staged x hx)⟩

/-- The same devices and the same staging. -/
theorem same {m' : Mirror H} (h : m.Scribed P n) (ha : m'.a = m.a) (hb : m'.b = m.b) (hp : m'.pending = m.pending) :
    m'.Scribed P n := by
  constructor
  · rw [Mirror.primary, ha, hb]
    exact h.primary
  · rw [Mirror.staged, hp]
    exact h.staged

/-- The same staging, and a primary that still is such. -/
theorem kept {m' : Mirror H} (h : m.Scribed P n) (hd : m'.primary = some d) (hs : d.Scribed P n)
    (hp : m'.pending = m.pending) : m'.Scribed P n := by
  refine ⟨⟨d, hd, hs⟩, ?_⟩
  rw [Mirror.staged, hp]
  exact h.staged

/-- A phase of the primary. -/
theorem everywhere {x : Prog Error (Dev H) Unit} (hx : Steady (Dev.Scribed P n) x) :
    Steady (Mirror.Scribed P n) (Mirror.everywhere x) := by
  intro m h
  apply sat_of_final
  obtain ⟨d, hd, hs⟩ := h.primary
  obtain ⟨d', hd', hs', hp, -⟩ := Mirror.everywhere_keeps hx hd hs
  exact h.kept hd' hs' hp

theorem onFirst {α : Type} {x : Prog Error (Dev H) α} (hx : Steady (Dev.Scribed P n) x) :
    Steady (Mirror.Scribed P n) (Mirror.onFirst x) := by
  intro m h
  obtain ⟨d, hd, hs⟩ := h.primary
  have hafter := hx.after hs
  rcases ha : m.a with _ | a
  · rcases hb : m.b with _ | b
    · simp [Mirror.primary, ha, hb] at hd
    · obtain rfl : b = d := by simpa [Mirror.primary, ha, hb] using hd
      have hrun : (Mirror.onFirst x).run m = ((x.run b).1, { m with b := some (x.run b).2 }) := by
        simp [Mirror.onFirst, ha, hb]
      unfold Sat
      rw [hrun]
      rcases (x.run b).1 with _ | _ <;> exact ⟨⟨_, by simp [Mirror.primary, ha], hafter⟩, h.staged⟩
  · obtain rfl : a = d := by simpa [Mirror.primary, ha] using hd
    have hrun : (Mirror.onFirst x).run m = ((x.run a).1, { m with a := some (x.run a).2 }) := by
      simp [Mirror.onFirst, ha]
    unfold Sat
    rw [hrun]
    rcases (x.run a).1 with _ | _ <;> exact ⟨⟨_, by simp [Mirror.primary], hafter⟩, h.staged⟩

theorem read (lba : Nat) : Steady (Mirror.Scribed P n) (Mirror.read lba) := by
  apply steady_state
  intro m
  split
  · exact steady_pure _
  · exact onFirst (Dev.Scribed.closed.read lba)

theorem readCached (lba : Nat) : Steady (Mirror.Scribed P n) (Mirror.readCached lba) := by
  have hthen : ∀ {f : Mirror H → Mirror H} {g : Unit → Prog Error (Mirror H) (Block H)}, (∀ u, Steady (Mirror.Scribed P n) (g u)) →
      (∀ m, (f m).a = m.a ∧ (f m).b = m.b ∧ (f m).pending = m.pending) → Steady (Mirror.Scribed P n) (update f >>= g) := by
    intro f g hg hf
    apply Steady.bind
    · apply steady_update
      intro m h
      exact h.same (hf m).1 (hf m).2.1 (hf m).2.2
    · exact hg
  apply steady_state
  intro m
  split
  · exact steady_pure _
  · refine hthen (fun _ => ?_) fun _ => ⟨rfl, rfl, rfl⟩
    split
    · exact hthen (fun _ => steady_pure _) fun _ => ⟨rfl, rfl, rfl⟩
    · apply (read lba).bind
      intro b
      exact hthen (fun _ => steady_pure _) fun _ => ⟨rfl, rfl, rfl⟩

theorem readRun (lba len : Nat) : Steady (Mirror.Scribed P n) (Mirror.readRun lba len) :=
  steady_state fun _ => steady_ite (steady_collect read _) (onFirst (Dev.Scribed.closed.readRun len lba))

theorem readMany (lbas : List Nat) : Steady (Mirror.Scribed P n) (Mirror.readMany lbas) :=
  steady_state fun _ => steady_ite (onFirst (Dev.Scribed.closed.readMany lbas)) (steady_collect read lbas)

theorem writeVerifiedBatchNow {blocks : List (Nat × Block H)} (hP : ∀ x ∈ blocks, P x.1 x.2) :
    Steady (Mirror.Scribed P n) (Mirror.writeVerifiedBatchNow blocks) := by
  intro m h
  apply sat_of_final
  obtain ⟨d, hd, hs⟩ := h.primary
  obtain ⟨d', hd', hs', hp, -⟩ := Mirror.writeVerifiedBatchNow_keeps (Dev.Scribed.closed.writeEach hP) hd hs
  obtain ⟨-, -, hforget, -⟩ := Mirror.foldl_forget_fields blocks m
  exact h.kept hd' hs' (hp.trans hforget)

theorem drain : Steady (Mirror.Scribed P n) (Mirror.drain (H := H)) := by
  intro m h
  apply sat_state
  split
  · exact sat_pure h
  · apply sat_update
    obtain ⟨d, hd, hs⟩ := h.primary
    apply writeVerifiedBatchNow
    · intro x hx
      exact h.staged x (Mirror.mem_staged_of_stagedAt (Mirror.mem_refs.mp hx))
    · exact ⟨⟨d, hd, hs⟩, by simp [Mirror.staged]⟩

theorem forget (lba : Nat) (h : m.Scribed P n) : (m.forget lba).Scribed P n := h.same rfl rfl rfl

theorem writeVerified {lba : Nat} {b : Block H} (hb : P lba b) :
    Steady (Mirror.Scribed P n) (Mirror.writeVerified lba b) :=
  drain.bind fun _ => (steady_update fun _ hm => forget lba hm).bind fun _ => everywhere (Dev.Scribed.closed.writeOne hb)

theorem grow (hP : Legible P) (c : Nat) : Steady (Mirror.Scribed P n) (Mirror.grow (H := H) c) :=
  drain.bind fun _ => everywhere (Dev.Scribed.grow hP c)

/-- A block that cannot be written at its position is not written at all: only what was staged before it may
have reached the primary. -/
theorem writeVerified_sat (hP : ∀ l b, P l b → P' l b) {lba : Nat} {b : Block H} (hb : P' lba b) (hlt : lba < n)
    (h : m.Scribed P n) : Sat (Mirror.writeVerified lba b) m (fun _ m' => m'.Scribed P' n) fun _ m' => m'.Scribed P n := by
  apply sat_bind (drain m h)
  intro _ m₁ h₁
  apply sat_update
  obtain ⟨d, hd, hs⟩ := h₁.primary
  obtain ⟨m', hrun, hprim, hsame⟩ := Mirror.everywhere_run (m := m₁.forget lba) hd
    (writeOne_run hs.script (hlt.trans_le hs.room) b)
  unfold Sat
  rw [hrun]
  constructor
  · exact ⟨_, hprim, ((hs.mono hP).landed hb).flushed⟩
  · intro x hx
    rw [Mirror.staged, hsame.1] at hx
    exact hP _ _ (h₁.staged x hx)

theorem stageOne (h : m.Scribed P n) {lba : Nat} {b : Block H} (hb : P lba b) : (m.stageOne lba b).Scribed P n := by
  constructor
  · rw [Mirror.primary_stageOne]
    exact h.primary
  · intro x hx
    rw [Mirror.staged_stageOne, List.mem_append] at hx
    cases hx with
    | inl hx => exact h.staged x hx
    | inr hx =>
      rw [List.mem_singleton.mp hx]
      exact hb

theorem reserveStaged (h : m.Scribed P n) (len : Nat) : (m.reserveStaged len).Scribed P n := by
  constructor
  · obtain ⟨d, hd, hs⟩ := h.primary
    refine ⟨d, ?_, hs⟩
    rw [← hd]
    unfold Mirror.reserveStaged
    split <;> rfl
  · rw [Mirror.staged_reserveStaged]
    exact h.staged

/-- What a power loss leaves of the primary, where it was written with blocks of `P` only. -/
theorem crash {m₀ m' : Mirror H} {d d' : Dev H} {k n' : Nat} (h : m.Scribed P n) (hP : Legible P)
    (hsess : Session m₀ m d n') (hfirst : ∀ y, m₀.primary = some y → ∀ l, P l (y.data l))
    (hcrash : m₀.Crashes k m m') (hd' : m'.primary = some d') : d'.log = [] ∧ ∀ l, P l (d'.data l) := by
  obtain ⟨-, lo, hi, la, lb, -, hla, -, -, ha', hlb, -, -, hb'⟩ := hcrash
  obtain ⟨x, hx, hs⟩ := h.primary
  -- the device that was the primary is the primary of what is left
  have hleft : ∀ {y : Dev H} {ops : List (DevOp H)}, m₀.primary = some y → ops <+: x.log →
      Leaves (some y) ops (some d') → d'.log = [] ∧ ∀ l, P l (d'.data l) := by
    intro y ops hy hops hleaves
    obtain ⟨j, hj, heq⟩ := hleaves
    obtain rfl : d' = j.dev y.limit := Option.some.inj heq
    exact ⟨rfl, hj.scribed hP (hfirst y hy) fun l b hb => hs.log l b (hops.subset hb)⟩
  have hfa := hsess.a
  have hfb := hsess.b
  rcases ha₀ : m₀.a with _ | y
  · have ha : m.a = none := by
      rcases ha : m.a with _ | a
      · rfl
      · rw [ha₀, ha] at hfa
        cases hfa
    have hnone : m'.a = none := by rwa [ha₀] at ha'
    have hmb : m.b = some x := by simpa [Mirror.primary, ha] using hx
    rcases hb₀ : m₀.b with _ | y
    · rw [hb₀, hmb] at hfb
      cases hfb
    · have hlog : m.logB = x.log := by rw [Mirror.logB_eq hsess.dropped, hmb, Option.map_some, Option.getD_some]
      apply hleft (y := y) (by rw [Mirror.primary, ha₀, hb₀, Option.none_or]) (hlog ▸ hlb)
      rw [Mirror.primary, hnone, Option.none_or] at hd'
      rwa [hb₀, hd'] at hb'
  · rcases ha : m.a with _ | a
    · rw [ha₀, ha] at hfa
      cases hfa
    · obtain rfl : a = x := by simpa [Mirror.primary, ha] using hx
      have hlog : m.logA = a.log := by rw [Mirror.logA, ha, Option.map_some, Option.getD_some]
      apply hleft (y := y) (by rw [Mirror.primary, ha₀, Option.some_or]) (hlog ▸ hla)
      rw [ha₀] at ha'
      obtain ⟨j, hj, heq⟩ := ha'
      rw [Mirror.primary, heq, Option.some_or] at hd'
      exact ⟨j, hj, hd'.symm⟩

end Mirror.Scribed

end Manifestus
