import Manifestus.Vault.Launch

/-! The fence waiver of a rescue: a window refused under it leaves it standing, and nothing else does. -/
set_option linter.unusedSectionVars false

namespace Manifestus
open Prog

variable {H : Type} [Crates H]

/-- A vault of the fixed layout on devices without fault: opened on any image, repaired, and worked with;
any of it may be refused. -/
inductive Afield : Vault H → Prop where
  | opened {a b : Option (Dev H)} {m m' : Mirror H} {v : Vault H} (hnew : Mirror.fromParts a b = .ok m)
      (hfaults : ∀ d, a = some d ∨ b = some d → d.script = []) (hfixed : (Vault.rootOf.run m).1 = .ok none)
      (ringLog2 : Nat) (now : Int) (policy : DeletePolicy) (lazy : Bool)
      (hopen : (Vault.openWith ringLog2 now policy lazy).run m = (.ok v, m')) : Afield v
  | repaired {a b : Option (Dev H)} {m m' : Mirror H} {v : Vault H} {report : RepairReport H}
      (hnew : Mirror.fromParts a b = .ok m) (hfaults : ∀ d, a = some d ∨ b = some d → d.script = [])
      (hfixed : (Vault.rootOf.run m).1 = .ok none) (now : Int) (policy : DeletePolicy)
      (hopen : (Vault.openRepairing now policy).run m = (.ok (report, v), m')) : Afield v
  | settleStep {v : Vault H} (h : Afield v) : Afield (Vault.settleStep.run v).2
  | get {v : Vault H} (h : Afield v) (key : Key) : Afield ((Vault.get key).run v).2
  | op {v : Vault H} (h : Afield v) (op : Op) : Afield (op.prog.run v).2

theorem docked_of_parts {a b : Option (Dev H)} {m : Mirror H} (hnew : Mirror.fromParts a b = .ok m)
    (hfaults : ∀ d, a = some d ∨ b = some d → d.script = []) : ∃ d, m.Docked d := by
  unfold Mirror.fromParts at hnew
  split at hnew
  · cases hnew
  next hpresent =>
    cases hnew
    have hparts : ∃ d, a.or b = some d ∧ (a = some d ∨ b = some d) := by
      rcases a with _ | a
      · rcases b with _ | b
        · exact absurd ⟨rfl, rfl⟩ hpresent
        · exact ⟨b, rfl, .inr rfl⟩
      · exact ⟨a, rfl, .inl rfl⟩
    obtain ⟨d, hd, hor⟩ := hparts
    exact ⟨d, ⟨hd, hfaults d hor, by simp [Mirror.staged], by simp⟩, rfl⟩

theorem Afield.afloat {v : Vault H} (h : Afield v) : Afloat v := by
  induction h with
  | opened hnew hfaults hfixed ringLog2 now policy lazy hopen =>
    obtain ⟨d, hd⟩ := docked_of_parts hnew hfaults
    exact (openWith_afloat hd hfixed ringLog2 now policy lazy).of_ok hopen
  | repaired hnew hfaults hfixed now policy hopen =>
    obtain ⟨d, hd⟩ := docked_of_parts hnew hfaults
    exact ((openRepairing_berthed hd hfixed now policy).of_ok hopen).afloat
  | settleStep _ ih =>
    refine Sat.final (ih.settleStep.mono (fun _ v' hv' => ?_) fun _ v' hv' => hv'.1)
    exact hv'.elim (fun hdone => hdone.2.afloat) fun hrests => hrests.2.1
  | get _ key ih => exact ih.get key
  | op _ op ih => exact ih.op op

namespace Vault

/-- How many generations there have been. -/
def generations (v : Vault H) : Nat := (v.ring.headEntry.map (·.gen + 1)).getD 0

/-- A window of the rescue: the fence waived, the reap, its commit. -/
def waivedWindow (w : Nat) (now : Int) : Prog Error (Vault H) Unit := do
  setFence none
  reapStaged w
  commitNow now

/-- What a rescue that finds no window to move grows the tract to. -/
def airlock (v : Vault H) : Nat :=
  if v.tract.len < v.live.len * 2 then v.tract.len * 2 else v.tract.len + v.reapWindow * 4

/-- Among its windows the rescue meets one that is refused, with generations enough for a fence. -/
def WindowRefused (now : Int) : Nat → Nat → Bool → Vault H → Prop
  | 0, _, _, _ => False
  | left + 1, windows, grown, v =>
    let occupied := v.tract.plow - v.tract.reap
    let w := rescueWindow v (min v.reapWindow occupied)
    if occupied = 0 ∨ (v.comfortable ∧ 0 < windows) then False
    else if w = 0 then
      match (growNow v.airlock now).run v with
      | (.ok _, u) => ¬ grown ∧ WindowRefused now left windows true u
      | (.error _, _) => False
    else
      match (waivedWindow w now).run v with
      | (.ok _, u) => WindowRefused now left (windows + 1) grown u
      | (.error _, _) => fenceK ≤ v.generations

/-- The rescue has no window to move and its grow is refused: it lands nothing. -/
def Barren (now : Int) (v : Vault H) : Prop :=
  let occupied := v.tract.plow - v.tract.reap
  occupied ≠ 0 ∧ rescueWindow v (min v.reapWindow occupied) = 0 ∧ ((growNow v.airlock now).run v).1.isOk = false

/-- The rescue, once the vault is settled, leaves a waiver: its own at a window that is refused, or, where
it lands nothing, one that stood before it. A vault that cannot settle has no fence yet. -/
def LeavesWaiver (now : Int) (v : Vault H) : Prop :=
  match settle.run v with
  | (.ok _, u) => WindowRefused now (max (u.tract.len / reapWindowMin) 8) 0 false u ∨ Barren now u ∧ ¬ u.Refenced
  | (.error _, _) => fenceK ≤ v.generations

end Vault

namespace Berthed

variable {v v' : Vault H}

/-- With the fence down it is the ring's as long as the generations are too few for one. -/
theorem refenced_iff (h : Berthed v) (hnone : v.tract.fenceLimit = none) : v.Refenced ↔ v.generations < fenceK := by
  obtain ⟨d, hon⟩ := h.on
  obtain ⟨head, hhead⟩ := h.headed
  have hlength : (v.ring.shownFences d fenceK).length = min fenceK v.generations := by
    simp [Ring.shownFences, Vault.generations, hhead]
  have hfrom : fenceFrom (v.ring.shownFences d fenceK) = none ↔ v.generations < fenceK := by
    have hpos : 0 < fenceK := by decide
    unfold fenceFrom
    split
    · simp only [true_iff]
      omega
    · rw [List.min?_eq_none_iff, ← List.length_eq_zero_iff]
      omega
  unfold Vault.Refenced
  rw [h.fences_eq hon, hnone, ← hfrom]
  constructor
  · intro h
    obtain ⟨fences, hfences, hlimit⟩ := h
    cases hfences
    exact hlimit.symm
  · intro hlimit
    exact ⟨_, rfl, hlimit.symm⟩

theorem airlock_lt (h : Berthed v) : v.tract.len < v.airlock := by
  have hlong := h.long
  have hwindow : reapWindowMin ≤ v.reapWindow := le_max_right _ _
  have hmin : 0 < reapWindowMin := by decide
  unfold Vault.airlock
  split <;> omega

/-- A window that is refused leaves the waiver. -/
theorem waivedWindow (h : Berthed v) (w : Nat) (now : Int) :
    Sat (Vault.waivedWindow w now) v (fun _ v' => Berthed v' ∧ v'.Refenced)
      fun _ v' => Aside { v with tract := { v.tract with fenceLimit := none } } v' := by
  have hwaived := h.fenced none
  refine sat_update (sat_bind (hwaived.reapStaged w) fun _ v₁ h₁ => ?_)
  exact (h₁.berthed.commitWithin_unfenced h₁.fence _ now).mono (fun _ _ h₂ => h₂) fun _ _ h₂ => h₁.trans h₂

/-- The windows of a rescue. It ends well with nothing refused, and where it fails the fence is the ring's
but for a waiver of its own or, with nothing landed, one from before. -/
theorem rescueWindows_sat (now : Int) (left : Nat) : ∀ (windows : Nat) (grown : Bool) {v : Vault H}, Berthed v →
    v.Refenced ∨ windows = 0 ∧ grown = false ∧ 0 < left →
    Sat (Vault.rescueWindows now left windows grown) v
      (fun _ v' => Berthed v' ∧
        ¬ (Vault.WindowRefused now left windows grown v ∨ windows = 0 ∧ grown = false ∧ Vault.Barren now v ∧ ¬ v.Refenced))
      fun _ v' => Berthed v' ∧ (v'.Refenced ↔
        ¬ (Vault.WindowRefused now left windows grown v ∨ windows = 0 ∧ grown = false ∧ Vault.Barren now v ∧ ¬ v.Refenced)) := by
  induction left with
  | zero =>
    intro windows grown v h hfence
    have hfenced : v.Refenced := hfence.resolve_right (by simp)
    exact sat_pure ⟨h, by simp [Vault.WindowRefused, hfenced]⟩
  | succ left ih =>
    intro windows grown v h hfence
    rw [Vault.rescueWindows]
    refine sat_state ?_
    dsimp only
    by_cases hoccupied : v.tract.plow - v.tract.reap = 0
    · rw [if_pos hoccupied]
      exact sat_pure ⟨h, by simp [Vault.WindowRefused, Vault.Barren, hoccupied]⟩
    rw [if_neg hoccupied]
    by_cases hcomfort : v.comfortable ∧ 0 < windows
    · rw [if_pos hcomfort]
      refine sat_pure ⟨h, ?_⟩
      rw [Vault.WindowRefused, if_pos (.inr hcomfort)]
      simp [Nat.ne_of_gt hcomfort.2]
    rw [if_neg hcomfort]
    by_cases hw : Vault.rescueWindow v (min v.reapWindow (v.tract.plow - v.tract.reap)) = 0
    · rw [if_pos hw]
      have hrefused : Vault.WindowRefused now (left + 1) windows grown v ↔
          match (Vault.growNow v.airlock now).run v with
          | (.ok _, u) => ¬ grown ∧ Vault.WindowRefused now left windows true u
          | (.error _, _) => False := by
        rw [Vault.WindowRefused, if_neg (not_or.mpr ⟨hoccupied, hcomfort⟩), if_pos hw]
      have hgrow := h.growNow h.airlock_lt now
      unfold Sat at hgrow
      cases grown with
      | true =>
        have hfenced : v.Refenced := hfence.resolve_right (by simp)
        refine sat_fail ⟨h, ?_⟩
        have hno : ¬ Vault.WindowRefused now (left + 1) windows true v := by
          rw [hrefused]
          rcases (Vault.growNow v.airlock now).run v with ⟨_ | _, u⟩ <;> simp
        simp [hfenced, hno]
      | false =>
        rw [if_neg Bool.false_ne_true]
        have hairlock : (if v.tract.len < v.live.len * 2 then v.tract.len * 2 else v.tract.len + v.reapWindow * 4) = v.airlock :=
          rfl
        rw [hairlock]
        unfold Sat
        rw [bind_run]
        rcases hrun : (Vault.growNow v.airlock now).run v with ⟨err | _, u⟩ <;> rw [hrun] at hgrow hrefused
        · -- nothing landed here: the fence stays what it was
          refine ⟨hgrow.berthed, ?_⟩
          have hbarren : Vault.Barren now v := ⟨hoccupied, hw, by rw [hrun]; rfl⟩
          rw [hgrow.refenced, hrefused]
          by_cases hfenced : v.Refenced
          · simp [hfenced]
          · simp [hfenced, hbarren, (hfence.resolve_left hfenced).1]
        · have hbarren : ¬ Vault.Barren now v := fun hb => by
            have hfailed := hb.2.2
            rw [hrun] at hfailed
            cases hfailed
          have hsame : (Vault.WindowRefused now (left + 1) windows false v ∨
              windows = 0 ∧ false = false ∧ Vault.Barren now v ∧ ¬ v.Refenced) ↔
              (Vault.WindowRefused now left windows true u ∨
                windows = 0 ∧ true = false ∧ Vault.Barren now u ∧ ¬ u.Refenced) := by
            rw [hrefused]
            simp [hbarren]
          rw [hsame]
          exact ih windows true hgrow.1 (.inl hgrow.2)
    · rw [if_neg hw]
      have hbarren : ¬ Vault.Barren now v := fun hb => hw hb.2.1
      have hrefused : Vault.WindowRefused now (left + 1) windows grown v ↔
          match (Vault.waivedWindow (Vault.rescueWindow v (min v.reapWindow (v.tract.plow - v.tract.reap))) now).run v with
          | (.ok _, u) => Vault.WindowRefused now left (windows + 1) grown u
          | (.error _, _) => fenceK ≤ v.generations := by
        rw [Vault.WindowRefused, if_neg (not_or.mpr ⟨hoccupied, hcomfort⟩), if_neg hw]
      generalize Vault.rescueWindow v (min v.reapWindow (v.tract.plow - v.tract.reap)) = w at hrefused
      have hwindow := h.waivedWindow w now
      unfold Sat at hwindow ⊢
      have hassoc : (do
          Vault.setFence none
          Vault.reapStaged w
          Vault.commitNow now
          Vault.rescueWindows now left (windows + 1) grown : Prog Error (Vault H) Nat).run v =
          (Vault.waivedWindow w now >>= fun _ => Vault.rescueWindows now left (windows + 1) grown).run v := by
        simp only [Vault.waivedWindow, bind_run]
        rcases (Vault.setFence none).run v with ⟨_ | _, v₁⟩
        · rfl
        · simp only []
          rcases (Vault.reapStaged w).run v₁ with ⟨_ | _, v₂⟩ <;> rfl
      rw [hassoc, bind_run]
      rcases hrun : (Vault.waivedWindow w now).run v with ⟨err | _, u⟩ <;> rw [hrun] at hwindow hrefused
      · -- refused: the waiver stands
        refine ⟨hwindow.berthed, ?_⟩
        have hcount : u.generations = v.generations := by
          rw [Vault.generations, hwindow.head]
          rfl
        rw [hwindow.berthed.refenced_iff hwindow.fence, hcount, hrefused]
        simp [hbarren]
      · have hsame : (Vault.WindowRefused now (left + 1) windows grown v ∨
            windows = 0 ∧ grown = false ∧ Vault.Barren now v ∧ ¬ v.Refenced) ↔
            (Vault.WindowRefused now left (windows + 1) grown u ∨
              windows + 1 = 0 ∧ grown = false ∧ Vault.Barren now u ∧ ¬ u.Refenced) := by
          rw [hrefused]
          simp [hbarren]
        rw [hsame]
        exact ih (windows + 1) grown hwindow.1 (.inl hwindow.2)

theorem rescueNow_sat (h : Berthed v) (now : Int) :
    Berthed ((Vault.rescueNow now).run v).2 ∧ (((Vault.rescueNow now).run v).2.Refenced ↔
      ¬ (Vault.WindowRefused now (max (v.tract.len / reapWindowMin) 8) 0 false v ∨ Vault.Barren now v ∧ ¬ v.Refenced)) := by
  have hwindows := h.rescueWindows_sat now (max (v.tract.len / reapWindowMin) 8) 0 false
    (.inr ⟨rfl, rfl, by omega⟩)
  have hiff : (Vault.WindowRefused now (max (v.tract.len / reapWindowMin) 8) 0 false v ∨
      0 = 0 ∧ false = false ∧ Vault.Barren now v ∧ ¬ v.Refenced) ↔
      (Vault.WindowRefused now (max (v.tract.len / reapWindowMin) 8) 0 false v ∨ Vault.Barren now v ∧ ¬ v.Refenced) := by
    simp only [true_and]
  rw [hiff] at hwindows
  refine Sat.final (P := fun v' => Berthed v' ∧ (v'.Refenced ↔ ¬ (Vault.WindowRefused now
    (max (v.tract.len / reapWindowMin) 8) 0 false v ∨ Vault.Barren now v ∧ ¬ v.Refenced))) ?_
  refine sat_state (sat_bind hwindows fun windows u hu => ?_)
  obtain ⟨u', hrun, hu', hfence⟩ := hu.1.refence
  exact sat_run hrun (sat_pure ⟨hu', iff_of_true hfence hu.2⟩)

end Berthed

section Session

variable {m : Mirror H} {v v' : Vault H} {r : Nat} {ops : List Op}

theorem Vault.refenced_iff_map : v.Refenced ↔ v.fences.toOption.map fenceFrom = some v.tract.fenceLimit := by
  unfold Vault.Refenced
  rcases v.fences with _ | fences
  · simp [Except.toOption]
  · simp [Except.toOption, eq_comm]

instance instDecidableRefenced : Decidable v.Refenced := decidable_of_iff _ Vault.refenced_iff_map.symm

theorem Afield.runs (h : Afield v) (hruns : Op.runs ops v = some v') : Afield v' := by
  induction ops generalizing v with
  | nil =>
    cases hruns
    exact h
  | cons op ops ih =>
    rw [Op.runs] at hruns
    rcases hrun : op.prog.run v with ⟨_ | ⟨⟩, u⟩ <;> rw [hrun] at hruns
    · cases hruns
    · have hu := h.op op
      rw [hrun] at hu
      exact ih hu hruns

/-- A first session on blank devices. -/
theorem Afield.session {a b : Option (Dev H)} (hnew : Mirror.fromParts a b = .ok m)
    (hfaults : ∀ d, a = some d ∨ b = some d → d.script = []) (hfixed : (Vault.rootOf.run m).1 = .ok none)
    (h : m.session r ops = some v) : Afield v := by
  unfold Mirror.session at h
  rcases hopen : (Vault.open r 0 .unlinkOnly).run m with ⟨_ | u, m'⟩ <;> rw [hopen] at h
  · cases h
  · exact (Afield.opened hnew hfaults hfixed r 0 .unlinkOnly false hopen).runs h

end Session

/-- Two values whose keys part at the fifth chunk, and generations enough for a fence: the tract has five
clean blocks, and the five nodes over a survivor do not fit beside it. -/
def crowdedOps : List Op :=
  [.putBatch [(0, [1]), (1 <<< 231, [2])] 1, .commit 2, .commit 3, .commit 4]

def crowded : Option (Vault Digest) := (Digest.pair 16 none).session 2 crowdedOps

set_option maxRecDepth 10000 in
theorem crowded_rescue : ∃ v, crowded = some v ∧ v.Refenced ∧ ¬ ((Vault.rescue 5).run v).2.Refenced := by
  have hfacts : crowded.any (fun v => decide v.Refenced && !decide ((Vault.rescue 5).run v).2.Refenced) = true := by
    decide +kernel
  rcases hv : crowded with _ | v <;> rw [hv] at hfacts
  · cases hfacts
  · exact ⟨v, rfl, by simpa using hfacts⟩

theorem crowded_afield {v : Vault Digest} (h : crowded = some v) : Afield v := by
  refine Afield.session (a := (Digest.pair 16 none).a) (b := (Digest.pair 16 none).b) rfl ?_ (by decide +kernel) h
  intro d hd
  rcases hd with hd | hd <;> cases hd <;> rfl

end Manifestus
