import Manifestus.Vault.Berth

/-! Opening devices without fault and without a root entry, whatever image they hold: the vault that comes
back has a spine it can append to. -/
set_option linter.unusedSectionVars false

namespace Manifestus
open Prog

variable {H : Type} [Crates H]

/-- A device that is only read stays as it is. -/
abbrev Still {α : Type} (d : Dev H) (x : Prog Error (Dev H) α) : Prop := Steady (· = d) x

theorem Dev.read_still {d : Dev H} (h : d.script = []) (lba : Nat) : Still d (Dev.read lba) := by
  intro s hs
  subst hs
  unfold Sat
  by_cases hlt : lba < s.count
  · rw [Dev.read_run h hlt]
  · rw [Dev.read_run_of_le (Nat.not_lt.mp hlt)]

theorem readRoot_still {d : Dev H} (h : d.script = []) : Still d (readRoot (H := H)) := by
  refine steady_state fun s => ?_
  have hgo : ∀ (slots : List Nat) (best : Option (RootEntry H)), Still d (readRoot.go best slots) := by
    intro slots
    induction slots with
    | nil => exact fun _ => steady_pure _
    | cons slot rest ih =>
      intro best
      refine (Dev.read_still h slot).bind fun b => ?_
      split
      · exact steady_ite (ih _) (ih _)
      · exact ih _
  exact hgo _ _

theorem anySealedBlock_still {d : Dev H} (h : d.script = []) : Still d (anySealedBlock (H := H)) := by
  refine steady_state fun s => ?_
  have hgo : ∀ lbas : List Nat, Still d (anySealedBlock.go (H := H) lbas) := by
    intro lbas
    induction lbas with
    | nil => exact steady_pure _
    | cons lba rest ih => exact (Dev.read_still h lba).bind fun b => steady_ite (steady_pure _) ih
  exact hgo _

/-- The primary is `d`, without fault, and nothing is staged. -/
def Mirror.Docked (d : Dev H) (m : Mirror H) : Prop := m.Ready d ∧ m.pending = []

namespace Mirror.Docked

variable {m : Mirror H} {d : Dev H}

theorem blockCount_le (h : m.Docked d) : m.blockCount ≤ d.count := by
  have hprimary := h.1.primary
  unfold Mirror.primary at hprimary
  unfold Mirror.blockCount
  rcases ha : m.a with _ | a <;> rcases hb : m.b with _ | b <;> rw [ha, hb] at hprimary <;> simp at hprimary <;> subst hprimary
  · exact le_rfl
  · exact le_rfl
  · exact min_le_left _ _

theorem onFirst {α : Type} {x : Prog Error (Dev H) α} (hx : Still d x) : Steady (Mirror.Docked d) (Mirror.onFirst x) := by
  intro m hm
  have hstill : (x.run d).2 = d := (hx d rfl).final
  have hrun : x.run d = ((x.run d).1, d) := Prod.ext rfl hstill
  unfold Sat
  rw [Mirror.onFirst_run hm.1.primary hrun]
  rcases (x.run d).1 with _ | _ <;> exact hm

theorem devices : Steady (Mirror.Docked d) (Mirror.devices (H := H)) := by
  refine (steady_update fun m hm => ?_).bind fun _ => steady_state fun m => steady_pure _
  exact ⟨⟨hm.1.primary, hm.1.script, hm.1.staged, by simp⟩, hm.2⟩

theorem onA {α : Type} {x : Prog Error (Dev H) α} (hx : Still d x) : Steady (Mirror.Docked d) (Mirror.onA x) := by
  intro m hm
  have hstill : (x.run d).2 = d := (hx d rfl).final
  have hrun : x.run d = ((x.run d).1, d) := Prod.ext rfl hstill
  unfold Sat
  rcases ha : m.a with _ | a
  · simp only [Mirror.onA, ha]
    exact hm
  · obtain rfl : a = d := by simpa [Mirror.primary, ha] using hm.1.primary
    rw [Mirror.onA_run ha hrun]
    have hm' : ({ m with a := some a } : Mirror H).mark.Docked a :=
      ⟨⟨by simp [Mirror.primary, Mirror.mark], hm.1.script, hm.1.staged, hm.1.cached⟩, hm.2⟩
    rcases (x.run a).1 with _ | _ <;> exact hm'

theorem onB {α : Type} {x : Prog Error (Dev H) α} (hx : Still d x) : Steady (Mirror.Docked d) (Mirror.onB x) := by
  intro m hm
  have hprimary := hm.1.primary
  unfold Sat
  rcases hb : m.b with _ | b
  · simp only [Mirror.onB, hb]
    exact hm
  · have hm' : ({ m with b := some (x.run b).2 } : Mirror H).mark.Docked d := by
      refine ⟨⟨?_, hm.1.script, hm.1.staged, hm.1.cached⟩, hm.2⟩
      rcases ha : m.a with _ | a
      · obtain rfl : b = d := by simpa [Mirror.primary, ha, hb] using hprimary
        simpa [Mirror.primary, Mirror.mark, ha] using (hx b rfl).final
      · simpa [Mirror.primary, Mirror.mark, ha] using hprimary
    rw [Mirror.onB_run hb rfl]
    rcases (x.run b).1 with _ | _ <;> exact hm'

theorem read (h : d.script = []) (lba : Nat) : Steady (Mirror.Docked d) (Mirror.read lba) := by
  refine steady_state fun m => ?_
  split
  · exact steady_pure _
  · exact onFirst (Dev.read_still h lba)

theorem rootOf (h : d.script = []) : Steady (Mirror.Docked d) (Vault.rootOf (H := H)) := by
  refine devices.bind fun devs => ?_
  split
  · exact steady_pure _
  · exact onFirst (readRoot_still h)

theorem anySealed (h : d.script = []) : Steady (Mirror.Docked d) (Vault.anySealed (H := H)) := by
  refine devices.bind fun devs => ?_
  obtain ⟨a, b⟩ := devs
  have hb : ∀ onA : Bool, Steady (Mirror.Docked d) (do
      let onB ← if b.isSome then Mirror.onB (anySealedBlock (H := H)) else pure false
      pure (onA || onB)) := by
    intro onA
    dsimp only
    split
    · exact (onB (anySealedBlock_still h)).bind fun _ => steady_pure _
    · exact steady_pure _
  dsimp only
  split
  · exact (onA (anySealedBlock_still h)).bind hb
  · exact hb false

theorem bootstrapN (h : d.script = []) : Steady (Mirror.Docked d) (Ring.bootstrapN (H := H)) := by
  have hprobe : ∀ slots : List Nat, Steady (Mirror.Docked d) (Ring.bootstrapN.probe (H := H) slots) := by
    intro slots
    induction slots with
    | nil => exact steady_pure _
    | cons slot rest ih =>
      refine (read h slot).bind fun b => ?_
      split
      · exact steady_pure _
      · exact ih
  exact steady_state fun m => hprobe _

end Mirror.Docked

/-! ### The head -/

/-- `e` is what some block shows in a ring of exponent `r`. -/
def Shown (r : Nat) (e : SpineEntry H) : Prop := ∃ b slot, classify b slot (some r) = .valid e

/-- A generation that is read back has a tract. -/
theorem Shown.long {r : Nat} {e : SpineEntry H} (h : Shown r e) : 0 < e.tractBlocks := by
  obtain ⟨b, slot, hclass⟩ := h
  have hgeometry : ∀ x : SpineEntry H, x.geometry = .ok e → 0 < e.tractBlocks := by
    intro x hx
    unfold SpineEntry.geometry at hx
    split at hx
    · cases hx
    · split at hx
      · cases hx
      · split at hx
        · cases hx
        · split at hx
          · cases hx
          · cases hx
            omega
  unfold classify at hclass
  split at hclass
  · cases hclass
  · split at hclass
    next x hdecode =>
      dsimp only at hclass
      split at hclass
      · cases hclass
      · split at hclass
        · cases hclass
        · cases hclass
          unfold SpineEntry.decode at hdecode
          split at hdecode
          · cases hdecode
          · cases hdecode
          · exact hgeometry _ hdecode
          · cases hdecode
    · cases hclass

/-- A ring under search on docked devices. -/
structure Searching (d : Dev H) (r base : Nat) (q : Ring H) : Prop where
  docked : q.mirror.Docked d
  ringLog2 : q.ringLog2 = r
  base : q.base = base

namespace Searching

variable {d : Dev H} {r base : Nat} {q : Ring H}

theorem genAt (h : Searching d r base q) (slot : Nat) :
    Sat (Ring.genAt slot) q (fun c q' => Searching d r base q' ∧ ∀ e, c = .valid e → Shown r e)
      fun _ _ => True := by
  refine sat_state (sat_bind (R := fun _ q' => Searching d r base q') ?_ fun b q' hq' => sat_pure ⟨hq', fun e he => ?_⟩)
  · have hread := Mirror.Docked.read h.docked.1.script (q.base + slot) q.mirror h.docked
    unfold Sat at hread ⊢
    simp only [Ring.onMirror, zoom_run]
    rcases hrun : (Mirror.read (q.base + slot)).run q.mirror with ⟨_ | b, m'⟩ <;> rw [hrun] at hread
    · trivial
    · exact ⟨hread, h.ringLog2, h.base⟩
  · exact ⟨b, slot, by rw [← h.ringLog2]; exact he⟩

theorem bisect {both : Nat → Nat → Prog Error (Ring H) (Option (Nat × SpineEntry H))}
    (hboth : ∀ (lo hi : Nat) {q : Ring H}, Searching d r base q → Sat (both lo hi) q
      (fun res q' => Searching d r base q' ∧ ∀ x, res = some x → Shown r x.2) fun _ _ => True) :
    ∀ (fuel lo : Nat) (anchor : Option (SpineEntry H)) (hi : Nat) {q : Ring H}, (∀ e, anchor = some e → Shown r e) →
      Searching d r base q → Sat (Ring.bisect both fuel lo anchor hi) q
        (fun res q' => Searching d r base q' ∧ ∀ x, res = some x → Shown r x.2) fun _ _ => True := by
  have hdone : ∀ (lo : Nat) (anchor : Option (SpineEntry H)) {q : Ring H}, (∀ e, anchor = some e → Shown r e) →
      Searching d r base q → Sat (pure (anchor.map (lo, ·)) : Prog Error (Ring H) _) q
        (fun res q' => Searching d r base q' ∧ ∀ x, res = some x → Shown r x.2) fun _ _ => True := by
    intro lo anchor q hanchor hq
    refine sat_pure ⟨hq, fun x hx => ?_⟩
    obtain ⟨e, he, rfl⟩ := Option.map_eq_some_iff.mp hx
    exact hanchor e he
  intro fuel
  induction fuel with
  | zero => exact fun lo anchor hi {q} => hdone lo anchor
  | succ fuel ih =>
    intro lo anchor hi q hanchor hq
    unfold Ring.bisect
    split
    · refine sat_bind (hq.genAt _) fun c q₁ h₁ => ?_
      obtain ⟨h₁, hvalid⟩ := h₁
      rcases c with e | _ | _
      · dsimp only
        split
        · exact ih _ (some e) _ (fun x hx => hvalid x (by rw [Option.some.inj hx])) h₁
        · exact ih _ _ _ hanchor h₁
      · exact ih _ _ _ hanchor h₁
      · refine sat_bind (hboth _ _ h₁) fun left q₂ h₂ => sat_bind (hboth _ _ h₂.1) fun right q₃ h₃ => sat_pure ⟨h₃.1, ?_⟩
        intro x hx
        rcases left with _ | left
        · exact h₃.2 x hx
        · rcases right with _ | right
          · exact h₂.2 x (by simpa [maxByGen] using hx)
          · simp only [maxByGen] at hx
            split at hx
            · exact h₂.2 x hx
            · exact h₃.2 x hx
    · exact hdone lo anchor hanchor hq

theorem search : ∀ (fuel lo hi : Nat) {q : Ring H}, Searching d r base q → Sat (Ring.search fuel lo hi) q
    (fun res q' => Searching d r base q' ∧ ∀ x, res = some x → Shown r x.2) fun _ _ => True := by
  intro fuel
  induction fuel with
  | zero => exact fun lo hi {q} hq => sat_pure ⟨hq, by simp⟩
  | succ fuel ih =>
    intro lo hi q hq
    unfold Ring.search
    split
    · exact sat_pure ⟨hq, by simp⟩
    · refine sat_bind (hq.genAt _) fun c q₁ h₁ => ?_
      obtain ⟨h₁, hvalid⟩ := h₁
      rcases c with e | _ | _
      · exact bisect (fun lo hi {q} => ih lo hi) fuel lo (some e) hi (fun x hx => hvalid x (by rw [Option.some.inj hx])) h₁
      · exact bisect (fun lo hi {q} => ih lo hi) fuel lo none hi (by simp) h₁
      · exact ih _ _ h₁

/-- A ring opened on docked devices. -/
theorem openAt {m : Mirror H} (h : m.Docked d) (r base : Nat) :
    Sat (Ring.openAt r base) m (fun q m' => q.mirror = m' ∧ Searching d r base q ∧ ∀ e, q.headEntry = some e → Shown r e)
      fun _ _ => True := by
  have hstart : Searching d r base ⟨m, r, base, none⟩ := ⟨h, rfl, rfl⟩
  have hsearch := search (Ring.n ⟨m, r, base, none⟩ + 1) 0 (Ring.n ⟨m, r, base, none⟩ - 1) hstart
  unfold Sat at hsearch ⊢
  have hhead : (Ring.headSearch (H := H)).run ⟨m, r, base, none⟩ =
      (Ring.search (Ring.n ⟨m, r, base, none⟩ + 1) 0 (Ring.n ⟨m, r, base, none⟩ - 1)).run ⟨m, r, base, none⟩ := rfl
  simp only [Ring.openAt, hhead]
  rcases hrun : (Ring.search (Ring.n ⟨m, r, base, none⟩ + 1) 0 (Ring.n ⟨m, r, base, none⟩ - 1)).run ⟨m, r, base, none⟩
    with ⟨_ | head, q⟩ <;> rw [hrun] at hsearch
  · trivial
  · refine ⟨rfl, ⟨hsearch.1.docked, hsearch.1.ringLog2, hsearch.1.base⟩, fun e he => ?_⟩
    obtain ⟨x, hx, rfl⟩ := Option.map_eq_some_iff.mp he
    exact hsearch.2 x hx

end Searching

/-! ### The opens -/

section Opens

variable {m : Mirror H} {d : Dev H} {r : Nat} {q : Ring H} {v : Vault H} {policy : DeletePolicy} {now : Int}

theorem launch_sat {α : Type} {x : Prog Error (Vault H) α} {Q : α → Vault H → Prop} (hx : Sat x v Q fun _ _ => True) :
    Sat (Vault.launch v x) m (fun res _ => Q res.1 res.2) fun _ _ => True := by
  unfold Sat Vault.launch at *
  dsimp only
  rcases hrun : x.run v with ⟨_ | a, v'⟩ <;> rw [hrun] at hx
  · trivial
  · exact hx

/-- A head on the devices, its tract within them: a vault with its walk still to do. -/
theorem resumeUnsettled_afloat (hq : Searching d r 0 q) (hshown : ∀ e, q.headEntry = some e → Shown r e)
    (hrun : Vault.resumeUnsettled q (2 ^ r) none policy = .ok v) : Afloat v := by
  unfold Vault.resumeUnsettled at hrun
  rcases hhead : q.headEntry with _ | head
  · simp [hhead] at hrun
  · simp only [hhead, checkedAdd] at hrun
    split at hrun
    · cases hrun
    next hfits =>
      cases hrun
      have hcount := hq.docked.blockCount_le
      refine ⟨⟨⟨d, hq.docked.1, ?_⟩, (hshown head hhead).long, ?_, rfl, ⟨head, hhead⟩, rfl⟩, fun _ => rfl⟩
      · show 2 ^ r + head.tractBlocks ≤ d.count
        omega
      · show q.base + q.n ≤ 2 ^ r
        rw [hq.base, Ring.n, hq.ringLog2]
        omega

theorem resume_berthed (h : m.Docked d) : Sat (Vault.resume r policy) m (fun v _ => Berthed v) fun _ _ => True := by
  refine sat_bind (Searching.openAt h r 0) fun q m₁ hq => ?_
  obtain ⟨-, hq, hshown⟩ := hq
  unfold Vault.resumeCommon
  rcases hres : Vault.resumeUnsettled q (2 ^ r) none policy with err | v
  · exact trivial
  · refine sat_run (show (lift (.ok v)).run m₁ = (.ok v, m₁) from rfl)
      (sat_bind (launch_sat (v := v) (Q := fun _ v' => Berthed v') ?_) fun res m₂ hres => sat_pure hres)
    exact (resumeUnsettled_afloat hq hshown hres).settle.mono (fun _ _ h' => h') fun _ _ _ => trivial

theorem genesis_berthed (h : m.Docked d) : Sat (Vault.genesis r now policy) m (fun v _ => Berthed v) fun _ _ => True := by
  refine sat_state ?_
  dsimp only
  split
  · exact trivial
  next hroom =>
    have hcount := h.blockCount_le
    obtain ⟨m₁, d₁, hzero, hready₁, hpend₁, hcount₁, -, -⟩ := zeroRingAt_run h.1 r 0 (by omega)
    refine sat_run hzero (sat_bind (Searching.openAt ⟨hready₁, hpend₁⟩ r 0) fun q m₂ hq => ?_)
    obtain ⟨-, hq, -⟩ := hq
    have hfit : q.base + q.n ≤ d₁.count := by
      rw [hq.base, Ring.n, hq.ringLog2]
      omega
    unfold Vault.startSpine
    refine sat_bind (launch_sat (Q := fun _ v' => Berthed v') ?_) fun res m₃ hres => sat_pure hres
    unfold Sat
    rw [Vault.onRing, zoom_run]
    rcases happ : (Ring.append (Vault.genesisEntry q.ringLog2 (m.blockCount - 2 ^ r) now)).run q with ⟨_ | _, q'⟩
    · trivial
    · obtain ⟨m', hrun, hready, hpend⟩ := Ring.append_run hq.docked.1 (Ring.chains_of_append_ok happ) hfit
      obtain rfl : q' = _ := (congrArg Prod.snd (happ.symm.trans hrun))
      refine ⟨⟨_, hready, ?_⟩, ?_, ?_, rfl, ⟨_, rfl⟩, rfl⟩
      · show 2 ^ r + (m.blockCount - 2 ^ r) ≤ _
        simp only [Dev.flushed_count, Dev.landed_count, Mirror.drained_count]
        omega
      · show 0 < m.blockCount - 2 ^ r
        omega
      · show q.base + q.n ≤ 2 ^ r
        rw [hq.base, Ring.n, hq.ringLog2]
        omega

/-- Whatever the devices hold, the vault opened on them is afloat. -/
theorem openWith_afloat (h : m.Docked d) (hfixed : (Vault.rootOf.run m).1 = .ok none) (ringLog2 : Nat) (now : Int)
    (policy : DeletePolicy) (lazy : Bool) :
    Sat (Vault.openWith ringLog2 now policy lazy) m (fun v _ => Afloat v) fun _ _ => True := by
  have hscript := h.1.script
  have hroot : Vault.rootOf.run m = (.ok none, (Vault.rootOf.run m).2) := Prod.ext hfixed rfl
  have h₁ : (Vault.rootOf.run m).2.Docked d := (Mirror.Docked.rootOf hscript).after h
  refine sat_run hroot (sat_bind (Mirror.Docked.bootstrapN hscript _ h₁ |>.mono (fun _ _ h' => h') fun _ _ _ => trivial)
    fun found m₂ h₂ => ?_)
  rcases found with _ | r
  · refine sat_bind (Mirror.Docked.anySealed hscript _ h₂ |>.mono (fun _ _ h' => h') fun _ _ _ => trivial)
      fun sealed m₃ h₃ => ?_
    split
    · exact trivial
    · exact (genesis_berthed h₃).mono (fun _ _ h' => h'.afloat) fun _ _ _ => trivial
  · dsimp only
    split
    · refine sat_bind (Searching.openAt h₂ r 0) fun q m₃ hq => ?_
      unfold Sat
      rw [lift_run]
      rcases hres : Vault.resumeUnsettled q (2 ^ r) none policy with err | v
      · trivial
      · exact resumeUnsettled_afloat hq.2.1 hq.2.2 hres
    · exact (resume_berthed h₂).mono (fun _ _ h' => h'.afloat) fun _ _ _ => trivial

theorem repairWalk_berthed (h : Berthed v) : Sat Vault.repairWalk v (fun _ v' => Berthed v') fun _ _ => True := by
  obtain ⟨d, hon⟩ := h.on
  have hwalk := (Moored.reading v.tract d.count (v.ring.mirror.view d) v.hamt).walkLiveRepair
    ⟨v.store, Walk.start v.tract.len []⟩ ⟨Moored.start hon, rfl⟩
  refine sat_bind (R := fun _ v' => Berthed v') ?_ fun w v₁ h₁ => sat_bind (h₁.finishOpen _ |>.mono (fun _ _ h' => h')
    fun _ _ _ => trivial) fun _ v₂ h₂ => sat_pure h₂
  unfold Sat at hwalk ⊢
  rcases hrun : Walker.walkLiveRepair.run ⟨v.store, Walk.start v.tract.len []⟩ with ⟨err | _, w⟩ <;> rw [hrun] at hwalk
  · simp only [hrun]
  · simp only [hrun]
    exact (h.aside_of_moored hon hwalk.1).berthed

/-- The same of a repair. -/
theorem openRepairing_berthed (h : m.Docked d) (hfixed : (Vault.rootOf.run m).1 = .ok none) (now : Int)
    (policy : DeletePolicy) :
    Sat (Vault.openRepairing now policy) m (fun res _ => Berthed res.2) fun _ _ => True := by
  have hscript := h.1.script
  have hroot : Vault.rootOf.run m = (.ok none, (Vault.rootOf.run m).2) := Prod.ext hfixed rfl
  have h₁ : (Vault.rootOf.run m).2.Docked d := (Mirror.Docked.rootOf hscript).after h
  refine sat_run hroot (sat_bind (Mirror.Docked.bootstrapN hscript _ h₁ |>.mono (fun _ _ h' => h') fun _ _ _ => trivial)
    fun found m₂ h₂ => ?_)
  rcases found with _ | r
  · exact trivial
  · refine sat_bind (Searching.openAt h₂ r 0) fun q m₃ hq => ?_
    dsimp only
    rcases hres : Vault.resumeUnsettled q (2 ^ r) none policy with err | v
    · exact trivial
    · have hv := (resumeUnsettled_afloat hq.2.1 hq.2.2 hres).berthed
      refine sat_run (show (lift (.ok v)).run m₃ = (.ok v, m₃) from rfl)
        (launch_sat (v := { v with settling := none }) (Q := fun _ v' => Berthed v') ?_)
      refine sat_bind (repairWalk_berthed hv) fun report v₁ h₁ => ?_
      exact sat_bind ((h₁.commitWithin _ now).mono (fun _ _ h' => h'.1) fun _ _ _ => trivial) fun _ v₂ h₂ => sat_pure h₂

end Opens

end Manifestus
