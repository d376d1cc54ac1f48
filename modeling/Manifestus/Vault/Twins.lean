import Manifestus.Flat.Twin
import Manifestus.Vault.Helm
import Manifestus.Vault.Launch

/-! Two devices without fault that hold the same, under one vault. Neither is ever given up, and they hold
the same still after whatever opens and operations the vault goes through. -/
set_option linter.unusedSectionVars false

namespace Manifestus
open Prog

variable {H : Type} [Crates H] {m m' : Mirror H} {c base : Nat}

namespace Mirror.Twins

theorem emit (lba : Nat) : Steady (Mirror.Twins c) (Mirror.emit (H := H) (.liveLapAverted lba)) := by
  apply steady_update
  intro m h
  exact ⟨h.pair, h.staged, h.whole.1, h.whole.2.1, by simp [h.whole.2.2]⟩

/-- A device that is only read stays like the other. -/
theorem first {α : Type} {x : Prog Error (Dev H) α} (hx : ∀ d : Dev H, d.script = [] → Still d x) :
    Steady (Mirror.Twins c) (Mirror.onFirst x) := by
  apply onFirst
  intro b a h
  exact (hx a h.2.first a rfl).mono (fun _ _ ha => ha ▸ h) fun _ _ ha => ha ▸ h

theorem devices : Steady (Mirror.Twins c) (Mirror.devices (H := H)) := by
  apply Steady.bind
  · exact steady_update fun m h => h.same rfl rfl rfl ⟨rfl, rfl, rfl⟩
  · exact fun _ => steady_state fun _ => steady_pure _

theorem rootOf : Steady (Mirror.Twins c) (Vault.rootOf (H := H)) := by
  apply devices.bind
  intro devs
  split
  · exact steady_pure _
  · exact first fun d hd => readRoot_still hd

theorem bootstrapN : Steady (Mirror.Twins c) (Ring.bootstrapN (H := H)) := by
  have hprobe : ∀ slots : List Nat, Steady (Mirror.Twins c) (Ring.bootstrapN.probe (H := H) slots) := by
    intro slots
    induction slots with
    | nil => exact steady_pure _
    | cons slot rest ih =>
      apply (read slot).bind
      intro b
      split
      · exact steady_pure _
      · exact ih
  exact steady_state fun m => hprobe _

theorem anySealed : Steady (Mirror.Twins c) (Vault.anySealed (H := H)) := by
  have hrest : ∀ m : Mirror H, m.Twins c → ∀ a b, m.a = some a → m.b = some b →
      ({ m with a := some a }.mark).Twins c ∧ ({ m with b := some b }.mark).Twins c := by
    intro m h a b ha hb
    constructor
    · exact h.same ha.symm rfl rfl ⟨rfl, rfl, rfl⟩
    · exact h.same rfl hb.symm rfl ⟨rfl, rfl, rfl⟩
  have honA : Steady (Mirror.Twins c) (Mirror.onA (anySealedBlock (H := H))) := by
    intro m h
    obtain ⟨a, b, ha, hb, -, hlike⟩ := h.pair
    obtain ⟨res, hres⟩ : ∃ res, anySealedBlock.run a = (res, a) :=
      ⟨_, Prod.ext rfl (anySealedBlock_still hlike.first a rfl).final⟩
    unfold Sat
    rw [Mirror.onA_run ha hres]
    cases res <;> exact (hrest m h a b ha hb).1
  have honB : Steady (Mirror.Twins c) (Mirror.onB (anySealedBlock (H := H))) := by
    intro m h
    obtain ⟨a, b, ha, hb, -, hlike⟩ := h.pair
    obtain ⟨res, hres⟩ : ∃ res, anySealedBlock.run b = (res, b) :=
      ⟨_, Prod.ext rfl (anySealedBlock_still hlike.second b rfl).final⟩
    unfold Sat
    rw [Mirror.onB_run hb hres]
    cases res <;> exact (hrest m h a b ha hb).2
  apply devices.bind
  intro ⟨a, b⟩
  have hsecond : ∀ onA : Bool, Steady (Mirror.Twins c) (do
      let onB ← if b.isSome then Mirror.onB (anySealedBlock (H := H)) else pure false
      pure (onA || onB)) := by
    intro onA
    dsimp only
    split
    · exact honB.bind fun _ => steady_pure _
    · exact steady_pure _
  dsimp only
  split
  · exact honA.bind hsecond
  · exact hsecond false

theorem zeroRingAt (r base : Nat) : Steady (Mirror.Twins c) (Manifestus.zeroRingAt (H := H) r base) :=
  steady_each (fun _ => writeVerified _ _) _

theorem appendRoot (root : RootEntry H) : Steady (Mirror.Twins c) (Manifestus.appendRoot root) := writeVerified _ _

end Mirror.Twins

/-- A vault on twins, its tract at block `base` within the first `c` blocks. -/
def Vault.Twins (base : Nat) : Nat → Vault H → Prop := Aboard base Mirror.Twins fun _ _ _ _ => True

theorem deck_twins : Deck (H := H) 0 Mirror.Twins where
  read := Mirror.Twins.read
  readCached := Mirror.Twins.readCached
  readRun := Mirror.Twins.readRun
  readMany := Mirror.Twins.readMany
  averted := Mirror.Twins.emit
  reserve len h := h.reserveStaged len
  stage b _ hlt h := h.stageOne b hlt
  erase _ := Mirror.Twins.writeVerified _ _
  grow count h := h.grow count

theorem helm_twins : Helm (H := H) base (Vault.Twins base) := by
  have hring : ∀ {α : Type} {x : Prog Error (Ring H) α} {c : Nat},
      Steady (fun q : Ring H => q.mirror.Twins c) x → Steady (Vault.Twins base c) (Vault.onRing x) := by
    intro α x c hx
    apply steady_zoom
    intro v hv
    exact (hx v.ring hv.1).mono (fun _ _ hq => ⟨hq, hv.2⟩) fun _ _ hq => ⟨hq, hv.2⟩
  have hmirror : ∀ {α : Type} {x : Prog Error (Mirror H) α} {c : Nat}, Steady (Mirror.Twins c) x →
      Steady (fun q : Ring H => q.mirror.Twins c) (Ring.onMirror x) := by
    intro α x c hx
    exact steady_zoom fun q hq => hx q.mirror hq
  constructor
  · exact deck_twins.rigged (Nat.zero_le _)
  · intro c entry
    apply hring
    have hwrite : ∀ q : Ring H, Steady (fun q : Ring H => q.mirror.Twins c) (do
        Ring.onMirror (Mirror.writeVerified (q.base + entry.gen % q.n) entry.encode)
        update fun r : Ring H => { r with head := some (entry.gen % q.n, entry) }) := by
      intro q
      apply (hmirror (Mirror.Twins.writeVerified _ _)).bind
      intro _
      exact steady_update fun _ hq => hq
    intro q hq
    by_cases hc : q.Chains entry
    · have hrun := hwrite q q hq
      unfold Sat at hrun ⊢
      rw [Ring.append_eq hc]
      exact hrun
    · obtain ⟨err, hrun⟩ := Ring.append_run_of_not hc
      unfold Sat
      rw [hrun]
      exact hq
  · intro c now
    apply steady_state
    intro v
    split
    · exact steady_pure _
    · apply (hring (hmirror (Mirror.Twins.zeroRingAt _ _))).bind
      intro _
      apply (hring (hmirror (Mirror.Twins.appendRoot _))).bind
      intro _
      exact steady_update fun v hv => hv

/-! ### The opens -/

/-- The ways to open a vault. -/
inductive Opening where
  | eager (ringLog2 : Nat) (now : Int) (policy : DeletePolicy)
  | lazily (ringLog2 : Nat) (now : Int) (policy : DeletePolicy)
  | migrating (ringLog2 residences residency : Nat) (now : Int) (policy : DeletePolicy)
  | repairing (now : Int) (policy : DeletePolicy)

/-- What an opening runs on the mirror. -/
def Opening.prog : Opening → Prog Error (Mirror H) (Vault H)
  | .eager ringLog2 now policy => Vault.open ringLog2 now policy
  | .lazily ringLog2 now policy => Vault.openLazy ringLog2 now policy
  | .migrating ringLog2 residences residency now policy => Vault.openMigrating ringLog2 residences residency now policy
  | .repairing now policy => do
    let (_, v) ← Vault.openRepairing now policy
    pure v

/-- Twins, with room for whatever is staged. -/
def Mirror.Alike (m : Mirror H) : Prop := ∃ c, m.Twins c

/-- A vault on twins, wherever its tract begins. -/
def Vault.Alike (v : Vault H) : Prop := ∃ base, Roomy (Vault.Twins base) v

theorem Vault.Alike.mirror {v : Vault H} (h : v.Alike) : v.ring.mirror.Alike := by
  obtain ⟨base, c, hm, -⟩ := h
  exact ⟨c, hm⟩

namespace Mirror.Twins

theorem runs {α : Type} {x : Prog Error (Mirror H) α} (hx : Steady (Mirror.Twins c) x) (h : m.Twins c) :
    Sat x m (fun _ m' => m'.Twins c) fun _ m' => m'.Alike :=
  (hx m h).mono (fun _ _ h' => h') fun _ _ h' => ⟨c, h'⟩

theorem openAt (h : m.Twins c) (r base : Nat) :
    Sat (Ring.openAt r base) m (fun q m' => q.mirror = m' ∧ q.mirror.Twins c ∧ q.ringLog2 = r ∧ q.base = base)
      fun _ m' => m'.Alike :=
  (Ring.openAt_sat read r base h).mono (fun _ _ hq => hq) fun _ _ h' => ⟨c, h'⟩

/-- Twins have one capacity. -/
theorem roomy (h : m.Twins 0) (hc : c ≤ m.blockCount) : m.Twins c := by
  obtain ⟨a, b, ha, hb, -, hlike⟩ := h.pair
  apply h.fill ha
  rw [Mirror.blockCount, ha, hb] at hc
  exact hc.trans (min_le_left _ _)

end Mirror.Twins

section Opens

variable {r residences residency tractBlocks : Nat} {now : Int} {policy : DeletePolicy} {q : Ring H} {v : Vault H}
  {root : Option (RootEntry H)}

variable (base) in
/-- Running a vault leaves its mirror. -/
theorem launch_twins {α : Type} {x : Prog Error (Vault H) α} (hx : Steady (Roomy (Vault.Twins base)) x)
    (hv : Roomy (Vault.Twins base) v) : Sat (Vault.launch v x) m (fun res _ => res.2.Alike) fun _ m' => m'.Alike := by
  have hrun := hx v hv
  unfold Sat at hrun ⊢
  unfold Vault.launch
  dsimp only
  rcases hres : x.run v with ⟨_ | _, v'⟩ <;> rw [hres] at hrun
  · exact Vault.Alike.mirror ⟨base, hrun⟩
  · exact ⟨base, hrun⟩

theorem resumeUnsettled_twins (hq : q.mirror.Twins 0) (hrun : Vault.resumeUnsettled q base root policy = .ok v) :
    Roomy (Vault.Twins base) v := by
  unfold Vault.resumeUnsettled at hrun
  rcases hhead : q.headEntry with _ | head
  · simp [hhead] at hrun
  · simp only [hhead, checkedAdd] at hrun
    split at hrun
    · cases hrun
    next hfits =>
      cases hrun
      exact ⟨base + head.tractBlocks, hq.roomy (Nat.not_lt.mp hfits), ⟨rfl, le_rfl⟩, trivial⟩

theorem resumeCommon_twins (hq : q.mirror.Twins 0) (hm : q.mirror = m) :
    Sat (Vault.resumeCommon q base root policy) m (fun v _ => v.Alike) fun _ m' => m'.Alike := by
  unfold Vault.resumeCommon
  rcases hres : Vault.resumeUnsettled q base root policy with err | v
  · exact ⟨0, hm ▸ hq⟩
  · apply sat_run (show (lift (.ok v)).run m = (.ok v, m) from rfl)
    apply sat_bind (launch_twins base helm_twins.settle (resumeUnsettled_twins hq hres))
    intro res m₁ hv
    exact sat_pure hv

theorem openResidence_twins (h : m.Twins 0) (root : RootEntry H) :
    Sat (Vault.openResidence root) m (fun q m' => q.mirror = m' ∧ q.mirror.Twins 0) fun _ m' => m'.Alike := by
  apply sat_bind (h.openAt root.ringLog2 root.base)
  intro q m₁ ⟨hm, hq, _⟩
  split
  · exact ((hm ▸ hq).openAt root.ringLog2 root.was).mono (fun _ _ hq' => ⟨hq'.1, hq'.2.1⟩) fun _ _ h' => h'
  · exact sat_pure ⟨hm, hq⟩

theorem startSpine_twins (hq : q.mirror.Twins c) (hfits : base + tractBlocks ≤ c) :
    Sat (Vault.startSpine q base tractBlocks root now policy) m (fun v _ => v.Alike) fun _ m' => m'.Alike := by
  apply sat_bind (launch_twins base (helm_twins.any fun _ => helm_twins.append _) ⟨c, hq, ⟨rfl, hfits⟩, trivial⟩)
  intro res m₁ hv
  exact sat_pure hv

theorem genesis_twins (h : m.Twins 0) :
    Sat (Vault.genesis r now policy) m (fun v _ => v.Alike) fun _ m' => m'.Alike := by
  apply sat_state
  dsimp only
  split
  · exact ⟨0, h⟩
  next hroom =>
    apply sat_bind ((h.roomy le_rfl).runs (Mirror.Twins.zeroRingAt r 0))
    intro _ m₁ h₁
    apply sat_bind (h₁.openAt r 0)
    intro q m₂ ⟨_, hq, _⟩
    apply startSpine_twins hq
    omega

theorem openWith_twins (h : m.Twins 0) (ringLog2 : Nat) (now : Int) (policy : DeletePolicy) (slow : Bool) :
    Sat (Vault.openWith ringLog2 now policy slow) m (fun v _ => v.Alike) fun _ m' => m'.Alike := by
  apply sat_bind (h.runs Mirror.Twins.rootOf)
  intro found m₁ h₁
  cases found with
  | some root =>
    apply sat_bind (openResidence_twins h₁ root)
    intro q m₂ ⟨hm, hq⟩
    exact resumeCommon_twins hq hm
  | none =>
    apply sat_bind (h₁.runs Mirror.Twins.bootstrapN)
    intro seen m₂ h₂
    cases seen with
    | some r =>
      dsimp only
      split
      · apply sat_bind (h₂.openAt r 0)
        intro q m₃ ⟨hm, hq, _⟩
        unfold Sat
        rw [lift_run]
        rcases hres : Vault.resumeUnsettled q (2 ^ r) none policy with err | v
        · exact ⟨0, hm ▸ hq⟩
        · exact ⟨2 ^ r, resumeUnsettled_twins hq hres⟩
      · apply sat_bind (h₂.openAt r 0)
        intro q m₃ ⟨hm, hq, _⟩
        exact resumeCommon_twins hq hm
    | none =>
      apply sat_bind (h₂.runs Mirror.Twins.anySealed)
      intro sealed m₃ h₃
      split
      · exact ⟨0, h₃⟩
      · exact genesis_twins h₃

theorem openMigrating_twins (h : m.Twins 0) :
    Sat (Vault.openMigrating r residences residency now policy) m (fun v _ => v.Alike) fun _ m' => m'.Alike := by
  apply sat_bind (h.runs Mirror.Twins.rootOf)
  intro found m₁ h₁
  cases found with
  | some root =>
    apply sat_bind (openResidence_twins h₁ root)
    intro q m₂ ⟨hm, hq⟩
    exact resumeCommon_twins hq hm
  | none =>
    apply sat_bind (h₁.runs Mirror.Twins.bootstrapN)
    intro seen m₂ h₂
    dsimp only
    split
    · exact ⟨0, h₂⟩
    · apply sat_bind (h₂.runs Mirror.Twins.anySealed)
      intro sealed m₃ h₃
      split
      · exact ⟨0, h₃⟩
      · split
        · exact ⟨0, h₃⟩
        · apply sat_state
          split
          · exact ⟨0, h₃⟩
          next hroom =>
            have hslots : Steady (Mirror.Twins (H := H) m₃.blockCount)
                (each (fun slot => Mirror.writeVerified slot .zero) (List.range rootSlots)) :=
              steady_each (fun _ => Mirror.Twins.writeVerified _ _) _
            apply sat_bind ((h₃.roomy le_rfl).runs hslots)
            intro _ m₄ h₄
            apply sat_bind (h₄.runs (Mirror.Twins.zeroRingAt _ _))
            intro _ m₅ h₅
            apply sat_bind (h₅.runs (Mirror.Twins.appendRoot _))
            intro _ m₆ h₆
            apply sat_bind (h₆.openAt _ _)
            intro q m₇ ⟨_, hq, _⟩
            apply startSpine_twins hq
            omega

/-- The walk of a repair as work on the store. -/
def Vault.walkRepair : Prog Error (Store H) (Walk H) := ⟨fun s =>
  match Walker.walkLiveRepair.run ⟨s, Walk.start s.tract.len []⟩ with
  | (.ok _, w) => (.ok w.walk, w.store)
  | (.error e, w) => (.error e, w.store)⟩

theorem Tilling.walkRepair : Tilling (Vault.walkRepair (H := H)) := by
  intro I h s hs
  have hwalk := h.toReading.walkLiveRepair ⟨s, Walk.start s.tract.len []⟩ hs
  unfold Sat at hwalk ⊢
  unfold Vault.walkRepair
  rcases hrun : Walker.walkLiveRepair.run ⟨s, Walk.start s.tract.len []⟩ with ⟨err | _, w⟩ <;> rw [hrun] at hwalk <;>
    simp only [hrun] <;> exact hwalk

theorem repairWalk_twins : Steady (Roomy (Vault.Twins (H := H) base)) Vault.repairWalk := by
  apply Steady.bind
  · apply helm_twins.any
    intro c v hv
    have hwalk := helm_twins.till Tilling.walkRepair v hv
    unfold Sat at hwalk ⊢
    unfold Vault.onStore Vault.walkRepair at hwalk
    rcases hrun : Walker.walkLiveRepair.run ⟨v.store, Walk.start v.tract.len []⟩ with ⟨err | _, w⟩ <;>
      simp only [zoom_run, show v.store.tract.len = v.tract.len from rfl, hrun] at hwalk ⊢ <;> exact hwalk
  · intro w
    exact (helm_twins.finishOpen _).bind fun _ => steady_pure _

theorem openRepairing_twins (h : m.Twins 0) :
    Sat (Vault.openRepairing now policy) m (fun res _ => res.2.Alike) fun _ m' => m'.Alike := by
  have hrepair : ∀ {q : Ring H} {m : Mirror H} {base : Nat} {root : Option (RootEntry H)}, q.mirror.Twins 0 → q.mirror = m →
      Sat (do
        let v ← lift (Vault.resumeUnsettled q base root policy)
        Vault.launch { v with settling := none } do
          let report ← Vault.repairWalk
          Vault.commitNow now
          pure report) m (fun res _ => res.2.Alike) fun _ m' => m'.Alike := by
    intro q m base root hq hm
    rcases hres : Vault.resumeUnsettled q base root policy with err | v
    · exact ⟨0, hm ▸ hq⟩
    · apply sat_run (show (lift (.ok v)).run m = (.ok v, m) from rfl)
      obtain ⟨c, hv⟩ := resumeUnsettled_twins hq hres
      apply launch_twins base
      · apply repairWalk_twins.bind
        intro report
        exact (helm_twins.any fun _ => helm_twins.commitWithin _ now).bind fun _ => steady_pure _
      · exact ⟨c, helm_twins.same (v := v) ⟨rfl, rfl, rfl, .inl rfl⟩ hv⟩
  apply sat_bind (h.runs Mirror.Twins.rootOf)
  intro found m₁ h₁
  cases found with
  | some root =>
    apply sat_bind (openResidence_twins h₁ root)
    intro q m₂ ⟨hm, hq⟩
    exact hrepair hq hm
  | none =>
    apply sat_bind (h₁.runs Mirror.Twins.bootstrapN)
    intro seen m₂ h₂
    cases seen with
    | none => exact ⟨0, h₂⟩
    | some r =>
      apply sat_bind (h₂.openAt r 0)
      intro q m₃ ⟨hm, hq, _⟩
      exact hrepair hq hm

/-- Whichever way a vault is opened on twins. -/
theorem opening_twins (h : m.Twins 0) (x : Opening) : Sat x.prog m (fun v _ => v.Alike) fun _ m' => m'.Alike := by
  cases x with
  | eager ringLog2 now policy => exact openWith_twins h ringLog2 now policy false
  | lazily ringLog2 now policy => exact openWith_twins h ringLog2 now policy true
  | migrating ringLog2 residences residency now policy => exact openMigrating_twins h
  | repairing now policy =>
    apply sat_bind (openRepairing_twins h)
    intro res m₁ hv
    exact sat_pure hv

end Opens

/-! ### Whole voyages -/

/-- What is done with an open vault. -/
inductive Voyage.Leg where
  | op (x : Op)
  | get (key : Key)
  | settleStep
  | settle

/-- What a leg leaves, whatever it returns. -/
def Voyage.Leg.after : Voyage.Leg → Vault H → Vault H
  | .op x, v => (x.prog.run v).2
  | .get key, v => ((Vault.get key).run v).2
  | .settleStep, v => (Vault.settleStep.run v).2
  | .settle, v => (Vault.settle.run v).2

/-- The devices of `m` under one vault after another: opened in any way, each open followed by any legs, or refused. -/
inductive Voyage (m : Mirror H) : Mirror H → Prop where
  | docked : Voyage m m
  | refused {m₁ m₂ : Mirror H} {x : Opening} {err : Error} (h : Voyage m m₁)
      (hopen : x.prog.run m₁.reattach = (.error err, m₂)) : Voyage m m₂
  | sailed {m₁ m₂ : Mirror H} {x : Opening} {v : Vault H} (h : Voyage m m₁)
      (hopen : x.prog.run m₁.reattach = (.ok v, m₂)) (legs : List Voyage.Leg) :
      Voyage m (legs.foldl (fun v leg => leg.after v) v).ring.mirror

theorem Vault.Alike.leg {v : Vault H} (h : v.Alike) (leg : Voyage.Leg) : (leg.after v).Alike := by
  obtain ⟨base, hv⟩ := h
  exists base
  cases leg with
  | op x => exact (helm_twins.op x).after hv
  | get key => exact (helm_twins.any fun _ => helm_twins.get key).after hv
  | settleStep => exact helm_twins.settleStep.after hv
  | settle => exact helm_twins.settle.after hv

theorem Voyage.alike (hm : m.Alike) (h : Voyage m m') : m'.Alike := by
  induction h with
  | docked => exact hm
  | refused h hopen ih =>
    obtain ⟨c, h₁⟩ := ih
    exact (opening_twins h₁.reattach _).of_error hopen
  | sailed h hopen legs ih =>
    obtain ⟨c, h₁⟩ := ih
    have hlegs : ∀ (legs : List Voyage.Leg) (v : Vault H), v.Alike → (legs.foldl (fun v leg => leg.after v) v).Alike := by
      intro legs
      induction legs with
      | nil => exact fun _ hv => hv
      | cons leg legs ih => exact fun v hv => ih _ (hv.leg leg)
    exact (hlegs legs _ ((opening_twins h₁.reattach _).of_ok hopen)).mirror

end Manifestus
