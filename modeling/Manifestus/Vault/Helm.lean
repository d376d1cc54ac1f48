import Manifestus.Index.Steady
import Manifestus.Vault.Reached

/-! What every operation of a vault keeps, whatever the devices hold and whatever it returns: an
invariant that the accesses to the devices keep and that depends on nothing but the spine and where the
tract begins. -/
set_option linter.unusedSectionVars false

namespace Manifestus
open Prog

variable {H : Type} [Crates H]

/-- An invariant of the store that neither the index in memory nor the reap moves. -/
structure Tilled (I : Store H → Prop) : Prop extends Mooring I where
  reap : ∀ {s} x, I s → I { s with tract := { s.tract with reap := x } }

/-- Made of accesses to the tract. -/
def Tilling {α : Type} (x : Prog Error (Store H) α) : Prop := ∀ I : Store H → Prop, Tilled I → Steady I x

/-- The walk of a grow as work on the store. -/
def Vault.walkAfresh : Prog Error (Store H) (Walk H) := ⟨fun s =>
  match Walker.walkTreeCollect.run ⟨s, Walk.start s.tract.len []⟩ with
  | (.ok _, w) => (.ok w.walk, w.store)
  | (.error e, w) => (.error e, w.store)⟩

/-- A step of the open's walk as work on the store: the walk so far, and the error that stopped it. -/
def Vault.walkOn (w : Walk H) : Prog Error (Store H) (Walk H × Option Error) := ⟨fun s =>
  match Walker.walkTreeStep.run ⟨s, w⟩ with
  | (.ok _, w') => (.ok (w'.walk, none), w'.store)
  | (.error e, w') => (.ok (w'.walk, some e), w'.store)⟩

namespace Tilling

theorem reapWindow (live : Liveness H) (window : Nat) : Tilling (Hamt.reapWindow live window) := by
  intro I h s hs
  apply h.toMooring.reapWindow live window hs
  · intro hs'
    exact hs'
  · intro s' hs'
    exact h.reap _ hs'

theorem walkAfresh : Tilling (Vault.walkAfresh (H := H)) := by
  intro I h s hs
  have hwalk := h.toReading.walkTreeCollect ⟨s, Walk.start s.tract.len []⟩ hs
  unfold Sat at hwalk ⊢
  unfold Vault.walkAfresh
  rcases hrun : Walker.walkTreeCollect.run ⟨s, Walk.start s.tract.len []⟩ with ⟨err | _, w⟩ <;> rw [hrun] at hwalk <;>
    simp only [hrun] <;> exact hwalk

theorem walkOn (w : Walk H) : Tilling (Vault.walkOn w) := by
  intro I h s hs
  have hwalk := h.toReading.walkTreeStep ⟨s, w⟩ hs
  unfold Sat at hwalk ⊢
  unfold Vault.walkOn
  rcases hrun : Walker.walkTreeStep.run ⟨s, w⟩ with ⟨err | _, w'⟩ <;> rw [hrun] at hwalk <;>
    simp only [hrun] <;> exact hwalk

end Tilling

/-- An invariant of a mirror with room for `c` blocks that reads keep, and so do appends and erasures between
block `n` and that room. -/
structure Deck (n : Nat) (K : Nat → Mirror H → Prop) : Prop where
  read : ∀ {c : Nat} lba, Steady (K c) (Mirror.read lba)
  readCached : ∀ {c : Nat} lba, Steady (K c) (Mirror.readCached lba)
  readRun : ∀ {c : Nat} lba len, Steady (K c) (Mirror.readRun lba len)
  readMany : ∀ {c : Nat} lbas, Steady (K c) (Mirror.readMany lbas)
  averted : ∀ {c : Nat} lba, Steady (K c) (Mirror.emit (.liveLapAverted lba))
  reserve : ∀ {c : Nat} {m : Mirror H} len, K c m → K c (m.reserveStaged len)
  stage : ∀ {c : Nat} {m : Mirror H} {lba : Nat} b, n ≤ lba → lba < c → K c m → K c (m.stageOne lba b)
  erase : ∀ {c lba : Nat}, n ≤ lba → Steady (K c) (Mirror.writeVerified lba .zero)
  grow : ∀ {c : Nat} {m : Mirror H} count, K c m →
    Sat (Mirror.grow count) m (fun _ m' => K (max c count) m') fun _ m' => K c m'

/-- The invariant of the mirror in a vault whose tract begins at block `base` and fits, and a condition on the ring
and the root. -/
def Aboard (base : Nat) (K : Nat → Mirror H → Prop) (C : Nat → Nat → Option (SpineEntry H) → Option (RootEntry H) → Prop)
    (c : Nat) (v : Vault H) : Prop :=
  K c v.ring.mirror ∧ (v.tract.base = base ∧ base + v.tract.len ≤ c) ∧ C v.ring.ringLog2 v.ring.base v.ring.headEntry v.root

namespace Deck

variable {n base c : Nat} {K : Nat → Mirror H → Prop}
  {C : Nat → Nat → Option (SpineEntry H) → Option (RootEntry H) → Prop} (h : Deck n K) (hn : n ≤ base)
include h hn

/-- Accesses to a tract that begins there. -/
theorem tilled : Tilled fun s : Store H => K c s.mirror ∧ s.tract.base = base ∧ base + s.tract.len ≤ c := by
  have hmirror : ∀ {α : Type} {x : Prog Error (Mirror H) α}, Steady (K c) x →
      Steady (fun s : Store H => K c s.mirror ∧ s.tract.base = base ∧ base + s.tract.len ≤ c) (Store.onMirror x) := by
    intro α x hx
    apply steady_zoom
    intro s hs
    exact (hx s.mirror hs.1).mono (fun _ _ hm => ⟨hm, hs.2⟩) fun _ _ hm => ⟨hm, hs.2⟩
  have hin : ∀ lba, Steady (fun s : Store H => K c s.mirror ∧ s.tract.base = base ∧ base + s.tract.len ≤ c)
      (Tract.inBounds lba) := fun lba => steady_state fun _ => steady_ite (steady_pure _) (steady_fail _)
  constructor
  · constructor
    · constructor
      · exact fun lba => (hin lba).bind fun _ => steady_state fun _ => hmirror (h.read _)
      · exact fun lba => (hin lba).bind fun _ => steady_state fun _ => hmirror (h.readCached _)
      · exact fun lba len => steady_state fun _ => steady_ite (steady_fail _) (hmirror (h.readRun _ _))
      · exact fun lbas => (steady_each hin lbas).bind fun _ => steady_state fun _ => hmirror (h.readMany _)
    · exact fun _ hs => hs
    · intro live len make s hs
      apply sat_state
      dsimp only
      split
      · exact sat_fail hs
      next hclean =>
        split
        · exact sat_fail hs
        · split
          · exact ((hmirror (h.averted _)).bind fun _ => steady_fail _) s hs
          · apply sat_update
            apply sat_pure
            refine ⟨?_, hs.2⟩
            obtain ⟨hm, hbase, hfits⟩ := hs
            have hfold : ∀ (is : List Nat) (m : Mirror H), (∀ i ∈ is, i < len) → K c m →
                K c (is.foldl (fun m i => m.stageOne (s.tract.base + (s.tract.plow + i) % s.tract.len) (make i)) m) := by
              intro is
              induction is with
              | nil => exact fun _ _ hm => hm
              | cons i is ih =>
                intro m his hm
                simp only [List.mem_cons, forall_eq_or_imp] at his
                unfold Tract.cleanBlocks at hclean
                have hlt := Nat.mod_lt (s.tract.plow + i) (show 0 < s.tract.len by omega)
                apply ih _ his.2
                apply h.stage _ _ _ hm
                · omega
                · omega
            exact hfold _ _ (fun i hi => List.mem_range.mp hi) (h.reserve len hm)
    · intro lba
      apply (hin lba).bind
      intro _ s hs
      apply sat_state
      exact hmirror (h.erase ((hn.trans hs.2.1.ge).trans (Nat.le_add_right _ _))) s hs
  · exact fun _ hs => hs

theorem till {α : Type} {x : Prog Error (Store H) α} (hx : Tilling x) : Steady (Aboard base K C c) (Vault.onStore x) := by
  apply steady_zoom
  intro v hv
  exact (hx _ (h.tilled hn) v.store ⟨hv.1, hv.2.1⟩).mono (fun _ _ hs => ⟨hs.1, hs.2, hv.2.2⟩) fun _ _ hs => ⟨hs.1, hs.2, hv.2.2⟩

omit hn

theorem grown {v : Vault H} (count : Nat) (hv : Aboard base K C c v) :
    Sat (Vault.onMirror (Mirror.grow (H := H) count)) v (fun _ v' => Aboard base K C (max c count) v')
      fun _ v' => Aboard base K C c v' := by
  have hm := h.grow count hv.1
  unfold Sat at hm ⊢
  unfold Vault.onMirror Vault.onRing Ring.onMirror
  rw [zoom_run, zoom_run]
  rcases hrun : (Mirror.grow count).run v.ring.mirror with ⟨_ | _, m⟩ <;> rw [hrun] at hm
  · exact ⟨hm, hv.2⟩
  · exact ⟨hm, ⟨hv.2.1.1, hv.2.1.2.trans (le_max_left _ _)⟩, hv.2.2⟩

theorem shown (k : Nat) : Steady (Aboard base K C c) (Vault.onRing (Ring.recentFences (H := H) k)) := by
  -- the slots are only read
  have hentry : ∀ (len gen : Nat) (q : Ring H), Steady (fun r : Ring H => K c r.mirror ∧ r = { q with mirror := r.mirror })
      (Ring.recentEntries.entryOf len gen) := by
    intro len gen q
    have hgen : Steady (fun r : Ring H => K c r.mirror ∧ r = { q with mirror := r.mirror }) (Ring.genAt (gen % len)) := by
      apply steady_state
      intro r
      apply Steady.bind
      · apply steady_zoom
        intro r hr
        exact (h.read _ r.mirror hr.1).mono (fun _ m hm => ⟨hm, by rw [hr.2]⟩) fun _ m hm => ⟨hm, by rw [hr.2]⟩
      · exact fun _ => steady_pure _
    apply hgen.bind
    intro c
    split
    · exact steady_pure _
    · exact steady_pure _
  have hfences : ∀ q : Ring H, Steady (fun r : Ring H => K c r.mirror ∧ r = { q with mirror := r.mirror })
      (Ring.recentFences k) := by
    intro q
    apply Steady.bind
    · apply steady_state
      intro r
      split
      · exact steady_pure _
      · exact steady_collect (fun gen => hentry _ gen q) _
    · exact fun _ => steady_pure _
  apply steady_zoom
  intro v hv
  have hback : ∀ r : Ring H, K c r.mirror ∧ r = { v.ring with mirror := r.mirror } → Aboard base K C c { v with ring := r } := by
    intro r hr
    refine ⟨hr.1, hv.2.1, ?_⟩
    rw [hr.2]
    exact hv.2.2
  exact (hfences v.ring v.ring ⟨hv.1, rfl⟩).mono (fun _ r hr => hback r hr) fun _ r hr => hback r hr

end Deck

/-- The same spine and root, and a tract that begins where it did and is no longer, or fits `c` blocks. -/
def Vault.Beside (c : Nat) (v v' : Vault H) : Prop :=
  v'.ring = v.ring ∧ v'.tract.base = v.tract.base ∧ v'.root = v.root ∧
    (v'.tract.len = v.tract.len ∨ v.tract.base + v'.tract.len ≤ c)

/-- An invariant of a vault whose tract begins at block `base`, with room for `c` blocks, that the accesses of the
vault to its tract keep. -/
structure Rigged (base : Nat) (I : Nat → Vault H → Prop) : Prop where
  base : ∀ {c : Nat} {v : Vault H}, I c v → v.tract.base = base
  same : ∀ {c : Nat} {v v' : Vault H}, v.Beside c v' → I c v → I c v'
  till : ∀ {c : Nat} {α : Type} {x : Prog Error (Store H) α}, Tilling x → Steady (I c) (Vault.onStore x)
  shown : ∀ {c : Nat} k, Steady (I c) (Vault.onRing (Ring.recentFences k))
  grow : ∀ {c : Nat} {v : Vault H} count, I c v →
    Sat (Vault.onMirror (Mirror.grow count)) v (fun _ v' => I (max c count) v') fun _ v' => I c v'

/-- One that new generations and hops keep as well. -/
structure Helm (base : Nat) (I : Nat → Vault H → Prop) : Prop extends Rigged base I where
  append : ∀ {c : Nat} entry, Steady (I c) (Vault.onRing (Ring.append entry))
  hop : ∀ {c : Nat} now, Steady (I c) (Vault.migrateRing now)

/-- A condition on the mirror, the ring and the root is such an invariant. -/
theorem Deck.rigged {n base : Nat} {K : Nat → Mirror H → Prop}
    {C : Nat → Nat → Option (SpineEntry H) → Option (RootEntry H) → Prop} (h : Deck n K) (hn : n ≤ base) :
    Rigged base (Aboard base K C) where
  base hv := hv.2.1.1
  same := by
    intro c v v' hbeside hv
    obtain ⟨hring, hbase, hroot, hlen⟩ := hbeside
    obtain ⟨hm, hroom, hlog⟩ := hv
    refine ⟨hring ▸ hm, ⟨hbase.trans hroom.1, ?_⟩, hring ▸ hroot ▸ hlog⟩
    cases hlen with
    | inl hlen =>
      rw [hlen]
      exact hroom.2
    | inr hlen => rwa [hroom.1] at hlen
  till := h.till hn
  shown := h.shown
  grow := h.grown

/-- With whatever room there is. -/
def Roomy (I : Nat → Vault H → Prop) (v : Vault H) : Prop := ∃ c, I c v

namespace Rigged

variable {base c : Nat} {I : Nat → Vault H → Prop} (h : Rigged base I)
include h

/-- A change of what the invariant does not depend on. -/
theorem set {f : Vault H → Vault H} (hf : ∀ v : Vault H, v.Beside c (f v)) :
    Steady (I c) (update f : Prog Error (Vault H) Unit) := steady_update fun v hv => h.same (hf v) hv

/-- The same, and then the rest. -/
theorem setThen {α : Type} {f : Vault H → Vault H} {x : Unit → Prog Error (Vault H) α} (hx : ∀ u, Steady (I c) (x u))
    (hf : ∀ v : Vault H, v.Beside c (f v)) : Steady (I c) (update f >>= x) := (h.set hf).bind hx

theorem headOr (reason : String) : Steady (I c) (Vault.headOr reason) := by
  apply steady_state
  intro v
  split
  · exact steady_pure _
  · exact steady_fail _

theorem refence : Steady (I c) (Vault.refence (H := H)) :=
  (h.shown _).bind fun _ => h.set fun _ => ⟨rfl, rfl, rfl, .inl rfl⟩

theorem setFence (limit : Option Nat) : Steady (I c) (Vault.setFence limit) := h.set fun _ => ⟨rfl, rfl, rfl, .inl rfl⟩

/-- What a commit retires is no part of the invariant. -/
theorem retireReap : Steady (I c) (update (Vault.retireReap (H := H)) : Prog Error (Vault H) Unit) := by
  apply h.set
  intro v
  unfold Vault.retireReap
  split <;> exact ⟨rfl, rfl, rfl, .inl rfl⟩

theorem flushOnce : Steady (I c) (Vault.flushOnce (H := H)) := by
  apply steady_state
  intro v
  apply (h.till fun J hJ => hJ.toMooring.flush _).bind
  intro root
  apply (h.till fun J hJ => hJ.toMooring.takeDelta).bind
  intro delta
  exact h.setThen (fun _ => steady_pure _) fun _ => ⟨rfl, rfl, rfl, .inl rfl⟩

theorem reloadHead (reason : String) : Steady (I c) (Vault.reloadHead reason) :=
  (h.headOr reason).bind fun _ => h.set fun _ => ⟨rfl, rfl, rfl, .inl rfl⟩

theorem rewalk : Steady (I c) (Vault.growNow.rewalk (H := H)) := by
  intro v hv
  have hwalk := h.till Tilling.walkAfresh v hv
  unfold Sat at hwalk ⊢
  unfold Vault.onStore Vault.walkAfresh at hwalk
  unfold Vault.growNow.rewalk
  rcases hrun : Walker.walkTreeCollect.run ⟨v.store, Walk.start v.tract.len []⟩ with ⟨err | _, w⟩ <;>
    simp only [zoom_run, show v.store.tract.len = v.tract.len from rfl, hrun] at hwalk ⊢ <;> exact hwalk

theorem lengthen (n : Nat) : Steady (Roomy I) (Vault.lengthen (H := H) n) := by
  intro v ⟨c, hv⟩
  apply sat_state
  apply sat_bind ((h.grow (v.tract.base + n) hv).mono (fun _ _ hv' => hv') fun _ _ hv' => ⟨c, hv'⟩)
  intro _ v₁ h₁
  rw [h.base hv] at h₁
  have hrealign : ∀ u : Vault H, I (max c (base + n)) u →
      Sat (update fun v => { v with tract := v.tract.realign n } : Prog Error (Vault H) Unit) u (fun _ v' => Roomy I v')
        fun _ v' => Roomy I v' := by
    intro u hu
    refine ⟨max c (base + n), h.same (v := u) ⟨rfl, rfl, rfl, .inr ?_⟩ hu⟩
    rw [h.base hu]
    exact le_max_right _ _
  have hany : ∀ {α : Type} {x : Prog Error (Vault H) α} {u : Vault H}, Steady (I (max c (base + n))) x →
      I (max c (base + n)) u → Sat x u (fun _ v' => I (max c (base + n)) v') fun _ v' => Roomy I v' :=
    fun hx hu => (hx _ hu).mono (fun _ _ hv' => hv') fun _ _ hv' => ⟨_, hv'⟩
  apply sat_bind (hany (h.headOr _) h₁)
  intro head v₂ h₂
  apply sat_bind (hany (h.reloadHead _) h₂)
  intro _ v₃ h₃
  apply sat_bind (hany (h.set (f := fun v => { v with tract := { v.tract with plow := head.plow } }) fun _ => ⟨rfl, rfl, rfl, .inl rfl⟩) h₃)
  intro _ v₄ h₄
  apply sat_bind (hany h.rewalk h₄)
  intro walk v₅ h₅
  apply sat_update
  apply hrealign
  exact h.same (v := v₅) ⟨rfl, rfl, rfl, .inl rfl⟩ h₅

theorem reapStaged (w : Nat) : Steady (I c) (Vault.reapStaged (H := H) w) :=
  steady_state fun _ => (h.till (Tilling.reapWindow _ w)).bind fun _ => h.set fun _ => ⟨rfl, rfl, rfl, .inl rfl⟩

theorem get (key : Key) : Steady (I c) (Vault.get (H := H) key) := h.till fun _ hJ => hJ.toMooring.lookup key

theorem holdsCommitted (key : Key) (value : Bytes) : Steady (I c) (Vault.holdsCommitted (H := H) key value) := by
  apply (h.till fun J hJ => hJ.toMooring.findLeaf key).bind
  intro leaf
  cases leaf with
  | none => exact steady_pure _
  | some leaf =>
    apply steady_state
    intro v
    split
    · exact steady_pure _
    · apply (h.get key).attempt.bind
      intro res
      split
      · exact steady_pure _
      · exact steady_pure _
      · exact steady_pure _
      · exact steady_fail _

/-- Whatever room there is. -/
theorem any {α : Type} {x : Prog Error (Vault H) α} (hx : ∀ c, Steady (I c) x) : Steady (Roomy I) x := steady_exists hx

/-- A step that neither commits nor beats. -/
theorem quiet {x : Step} (hcommit : ∀ now, x ≠ .commit now) (hbeat : ∀ now, x ≠ .beat now) : Steady (Roomy I) x.prog := by
  cases x with
  | get key => exact h.any fun _ => (h.get key).bind fun _ => steady_pure _
  | check key value => exact h.any fun _ => (h.holdsCommitted key value).bind fun _ => steady_pure _
  | put key value => exact h.any fun _ => steady_state fun _ => h.till fun _ hJ => hJ.toMooring.put _ key value
  | delete key =>
    exact h.any fun _ => steady_state fun _ => (h.till fun _ hJ => hJ.toMooring.delete key _).bind fun _ => steady_pure _
  | commit now => exact absurd rfl (hcommit now)
  | beat now => exact absurd rfl (hbeat now)
  | stage w => exact h.any fun _ => h.reapStaged w
  | waive => exact h.any fun _ => h.setFence none
  | refence => exact h.any fun _ => h.refence
  | reload reason => exact h.any fun _ => h.reloadHead reason
  | lengthen n => exact steady_state fun _ => steady_ite (steady_pure _) (h.lengthen n)

end Rigged

namespace Helm

variable {base c : Nat} {I : Nat → Vault H → Prop} (h : Helm base I)
include h

theorem appendHeartbeat (now : Int) : Steady (I c) (Vault.appendHeartbeat now) :=
  (h.headOr _).bind fun _ => steady_state fun _ => (h.append _).bind fun _ => h.refence

theorem flushIndex (now : Int) (attempts : Nat) : Steady (I c) (Vault.flushIndex now attempts) := by
  induction attempts with
  | zero => exact h.flushOnce
  | succ attempts ih =>
    apply h.flushOnce.attempt.bind
    intro res
    cases res with
    | ok root => exact steady_pure _
    | error err =>
      cases err with
      | fenced plow => exact (h.appendHeartbeat now).bind fun _ => ih
      | _ => exact steady_fail _

theorem sealIndex (now : Int) (root : H × Nat) : Steady (I c) (Vault.sealIndex now root) := by
  apply h.retireReap.bind
  intro _
  apply (h.headOr _).bind
  intro head
  apply steady_state
  intro v
  apply (h.append _).bind
  intro _
  apply h.refence.bind
  intro _
  apply steady_state
  intro u
  split
  · exact steady_pure _
  · exact steady_ite (h.hop now) (steady_pure _)

theorem commitWithin (attempts : Nat) (now : Int) : Steady (I c) (Vault.commitWithin attempts now) :=
  (h.flushIndex now attempts).bind fun root => h.sealIndex now root

/-- One step, whatever it returns. -/
theorem step (x : Step) : Steady (Roomy I) x.prog := by
  cases x with
  | commit now => exact h.any fun _ => h.commitWithin 0 now
  | beat now => exact h.any fun _ => h.appendHeartbeat now
  | _ => exact h.quiet nofun nofun

/-- What is a list of steps. -/
theorem stepwise {α : Type} {x : Prog Error (Vault H) α} (hx : ∀ v, Stepwise x v) : Steady (Roomy I) x := by
  have hexec : ∀ (xs : List Step) {v : Vault H}, Roomy I v → Roomy I (exec xs v) := by
    intro xs
    induction xs with
    | nil =>
      intro v hv
      exact hv
    | cons x xs ih =>
      intro v hv
      exact ih ((h.step x).after hv)
  intro v hv
  obtain ⟨xs, hxs⟩ := hx v
  have hend := hexec xs hv
  rw [← hxs] at hend
  unfold Sat
  rcases hrun : x.run v with ⟨_ | _, v'⟩ <;> rw [hrun] at hend <;> exact hend

/-! ### The open's walk -/

theorem growPreservingNow (n : Nat) (now : Int) : Steady (Roomy I) (Vault.growPreservingNow (H := H) n now) := by
  intro v ⟨c, hv⟩
  apply sat_state
  split
  · exact sat_pure ⟨c, hv⟩
  · apply sat_bind ((h.grow (v.tract.base + n) hv).mono (fun _ _ hv' => hv') fun _ _ hv' => ⟨c, hv'⟩)
    intro _ v₁ h₁
    rw [h.base hv] at h₁
    apply sat_update
    apply sat_update
    have h₂ : I (max c (base + n)) { v₁ with pendingReap := none, tract := v₁.tract.realign n } := by
      refine h.same (v := v₁) ⟨rfl, rfl, rfl, .inr ?_⟩ h₁
      rw [h.base h₁]
      exact le_max_right _ _
    exact (h.commitWithin (fenceK + 3) now _ h₂).mono (fun _ _ hv' => ⟨_, hv'⟩) fun _ _ hv' => ⟨_, hv'⟩

theorem landPrunes (now : Int) : Steady (Roomy I) (Vault.landPrunes (H := H) now) := by
  apply (h.any fun _ => h.setFence none).bind
  intro _
  apply (h.any fun _ => h.commitWithin (fenceK + 3) now).attempt.bind
  intro res
  cases res with
  | ok _ => exact (h.any fun _ => h.refence).bind fun _ => steady_pure _
  | error err =>
    apply steady_state
    intro v
    apply (h.growPreservingNow _ _).attempt.bind
    intro grown
    exact (steady_pure _).bind fun _ => (h.any fun _ => h.refence).bind fun _ => steady_pure _

theorem unwedge (now : Int) : Steady (Roomy I) (Vault.unwedge (H := H) now) := by
  apply (h.stepwise fun _ => Stepwise.rescueNow now).attempt.bind
  intro res
  split
  · exact steady_state fun _ => (h.stepwise fun _ => Stepwise.growNow _ now).attempt.bind fun _ => steady_pure _
  · exact steady_pure _

theorem finishOpen (w : Walk H) : Steady (Roomy I) (Vault.finishOpen w) := by
  apply (steady_each (fun p => h.any fun _ => h.till fun J hJ => hJ.toMooring.prune _ _) w.stale).bind
  intro _
  apply (steady_each (fun p => h.any fun _ => h.till fun J hJ => hJ.toMooring.prune _ _) w.dangling).bind
  intro _
  apply Steady.bind
  · exact h.any fun _ => h.set fun _ => ⟨rfl, rfl, rfl, .inl rfl⟩
  intro _
  apply (h.any fun _ => h.refence).bind
  intro _
  apply steady_state
  intro v
  have hprobe : ∀ allowed : Bool, Steady (Roomy I) (do
      let u ← state
      if allowed ∧ u.wedged then Vault.unwedge v.rescueTime) := by
    intro allowed
    exact steady_state fun _ => steady_ite (h.unwedge _) (steady_pure _)
  dsimp only
  apply steady_ite
  · exact (steady_pure _).bind hprobe
  · exact (h.landPrunes _).bind hprobe

theorem stepWalk (w : Walk H) : Steady (I c) (Vault.stepWalk w) := by
  intro v hv
  have hwalk := h.till (Tilling.walkOn w) v hv
  unfold Sat at hwalk ⊢
  unfold Vault.onStore Vault.walkOn at hwalk
  unfold Vault.stepWalk
  rcases hrun : Walker.walkTreeStep.run ⟨v.store, w⟩ with ⟨err | _, w'⟩ <;> simp only [zoom_run, hrun] at hwalk ⊢
  · apply h.same _ hwalk
    exact ⟨rfl, rfl, rfl, .inl rfl⟩
  · exact hwalk

theorem settleStep : Steady (Roomy I) (Vault.settleStep (H := H)) := by
  have hset : ∀ x : Option (Walk H), Steady (Roomy I) (update fun v => { v with settling := x } : Prog Error (Vault H) Unit) :=
    fun x => h.any fun _ => h.set fun _ => ⟨rfl, rfl, rfl, .inl rfl⟩
  have hfinish : ∀ w : Walk H, Steady (Roomy I) (do Vault.finishOpen w; pure true) := fun w =>
    (h.finishOpen w).bind fun _ => steady_pure _
  apply steady_state
  intro v
  split
  · exact steady_pure _
  next w _ =>
    apply (hset none).bind
    intro _
    apply steady_ite
    · exact hfinish _
    · apply (h.any fun _ => h.stepWalk w).bind
      intro w'
      apply steady_ite
      · exact hfinish _
      · exact (hset (some w')).bind fun _ => steady_pure _

theorem settle : Steady (Roomy I) (Vault.settle (H := H)) := by
  have hsteps : ∀ fuel, Steady (Roomy I) (Vault.settleSteps (H := H) fuel) := by
    intro fuel
    induction fuel with
    | zero => exact steady_fail _
    | succ fuel ih =>
      rw [settleSteps_succ]
      exact h.settleStep.bind fun done => steady_ite (steady_pure _) ih
  exact steady_state fun _ => hsteps _

/-- An operation of any vault, whatever it returns. -/
theorem op (x : Op) : Steady (Roomy I) x.prog := by
  have hsettled : ∀ {α : Type} {y : Prog Error (Vault H) α}, (∀ v, Stepwise y v) →
      Steady (Roomy I) (Vault.settle >>= fun _ => y) := fun hy => h.settle.bind fun _ => h.stepwise hy
  cases x with
  | put key value now => exact hsettled fun _ => Stepwise.applyBatchNow now _
  | putBatch items now => exact hsettled fun _ => Stepwise.applyBatchNow now _
  | applyBatch items now => exact hsettled fun _ => Stepwise.applyBatchNow now _
  | delete key now => exact (hsettled fun _ => Stepwise.deleteNow now key).bind fun _ => steady_pure _
  | commit now => exact hsettled fun _ => Stepwise.commitNow now
  | reapOneWindow now => exact (hsettled fun _ => Stepwise.reapOneWindowCapped now none).bind fun _ => steady_pure _
  | reclaimAhead now => exact (hsettled fun _ => Stepwise.reclaimAheadNow now).bind fun _ => steady_pure _
  | rescue now => exact (hsettled fun _ => Stepwise.rescueNow now).bind fun _ => steady_pure _
  | grow n now => exact hsettled fun _ => Stepwise.growNow n now

end Helm

/-- An append that does not chain is refused. -/
theorem Ring.append_run_of_not {q : Ring H} {entry : SpineEntry H} (h : ¬ q.Chains entry) :
    ∃ err, (append entry).run q = (.error err, q) := by
  unfold Chains at h
  by_cases hr : entry.ringLog2 = q.ringLog2
  · rcases hh : q.headEntry with _ | head <;> rw [hh] at h
    · by_cases hg : entry.gen = 0
      · have hp : entry.prevHash ≠ Crates.zeros := fun hp => h ⟨hr, hg, hp⟩
        simp [append, hh, hg, hp]
      · simp [append, hh, hg]
    · by_cases hg : entry.gen = head.gen + 1
      · have hp : entry.prevHash ≠ head.bodyHash := fun hp => h ⟨hr, hg, hp⟩
        simp [append, hh, hg, hp]
      · simp [append, hh, hg]
  · rcases hh : q.headEntry with _ | head
    · by_cases hg : entry.gen = 0 <;> by_cases hp : entry.prevHash = Crates.zeros <;>
        simp [append, hh, hg, hp, hr]
    · by_cases hg : entry.gen = head.gen + 1 <;> by_cases hp : entry.prevHash = head.bodyHash <;>
        simp [append, hh, hg, hp, hr]

/-- Finding the head only reads. -/
theorem Ring.openAt_sat {K : Mirror H → Prop} {m : Mirror H} (hK : ∀ lba, Steady K (Mirror.read lba)) (r base : Nat) (hm : K m) :
    Sat (Ring.openAt r base) m (fun q m' => q.mirror = m' ∧ K q.mirror ∧ q.ringLog2 = r ∧ q.base = base) fun _ m' => K m' := by
  have hgen : ∀ slot, Steady (fun q : Ring H => K q.mirror ∧ q.ringLog2 = r ∧ q.base = base) (Ring.genAt slot) := by
    intro slot
    apply steady_state
    intro q
    apply Steady.bind
    · apply steady_zoom
      intro q' hq'
      exact (hK _ q'.mirror hq'.1).mono (fun _ _ hm => ⟨hm, hq'.2⟩) fun _ _ hm => ⟨hm, hq'.2⟩
    · exact fun _ => steady_pure _
  have hbisect : ∀ {both : Nat → Nat → Prog Error (Ring H) (Option (Nat × SpineEntry H))},
      (∀ lo hi, Steady (fun q : Ring H => K q.mirror ∧ q.ringLog2 = r ∧ q.base = base) (both lo hi)) →
      ∀ (fuel lo : Nat) (anchor : Option (SpineEntry H)) (hi : Nat),
        Steady (fun q : Ring H => K q.mirror ∧ q.ringLog2 = r ∧ q.base = base) (Ring.bisect both fuel lo anchor hi) := by
    intro both hboth fuel
    induction fuel with
    | zero => exact fun _ _ _ => steady_pure _
    | succ fuel ih =>
      intro lo anchor hi
      unfold Ring.bisect
      split
      · apply (hgen _).bind
        intro c
        cases c with
        | corrupt => exact (hboth _ _).bind fun _ => (hboth _ _).bind fun _ => steady_pure _
        | empty => exact ih _ _ _
        | valid e => exact steady_ite (ih _ _ _) (ih _ _ _)
      · exact steady_pure _
  have hsearch : ∀ fuel lo hi, Steady (fun q : Ring H => K q.mirror ∧ q.ringLog2 = r ∧ q.base = base) (Ring.search fuel lo hi) := by
    intro fuel
    induction fuel with
    | zero => exact fun _ _ => steady_pure _
    | succ fuel ih =>
      intro lo hi
      unfold Ring.search
      split
      · exact steady_pure _
      · apply (hgen _).bind
        intro c
        cases c with
        | corrupt => exact ih _ _
        | empty => exact hbisect ih _ _ _ _
        | valid e => exact hbisect ih _ _ _ _
  have hhead : Steady (fun q : Ring H => K q.mirror ∧ q.ringLog2 = r ∧ q.base = base) (Ring.headSearch (H := H)) :=
    steady_state fun _ => hsearch _ _ _
  have hrun := hhead ⟨m, r, base, none⟩ ⟨hm, rfl, rfl⟩
  unfold Sat at hrun ⊢
  unfold Ring.openAt
  rcases hres : Ring.headSearch.run ⟨m, r, base, none⟩ with ⟨_ | head, q⟩ <;> rw [hres] at hrun <;> simp only [hres]
  · exact hrun.1
  · exact ⟨trivial, hrun⟩

end Manifestus
