import Manifestus.Vault.Commit

/-! Back to the committed index, reap windows, and a longer tract. -/
set_option linter.unusedSectionVars false

namespace Manifestus
open Prog

variable {H : Type} [Crates H] {m₀ m : Mirror H} {k r n : Nat} {allowed : Map → Prop} {v v' : Vault H} {d : Dev H}
  {e e' : SpineEntry H} {T T' C C' : Tree H} {G : Vault H → Step → Prop}

theorem Dev.extended_data {y : Dev H} {c l : Nat} (hl : l < y.count) : (y.extended c).data l = y.data l := by
  unfold Dev.extended
  split
  · rfl
  · show (if l < y.count then y.data l else .zero) = y.data l
    rw [if_pos hl]

/-- A committed vault on an extended device. -/
theorem Sound.extended {y : Dev H} (h : Sound r y.image e T) (c : Nat) :
    Sound r (y.extended c).image e T := by
  unfold Dev.extended
  split
  · exact h
  next hc =>
    have hold : ∀ l, l < y.count → (y.grown c).image.data l = y.image.data l := by
      intro l hl
      show (if l < y.count then y.data l else .zero) = y.data l
      rw [if_pos hl]
    have hfits : 2 ^ r + e.tractBlocks ≤ y.count := h.fits
    refine h.congr (h.spine.congr fun s hs => hold s (by omega)) ?_ ?_ fun p hp => hold _ ?_
    · show y.count ≤ c
      omega
    · intro l _
      show Block.NotRoot (if l < y.count then y.data l else .zero)
      split
      next hl => exact h.rootless l hl
      · exact Block.notRoot_zero
    · have := h.claims_lt hp
      omega

namespace InUse

/-- The committed index read anew. -/
theorem reloaded (h : InUse m₀ k allowed r v d e T C) :
    InUse m₀ k allowed r (v.reloaded e) d e T T where
  attached := h.attached
  ringLog2 := h.ringLog2
  ringBase := h.ringBase
  head := h.head
  base := h.base
  root := h.root
  policy := h.policy
  settling := h.settling
  sound := h.sound
  len := h.len
  staging := h.staging
  indexed :=
    { on := ⟨h.indexed.on.ready, h.indexed.on.fits⟩
      cursors := h.indexed.cursors
      rep := h.holds_committed []
      sep := h.sound.sep
      claims := fun p => by simp [Vault.reloaded, Vault.store, Hamt.fromRoot, h.live p]
      added := by simp [Vault.reloaded, Vault.store, Hamt.fromRoot]
      removed := by simp [Vault.reloaded, Vault.store, Hamt.fromRoot]
      known := h.indexed.known }
  live := h.live
  clean _ := rfl
  pending := by simp [Vault.reloaded]
  allows := h.allows

theorem reloadHead_sat (h : InUse m₀ k allowed r v d e T C) (reason : String) :
    Sat (Vault.reloadHead reason) v
      (fun _ v' => InUse m₀ k allowed r v' d e T T ∧ Moves m₀ k allowed G r ⟨v, d, e, T, C⟩ ⟨v', d, e, T, T⟩) (fun _ _ => False) := by
  unfold Vault.reloadHead
  exact sat_run (h.headOr_run reason) ⟨h.reloaded, .single ⟨.reload, h.reloaded⟩⟩

/-- A reap window moves its survivors; the reap waits for the commit. -/
theorem reapStaged_sat (h : InUse m₀ k allowed r v d e T C) {w : Nat} (hG : G v (.stage w)) :
    Sat (Vault.reapStaged w) v
      (fun _ v' => ∃ C', InUse m₀ k allowed r v' d e T C' ∧ C'.map = C.map ∧
        Moves m₀ k allowed G r ⟨v, d, e, T, C⟩ ⟨v', d, e, T, C'⟩)
      (fun err v' => err.Excused ∧ ∃ C', InUse m₀ k allowed r v' d e T C' ∧ C'.map = C.map ∧
        Moves m₀ k allowed G r ⟨v, d, e, T, C⟩ ⟨v', d, e, T, C'⟩) := by
  have hreap := Hamt.reapWindow_sat (P := fun _ => False) (by simp) (indexed_iff.mp h.indexed) w
  have hmoved : Sat (Vault.onStore (Hamt.reapWindow v.live.liveness w)) v
      (fun _ v' => ∃ s₁ C', Moved (fun _ => False) v.live d v.store s₁ C C' ∧
        (∀ q, v.tract.reap ≤ q → q < v.tract.reap + Hamt.windowSize v.store w → v.live.Refers (q % v.tract.len) →
          ¬ C'.Claims (q % v.tract.len)) ∧
        v' = { v.withStore s₁ with tract := { s₁.tract with reap := v.tract.reap + Hamt.windowSize v.store w } })
      (fun err v' => err.Excused ∧ ∃ C', InUse m₀ k allowed r v' d e T C' ∧ C'.map = C.map ∧
        Moves m₀ k allowed G r ⟨v, d, e, T, C⟩ ⟨v', d, e, T, C'⟩) := by
    refine Vault.sat_onStore (hreap.mono ?_ ?_)
    · rintro _ s' ⟨s₁, C', hm, rfl, hgone⟩
      refine ⟨s₁, C', hm, fun q hlo hhi hlive hc => ?_, rfl⟩
      exact ((hm.indexed.claims _).mp hc).2 (hgone q hlo hhi hlive)
    · rintro err s' ⟨hexc, C', hm⟩
      have h' := h.edit hm.steps hm.fate hm.indexed
      exact ⟨hexc, C', h', funext hm.find, .single ⟨.edit hm.steps (hm.within (indexed_iff.mp h.indexed)), h'⟩⟩
  unfold Vault.reapStaged
  refine sat_state (sat_bind hmoved ?_)
  rintro _ _ ⟨s₁, C', hm, hgone, rfl⟩
  have h₁ := h.edit hm.steps hm.fate hm.indexed
  have htract : ({ s₁.tract with reap := v.tract.reap } : Tract) = s₁.tract := by
    have := hm.steps.reap
    rw [show v.tract.reap = s₁.tract.reap from this.symm]
  have hsize : Hamt.windowSize v.store w ≤ v.tract.plow - v.tract.reap := Nat.min_le_right _ _
  have honward : v.tract.plow ≤ s₁.tract.plow := hm.steps.onward
  have horder : v.tract.reap ≤ v.tract.plow := h.indexed.cursors.order
  have hvault : ({ v.withStore s₁ with
      pendingReap := some (v.tract.reap + Hamt.windowSize v.store w)
      tract := { s₁.tract with reap := v.tract.reap } } : Vault H) =
      { v.withStore s₁ with pendingReap := some (v.tract.reap + Hamt.windowSize v.store w) } := by
    rw [htract]
    rfl
  show ∃ C', InUse m₀ k allowed r ({ v.withStore s₁ with
      pendingReap := some (v.tract.reap + Hamt.windowSize v.store w)
      tract := { s₁.tract with reap := v.tract.reap } } : Vault H) d e T C' ∧ C'.map = C.map ∧
    Moves m₀ k allowed G r ⟨v, d, e, T, C⟩ ⟨({ v.withStore s₁ with
      pendingReap := some (v.tract.reap + Hamt.windowSize v.store w)
      tract := { s₁.tract with reap := v.tract.reap } } : Vault H), d, e, T, C'⟩
  rw [hvault]
  have h₂ : InUse m₀ k allowed r
      { v.withStore s₁ with pendingReap := some (v.tract.reap + Hamt.windowSize v.store w) } d e T C' := by
    refine { h₁ with pending := ?_ }
    intro x hx
    obtain rfl : v.tract.reap + Hamt.windowSize v.store w = x := by simpa using hx
    have hsame : s₁.tract.reap = v.tract.reap := hm.steps.reap
    refine ⟨?_, ?_⟩
    · show s₁.tract.reap ≤ _
      omega
    · show _ ≤ s₁.tract.plow
      omega
  exact ⟨C', h₂, funext hm.find, .single ⟨.stage hG hm.steps (hm.within (indexed_iff.mp h.indexed)) hgone, h₂⟩⟩

/-- What is staged has been written out. -/
theorem drained {m' : Mirror H} {d' : Dev H} (h : InUse m₀ k allowed r v d e T C)
    (hatt : Attached m₀ k (Recovers allowed r) m' d' (2 ^ r + v.tract.len)) (hpend : m'.pending = [])
    (hcount : d'.count = d.count) (hdata : ∀ l, d'.data l = v.ring.mirror.view d l) :
    InUse m₀ k allowed r { v with ring := { v.ring with mirror := m' } } d' e T C := by
  have hview : ∀ p, (⟨m', v.tract, v.hamt⟩ : Store H).view d' p = v.store.view d p := by
    intro p
    rw [h.view_tract, Store.view, Mirror.view_of_pending_nil hpend]
    simp only [h.base]
    exact hdata _
  have hsound : Sound r d'.image e T := by
    have hcommitted := h.sound.staging h.staging.refs (v.ring.mirror.drained_torn d)
    have hsame : ∀ l, d'.image.data l = (v.ring.mirror.drained d).image.data l := by
      intro l
      exact (hdata l).trans (congrFun (v.ring.mirror.drained_data d) l).symm
    refine ⟨hcommitted.spine.congr fun s _ => hsame s, ?_, fun l hl => ?_, ?_, hcommitted.sep⟩
    · exact (Nat.add_le_add_left h.len _).trans hatt.room_primary
    · rw [hsame l]
      refine hcommitted.rootless l ?_
      show l < (v.ring.mirror.drained d).count
      rw [Mirror.drained_count, ← hcount]
      exact hl
    · exact hcommitted.rep.congr le_rfl (fun p _ => hsame _) fun _ _ => rfl
  exact
    { attached := hatt
      ringLog2 := h.ringLog2
      ringBase := h.ringBase
      head := h.head
      base := h.base
      root := h.root
      policy := h.policy
      settling := h.settling
      sound := hsound
      len := h.len
      staging := by
        intro x hx
        simp [Mirror.staged, hpend] at hx
      indexed := h.indexed.relocate ⟨hatt.ready, by simpa [Vault.store, h.base] using hatt.room_primary⟩
        h.indexed.cursors le_rfl rfl (fun p _ => hview p) (fun _ _ hb => hb) fun _ hp => h.live_lt hp
      live := h.live
      clean := h.clean
      pending := h.pending
      allows := h.allows }

/-- What a torn write-out of the staged blocks leaves. -/
theorem recovers_torn (h : InUse m₀ k allowed r v d e T C) {j : Image H} (hj : d.image.Torn v.ring.mirror.refs j) :
    Recovers allowed r (2 ^ r + v.tract.len) j :=
  ⟨e, T, h.sound.staging h.staging.refs hj, Nat.add_le_add_left h.len _, h.allows⟩

/-- The committed index found by a walk on the extended devices, in a tract of `n` blocks. -/
theorem realigned {m' : Mirror H} {d' : Dev H} {w : Walk H} {n : Nat} (h : InUse m₀ k allowed r v d e T C)
    (hn : v.tract.len < n) (hatt : Attached m₀ k (Recovers allowed r) m' d' (2 ^ r + n)) (hpend : m'.pending = [])
    (hsound : Sound r d'.image e T) (hwalk : Frontier (fun p => d'.data (2 ^ r + p)) v.tract.len T [] w) (plow : Nat) :
    InUse m₀ k allowed r
      { v with
        ring := { v.ring with mirror := m' }
        hamt := Hamt.fromRoot e.hamtHash e.hamtLba
        pendingReap := none
        live := LiveSet.ofWalk w.liveBlocks w.referenced
        tract := Tract.realign { v.tract with plow := plow } n } d' e T T := by
  obtain ⟨hknown, hlive⟩ := hwalk.live
  have hlen := h.len
  have hview : ∀ t hamt, t.base = 2 ^ r → (⟨m', t, hamt⟩ : Store H).view d' = fun p => d'.data (2 ^ r + p) := by
    intro t hamt ht
    funext p
    rw [Store.view, Mirror.view_of_pending_nil hpend, ht]
  refine
    { attached := hatt
      ringLog2 := h.ringLog2
      ringBase := h.ringBase
      head := h.head
      base := h.base
      root := h.root
      policy := h.policy
      settling := h.settling
      sound := hsound
      len := by show e.tractBlocks ≤ n; omega
      staging := by
        intro x hx
        simp [Mirror.staged, hpend] at hx
      indexed := ?_
      live := hlive
      clean := fun _ => rfl
      pending := by simp
      allows := h.allows }
  refine
    { on := ⟨hatt.ready, ?_⟩
      cursors := ⟨?_, ?_, ?_⟩
      rep := ?_
      sep := h.sound.sep
      claims := fun p => by simp [Vault.store, Hamt.fromRoot, hlive p]
      added := by simp [Vault.store, Hamt.fromRoot]
      removed := by simp [Vault.store, Hamt.fromRoot]
      known := ?_ }
  · show v.tract.base + n ≤ d'.count
    rw [h.base]
    exact hatt.room_primary
  · show 0 < n
    omega
  · exact Nat.sub_le _ _
  · have hlap : ∀ x, x ≤ x - v.tract.len + n := by omega
    exact hlap _
  · exact (hsound.rep_at (show e.tractBlocks ≤ n by omega)).congr le_rfl
      (fun p _ => congrFun (hview (Tract.realign { v.tract with plow := plow } n) _ h.base) p) fun _ _ => rfl
  · intro x hx
    have hv := congrFun (hview (Tract.realign { v.tract with plow := plow } n)
      (Hamt.fromRoot e.hamtHash e.hamtLba) h.base) x.1
    exact (congrArg sealedHp hv).trans (hknown x hx)

/-- A longer tract, the committed index read anew. -/
theorem lengthen_sat (h : InUse m₀ k allowed r v d e T C) {n : Nat} (hn : v.tract.len < n) :
    Sat (Vault.lengthen n) v
      (fun _ v' => ∃ d', InUse m₀ k allowed r v' d' e T T ∧ Moves m₀ k allowed G r ⟨v, d, e, T, C⟩ ⟨v', d', e, T, T⟩)
      (fun _ v' => ∃ d', InUse m₀ k allowed r v' d' e T C ∧ Moves m₀ k allowed G r ⟨v, d, e, T, C⟩ ⟨v', d', e, T, C⟩) := by
  have hstaged : ∀ x ∈ v.ring.mirror.staged, x.1 < 2 ^ r + v.tract.len := fun x hx => h.staging.lt hx
  have hcommitted := h.sound.staging h.staging.refs (v.ring.mirror.drained_torn d)
  have hbound : 2 ^ r + e.tractBlocks ≤ 2 ^ r + v.tract.len := Nat.add_le_add_left h.len _
  unfold Vault.lengthen
  refine sat_state ?_
  rw [h.base]
  by_cases hacc : d.Accepts (2 ^ r + n)
  · obtain ⟨m', hgrow, hatt, hpend, hevents⟩ := h.attached.grow (fun _ _ _ hc hq => hq.mono hc) hstaged
      (fun j hj => h.recovers_torn hj) hacc fun j hj => by
        rcases hj with rfl | rfl
        · exact ⟨e, T, hcommitted, hbound, h.allows⟩
        · exact ⟨e, T, hcommitted.extended _, hbound, h.allows⟩
    have hsound := hcommitted.extended (2 ^ r + n)
    rw [max_eq_right (by omega)] at hatt
    set d' := (v.ring.mirror.drained d).extended (2 ^ r + n) with hd'
    have hmirror : (Vault.onMirror (Mirror.grow (2 ^ r + n))).run v =
        (.ok (), { v with ring := { v.ring with mirror := m' } }) := by
      simp [Vault.onMirror, Vault.onRing, Ring.onMirror, hgrow]
    refine sat_run hmirror ?_
    set v₁ : Vault H := { v with ring := { v.ring with mirror := m' } } with hv₁
    have hhead : ∀ reason, (Vault.headOr reason).run v₁ = (.ok e, v₁) := by
      intro reason
      have hentry : v₁.ring.headEntry = some e := h.headEntry
      simp [Vault.headOr, hentry]
    refine sat_run (hhead _) ?_
    refine sat_run (show (Vault.reloadHead "grow on pre-genesis vault").run v₁ =
      (.ok (), { v₁ with hamt := Hamt.fromRoot e.hamtHash e.hamtLba, pendingReap := none }) by
        simp [Vault.reloadHead, hhead]) ?_
    refine sat_update ?_
    set v₂ : Vault H :=
      { v₁ with
        hamt := Hamt.fromRoot e.hamtHash e.hamtLba, pendingReap := none, tract := { v.tract with plow := e.plow } }
      with hv₂
    have hview : v₂.store.view d' = fun p => d'.data (2 ^ r + p) := by
      funext p
      rw [Store.view, show v₂.store.mirror = m' from rfl, Mirror.view_of_pending_nil hpend,
        show v₂.store.tract.base = 2 ^ r from h.base]
    have hroom := hatt.room_primary
    obtain ⟨w, hwalk, hfrontier⟩ := Walker.walkTreeCollect_run (s := v₂.store) (d := d') (t := T)
      ⟨hatt.ready, by rw [show v₂.store.tract.base = 2 ^ r from h.base]; show 2 ^ r + v.tract.len ≤ _; omega⟩
      (by
        show Rep (v₂.store.view d') v.tract.len [] [] e.rootChild T
        rw [hview]
        exact hsound.rep_at h.len) h.sound.sep e.rootChild_ne_dirty
    rw [hview] at hfrontier
    have hrewalk : Vault.growNow.rewalk.run v₂ = (.ok w, v₂) := by
      simp only [Vault.growNow.rewalk, show Walk.start v₂.tract.len [] = Walk.start v₂.store.tract.len [] from rfl,
        hwalk, Vault.withStore_store]
    refine sat_run hrewalk (sat_update ?_)
    have h' := h.realigned hn hatt hpend hsound hfrontier e.plow
    refine ⟨d', h', .single ⟨.realign hn (fun l hl => ?_) hpend hevents, h'⟩⟩
    rw [hd', Dev.extended_data (by rw [Mirror.drained_count]; exact hl)]
    exact congrFun (v.ring.mirror.drained_data d) l
  · obtain ⟨err, m', hgrow, hatt, hpend, hevents⟩ := h.attached.grow_refused (fun _ _ _ hc hq => hq.mono hc) hstaged
      (fun j hj => h.recovers_torn hj) hacc ⟨e, T, hcommitted, hbound, h.allows⟩
    have hmirror : (Vault.onMirror (Mirror.grow (2 ^ r + n))).run v =
        (.error err, { v with ring := { v.ring with mirror := m' } }) := by
      simp [Vault.onMirror, Vault.onRing, Ring.onMirror, hgrow]
    unfold Sat
    rw [bind_run, hmirror]
    have h' := h.drained hatt hpend Mirror.drained_count fun l => congrFun (v.ring.mirror.drained_data d) l
    exact ⟨_, h', .single ⟨.drain (v.ring.mirror.drained_data d) hpend hevents, h'⟩⟩

end InUse

end Manifestus
