import Manifestus.Vault.InUse
import Manifestus.Spine.Append

/-! A commit: the index is flushed, what is staged is written out, and the next generation names the
flushed index. A heartbeat is a generation that names the old one again. -/
set_option linter.unusedSectionVars false

namespace Manifestus
open Prog

variable {H : Type} [Crates H] {m₀ m : Mirror H} {k r n : Nat} {allowed : Map → Prop} {v v' : Vault H} {d : Dev H}
  {e e' : SpineEntry H} {T T' C C' : Tree H} {G : Vault H → Step → Prop}

namespace Mirror

/-- Writing out what is staged is one way for it to land. -/
theorem drained_torn (m : Mirror H) (d : Dev H) : d.image.Torn m.refs (m.drained d).image where
  count := drained_count
  data l := by
    have hv : (m.drained d).image.data l = m.view d l := congrFun (drained_data m d) l
    rw [hv]
    rcases hs : m.stagedAt l with _ | b
    · exact .inl (view_of_not_staged hs)
    · exact .inr ⟨b, mem_refs.mpr hs, .inl (view_of_staged hs)⟩

end Mirror

theorem Staging.refs {len : Nat} (h : Staging r len T m.staged) : Staging r len T m.refs :=
  fun x hx => h x (Mirror.mem_staged_of_stagedAt (Mirror.mem_refs.mp hx))

/-- The next generation is written over what is staged. -/
theorem Attached.append {q : Ring H} {len : Nat}
    (h : Attached m₀ k (Recovers allowed r) q.mirror d (2 ^ r + len)) (hlog2 : q.ringLog2 = r) (hbase : q.base = 0)
    (hhead : q.head = some (e.gen % 2 ^ r, e)) (hsound : Sound r d.image e T) (hlen : e.tractBlocks ≤ len)
    (hstaging : Staging r len T q.mirror.staged) (hallows : allowed T.map)
    (hfits : e'.Fits r) (hgen : e'.gen = e.gen + 1) (hprev : e'.prevHash = e.bodyHash) (hlen' : e'.tractBlocks ≤ len)
    (hrep : Rep (fun p => q.mirror.view d (2 ^ r + p)) e'.tractBlocks [] [] e'.rootChild T') (hsep : T'.Sep)
    (hallows' : allowed T'.map) :
    ∃ m' d', (Ring.append e').run q = (.ok (), { q with mirror := m', head := some (e'.gen % 2 ^ r, e') }) ∧
      Attached m₀ k (Recovers allowed r) m' d' (2 ^ r + len) ∧ m'.pending = [] ∧ m'.events = q.mirror.events ∧
      Sound r d'.image e' T' ∧ d'.data = Function.update (q.mirror.view d) (e'.gen % 2 ^ r) e'.encode := by
  have hslot : e'.gen % 2 ^ r < 2 ^ r := Nat.mod_lt _ (Nat.two_pow_pos r)
  have hdrained : Sound r (q.mirror.drained d).image e T := hsound.staging hstaging.refs (q.mirror.drained_torn d)
  have hcount : (q.mirror.drained d).image.count = d.image.count := Mirror.drained_count
  have hnew : ∀ i : Image H, i.count = (q.mirror.drained d).image.count →
      (∀ l, 2 ^ r ≤ l → i.data l = (q.mirror.drained d).image.data l) → Spine r i.data e' →
      i.Rootless → Sound r i e' T' := by
    intro i hi htract hspine hroot
    refine ⟨hspine, ?_, hroot, ?_, hsep⟩
    · rw [hi, hcount]
      exact (Nat.add_le_add_left hlen' _).trans h.room_primary
    · refine hrep.congr le_rfl (fun p _ => ?_) fun _ _ => rfl
      rw [htract _ (Nat.le_add_right _ _)]
      exact congrFun (q.mirror.drained_data d) _
  have hgood : ∀ j, d.image.Torn q.mirror.refs j → Recovers allowed r (2 ^ r + len) j :=
    fun j hj => ⟨e, T, hsound.staging hstaging.refs hj, Nat.add_le_add_left hlen _, hallows⟩
  obtain ⟨m', hrun, hatt, hpend, hevents⟩ := h.writeVerified (fun _ _ _ hc hq => hq.mono hc) (fun x hx => hstaging.lt hx) hgood
    (e'.gen % 2 ^ r) (by omega) e'.encode fun j hj => by
      rcases hdrained.appending hfits hgen hnew hj with hs | hs
      · exact ⟨e, T, hs, Nat.add_le_add_left hlen _, hallows⟩
      · exact ⟨e', T', hs, Nat.add_le_add_left hlen' _, hallows'⟩
  refine ⟨m', _, ?_, hatt, hpend, hevents, ?_, ?_⟩
  · have hchains : q.Chains e' := by
      refine ⟨hfits.log2.trans hlog2.symm, ?_⟩
      simp only [Ring.headEntry, hhead, Option.map_some]
      exact ⟨hgen, hprev⟩
    rw [Ring.append_eq hchains]
    simp only [Ring.onMirror, bind_run, zoom_run, hbase, Nat.zero_add, Ring.n, hlog2, hrun, update_run]
  · refine hnew _ rfl (fun l hl => ?_) ?_ fun l hlt => ?_
    · exact Function.update_of_ne (by omega) _ _
    · exact hdrained.spine.append hfits hgen
    · show Block.NotRoot (Function.update (q.mirror.drained d).data (e'.gen % 2 ^ r) e'.encode l)
      by_cases hl : l = e'.gen % 2 ^ r
      · rw [hl, Function.update_self]
        exact e'.encode_notRoot
      · rw [Function.update_of_ne hl]
        exact hdrained.rootless l hlt
  · show Function.update (q.mirror.drained d).data (e'.gen % 2 ^ r) e'.encode = _
    rw [show (q.mirror.drained d).data = q.mirror.view d from q.mirror.drained_data d]

/-- A generation is written on no block of the tract. -/
theorem view_landed {data data' : Nat → Block H} {gen : Nat} {b : Block H}
    (hdata : data' = Function.update data (gen % 2 ^ r) b) (p : Nat) : data' (2 ^ r + p) = data (2 ^ r + p) := by
  have := Nat.mod_lt gen (Nat.two_pow_pos r)
  rw [hdata, Function.update_of_ne (by omega)]

namespace InUse

/-- The index of `v` as the live set after a flush has it. -/
theorem live_landed (h : InUse m₀ k allowed r v d e T C) :
    v.landed.live.Known (fun p => sealedHp (v.store.view d p)) ∧ ∀ p, v.landed.live.Refers p ↔ C.Claims p := by
  have hspec := LiveSet.apply_spec (fun p => sealedHp (v.store.view d p)) (l := v.live) (δ := v.hamt.delta)
    h.indexed.known (fun x hx => (h.indexed.added x hx).2) fun x hx => (h.indexed.removed x hx).2
  refine ⟨hspec.1, fun p => ?_⟩
  rw [h.indexed.claims p]
  exact hspec.2 p

theorem flushOnce_sat (h : InUse m₀ k allowed r v d e T C) :
    Sat Vault.flushOnce v
      (fun root v' => ∃ v₁ C', InUse m₀ k allowed r v₁ d e T C' ∧ C'.map = C.map ∧
        Moves m₀ k allowed G r ⟨v, d, e, T, C⟩ ⟨v₁, d, e, T, C'⟩ ∧
        v₁.hamt.root = (Hamt.fromRoot root.1 root.2 : Hamt H).root ∧ v' = v₁.landed)
      (fun err v' => err.Refused ∧ ∃ C', InUse m₀ k allowed r v' d e T C' ∧ C'.map = C.map ∧
        Moves m₀ k allowed G r ⟨v, d, e, T, C⟩ ⟨v', d, e, T, C'⟩) := by
  have hflush : Sat (Vault.onStore (Hamt.flush v.live.liveness)) v
      (fun root v₁ => ∃ C', InUse m₀ k allowed r v₁ d e T C' ∧ C'.map = C.map ∧
        Moves m₀ k allowed G r ⟨v, d, e, T, C⟩ ⟨v₁, d, e, T, C'⟩ ∧ v₁.hamt.root = (Hamt.fromRoot root.1 root.2 : Hamt H).root)
      (fun err v' => err.Refused ∧ ∃ C', InUse m₀ k allowed r v' d e T C' ∧ C'.map = C.map ∧
        Moves m₀ k allowed G r ⟨v, d, e, T, C⟩ ⟨v', d, e, T, C'⟩) := by
    refine Vault.sat_onStore ((Hamt.flush_sat h.indexed).mono ?_ ?_)
    · rintro root s' ⟨hs, hfate, hroot, C', hidx, hin, hfind⟩
      exact ⟨C', h.edit hs hfate hidx, funext hfind, .single ⟨.edit hs hin, h.edit hs hfate hidx⟩, hroot⟩
    · rintro err s' ⟨hrefused, hs, hfate, C', hidx, hin, hfind⟩
      exact ⟨hrefused, C', h.edit hs hfate hidx, funext hfind, .single ⟨.edit hs hin, h.edit hs hfate hidx⟩⟩
  unfold Vault.flushOnce
  refine sat_state (sat_bind hflush ?_)
  rintro root v₁ ⟨C', h₁, hmap, hmoves, hroot⟩
  exact ⟨v₁, C', h₁, hmap, hmoves, hroot, rfl⟩

/-- A generation that names the committed index again. -/
theorem heartbeat_sat (h : InUse m₀ k allowed r v d e T C) (now : Int) :
    Sat (Vault.appendHeartbeat now) v
      (fun _ v' => ∃ d' e', InUse m₀ k allowed r v' d' e' T C ∧ Moves m₀ k allowed G r ⟨v, d, e, T, C⟩ ⟨v', d', e', T, C⟩)
      (fun _ _ => False) := by
  set e' : SpineEntry H :=
    { e with gen := e.gen + 1, prevHash := e.bodyHash, ringLog2 := v.ring.ringLog2, live := v.live.len, eagleTime := now }
    with he'
  have hfits : e'.Fits r := ⟨h.sound.spine.fits.sane, h.ringLog2, h.sound.spine.fits.one_le, h.sound.spine.fits.le⟩
  have hrep : Rep (fun p => v.ring.mirror.view d (2 ^ r + p)) e'.tractBlocks [] [] e'.rootChild T := by
    refine h.sound.rep.congr le_rfl (fun p hp => ?_) fun _ _ => rfl
    rw [← h.view_tract]
    exact h.view_committed hp
  obtain ⟨m', d', hrun, hatt, hpend, hevents, hsound, hdata⟩ := h.attached.append h.ringLog2 h.ringBase h.head h.sound h.len
    h.staging h.allows hfits rfl rfl h.len hrep h.sound.sep h.allows
  unfold Vault.appendHeartbeat
  refine sat_run (h.headOr_run _) (sat_state ?_)
  have hring : (Vault.onRing (Ring.append e')).run v =
      (.ok (), { v with ring := { v.ring with mirror := m', head := some (e'.gen % 2 ^ r, e') } }) := by
    rw [Vault.onRing, zoom_run, hrun]
  refine sat_run hring ?_
  have hview : ∀ p, (⟨m', v.tract, v.hamt⟩ : Store H).view d' p = v.store.view d p := by
    intro p
    rw [h.view_tract, Store.view, Mirror.view_of_pending_nil hpend]
    simp only [h.base]
    exact view_landed hdata p
  have hnext : InUse m₀ k allowed r
      { v with ring := { v.ring with mirror := m', head := some (e'.gen % 2 ^ r, e') } } d' e' T C :=
    { attached := hatt
      ringLog2 := h.ringLog2
      ringBase := h.ringBase
      head := rfl
      base := h.base
      root := h.root
      policy := h.policy
      settling := h.settling
      sound := hsound
      len := h.len
      staging := by
        intro x hx
        simp [Mirror.staged, hpend] at hx
      indexed := h.indexed.relocate ⟨hatt.ready, by
          have := hatt.room_primary
          simpa [Vault.store, h.base] using this⟩ h.indexed.cursors le_rfl rfl (fun p _ => hview p) (fun _ _ hb => hb)
        fun _ hp => h.live_lt hp
      live := h.live
      clean := h.clean
      pending := h.pending
      allows := h.allows }
  have hbeat : Moves m₀ k allowed G r ⟨v, d, e, T, C⟩ ⟨v.headed m' r e', d', e', T, C⟩ :=
    .single ⟨.beat ⟨hdata, hpend, hevents⟩ rfl rfl rfl rfl rfl, hnext⟩
  exact hnext.refence_sat.mono (fun _ v' hv' => ⟨d', e', hv'.1, hbeat.trans hv'.2.1⟩) fun _ _ hf => hf

/-- The generation that commits the flushed index of `v₁`. -/
theorem seal_sat (h : InUse m₀ k allowed r v d e T C) {root : H × Nat} (now : Int)
    (hroot : v.hamt.root = (Hamt.fromRoot root.1 root.2 : Hamt H).root) (hallows : allowed C.map) :
    Sat (Vault.onRing (Ring.append (Vault.nextEntry v.landed.retireReap e root now))) v.landed.retireReap
      (fun _ v' => v'.hamt.delta = ⟨[], []⟩ ∧ ∃ d' e', InUse m₀ k allowed r v' d' e' C C ∧
        Moves m₀ k allowed G r ⟨v, d, e, T, C⟩ ⟨v', d', e', C, C⟩)
      (fun _ _ => False) := by
  set u := v.landed.retireReap with hu
  obtain ⟨reap, hureap, hu'⟩ : ∃ reap, (v.pendingReap = none ∧ reap = v.tract.reap ∨ v.pendingReap = some reap) ∧
      u = { v.landed with tract := { v.tract with reap := reap }, pendingReap := none } := by
    rcases hp : v.pendingReap with _ | x
    · exact ⟨v.tract.reap, .inl ⟨rfl, rfl⟩, by simp [hu, Vault.retireReap, Vault.landed, hp]⟩
    · exact ⟨x, .inr rfl, by simp [hu, Vault.retireReap, Vault.landed, hp]⟩
  have hcur := h.indexed.cursors
  have hreap : v.tract.reap ≤ reap ∧ reap ≤ v.tract.plow := by
    rcases hureap with ⟨-, rfl⟩ | hx
    · exact ⟨le_rfl, hcur.order⟩
    · exact h.pending reap hx
  have hlap : v.tract.plow ≤ v.tract.reap + v.tract.len := hcur.lap
  have hpos : 0 < v.tract.len := hcur.pos
  set e' := Vault.nextEntry u e root now with he'
  have htract : e'.tractBlocks = v.tract.len := by rw [he', hu']; rfl
  have hfits : e'.Fits r := by
    refine ⟨⟨by omega, ?_⟩, ?_, h.sound.spine.fits.one_le, h.sound.spine.fits.le⟩
    · intro x hx
      obtain rfl : reap = x := by
        rw [he', hu'] at hx
        simpa [Vault.nextEntry] using hx
      have hplow : e'.plow = v.tract.plow := by rw [he', hu']; rfl
      omega
    · rw [he', hu']
      exact h.ringLog2
  have hchild : e'.rootChild = v.hamt.root := hroot.symm
  have hnodirty : ∀ x, v.hamt.root ≠ some (.dirty x) := fun x => hchild ▸ e'.rootChild_ne_dirty x
  have hrepC : Rep (v.store.view d) v.tract.len v.hamt.arena [] v.hamt.root C := h.indexed.rep
  have hrep : Rep (fun p => v.ring.mirror.view d (2 ^ r + p)) e'.tractBlocks [] [] e'.rootChild C := by
    rw [hchild, htract]
    exact hrepC.congr le_rfl (fun p _ => (h.view_tract p).symm) fun x hx => absurd hx (hrepC.no_uses hnodirty x)
  have hring : u.ring = v.ring := by rw [hu']; rfl
  obtain ⟨m', d', hrun, hatt, hpend, hevents, hsound, hdata⟩ := h.attached.append h.ringLog2 h.ringBase h.head
    h.sound h.len h.staging h.allows hfits rfl rfl htract.le hrep h.indexed.sep hallows
  have hrun' : (Vault.onRing (Ring.append e')).run u =
      (.ok (), { u with ring := { u.ring with mirror := m', head := some (e'.gen % 2 ^ r, e') } }) := by
    rw [Vault.onRing, zoom_run, hring, hrun]
  have hview : ∀ p, (⟨m', { v.tract with reap := reap }, { v.hamt with delta := ⟨[], []⟩ }⟩ : Store H).view d' p =
      v.store.view d p := by
    intro p
    rw [h.view_tract, Store.view, Mirror.view_of_pending_nil hpend]
    simp only [h.base]
    exact view_landed hdata p
  obtain ⟨hknown, hlive⟩ := h.live_landed
  have hnext : InUse m₀ k allowed r
      (({ v.landed with tract := { v.tract with reap := reap }, pendingReap := none } : Vault H).headed m' r e')
      d' e' C C := by
    refine
      { attached := hatt
        ringLog2 := h.ringLog2
        ringBase := h.ringBase
        head := rfl
        base := h.base
        root := h.root
        policy := h.policy
        settling := h.settling
        sound := hsound
        len := htract.le
        staging := by
          intro x hx
          simp [Mirror.staged, hpend] at hx
        indexed := ?_
        live := hlive
        clean := fun _ => hchild.symm
        pending := by simp
        allows := hallows }
    refine
      { on := ⟨hatt.ready, by simpa [Vault.store, h.base] using hatt.room_primary⟩
        cursors := ⟨hpos, hreap.2, ?_⟩
        rep := ?_
        sep := h.indexed.sep
        claims := ?_
        added := by simp [Vault.store, Vault.landed]
        removed := by simp [Vault.store, Vault.landed]
        known := ?_ }
    · show v.tract.plow ≤ reap + v.tract.len
      omega
    · exact hrepC.congr le_rfl (fun p _ => hview p) fun _ _ => rfl
    · intro p
      simp only [Vault.store, Vault.headed_hamt, Vault.headed_live, Vault.landed, spots_nil, List.not_mem_nil, or_false, not_false_iff, and_true]
      exact (hlive p).symm
    · intro x hx
      exact (congrArg sealedHp (hview x.1)).trans (hknown x hx)
  have hseal : Move G r ⟨v, d, e, T, C⟩
      ⟨({ v.landed with tract := { v.tract with reap := reap }, pendingReap := none } : Vault H).headed m' r e', d', e',
        C, C⟩ := by
    refine .land ⟨hdata, hpend, hevents⟩ rfl hchild ?_ ?_ htract hureap
    · rw [he', hu']; rfl
    · rw [he', hu']; rfl
  unfold Sat
  rw [hrun']
  rw [hu']
  exact ⟨rfl, d', e', hnext, .single ⟨hseal, hnext⟩⟩

theorem flushIndex_sat (now : Int) : ∀ (attempts : Nat) {v : Vault H} {d : Dev H} {e : SpineEntry H} {C : Tree H},
    InUse m₀ k allowed r v d e T C →
    Sat (Vault.flushIndex now attempts) v
      (fun root v' => ∃ v₁ d' e' C', InUse m₀ k allowed r v₁ d' e' T C' ∧ C'.map = C.map ∧
        Moves m₀ k allowed G r ⟨v, d, e, T, C⟩ ⟨v₁, d', e', T, C'⟩ ∧
        v₁.hamt.root = (Hamt.fromRoot root.1 root.2 : Hamt H).root ∧ v' = v₁.landed)
      (fun err v' => err.Refused ∧ ∃ d' e' C', InUse m₀ k allowed r v' d' e' T C' ∧ C'.map = C.map ∧
        Moves m₀ k allowed G r ⟨v, d, e, T, C⟩ ⟨v', d', e', T, C'⟩) := by
  intro attempts
  induction attempts with
  | zero =>
    intro v d e C h
    exact h.flushOnce_sat.mono (fun root v' ⟨v₁, C', hrest⟩ => ⟨v₁, d, e, C', hrest⟩)
      fun err v' ⟨hr, C', hrest⟩ => ⟨hr, d, e, C', hrest⟩
  | succ attempts ih =>
    intro v d e C h
    unfold Vault.flushIndex
    refine sat_try (h.flushOnce_sat (G := G)) ?_ ?_
    · rintro root v' ⟨v₁, C', hrest⟩
      exact sat_pure ⟨v₁, d, e, C', hrest⟩
    · rintro err v' ⟨hrefused, C', h', hmap, hmoves⟩
      rcases err with _ | _ | _ | _ | _ | _ | _ | _ | _ <;> try exact hrefused.elim
      · refine sat_bind ((h'.heartbeat_sat (G := G) now).mono (fun _ _ hx => hx) fun _ _ hf => hf.elim) ?_
        rintro _ v₂ ⟨d₂, e₂, h₂, hmoves₂⟩
        refine (ih h₂).mono ?_ ?_
        · rintro root v₃ ⟨v₁, d₁, e₁, C₁, h₁, hmap₁, hmoves₁, hrest⟩
          exact ⟨v₁, d₁, e₁, C₁, h₁, hmap₁.trans hmap, (hmoves.trans hmoves₂).trans hmoves₁, hrest⟩
        · rintro err v₃ ⟨hr, d₁, e₁, C₁, h₁, hmap₁, hmoves₁⟩
          exact ⟨hr, d₁, e₁, C₁, h₁, hmap₁.trans hmap, (hmoves.trans hmoves₂).trans hmoves₁⟩
      · exact sat_fail ⟨trivial, d, e, C', h', hmap, hmoves⟩

/-- A commit makes the index in memory the committed one; refused, it leaves both maps. -/
theorem commitWithin_sat (h : InUse m₀ k allowed r v d e T C) (attempts : Nat) (now : Int) (hallows : allowed C.map) :
    Sat (Vault.commitWithin attempts now) v
      (fun _ v' => ∃ d' e' C', InUse m₀ k allowed r v' d' e' C' C' ∧ C'.map = C.map ∧
        Moves m₀ k allowed G r ⟨v, d, e, T, C⟩ ⟨v', d', e', C', C'⟩ ∧ v'.hamt.delta = ⟨[], []⟩)
      (fun err v' => err.Refused ∧ ∃ d' e' C', InUse m₀ k allowed r v' d' e' T C' ∧ C'.map = C.map ∧
        Moves m₀ k allowed G r ⟨v, d, e, T, C⟩ ⟨v', d', e', T, C'⟩) := by
  unfold Vault.commitWithin
  refine sat_bind (h.flushIndex_sat (G := G) now _) ?_
  rintro root _ ⟨v₁, d₁, e₁, C₁, h₁, hmap, hmoves, hroot, rfl⟩
  unfold Vault.sealIndex
  refine sat_update ?_
  have hhead : (Vault.headOr "commit on pre-genesis vault").run v₁.landed.retireReap =
      (.ok e₁, v₁.landed.retireReap) := by
    have hsame : v₁.landed.retireReap.ring = v₁.ring := by
      unfold Vault.retireReap Vault.landed
      split <;> rfl
    simp [Vault.headOr, hsame, h₁.headEntry]
  refine sat_run hhead (sat_state ?_)
  refine sat_bind ((h₁.seal_sat (G := G) now hroot (hmap ▸ hallows)).mono (fun _ _ hx => hx) fun _ _ hf => hf.elim) ?_
  rintro _ v₂ ⟨hdelta, d₂, e₂, h₂, hmoves₂⟩
  refine sat_bind ((h₂.refence_sat (G := G)).mono (fun _ _ hx => hx) fun _ _ hf => hf.elim) ?_
  rintro _ v₃ ⟨h₃, hmoves₃, hsame⟩
  refine sat_state ?_
  rw [h₃.root]
  exact sat_pure ⟨d₂, e₂, C₁, h₃, hmap, (hmoves.trans hmoves₂).trans hmoves₃, hsame ▸ hdelta⟩

end InUse

end Manifestus
