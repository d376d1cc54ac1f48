import Manifestus.Index.Steady
import Manifestus.Index.AnyBlock
import Manifestus.Vault.Resume
import Manifestus.Vault.Reached

/-! A vault of the fixed layout on devices without fault, whatever its tract holds: its spine can be read
and appended to after any step. -/
set_option linter.unusedSectionVars false

namespace Manifestus
open Prog Store

variable {H : Type} [Crates H]

/-- Reads, appends and erasures since the tract was `t` and the blocks before it were `ring`, on a device of
`room` blocks at least. -/
structure Moored (t : Tract) (room : Nat) (ring : Nat → Block H) (s : Store H) : Prop where
  tract : s.tract = { t with plow := s.tract.plow }
  onward : t.plow ≤ s.tract.plow
  lap : t.reap ≤ t.plow → t.plow ≤ t.reap + t.len → s.tract.plow ≤ t.reap + t.len
  on : ∃ d, s.On d ∧ room ≤ d.count ∧ ∀ l < t.base, s.mirror.view d l = ring l

namespace Moored

variable {t : Tract} {room : Nat} {ring : Nat → Block H} {s s' : Store H} {d : Dev H}

theorem reads (h : Moored t room ring s) (hon : s.On d) (hr : s.Reads d s') : Moored t room ring s' := by
  obtain ⟨d₀, hon₀, hroom, hring⟩ := h.on
  obtain rfl : d₀ = d := Option.some.inj (hon₀.ready.primary.symm.trans hon.ready.primary)
  have htract := hr.tract
  constructor
  · rw [htract]
    exact h.tract
  · rw [htract]
    exact h.onward
  · rw [htract]
    exact h.lap
  · refine ⟨d₀, hr.on hon, hroom, fun l hl => ?_⟩
    obtain ⟨m', rfl, hagrees, -⟩ := hr
    rw [hagrees.view]
    exact hring l hl

/-- A read that depends on nothing but where it is. -/
theorem steady_read {α : Type} {x : Prog Error (Store H) α} (hx : ∀ (s : Store H) (d : Dev H), s.On d → s.Reads d (x.run s).2) :
    Steady (Moored t room ring) x := by
  intro s h
  obtain ⟨d, hon, -⟩ := h.on
  have hr := h.reads hon (hx s d hon)
  unfold Sat
  rcases hrun : x.run s with ⟨_ | a, s'⟩ <;> rw [hrun] at hr <;> exact hr

/-- Staging in the tract leaves the blocks before it as they were. -/
theorem staged (hon : s.On d) (hpos : 0 < s.tract.len) (make : Nat → Block H) (n : Nat) :
    (s.tract.stageAll make n s.mirror).Ready d ∧
      ∀ l < s.tract.base, (s.tract.stageAll make n s.mirror).view d l = s.mirror.view d l := by
  have hfits := hon.fits
  have hfold : ∀ (is : List Nat) (m : Mirror H), m.Ready d →
      (is.foldl (fun m i => m.stageOne (s.tract.base + (s.tract.plow + i) % s.tract.len) (make i)) m).Ready d ∧
        ∀ l < s.tract.base, (is.foldl (fun m i => m.stageOne (s.tract.base + (s.tract.plow + i) % s.tract.len) (make i)) m).view d l =
          m.view d l := by
    intro is
    induction is with
    | nil => exact fun m hm => ⟨hm, fun _ _ => rfl⟩
    | cons i is ih =>
      intro m hm
      have hlt := Nat.mod_lt (s.tract.plow + i) hpos
      obtain ⟨hready, hview⟩ := ih _ (hm.stageOne (show s.tract.base + (s.tract.plow + i) % s.tract.len < d.count by omega) (make i))
      refine ⟨hready, fun l hl => (hview l hl).trans ?_⟩
      rw [Mirror.view_stageOne, Function.update_of_ne (by omega)]
  obtain ⟨hready, hview⟩ := hfold (List.range n) _ (hon.ready.reserveStaged n)
  refine ⟨hready, fun l hl => (hview l hl).trans ?_⟩
  rw [Mirror.view_reserveStaged]

theorem append (hpos : 0 < t.len) (live : Liveness H) (n : Nat) (make : Nat → Block H) :
    Steady (Moored t room ring) (Tract.appendWith live n make) := by
  intro s h
  refine sat_state ?_
  dsimp only
  split
  · exact sat_fail h
  next hclean =>
    split
    · exact sat_fail h
    · split
      · exact sat_bind (R := fun _ s' => Moored t room ring s') ⟨h.tract, h.onward, h.lap, by
          obtain ⟨d, hon, hroom, hring⟩ := h.on
          exact ⟨d, ⟨⟨hon.ready.primary, hon.ready.script, hon.ready.staged, hon.ready.cached⟩, hon.fits⟩, hroom, hring⟩⟩
          fun _ _ h' => sat_fail h'
      · refine sat_update (sat_pure ?_)
        obtain ⟨d, hon, hroom, hring⟩ := h.on
        have htract := h.tract
        have hlen : s.tract.len = t.len := by rw [htract]
        have hreap : s.tract.reap = t.reap := by rw [htract]
        have hbase : s.tract.base = t.base := by rw [htract]
        have honward := h.onward
        obtain ⟨hready, hview⟩ := staged hon (by rw [hlen]; exact hpos) make n
        constructor
        · rw [htract]
        · exact honward.trans (Nat.le_add_right _ _)
        · intro horder hlap
          have hin := h.lap horder hlap
          unfold Tract.cleanBlocks at hclean
          show s.tract.plow + n ≤ _
          omega
        · exact ⟨d, ⟨hready, hon.fits⟩, hroom, fun l hl => (hview l (by rw [hbase]; exact hl)).trans (hring l hl)⟩

theorem erase (lba : Nat) : Steady (Moored t room ring) (Tract.zeroDelete (H := H) lba) := by
  intro s h
  by_cases hlt : lba < s.tract.len
  · obtain ⟨d, hon, hroom, hring⟩ := h.on
    have hfits := hon.fits
    have hbase : s.tract.base = t.base := by rw [h.tract]
    obtain ⟨m', hrun, hready, hpend⟩ := Mirror.writeVerified_run hon.ready
      (show s.tract.base + lba < d.count by omega) .zero
    refine sat_run (Tract.inBounds_run hlt) (sat_state ?_)
    unfold Sat
    simp only [onMirror, zoom_run, hrun]
    refine ⟨h.tract, h.onward, h.lap, _, ⟨hready, by simpa using hfits⟩, by simpa using hroom, fun l hl => ?_⟩
    show m'.view _ l = _
    rw [Mirror.view_of_pending_nil hpend, Dev.flushed_data, Dev.landed_data, Function.update_of_ne (by omega),
      Mirror.drained_data]
    exact hring l hl
  · unfold Sat
    simp only [Tract.zeroDelete, Tract.inBounds, bind_run, state_run, if_neg hlt, fail_run]
    exact h

theorem start {v : Vault H} (hon : v.store.On d) : Moored v.tract d.count (v.ring.mirror.view d) v.store :=
  ⟨rfl, le_rfl, fun _ hlap => hlap, d, hon, le_rfl, fun _ _ => rfl⟩

/-- Reading leaves the index in memory too. -/
theorem reading (t : Tract) (room : Nat) (ring : Nat → Block H) (hamt : Hamt H) : Reading fun s => Moored t room ring s ∧ s.hamt = hamt := by
  have hread : ∀ {α : Type} {x : Prog Error (Store H) α}, (∀ (s : Store H) (d : Dev H), s.On d → s.Reads d (x.run s).2) →
      Steady (fun s => Moored t room ring s ∧ s.hamt = hamt) x := by
    intro α x hx s ⟨h, hhamt⟩
    refine (steady_read hx s h).and ?_
    obtain ⟨d, hon, -⟩ := h.on
    obtain ⟨m', hm, -⟩ := hx s d hon
    unfold Sat
    rcases hrun : x.run s with ⟨_ | a, s'⟩ <;> rw [hrun] at hm <;> rw [show s' = { s with mirror := m' } from hm] <;>
      exact hhamt
  constructor
  case read => exact fun lba => hread fun _ _ hon => Tract.read_reads hon lba
  case readCached => exact fun lba => hread fun _ _ hon => Tract.readCached_reads hon lba
  case readRun => exact fun lba n => hread fun _ _ hon => Tract.readRun_reads hon lba n
  case readMany => exact fun lbas => hread fun _ _ hon => Tract.readMany_reads hon lbas

/-- Every operation of the index keeps to the tract. -/
theorem mooring (hpos : 0 < t.len) (room : Nat) (ring : Nat → Block H) : Mooring (Moored t room ring) where
  read lba := steady_read fun _ _ hon => Tract.read_reads hon lba
  readCached lba := steady_read fun _ _ hon => Tract.readCached_reads hon lba
  readRun lba n := steady_read fun _ _ hon => Tract.readRun_reads hon lba n
  readMany lbas := steady_read fun _ _ hon => Tract.readMany_reads hon lbas
  hamt _ h := by
    obtain ⟨d, hon, hroom, hring⟩ := h.on
    exact ⟨h.tract, h.onward, h.lap, d, ⟨hon.ready, hon.fits⟩, hroom, hring⟩
  append live n make := append hpos live n make
  erase lba := erase lba

end Moored

/-- With the fence down `x` is not refused by it, and leaves it down. -/
def Unfenced {α : Type} (x : Prog Error (Store H) α) : Prop :=
  ∀ s, s.tract.fenceLimit = none → Sat x s (fun _ s' => s'.tract.fenceLimit = none) fun err _ => ∀ p, err ≠ .fenced p

namespace Unfenced

variable {α β : Type} {x : Prog Error (Store H) α}

theorem bind {f : α → Prog Error (Store H) β} (hx : Unfenced x) (hf : ∀ a, Unfenced (f a)) : Unfenced (x >>= f) :=
  fun s hs => sat_bind (hx s hs) fun a t ht => hf a t ht

theorem pure (a : α) : Unfenced (Pure.pure a : Prog Error (Store H) α) := fun _ hs => hs

theorem fail {err : Error} (herr : ∀ p, err ≠ .fenced p) : Unfenced (Prog.fail err : Prog Error (Store H) α) :=
  fun _ _ => sat_fail herr

theorem onHamt (f : Hamt H → Hamt H) : Unfenced (Store.onHamt f) := fun _ hs => hs

theorem appendOne (live : Liveness H) (b : Block H) : Unfenced (Tract.appendOne live b) := by
  have happend : Unfenced (Tract.append live [b]) := by
    intro s hs
    refine sat_state ?_
    dsimp only
    split
    · exact sat_fail fun _ => by simp
    · split
      next hfenced => simp [hs] at hfenced
      · split
        · exact sat_bind (R := fun _ _ => True) trivial fun _ _ _ => sat_fail fun _ => by simp
        · exact hs
  refine happend.bind fun placed => ?_
  rcases placed with _ | ⟨lba, rest⟩
  · exact fail fun _ => by simp
  · exact pure lba

theorem nodeAt (idx : Nat) : Unfenced (Hamt.nodeAt (H := H) idx) := by
  intro s hs
  refine sat_state ?_
  rcases s.hamt.arena[idx]? with _ | node
  · exact sat_fail fun _ => by simp
  · exact hs

theorem flushNode (live : Liveness H) (fuel : Nat) : ∀ idx, Unfenced (Hamt.flushNode live fuel idx) := by
  induction fuel with
  | zero => exact fun _ => fail fun _ => by simp [Hamt.outOfKey]
  | succ fuel ih =>
    intro idx
    have hchild : ∀ c, Unfenced (Hamt.flushChild (Hamt.flushNode live fuel) idx c) := by
      intro c
      refine (nodeAt idx).bind fun node => ?_
      split
      next sub _ => exact (ih sub).bind fun _ => onHamt _
      · exact pure ()
    have hchildren : ∀ cs, Unfenced (each (Hamt.flushChild (Hamt.flushNode live fuel) idx) cs) := by
      intro cs
      induction cs with
      | nil => exact pure ()
      | cons c cs ihc => exact (hchild c).bind fun _ => ihc
    have hencode : ∀ node : Node H, Unfenced (encodeNode node : Prog Error (Store H) (Block H)) := by
      intro node
      unfold encodeNode
      split
      · exact fail fun _ => by simp
      · exact pure _
    show Unfenced (Hamt.flushOne live (Hamt.flushNode live fuel) idx)
    unfold Hamt.flushOne
    refine (hchildren _).bind fun _ => (nodeAt idx).bind fun node => ?_
    refine (hencode node).bind fun block => (appendOne live block).bind fun lba => ?_
    split
    · exact fail fun _ => by simp
    · exact (onHamt _).bind fun _ => pure _

theorem flush (live : Liveness H) : Unfenced (Hamt.flush live) := by
  intro s hs
  refine sat_state ?_
  split
  · exact hs
  · exact hs
  next idx _ => exact ((flushNode live _ idx).bind fun _ => (onHamt _).bind fun _ => (onHamt _).bind fun _ => pure _) s hs

end Unfenced

/-- A vault of the fixed layout that is done with its open's walk, whatever its tract holds. -/
structure Berthed (v : Vault H) : Prop where
  on : ∃ d, v.store.On d
  long : 0 < v.tract.len
  spine : v.ring.base + v.ring.n ≤ v.tract.base
  root : v.root = none
  headed : ∃ head, v.ring.headEntry = some head
  settled : v.settling = none

namespace Vault

/-- The fences of the last generations on the ring. -/
def fences (v : Vault H) : Except Error (List Nat) := ((Ring.recentFences fenceK).run v.ring).1

/-- The fence is that of the last generations on the ring. -/
def Refenced (v : Vault H) : Prop := ∃ fences, v.fences = .ok fences ∧ v.tract.fenceLimit = fenceFrom fences

end Vault

/-- As `v` was, its spine and its fence untouched. -/
structure Aside (v v' : Vault H) : Prop where
  berthed : Berthed v'
  head : v'.ring.headEntry = v.ring.headEntry
  fences : v'.fences = v.fences
  fence : v'.tract.fenceLimit = v.tract.fenceLimit

namespace Aside

variable {v v' v'' : Vault H}

theorem trans (h : Aside v v') (h' : Aside v' v'') : Aside v v'' :=
  ⟨h'.berthed, h'.head.trans h.head, h'.fences.trans h.fences, h'.fence.trans h.fence⟩

theorem refenced (h : Aside v v') : v'.Refenced ↔ v.Refenced := by
  unfold Vault.Refenced
  rw [h.fences, h.fence]

end Aside

namespace Berthed

variable {v v' v'' : Vault H} {d d' : Dev H}

theorem refl (h : Berthed v) : Aside v v := ⟨h, rfl, rfl, rfl⟩

theorem fits (h : Berthed v) (hon : v.store.On d) : v.ring.base + v.ring.n ≤ d.count :=
  h.spine.trans ((Nat.le_add_right _ _).trans hon.fits)

theorem fences_eq (h : Berthed v) (hon : v.store.On d) : v.fences = .ok (v.ring.shownFences d fenceK) := by
  rw [Vault.fences, Ring.recentFences_run hon.ready (h.fits hon)]

/-- The blocks before the tract and the fence are as they were. -/
theorem aside (h : Berthed v) (hon : v.store.On d) (v' : Vault H) (d' : Dev H) (hon' : v'.store.On d') (hlong : 0 < v'.tract.len)
    (hbase : v'.tract.base = v.tract.base) (hring : v'.ring = { v.ring with mirror := v'.ring.mirror })
    (hview : ∀ l < v.tract.base, v'.ring.mirror.view d' l = v.ring.mirror.view d l)
    (hfence : v'.tract.fenceLimit = v.tract.fenceLimit) (hroot : v'.root = v.root) (hsettling : v'.settling = v.settling) :
    Aside v v' := by
  have hhead : v'.ring.headEntry = v.ring.headEntry := by rw [hring]; rfl
  have hringBase : v'.ring.base = v.ring.base := by rw [hring]
  have hringLog2 : v'.ring.ringLog2 = v.ring.ringLog2 := by rw [hring]
  have hspine := h.spine
  have hberthed : Berthed v' := by
    constructor
    · exact ⟨d', hon'⟩
    · exact hlong
    · rw [hbase, hringBase, Ring.n, hringLog2]
      exact hspine
    · exact hroot.trans h.root
    · rw [hhead]
      exact h.headed
    · exact hsettling.trans h.settled
  have hbudget : budgetAt (fun slot => v'.ring.mirror.view d' (v'.ring.base + slot)) v'.ring.ringLog2 =
      budgetAt (fun slot => v.ring.mirror.view d (v.ring.base + slot)) v.ring.ringLog2 := by
    funext g
    have hslot : v.ring.base + g % 2 ^ v.ring.ringLog2 < v.tract.base :=
      lt_of_lt_of_le (Nat.add_lt_add_left (Nat.mod_lt g (Nat.two_pow_pos _)) _) hspine
    simp only [budgetAt, hringBase, hringLog2, hview _ hslot]
  constructor
  · exact hberthed
  · exact hhead
  · rw [h.fences_eq hon, hberthed.fences_eq hon', Ring.shownFences, Ring.shownFences, hhead, hbudget]
  · exact hfence


theorem aside_of_moored (h : Berthed v) (hon : v.store.On d) {s : Store H} {room : Nat} (hs : Moored v.tract room (v.ring.mirror.view d) s) :
    Aside v (v.withStore s) := by
  obtain ⟨d', hon', -, hview⟩ := hs.on
  have htract := hs.tract
  refine h.aside hon (v.withStore s) d' hon' ?_ ?_ rfl hview ?_ rfl rfl
  · show 0 < s.tract.len
    rw [htract]
    exact h.long
  · show s.tract.base = v.tract.base
    rw [htract]
  · show s.tract.fenceLimit = v.tract.fenceLimit
    rw [htract]

/-- Work on the index leaves the spine and the fence. -/
theorem onStore (h : Berthed v) {α : Type} {x : Prog Error (Store H) α} (hx : ∀ room ring, Steady (Moored v.tract room ring) x) :
    Sat (Vault.onStore x) v (fun _ v' => Aside v v') fun _ v' => Aside v v' := by
  obtain ⟨d, hon⟩ := h.on
  refine Vault.sat_onStore ((hx _ _ v.store (Moored.start hon)).mono ?_ ?_)
  · exact fun _ _ hs => h.aside_of_moored hon hs
  · exact fun _ _ hs => h.aside_of_moored hon hs

theorem mooring (h : Berthed v) (room : Nat) (ring : Nat → Block H) : Mooring (Moored v.tract room ring) :=
  Moored.mooring h.long room ring

/-- The fields that name neither the spine, the tract nor the devices. -/
theorem same (h : Berthed v) (hring : v'.ring = v.ring) (htract : v'.tract = v.tract) (hroot : v'.root = v.root)
    (hsettling : v'.settling = v.settling) : Aside v v' := by
  obtain ⟨d, hon⟩ := h.on
  refine h.aside hon v' d ⟨?_, ?_⟩ ?_ ?_ ?_ ?_ ?_ hroot hsettling
  · show v'.ring.mirror.Ready d
    rw [hring]
    exact hon.ready
  · show v'.tract.base + v'.tract.len ≤ d.count
    rw [htract]
    exact hon.fits
  · rw [htract]
    exact h.long
  · rw [htract]
  · rw [hring]
  · rw [hring]
    exact fun _ _ => rfl
  · rw [htract]

/-- The fence moves, nothing else. -/
theorem fenced (h : Berthed v) (limit : Option Nat) :
    Berthed { v with tract := { v.tract with fenceLimit := limit } } := by
  obtain ⟨d, hon⟩ := h.on
  exact ⟨⟨d, hon.ready, hon.fits⟩, h.long, h.spine, h.root, h.headed, h.settled⟩

theorem refence (h : Berthed v) : ∃ v', Vault.refence.run v = (.ok (), v') ∧ Berthed v' ∧ v'.Refenced := by
  obtain ⟨d, hon⟩ := h.on
  have hrun := Ring.recentFences_run hon.ready (h.fits hon) fenceK
  refine ⟨{ v with tract := { v.tract with fenceLimit := fenceFrom (v.ring.shownFences d fenceK) } }, ?_, h.fenced _, ?_⟩
  · simp only [Vault.refence, Vault.onRing, bind_run, zoom_run, hrun, Vault.setFence, update_run]
  · exact ⟨_, (h.fenced _).fences_eq (d := d) ⟨hon.ready, hon.fits⟩, rfl⟩

/-- A generation lands, and the fence follows it. -/
theorem publish (h : Berthed v) {e : SpineEntry H} (hchains : v.ring.Chains e) :
    ∃ v', (Vault.onRing (Ring.append e) >>= fun _ => Vault.refence).run v = (.ok (), v') ∧ Berthed v' ∧ v'.Refenced := by
  obtain ⟨d, hon⟩ := h.on
  obtain ⟨m', hrun, hready, hpend⟩ := Ring.append_run hon.ready hchains (h.fits hon)
  have hfits : v.tract.base + v.tract.len ≤ d.count := hon.fits
  have hring : (Vault.onRing (Ring.append e)).run v =
      (.ok (), { v with ring := { v.ring with mirror := m', head := some (e.gen % v.ring.n, e) } }) := by
    rw [Vault.onRing, zoom_run, hrun]
  have hberthed : Berthed { v with ring := { v.ring with mirror := m', head := some (e.gen % v.ring.n, e) } } := by
    constructor
    · exact ⟨_, hready, show v.tract.base + v.tract.len ≤ _ by simpa using hfits⟩
    · exact h.long
    · exact h.spine
    · exact h.root
    · exact ⟨e, rfl⟩
    · exact h.settled
  obtain ⟨v', hfence, hv'⟩ := hberthed.refence
  exact ⟨v', by rw [bind_run, hring]; exact hfence, hv'⟩

theorem heartbeat (h : Berthed v) (now : Int) :
    ∃ v', (Vault.appendHeartbeat now).run v = (.ok (), v') ∧ Berthed v' ∧ v'.Refenced := by
  obtain ⟨head, hhead⟩ := h.headed
  obtain ⟨v', hrun, hv'⟩ := h.publish (e := { head with
    gen := head.gen + 1, prevHash := head.bodyHash, ringLog2 := v.ring.ringLog2, live := v.live.len, eagleTime := now })
    ⟨rfl, by rw [hhead]; exact ⟨rfl, rfl⟩⟩
  refine ⟨v', ?_, hv'⟩
  rw [← hrun]
  simp only [Vault.appendHeartbeat, Vault.headOr, bind_run, state_run, hhead, pure_run]

theorem retireReap (h : Berthed v) : Berthed v.retireReap ∧ v.retireReap.ring = v.ring := by
  unfold Vault.retireReap
  split
  · obtain ⟨d, hon⟩ := h.on
    exact ⟨⟨⟨d, hon.ready, hon.fits⟩, h.long, h.spine, h.root, h.headed, h.settled⟩, rfl⟩
  · exact ⟨h, rfl⟩

/-- Once the index is flushed nothing stops a commit. -/
theorem sealIndex (h : Berthed v) (now : Int) (root : H × Nat) :
    ∃ v', (Vault.sealIndex now root).run v = (.ok (), v') ∧ Berthed v' ∧ v'.Refenced := by
  obtain ⟨hretired, hring⟩ := h.retireReap
  obtain ⟨head, hhead⟩ := hretired.headed
  obtain ⟨v', hrun, hv', hfence⟩ := hretired.publish (e := v.retireReap.nextEntry head root now)
    ⟨rfl, by rw [hhead]; exact ⟨rfl, rfl⟩⟩
  refine ⟨v', ?_, hv', hfence⟩
  rw [bind_run] at hrun
  unfold Vault.sealIndex
  simp only [Vault.headOr, bind_run, update_run, state_run, hhead, pure_run]
  rcases happ : (Vault.onRing (Ring.append (v.retireReap.nextEntry head root now))).run v.retireReap with ⟨_ | _, u⟩ <;>
    rw [happ] at hrun
  · exact absurd (congrArg Prod.fst hrun) (by simp)
  · simp only [] at hrun ⊢
    rw [hrun]
    simp only [hv'.root, pure_run]

theorem flushOnce (h : Berthed v) : Sat Vault.flushOnce v (fun _ v' => Aside v v') fun _ v' => Aside v v' := by
  refine sat_state (sat_bind (h.onStore fun room ring => (h.mooring room ring).flush _) fun root v₁ h₁ => ?_)
  refine sat_bind ((h₁.berthed.onStore fun room ring => (h₁.berthed.mooring room ring).takeDelta).mono
    (fun _ _ h₂ => h₁.trans h₂) fun _ _ h₂ => h₁.trans h₂) fun delta v₂ h₂ => ?_
  exact sat_update (sat_pure (h₂.trans (h₂.berthed.same rfl rfl rfl rfl)))

theorem flushOnce_unfenced (hfence : v.tract.fenceLimit = none) :
    Sat Vault.flushOnce v (fun _ _ => True) fun err _ => ∀ p, err ≠ .fenced p := by
  refine sat_state (sat_bind (R := fun _ _ => True) (Vault.sat_onStore ?_) fun _ _ _ => trivial)
  exact (Unfenced.flush _ v.store hfence).mono (fun _ _ _ => trivial) fun _ _ herr => herr

/-- A clean index has nothing to flush. -/
theorem flushOnce_clean (hroot : ∀ i, v.hamt.root ≠ some (.dirty i)) :
    Sat Vault.flushOnce v (fun _ _ => True) fun _ _ => False := by
  refine sat_state (sat_bind (R := fun _ _ => True) (Vault.sat_onStore ?_) fun _ _ _ => trivial)
  unfold Hamt.flush
  refine sat_state ?_
  rcases hr : v.store.hamt.root with _ | ⟨hash, lba⟩ | i
  · exact trivial
  · exact trivial
  · exact absurd hr (hroot i)

/-- A flush and the heartbeats between its tries. -/
theorem flushIndex (now : Int) (attempts : Nat) : ∀ {v : Vault H}, Berthed v →
    Sat (Vault.flushIndex now attempts) v (fun _ v' => Berthed v' ∧ (Aside v v' ∨ v'.Refenced))
      fun _ v' => Berthed v' ∧ (Aside v v' ∨ v'.Refenced) := by
  induction attempts with
  | zero => exact fun h => h.flushOnce.mono (fun _ _ h' => ⟨h'.berthed, .inl h'⟩) fun _ _ h' => ⟨h'.berthed, .inl h'⟩
  | succ attempts ih =>
    intro v h
    refine sat_try h.flushOnce (fun root v₁ h₁ => sat_pure ⟨h₁.berthed, .inl h₁⟩) fun err v₁ h₁ => ?_
    cases err with
    | fenced plow =>
      obtain ⟨v₂, hrun, h₂, hfence⟩ := h₁.berthed.heartbeat now
      have hlater : ∀ v', Berthed v' ∧ (Aside v₂ v' ∨ v'.Refenced) → Berthed v' ∧ (Aside v v' ∨ v'.Refenced) :=
        fun v' hv' => ⟨hv'.1, .inr (hv'.2.elim (fun ha => ha.refenced.mpr hfence) id)⟩
      exact sat_run hrun ((ih h₂).mono (fun _ v' => hlater v') fun _ v' => hlater v')
    | _ => exact sat_fail ⟨h₁.berthed, .inl h₁⟩

/-- With the fence down, or nothing to flush, there is no heartbeat. -/
theorem flushIndex_unfenced (h : Berthed v) (hfence : v.tract.fenceLimit = none) (now : Int) (attempts : Nat) :
    Sat (Vault.flushIndex now attempts) v (fun _ v' => Aside v v') fun _ v' => Aside v v' := by
  cases attempts with
  | zero => exact h.flushOnce
  | succ attempts =>
    refine sat_try (h.flushOnce.and (flushOnce_unfenced hfence)) (fun root v₁ h₁ => sat_pure h₁.1) fun err v₁ h₁ => ?_
    cases err with
    | fenced plow => exact absurd rfl (h₁.2 plow)
    | _ => exact sat_fail h₁.1

theorem flushIndex_clean (h : Berthed v) (hroot : ∀ i, v.hamt.root ≠ some (.dirty i)) (now : Int) (attempts : Nat) :
    Sat (Vault.flushIndex now attempts) v (fun _ v' => Aside v v') fun _ _ => False := by
  cases attempts with
  | zero => exact (h.flushOnce.and (flushOnce_clean hroot)).mono (fun _ _ h' => h'.1) fun _ _ h' => h'.2
  | succ attempts =>
    exact sat_try (h.flushOnce.and (flushOnce_clean hroot)) (fun root v₁ h₁ => sat_pure h₁.1) fun err v₁ h₁ => h₁.2.elim

theorem commitWithin (h : Berthed v) (attempts : Nat) (now : Int) :
    Sat (Vault.commitWithin attempts now) v (fun _ v' => Berthed v' ∧ v'.Refenced)
      fun _ v' => Berthed v' ∧ (Aside v v' ∨ v'.Refenced) := by
  refine sat_bind (h.flushIndex now attempts) fun root v₁ h₁ => ?_
  obtain ⟨v₂, hrun, h₂⟩ := h₁.1.sealIndex now root
  unfold Sat
  rw [hrun]
  exact h₂

/-- A commit refused while the fence is waived leaves it waived. -/
theorem commitWithin_unfenced (h : Berthed v) (hfence : v.tract.fenceLimit = none) (attempts : Nat) (now : Int) :
    Sat (Vault.commitWithin attempts now) v (fun _ v' => Berthed v' ∧ v'.Refenced) fun _ v' => Aside v v' := by
  refine sat_bind (h.flushIndex_unfenced hfence now attempts) fun root v₁ h₁ => ?_
  obtain ⟨v₂, hrun, h₂⟩ := h₁.berthed.sealIndex now root
  unfold Sat
  rw [hrun]
  exact h₂

theorem commitWithin_clean (h : Berthed v) (hroot : ∀ i, v.hamt.root ≠ some (.dirty i)) (attempts : Nat) (now : Int) :
    Sat (Vault.commitWithin attempts now) v (fun _ v' => Berthed v' ∧ v'.Refenced) fun _ _ => False := by
  refine sat_bind (h.flushIndex_clean hroot now attempts) fun root v₁ h₁ => ?_
  obtain ⟨v₂, hrun, h₂⟩ := h₁.berthed.sealIndex now root
  unfold Sat
  rw [hrun]
  exact h₂

/-- A window moved without its retirement. -/
theorem reapStaged (h : Berthed v) (w : Nat) :
    Sat (Vault.reapStaged w) v (fun _ v' => Aside v v') fun _ v' => Aside v v' := by
  obtain ⟨d, hon⟩ := h.on
  have hreap : Sat (Vault.onStore (Hamt.reapWindow v.live.liveness w)) v
      (fun _ v' => ∃ s reap, Moored v.tract d.count (v.ring.mirror.view d) s ∧
        v' = v.withStore { s with tract := { s.tract with reap := reap } }) fun _ v' => Aside v v' := by
    refine Vault.sat_onStore (((h.mooring _ _).reapWindow _ w (Moored.start hon) (Q := fun s' => ∃ s reap,
      Moored v.tract d.count (v.ring.mirror.view d) s ∧ s' = { s with tract := { s.tract with reap := reap } }) ?_ ?_).mono ?_ ?_)
    · exact fun hs => ⟨v.store, v.store.tract.reap, hs, rfl⟩
    · exact fun s hs => ⟨s, _, hs, rfl⟩
    · intro _ s' ⟨s, reap, hs, hs'⟩
      exact ⟨s, reap, hs, congrArg v.withStore hs'⟩
    · exact fun _ s' hs => h.aside_of_moored hon hs
  refine sat_state (sat_bind hreap fun _ v₁ hv₁ => ?_)
  obtain ⟨s, reap, hs, rfl⟩ := hv₁
  have hback : ({ s.tract with reap := v.tract.reap } : Tract) = s.tract := by
    rw [hs.tract]
  refine (h.aside_of_moored hon hs).trans ((h.aside_of_moored hon hs).berthed.same rfl ?_ rfl rfl)
  exact hback

/-- The devices grown to a longer tract, or refused. -/
theorem grow (h : Berthed v) (hon : v.store.On d) (n : Nat) :
    (∃ m' d', (Vault.onMirror (Mirror.grow (v.tract.base + n))).run v = (.ok (), { v with ring := { v.ring with mirror := m' } }) ∧
      m'.Ready d' ∧ d.count ≤ d'.count ∧ v.tract.base + n ≤ d'.count ∧
      ∀ l < v.tract.base, m'.view d' l = v.ring.mirror.view d l) ∨
    ∃ err v', (Vault.onMirror (Mirror.grow (v.tract.base + n))).run v = (.error err, v') ∧ Aside v v' := by
  have hfits : v.tract.base + v.tract.len ≤ d.count := hon.fits
  have hready₀ : v.ring.mirror.Ready d := hon.ready
  by_cases hacc : d.Accepts (v.tract.base + n)
  · obtain ⟨m', hgrow, hready, hpend⟩ := Mirror.grow_run hready₀ hacc
    refine .inl ⟨m', _, ?_, hready, ?_, ?_, ?_⟩
    · simp only [Vault.onMirror, Vault.onRing, Ring.onMirror, zoom_run, hgrow]
    · split
      · simp
      · simp only [Dev.grown]
        omega
    · split
      · simpa using ‹_›
      · exact le_rfl
    · intro l hl
      rw [Mirror.view_of_pending_nil hpend, ← Mirror.drained_data]
      split
      · rfl
      · exact if_pos (by simp; omega)
  · obtain ⟨err, m', hgrow, hready, hpend⟩ := Mirror.grow_run_of_not hready₀ hacc
    refine .inr ⟨err, { v with ring := { v.ring with mirror := m' } }, ?_, ?_⟩
    · simp only [Vault.onMirror, Vault.onRing, Ring.onMirror, zoom_run, hgrow]
    · refine h.aside hon _ (v.ring.mirror.drained d) ⟨hready, ?_⟩ h.long rfl rfl ?_ rfl rfl rfl
      · show v.tract.base + v.tract.len ≤ _
        simpa using hfits
      · intro l _
        show m'.view _ l = _
        rw [Mirror.view_of_pending_nil hpend, Mirror.drained_data]

/-- A longer tract, before its commit. -/
theorem lengthen (h : Berthed v) {n : Nat} (hn : 0 < n) :
    Sat (Vault.lengthen n) v (fun _ v' => Aside v v' ∧ ∀ i, v'.hamt.root ≠ some (.dirty i)) fun _ v' => Aside v v' := by
  obtain ⟨d, hon⟩ := h.on
  obtain ⟨head, hhead⟩ := h.headed
  have hfits : v.tract.base + v.tract.len ≤ d.count := hon.fits
  refine sat_state ?_
  obtain ⟨m', d', hgrown, hready, hcount, hroom', hdata⟩ | ⟨err, v', hgrown, hv'⟩ := h.grow hon n
  · refine sat_run hgrown ?_
    have hhead' : ∀ reason, (Vault.headOr reason).run ({ v with ring := { v.ring with mirror := m' } } : Vault H) =
        (.ok head, { v with ring := { v.ring with mirror := m' } }) := by
      intro reason
      have hsame : Ring.headEntry { v.ring with mirror := m' } = some head := hhead
      simp only [Vault.headOr, bind_run, state_run, hsame, pure_run]
    have hreload : (Vault.reloadHead "grow on pre-genesis vault").run ({ v with ring := { v.ring with mirror := m' } } : Vault H) =
        (.ok (), { v with
          ring := { v.ring with mirror := m' }, hamt := Hamt.fromRoot head.hamtHash head.hamtLba, pendingReap := none }) := by
      rw [Vault.reloadHead, bind_run, hhead']
      rfl
    refine sat_run (hhead' _) (sat_run hreload (sat_update ?_))
    set u : Vault H := { v with
      ring := { v.ring with mirror := m' }
      hamt := Hamt.fromRoot head.hamtHash head.hamtLba
      pendingReap := none
      tract := { v.tract with plow := head.plow } } with hu
    have hon' : u.store.On d' := ⟨hready, hfits.trans hcount⟩
    -- what the walk reads leaves the spine, the fence and the index as they are
    have haside : ∀ s, Moored u.tract d'.count (u.ring.mirror.view d') s → Aside v (u.withStore s) := by
      intro s hs
      obtain ⟨d₁, hon₁, -, hview⟩ := hs.on
      have htract := hs.tract
      refine h.aside hon (u.withStore s) d₁ hon₁ ?_ ?_ rfl (fun l hl => (hview l hl).trans (hdata l hl)) ?_ rfl rfl
      · show 0 < s.tract.len
        rw [htract]
        exact h.long
      · show s.tract.base = v.tract.base
        rw [htract]
      · show s.tract.fenceLimit = v.tract.fenceLimit
        rw [htract]
    have hwalk : Sat Vault.growNow.rewalk u (fun _ u' => ∃ s, (Moored u.tract d'.count (u.ring.mirror.view d') s ∧
        s.hamt = u.hamt) ∧ u' = u.withStore s) fun _ u' => Aside v u' := by
      have hcollect := (Moored.reading u.tract d'.count (u.ring.mirror.view d') u.hamt).walkTreeCollect
        ⟨u.store, Walk.start u.tract.len []⟩ ⟨Moored.start hon', rfl⟩
      unfold Sat at hcollect ⊢
      rcases hrun : Walker.walkTreeCollect.run ⟨u.store, Walk.start u.tract.len []⟩ with ⟨err | _, w⟩ <;> rw [hrun] at hcollect
      · simp only [Vault.growNow.rewalk, hrun]
        exact haside _ hcollect.1
      · simp only [Vault.growNow.rewalk, hrun]
        exact ⟨w.store, hcollect, rfl⟩
    refine sat_bind hwalk fun walk u' hu' => ?_
    obtain ⟨s, ⟨hs, hhamt⟩, rfl⟩ := hu'
    obtain ⟨d₁, hon₁, hroom, hview⟩ := hs.on
    have htract := hs.tract
    have hbase : s.tract.base = v.tract.base := by rw [htract]
    refine sat_update ⟨?_, ?_⟩
    · have hside := haside s hs
      refine h.aside hon _ d₁ ⟨hon₁.ready, ?_⟩ hn hbase rfl (fun l hl => (hview l hl).trans (hdata l hl)) ?_ rfl rfl
      · show s.tract.base + n ≤ d₁.count
        rw [hbase]
        exact hroom'.trans hroom
      · exact hside.fence
    · intro i
      show s.hamt.root ≠ _
      rw [hhamt]
      show (Hamt.fromRoot head.hamtHash head.hamtLba).root ≠ _
      unfold Hamt.fromRoot
      split <;> simp
  · unfold Sat
    rw [bind_run, hgrown]
    exact hv'

theorem growNow (h : Berthed v) {n : Nat} (hn : v.tract.len < n) (now : Int) :
    Sat (Vault.growNow n now) v (fun _ v' => Berthed v' ∧ v'.Refenced) fun _ v' => Aside v v' := by
  unfold Sat
  rw [Vault.growNow_run, if_neg (Nat.not_le.mpr hn)]
  refine sat_bind (h.lengthen (Nat.zero_lt_of_lt hn)) fun _ v₁ h₁ => ?_
  exact (h₁.1.berthed.commitWithin_clean h₁.2 _ now).mono (fun _ _ h₂ => h₂) fun _ _ hf => hf.elim

theorem growPreservingNow (h : Berthed v) (n : Nat) (now : Int) :
    Sat (Vault.growPreservingNow n now) v (fun _ v' => Berthed v') fun _ v' => Berthed v' := by
  obtain ⟨d, hon⟩ := h.on
  refine sat_state ?_
  split
  · exact sat_pure h
  next hn =>
    obtain ⟨m', d', hgrown, hready, hcount, hroom, hdata⟩ | ⟨err, v', hgrown, hv'⟩ := h.grow hon n
    · refine sat_run hgrown (sat_update (sat_update ?_))
      have h' : Berthed ({ v with
          ring := { v.ring with mirror := m' }, pendingReap := none, tract := v.tract.realign n } : Vault H) := by
        constructor
        · exact ⟨d', hready, hroom⟩
        · exact Nat.zero_lt_of_lt (Nat.lt_of_not_le hn)
        · exact h.spine
        · exact h.root
        · exact h.headed
        · exact h.settled
      exact (h'.commitWithin _ now).mono (fun _ _ h₁ => h₁.1) fun _ _ h₁ => h₁.1
    · unfold Sat
      rw [bind_run, hgrown]
      exact hv'.berthed

/-- A step leaves a berthed vault berthed. -/
theorem step (h : Berthed v) (x : Step) : Berthed (x.after v) := by
  refine Sat.final (x := x.prog) ?_
  have hstore : ∀ {α : Type} {x : Prog Error (Store H) α} {v : Vault H}, Berthed v →
      (∀ room ring, Steady (Moored v.tract room ring) x) →
      Sat (Vault.onStore x) v (fun _ v' => Berthed v') fun _ v' => Berthed v' := fun h hx =>
    (h.onStore hx).mono (fun _ _ h' => h'.berthed) fun _ _ h' => h'.berthed
  cases x with
  | get key => exact sat_bind (hstore h fun room ring => (h.mooring room ring).lookup key) fun _ _ h₁ => sat_pure h₁
  | check key value =>
    refine sat_bind (sat_bind (hstore h fun room ring => (h.mooring room ring).findLeaf key) fun leaf v₁ h₁ => ?_)
      fun _ _ h₂ => sat_pure h₂
    rcases leaf with _ | ⟨lba, hash⟩
    · exact sat_pure h₁
    · refine sat_state ?_
      split
      · exact sat_pure h₁
      · refine sat_try (hstore h₁ fun room ring => (h₁.mooring room ring).lookup key) (fun _ v₂ h₂ => sat_pure h₂)
          fun err v₂ h₂ => ?_
        cases err with
        | badSeal => exact sat_pure h₂
        | corrupt reason => exact sat_pure h₂
        | _ => exact sat_fail h₂
  | put key value => exact sat_state (hstore h fun room ring => (h.mooring room ring).put _ key value)
  | delete key =>
    exact sat_state (sat_bind (hstore h fun room ring => (h.mooring room ring).delete key _) fun _ _ h₁ => sat_pure h₁)
  | commit now => exact (h.commitWithin 0 now).mono (fun _ _ h₁ => h₁.1) fun _ _ h₁ => h₁.1
  | beat now =>
    obtain ⟨v', hrun, h', -⟩ := h.heartbeat now
    unfold Sat
    rw [Step.prog, hrun]
    exact h'
  | stage w => exact (h.reapStaged w).mono (fun _ _ h₁ => h₁.berthed) fun _ _ h₁ => h₁.berthed
  | waive => exact h.fenced none
  | refence =>
    obtain ⟨v', hrun, h', -⟩ := h.refence
    unfold Sat
    rw [Step.prog, hrun]
    exact h'
  | reload reason =>
    obtain ⟨head, hhead⟩ := h.headed
    unfold Sat
    simp only [Step.prog, Vault.reloadHead, Vault.headOr, bind_run, state_run, hhead, pure_run, update_run]
    exact (show Aside v (v.reloaded head) from h.same rfl rfl rfl rfl).berthed
  | lengthen n =>
    refine sat_state ?_
    split
    · exact sat_pure h
    next hn =>
      exact (h.lengthen (Nat.zero_lt_of_lt (Nat.lt_of_not_le hn))).mono (fun _ _ h₁ => h₁.1.berthed)
        fun _ _ h₁ => h₁.berthed

theorem exec (h : Berthed v) (xs : List Step) : Berthed (exec xs v) := by
  induction xs generalizing v with
  | nil => exact h
  | cons x xs ih => exact ih (h.step x)

/-- Whatever is a list of steps leaves a berthed vault berthed. -/
theorem stepwise (h : Berthed v) {α : Type} {x : Prog Error (Vault H) α} (hx : Stepwise x v) : Berthed (x.run v).2 := by
  obtain ⟨xs, hxs⟩ := hx
  rw [hxs]
  exact h.exec xs

/-! ### The tail of the open -/

/-- The repair commit fails at nothing, and leaves the fence of the ring. -/
theorem landPrunes (h : Berthed v) (now : Int) :
    Sat (Vault.landPrunes now) v (fun _ v' => Berthed v' ∧ v'.Refenced) fun _ _ => False := by
  have hlast : ∀ (committed : Bool) {u : Vault H}, Berthed u →
      Sat (do Vault.refence; pure committed) u (fun _ v' => Berthed v' ∧ v'.Refenced) fun _ _ => False := by
    intro committed u hu
    obtain ⟨v', hrun, hv'⟩ := hu.refence
    exact sat_run hrun (sat_pure hv')
  refine sat_update (sat_bind (R := fun _ u => Berthed u) ?_ fun res u hu => ?_)
  · exact sat_attempt (((h.fenced none).commitWithin _ now).mono (fun _ _ h₁ => h₁.1) fun _ _ h₁ => h₁.1)
  · rcases res with err | _
    · refine sat_state (sat_bind (R := fun _ u => Berthed u) ?_ fun grown u' hu' => hlast grown.isOk hu')
      exact sat_attempt (hu.growPreservingNow _ _)
    · exact hlast true hu

/-- A window of the rescue under the waiver, and its commit. -/
theorem unwedge (h : Berthed v) (now : Int) : Sat (Vault.unwedge now) v (fun _ v' => Berthed v') fun _ _ => False := by
  refine sat_bind (R := fun _ u => Berthed u) ?_ fun res u hu => ?_
  · have hrescue := h.stepwise (Stepwise.rescueNow now)
    unfold Sat
    rw [attempt_run]
    exact hrescue
  · rcases res with err | _
    · cases err with
      | tractFull =>
        refine sat_state (sat_bind (R := fun _ u => Berthed u) ?_ fun _ _ hu' => sat_pure hu')
        have hgrow := hu.stepwise (Stepwise.growNow (u.tract.len * 2) now)
        unfold Sat
        rw [attempt_run]
        exact hgrow
      | _ => exact sat_pure hu
    · exact sat_pure hu

end Berthed

/-- What the open's tail does before its repair commit: the lost pointers pruned, the live set taken from
the walk, the fence computed. -/
def Vault.takeWalk (w : Walk H) : Prog Error (Vault H) Unit := do
  each (fun p => onStore (Hamt.prune p.route (p.hash, p.lba))) w.stale
  each (fun p => onStore (Hamt.prune p.route (p.hash, p.lba))) w.dangling
  let live := LiveSet.ofWalk w.liveBlocks w.referenced
  update fun v => { v with
    tract := { v.tract with reap := deriveReap v.tract.plow v.tract.len live }
    live := live }
  refence

/-- The rest of it: the repair commit where something was pruned, and the probe. -/
def Vault.landAndProbe (w : Walk H) : Prog Error (Vault H) Unit := do
  let v ← state
  let now := v.rescueTime
  let probeAllowed ←
    if w.stale.isEmpty ∧ w.dangling.isEmpty then pure true else landPrunes now
  let v ← state
  if probeAllowed ∧ v.wedged then unwedge now

theorem Vault.finishOpen_run (w : Walk H) (v : Vault H) :
    (finishOpen w).run v = (takeWalk w >>= fun _ => landAndProbe w).run v := by
  unfold finishOpen takeWalk
  simp only [bind_run]
  rcases (each (fun p : StalePointer H => onStore (Hamt.prune p.route (p.hash, p.lba))) w.stale).run v with ⟨_ | _, v₁⟩
  · rfl
  · simp only []
    rcases (each (fun p : DanglingPointer H => onStore (Hamt.prune p.route (p.hash, p.lba))) w.dangling).run v₁ with ⟨_ | _, v₂⟩
    · rfl
    · simp only [update_run]
      generalize refence.run _ = res
      rcases res with ⟨_ | _, v₃⟩ <;> rfl

/-- A vault of the fixed layout with its open's walk still to do, or done. Until it is done no fence has
been computed. -/
structure Afloat (v : Vault H) : Prop where
  berthed : Berthed { v with settling := none }
  waiting : v.settling.isSome → v.tract.fenceLimit = none

namespace Berthed

variable {v v' v'' : Vault H}

theorem afloat (h : Berthed v) : Afloat v := by
  have hv : ({ v with settling := none } : Vault H) = v := by rw [← h.settled]
  exact ⟨hv ▸ h, fun hsome => by simp [h.settled] at hsome⟩

theorem takeWalk (h : Berthed v) (w : Walk H) :
    Sat (Vault.takeWalk w) v (fun _ v' => Berthed v' ∧ v'.Refenced) fun _ v' => Aside v v' := by
  have hprunes : ∀ {β : Type} {f : β → Prog Error (Vault H) Unit} (bs : List β),
      (∀ b {u : Vault H}, Berthed u → Sat (f b) u (fun _ u' => Aside u u') fun _ u' => Aside u u') →
      ∀ {u : Vault H}, Berthed u → Sat (each f bs) u (fun _ u' => Aside u u') fun _ u' => Aside u u' := by
    intro β f bs hf
    induction bs with
    | nil => exact fun hu => hu.refl
    | cons b bs ih =>
      intro u hu
      refine sat_bind (hf b hu) fun _ u₁ h₁ => ?_
      exact (ih h₁.berthed).mono (fun _ _ h₂ => h₁.trans h₂) fun _ _ h₂ => h₁.trans h₂
  refine sat_bind (hprunes w.stale (fun p u hu => hu.onStore fun room ring => (hu.mooring room ring).prune _ _) h) fun _ v₁ h₁ => ?_
  refine sat_bind ((hprunes w.dangling (fun p u hu => hu.onStore fun room ring => (hu.mooring room ring).prune _ _)
    h₁.berthed).mono (fun _ _ h₂ => h₁.trans h₂) fun _ _ h₂ => h₁.trans h₂) fun _ v₂ h₂ => ?_
  have h₃ := h₂.berthed
  obtain ⟨d, hon⟩ := h₃.on
  have h₄ : Berthed ({ v₂ with
      tract := { v₂.tract with reap := deriveReap v₂.tract.plow v₂.tract.len (LiveSet.ofWalk w.liveBlocks w.referenced) }
      live := LiveSet.ofWalk w.liveBlocks w.referenced } : Vault H) :=
    ⟨⟨d, hon.ready, hon.fits⟩, h₃.long, h₃.spine, h₃.root, h₃.headed, h₃.settled⟩
  obtain ⟨v', hrun, hv'⟩ := h₄.refence
  refine sat_update ?_
  unfold Sat
  rw [hrun]
  exact hv'

theorem landAndProbe (h : Berthed v) (w : Walk H) : Sat (Vault.landAndProbe w) v (fun _ v' => Berthed v') fun _ _ => False := by
  have hprobe : ∀ (allowed : Bool) (now : Int) {u : Vault H}, Berthed u →
      Sat (do let v ← state; if allowed ∧ v.wedged then Vault.unwedge now) u (fun _ v' => Berthed v') fun _ _ => False := by
    intro allowed now u hu
    refine sat_state ?_
    split
    · exact hu.unwedge _
    · exact sat_pure hu
  refine sat_state ?_
  dsimp only
  split
  · exact hprobe true _ h
  · exact sat_bind (h.landPrunes _) fun allowed u hu => hprobe allowed _ hu.1

/-- The tail of the open. It fails before there is a fence, or not at all. -/
theorem finishOpen (h : Berthed v) (w : Walk H) : Sat (Vault.finishOpen w) v (fun _ v' => Berthed v') fun _ v' => Aside v v' := by
  unfold Sat
  rw [Vault.finishOpen_run]
  refine sat_bind (h.takeWalk w) fun _ v₁ h₁ => ?_
  exact (h₁.1.landAndProbe w).mono (fun _ _ h₂ => h₂) fun _ _ hf => hf.elim

end Berthed

namespace Afloat

variable {v v' : Vault H}

/-- Between two steps of the open's walk. -/
def Rests (v v' : Vault H) : Prop :=
  Afloat v' ∧ v'.settling.isSome ∧ Aside { v with settling := none } { v' with settling := none }

theorem stepWalk {u : Vault H} (h : Berthed u) (w : Walk H) :
    Sat (Vault.stepWalk w) u (fun _ u' => Aside u u') fun _ u' => u'.settling.isSome ∧ Aside u { u' with settling := none } := by
  obtain ⟨d, hon⟩ := h.on
  have hsteps := (Moored.reading u.tract d.count (u.ring.mirror.view d) u.hamt).walkTreeStep
    ⟨u.store, w⟩ ⟨Moored.start hon, rfl⟩
  unfold Sat at hsteps ⊢
  rcases hrun : Walker.walkTreeStep.run ⟨u.store, w⟩ with ⟨err | _, w'⟩ <;> rw [hrun] at hsteps
  · simp only [Vault.stepWalk, hrun]
    have hside := h.aside_of_moored hon hsteps.1
    exact ⟨rfl, hside.trans (hside.berthed.same rfl rfl rfl (by rw [hside.berthed.settled]))⟩
  · simp only [Vault.stepWalk, hrun]
    exact h.aside_of_moored hon hsteps.1

/-- One step of the open's walk. -/
theorem settleStep (h : Afloat v) : Sat Vault.settleStep v
    (fun done v' => done = true ∧ Berthed v' ∨ done = false ∧ Rests v v')
    (fun _ v' => Afloat v' ∧ v'.tract.fenceLimit = none ∧ Aside { v with settling := none } { v' with settling := none }) := by
  refine sat_state ?_
  rcases hw : v.settling with _ | w
  · have hv : ({ v with settling := none } : Vault H) = v := by rw [← hw]
    exact sat_pure (.inl ⟨rfl, hv ▸ h.berthed⟩)
  · have hnone := h.waiting (by rw [hw]; rfl)
    have hfinish : ∀ {u : Vault H} (w : Walk H), Aside { v with settling := none } u →
        Sat (do Vault.finishOpen w; pure true) u (fun done v' => done = true ∧ Berthed v' ∨ done = false ∧ Rests v v')
          fun _ v' => Afloat v' ∧ v'.tract.fenceLimit = none ∧ Aside { v with settling := none } { v' with settling := none } := by
      intro u w hu
      refine sat_bind ((hu.berthed.finishOpen w).mono (fun _ _ h₁ => h₁) fun _ v' h₁ => ?_) fun _ v' h₁ => sat_pure (.inl ⟨rfl, h₁⟩)
      have hv' : ({ v' with settling := none } : Vault H) = v' := by rw [← h₁.berthed.settled]
      exact ⟨h₁.berthed.afloat, h₁.fence.trans (hu.fence.trans hnone), hv'.symm ▸ hu.trans h₁⟩
    refine sat_update ?_
    split
    · exact hfinish _ h.berthed.refl
    · refine sat_bind ((stepWalk h.berthed w).mono (fun _ _ h₁ => h₁) fun _ v' h₁ => ?_) fun w' u h₁ => ?_
      · have hfence : v'.tract.fenceLimit = none := h₁.2.fence.trans hnone
        exact ⟨⟨h₁.2.berthed, fun _ => hfence⟩, hfence, h₁.2⟩
      · split
        · exact hfinish _ h₁
        · have hfence : u.tract.fenceLimit = none := h₁.fence.trans hnone
          have hu : ({ u with settling := none } : Vault H) = u := by rw [← h₁.berthed.settled]
          refine sat_update (sat_pure (.inr ⟨rfl, ⟨?_, fun _ => hfence⟩, rfl, ?_⟩))
          · show Berthed ({ u with settling := none } : Vault H)
            rw [hu]
            exact h₁.berthed
          · show Aside _ ({ u with settling := none } : Vault H)
            rw [hu]
            exact h₁

theorem settle (h : Afloat v) : Sat Vault.settle v (fun _ v' => Berthed v')
    (fun _ v' => Afloat v' ∧ v'.tract.fenceLimit = none ∧ Aside { v with settling := none } { v' with settling := none }) := by
  have hsteps : ∀ (fuel : Nat) {u : Vault H}, Afloat u → u.settling.isSome ∨ 0 < fuel →
      Sat (Vault.settleSteps fuel) u (fun _ v' => Berthed v')
        fun _ v' => Afloat v' ∧ v'.tract.fenceLimit = none ∧ Aside { u with settling := none } { v' with settling := none } := by
    intro fuel
    induction fuel with
    | zero =>
      intro u hu hwait
      exact sat_fail ⟨hu, hu.waiting (hwait.resolve_right (by simp)), hu.berthed.refl⟩
    | succ fuel ih =>
      intro u hu _
      rw [settleSteps_succ]
      refine sat_bind hu.settleStep fun done u₁ h₁ => ?_
      obtain ⟨rfl, h₁⟩ | ⟨rfl, h₁, hwait, hside⟩ := h₁
      · exact sat_pure h₁
      · exact (ih h₁ (.inl hwait)).mono (fun _ _ h₂ => h₂) fun _ _ h₂ => ⟨h₂.1, h₂.2.1, hside.trans h₂.2.2⟩
  exact sat_state (hsteps _ h (.inr (by omega)))

/-- A read does not wait for the walk. -/
theorem get (h : Afloat v) (key : Key) : Afloat ((Vault.get key).run v).2 := by
  have hread := Sat.final ((h.berthed.onStore fun room ring => (h.berthed.mooring room ring).lookup key).mono
    (fun _ _ h' => h') fun _ _ h' => h')
  have hsame : ((Vault.onStore (Hamt.lookup key)).run ({ v with settling := none } : Vault H)).2 =
      { ((Vault.get key).run v).2 with settling := none } := by
    simp only [Vault.get, Vault.onStore, zoom_run]
    rfl
  rw [hsame] at hread
  have hwaits : ((Vault.get key).run v).2.settling = v.settling := by
    simp only [Vault.get, Vault.onStore, zoom_run]
    rfl
  exact ⟨hread.berthed, fun hsome => hread.fence.trans (h.waiting (hwaits ▸ hsome))⟩

/-- Every operation waits for the walk; what it does then is done to the settled vault. -/
theorem op (h : Afloat v) (op : Op) : Afloat (op.prog.run v).2 := by
  have hsettle := h.settle
  unfold Sat at hsettle
  rcases hrun : (Vault.settle : Prog Error (Vault H) Unit).run v with ⟨err | _, u⟩ <;> rw [hrun] at hsettle
  · have hu : (op.prog.run v).2 = u := by
      cases op <;> simp [Op.prog, Vault.put, Vault.putBatch, Vault.applyBatch, Vault.delete, Vault.commit,
        Vault.reapOneWindow, Vault.reclaimAhead, Vault.rescue, Vault.grow, hrun]
    rw [hu]
    exact hsettle.1
  · have hu : op.prog.run v = op.prog.run u := by
      cases op <;> simp only [Op.prog, Vault.put, Vault.putBatch, Vault.applyBatch, Vault.delete, Vault.commit,
        Vault.reapOneWindow, Vault.reclaimAhead, Vault.rescue, Vault.grow, bind_run, hrun, settle_run hsettle.settled]
    rw [hu]
    exact (hsettle.stepwise (Op.stepwise op hsettle.settled)).afloat

end Afloat

end Manifestus
