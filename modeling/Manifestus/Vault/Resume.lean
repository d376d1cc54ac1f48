import Manifestus.Vault.InUse
import Manifestus.Index.Window

/-! A flush refused by the fence and tried again: what the attempts wrote and what was edited between
them is in the delta once the flush goes through. -/
set_option linter.unusedSectionVars false

namespace Manifestus
open Prog

variable {H : Type} [Crates H]

/-- Every hash on record is the hash one function gives its position. -/
theorem Accounted.recorded {P : Block H → Prop} {live : LiveSet H} {d : Dev H} {s : Store H} {t : Tree H}
    (h : Accounted P live d s t) :
    ∃ hashes : Nat → Option H, ∀ e ∈ live.map ++ s.hamt.delta.added ++ s.hamt.delta.removed, hashes e.1 = some e.2 := by
  refine ⟨fun p => ((live.map ++ s.hamt.delta.added ++ s.hamt.delta.removed).find? (·.1 = p)).map Prod.snd, ?_⟩
  intro e he
  obtain ⟨x, hx⟩ : ∃ x, (live.map ++ s.hamt.delta.added ++ s.hamt.delta.removed).find? (·.1 = e.1) = some x := by
    rw [← Option.isSome_iff_exists, List.find?_isSome]
    exact ⟨e, he, by simp⟩
  have hpos : x.1 = e.1 := by simpa using List.find?_some hx
  show Option.map Prod.snd _ = _
  rw [hx, Option.map_some, h.record x (List.mem_of_find?_eq_some hx) e he hpos]

/-- What a caller does between two tries of a flush; another try is one more of these. -/
inductive Turn where
  | flush
  | heartbeat (now : Int)
  | fence (limit : Option Nat)
  | put (key : Key) (value : Bytes)
  | delete (key : Key)

namespace Turn

def run : Turn → Prog Error (Vault H) Unit
  | .flush => do
    let v ← state
    let _ ← Vault.onStore (Hamt.flush v.live.liveness)
    pure ()
  | .heartbeat now => Vault.appendHeartbeat now
  | .fence limit => Vault.setFence limit
  | .put key value => do
    let v ← state
    Vault.onStore (Hamt.put v.live.liveness key value)
  | .delete key => do
    let v ← state
    let _ ← Vault.onStore (Hamt.delete key v.policy)
    pure ()

/-- What a turn that went through does to the map. -/
def effect (m : Map) : Turn → Map
  | .put key value => Function.update m key (some value)
  | .delete key => Function.update m key none
  | _ => m

/-- Turns in order: a refused one leaves the map, whatever it wrote. -/
def after : List Turn → Vault H → Map → Vault H × Map
  | [], v, m => (v, m)
  | x :: turns, v, m =>
    match (x.run (H := H)).run v with
    | (.ok (), v') => after turns v' (x.effect m)
    | (.error _, v') => after turns v' m

end Turn

/-- A vault in the middle of a transaction: its index holds `t`, its delta accounts for it, and the
spine lies before the tract. -/
structure Midway (v : Vault H) (d : Dev H) (t : Tree H) : Prop where
  accounted : Accounted Block.Erased v.live d v.store t
  once : v.hamt.Once
  spine : v.ring.base + v.ring.n ≤ v.tract.base

namespace Midway

variable {v v' : Vault H} {d : Dev H} {t : Tree H}

/-- The index and its delta after more appends. -/
theorem gained {s' : Store H} {t' : Tree H} (h : Midway v d t) (hg : Gained Block.Erased v.live d v.store s' t t') :
    Midway (v.withStore s') d t' where
  accounted := hg.accounted
  once := hg.once h.accounted h.once
  spine := h.spine.trans_eq hg.steps.base.symm

/-- The fence alone. -/
theorem fence (h : Midway v d t) (limit : Option Nat) :
    Midway { v with tract := { v.tract with fenceLimit := limit } } d t where
  accounted := h.accounted.relocate ⟨h.accounted.on.ready, h.accounted.on.fits⟩
    ⟨h.accounted.cursors.pos, h.accounted.cursors.order, h.accounted.cursors.lap⟩ rfl rfl (fun _ hb => hb)
    fun _ _ => .inl rfl
  once := h.once
  spine := h.spine

theorem refence_run (h : Midway v d t) :
    ∃ limit, Vault.refence.run v = (.ok (), { v with tract := { v.tract with fenceLimit := limit } }) := by
  have hfit : v.ring.base + v.ring.n ≤ d.count :=
    h.spine.trans ((Nat.le_add_right _ _).trans h.accounted.on.fits)
  have hrun := Ring.recentFences_run h.accounted.on.ready hfit fenceK
  refine ⟨fenceFrom (v.ring.shownFences d fenceK), ?_⟩
  simp [Vault.refence, Vault.onRing, Vault.setFence, hrun]

/-- A heartbeat writes to the spine only. -/
theorem heartbeat (h : Midway v d t) (now : Int) :
    Sat (Vault.appendHeartbeat now) v (fun _ v' => v'.live = v.live ∧ ∃ d', Midway v' d' t)
      (fun _ v' => v' = v) := by
  unfold Vault.appendHeartbeat
  rcases hhead : v.ring.headEntry with _ | head
  · unfold Sat
    simp [Vault.headOr, hhead]
  set e : SpineEntry H :=
    { head with gen := head.gen + 1, prevHash := head.bodyHash, ringLog2 := v.ring.ringLog2, live := v.live.len,
                eagleTime := now } with he
  have hchains : v.ring.Chains e := by
    refine ⟨rfl, ?_⟩
    rw [hhead]
    exact ⟨rfl, rfl⟩
  have hfits : v.tract.base + v.tract.len ≤ d.count := h.accounted.on.fits
  have hfit : v.ring.base + v.ring.n ≤ d.count := h.spine.trans ((Nat.le_add_right _ _).trans hfits)
  obtain ⟨m', hrun, hready, hpend⟩ := Ring.append_run h.accounted.on.ready hchains hfit
  have hhead' : (Vault.headOr "heartbeat on pre-genesis vault").run v = (.ok head, v) := by
    simp [Vault.headOr, hhead]
  refine sat_run hhead' (sat_state ?_)
  have hring : (Vault.onRing (Ring.append e)).run v =
      (.ok (), { v with ring := { v.ring with mirror := m', head := some (e.gen % v.ring.n, e) } }) := by
    rw [Vault.onRing, zoom_run, hrun]
  refine sat_run hring ?_
  have hbeat : Midway { v with ring := { v.ring with mirror := m', head := some (e.gen % v.ring.n, e) } }
      ((v.ring.mirror.drained d).landed (v.ring.base + e.gen % v.ring.n, e.encode)).flushed t := by
    refine ⟨h.accounted.relocate ⟨hready, show v.tract.base + v.tract.len ≤ _ by simpa using hfits⟩
      ⟨h.accounted.cursors.pos, h.accounted.cursors.order, h.accounted.cursors.lap⟩ rfl rfl (fun _ hb => hb)
      fun p _ => .inl ?_, h.once, h.spine⟩
    have hslot : e.gen % v.ring.n < v.ring.n := Nat.mod_lt _ (Nat.two_pow_pos _)
    have hspine := h.spine
    have hother : v.tract.base + p ≠ v.ring.base + e.gen % v.ring.n := by omega
    show m'.view _ (v.tract.base + p) = v.ring.mirror.view d (v.tract.base + p)
    rw [Mirror.view_of_pending_nil hpend, Dev.flushed_data, Dev.landed_data, Function.update_of_ne hother,
      Mirror.drained_data]
  obtain ⟨limit, hfence⟩ := hbeat.refence_run
  unfold Sat
  rw [hfence]
  exact ⟨rfl, _, hbeat.fence limit⟩

/-- One turn, however it ends. -/
theorem turn (h : Midway v d t) (x : Turn) :
    Sat (x.run (H := H)) v (fun _ v' => v'.live = v.live ∧ ∃ d' t', Midway v' d' t' ∧ t'.map = x.effect t.map)
      (fun _ v' => v'.live = v.live ∧ ∃ d' t', Midway v' d' t' ∧ t'.map = t.map) := by
  cases x with
  | flush =>
    refine sat_state (sat_bind (Vault.sat_onStore ((Hamt.flush_accounted h.accounted).mono ?_ ?_)) fun _ _ hq => sat_pure hq)
    · intro _ s' ⟨_, _, t', hg, hfind⟩
      exact ⟨rfl, d, t', h.gained hg, funext hfind⟩
    · intro _ s' ⟨_, t', hg, hfind⟩
      exact ⟨rfl, d, t', h.gained hg, funext hfind⟩
  | heartbeat now =>
    refine (h.heartbeat now).mono (fun _ v' hv => ?_) fun _ v' hv => ?_
    · obtain ⟨hlive, d', hmid⟩ := hv
      exact ⟨hlive, d', t, hmid, rfl⟩
    · rw [hv]
      exact ⟨rfl, d, t, h, rfl⟩
  | fence limit => exact ⟨rfl, d, t, h.fence limit, rfl⟩
  | put key value =>
    refine sat_state (Vault.sat_onStore ((Hamt.put_accounted h.accounted key value).mono ?_ ?_))
    · intro _ s' ⟨t', hs⟩
      refine ⟨rfl, d, t', h.gained hs.toGained, funext fun k => ?_⟩
      rw [Turn.effect, Function.update_apply]
      exact hs.find k
    · intro _ s' ⟨_, hsteps, hhamt⟩
      exact ⟨rfl, d, t, h.gained (h.accounted.gained hsteps hhamt), rfl⟩
  | delete key =>
    obtain ⟨s', d', t', hrun, hacc, htract, hadd, -, -, hfind, -⟩ :=
      Hamt.delete_accounted h.accounted key v.policy fun _ => rfl
    have hv : (Vault.onStore (Hamt.delete key v.policy)).run v = (.ok (t.find key 0).isSome, v.withStore s') := by
      rw [Vault.onStore, zoom_run, hrun]
    refine sat_state (sat_run hv (sat_pure ⟨rfl, d', t', ⟨hacc, ?_, ?_⟩, funext fun k => ?_⟩))
    · show (spots s'.hamt.delta.added).Nodup
      rw [hadd]
      exact h.once
    · show v.ring.base + v.ring.n ≤ s'.tract.base
      rw [htract]
      exact h.spine
    · rw [Turn.effect, Function.update_apply]
      exact hfind k

/-- Any turns, however each of them ends. -/
theorem turns (xs : List Turn) : ∀ {v : Vault H} {d : Dev H} {t : Tree H}, Midway v d t →
    (Turn.after xs v t.map).1.live = v.live ∧ ∃ d' t', Midway (Turn.after xs v t.map).1 d' t' ∧
      t'.map = (Turn.after xs v t.map).2 := by
  induction xs with
  | nil => exact fun {v d t} h => ⟨rfl, d, t, h, rfl⟩
  | cons x xs ih =>
    intro v d t h
    have hturn := h.turn x
    unfold Sat at hturn
    rw [Turn.after]
    rcases hrun : x.run.run v with ⟨_ | _, v₁⟩
    · rw [hrun] at hturn
      obtain ⟨hlive, d₁, t₁, h₁, hmap⟩ := hturn
      obtain ⟨hlive', hrest⟩ := ih h₁
      rw [hmap] at hlive' hrest
      exact ⟨hlive'.trans hlive, hrest⟩
    · rw [hrun] at hturn
      obtain ⟨hlive, d₁, t₁, h₁, hmap⟩ := hturn
      obtain ⟨hlive', hrest⟩ := ih h₁
      rw [hmap] at hlive' hrest
      exact ⟨hlive'.trans hlive, hrest⟩

end Midway

/-- A flush that goes through after any turns commits the map as the turns left it, and its delta takes
the live set to exactly what the committed index holds: what was written since and is still reachable
is added once, what was superseded since is removed. -/
theorem flush_resumes {v v' v'' : Vault H} {d : Dev H} {t : Tree H} {m : Map} (h : Midway v d t) {turns : List Turn}
    (hturns : Turn.after turns v t.map = (v', m)) {hash : H} {lba : Nat}
    (hflush : (Vault.onStore (Hamt.flush v'.live.liveness)).run v' = (.ok (hash, lba), v'')) :
    ∃ d' T, Rep (v''.store.view d') v''.tract.len [] [] (Hamt.fromRoot hash lba : Hamt H).root T ∧ T.Sep ∧ T.map = m ∧
      (∀ p, T.Claims p → ¬ v.live.Refers p → (spots v''.hamt.delta.added).count p = 1 ∧
        p ∉ spots v''.hamt.delta.removed ∧ ∀ e ∈ v''.hamt.delta.added, e.1 = p → sealedHp (v''.store.view d' p) = some e.2) ∧
      (∀ p, v.live.Refers p ∨ p ∈ spots v''.hamt.delta.added → ¬ T.Claims p → p ∈ spots v''.hamt.delta.removed) ∧
      v''.live = v.live ∧ (∀ p, (v''.live.apply v''.hamt.delta).Refers p ↔ T.Claims p) := by
  obtain ⟨hlive, d', t', h', hmap⟩ := h.turns turns
  simp only [hturns] at hlive h' hmap
  rw [Vault.onStore, zoom_run] at hflush
  rcases hrun : (Hamt.flush v'.live.liveness).run v'.store with ⟨_ | ⟨hash₁, lba₁⟩, s'⟩ <;> rw [hrun] at hflush
  · exact absurd (congrArg Prod.fst hflush) (by simp)
  simp only [Prod.mk.injEq, Except.ok.injEq] at hflush
  obtain ⟨⟨rfl, rfl⟩, rfl⟩ := hflush
  obtain ⟨hroot, -, T, hg, hfind⟩ := (Hamt.flush_accounted h'.accounted).of_ok hrun
  have hmid : Midway (v'.withStore s') d' T := h'.gained hg
  have hacc : Accounted Block.Erased v.live d' s' T := hlive ▸ hg.accounted
  have hrep := hacc.rep
  rw [hroot] at hrep
  have hclean : ∀ i, (Hamt.fromRoot hash₁ lba₁ : Hamt H).root ≠ some (.dirty i) := by
    intro i
    unfold Hamt.fromRoot
    split <;> simp
  refine ⟨d', T, ?_, hacc.sep, (funext hfind : T.map = t'.map).trans hmap, fun p hc hno => ?_, fun p hp hno => ?_, hlive,
    fun p => ?_⟩
  · exact hrep.congr le_rfl (fun _ _ => rfl) fun x hx => absurd hx (hrep.no_uses hclean x)
  · obtain ⟨hin, hkept⟩ := (hacc.claims p).mp hc
    have hadded := hin.resolve_left hno
    refine ⟨List.count_eq_one_of_mem hmid.once hadded, hkept, fun e he heq => ?_⟩
    subst heq
    exact (hacc.added e he).2.resolve_right fun hgone => hkept hgone.1
  · by_contra hkept
    exact hno ((hacc.claims p).mpr ⟨hp, hkept⟩)
  · obtain ⟨hashes, hrecord⟩ := hacc.recorded
    have hspec := LiveSet.apply_spec hashes (l := v.live) (δ := s'.hamt.delta)
      (fun e he => hrecord e (by simp [he])) (fun e he => hrecord e (by simp [he])) fun e he => hrecord e (by simp [he])
    show (v'.live.apply s'.hamt.delta).Refers p ↔ T.Claims p
    rw [hlive, hspec.2, hacc.claims]

/-- A blank generation of a spine of two slots before a tract of sixteen blocks. -/
def twoSlotHead : SpineEntry Digest where
  gen := 0
  prevHash := Crates.zeros
  ringLog2 := 1
  tractBlocks := 16
  hamtHash := Crates.zeros
  hamtLba := 0
  plow := 0
  reap := some 0
  live := 0
  eagleTime := 0

def twoSlot : Vault Digest where
  ring := ⟨⟨some ⟨18, Function.update (fun _ => .zero) 0 twoSlotHead.encode, none, [], []⟩, none, true, [], [], [], 0,
    none, []⟩, 1, 0, some (0, twoSlotHead)⟩
  tract := ⟨2, 16, 0, 0, none⟩
  hamt := ⟨none, [], ⟨[], []⟩, 0⟩
  live := ⟨[], []⟩
  root := none
  policy := .zeroIsErase
  pendingReap := none
  settling := none

theorem twoSlot_midway :
    Midway twoSlot ⟨18, Function.update (fun _ => .zero) 0 twoSlotHead.encode, none, [], []⟩ .empty where
  accounted :=
    { on := ⟨⟨rfl, rfl, by simp [twoSlot, Vault.store, Mirror.staged], by simp [twoSlot, Vault.store]⟩, le_rfl⟩
      cursors := ⟨by decide, by decide, by decide⟩
      rep := rfl
      sep := trivial
      claims := fun p => by simp [Tree.Claims, LiveSet.refers_iff, twoSlot, Vault.store, spots]
      added := by simp [twoSlot, Vault.store]
      removed := by simp [twoSlot, Vault.store]
      known := by simp [twoSlot]
      record := by simp [twoSlot, Vault.store] }
  once := by simp [Hamt.Once, twoSlot]
  spine := by decide

/-- Three puts, a flush the fence stops after its first node, a heartbeat, and a put under that node. -/
def twoSlotTurns : List Turn :=
  [.put 0 [1], .put (1 <<< 250) [2], .put (1 <<< 255) [4], .fence (some 4), .flush, .heartbeat 7, .put 0 [3]]

def twoSlotDirty : Vault Digest × Map := Turn.after twoSlotTurns twoSlot (Tree.empty : Tree Digest).map

def twoSlotFlushed : Except Error (Digest × Nat) × Vault Digest :=
  (Vault.onStore (Hamt.flush twoSlotDirty.1.live.liveness)).run twoSlotDirty.1

theorem flush_resumes_fenced : ∃ hash lba d' T, twoSlotFlushed.1 = .ok (hash, lba) ∧
    Rep (twoSlotFlushed.2.store.view d') twoSlotFlushed.2.tract.len [] [] (Hamt.fromRoot hash lba : Hamt Digest).root T ∧
    T.map 0 = some [3] ∧ spots twoSlotFlushed.2.hamt.delta.added = [0, 1, 2, 3, 4, 5, 6] ∧
    spots twoSlotFlushed.2.hamt.delta.removed = [0, 3] := by
  have hok : twoSlotFlushed.1.isOk = true := by decide +kernel
  have hadded : spots twoSlotFlushed.2.hamt.delta.added = [0, 1, 2, 3, 4, 5, 6] := by decide +kernel
  have hremoved : spots twoSlotFlushed.2.hamt.delta.removed = [0, 3] := by decide +kernel
  have hlast : twoSlotDirty.2 0 = some [3] := by decide +kernel
  rcases hroot : twoSlotFlushed.1 with _ | ⟨hash, lba⟩
  · rw [hroot] at hok
    cases hok
  have hflush : (Vault.onStore (Hamt.flush twoSlotDirty.1.live.liveness)).run twoSlotDirty.1 =
      (.ok (hash, lba), twoSlotFlushed.2) := by
    rw [← hroot]
    exact (Prod.mk.eta (p := twoSlotFlushed)).symm
  obtain ⟨d', T, hrep, -, hmap, -⟩ := flush_resumes twoSlot_midway (Prod.mk.eta (p := twoSlotDirty)).symm hflush
  exact ⟨hash, lba, d', T, rfl, hrep, (congrFun hmap 0).trans hlast, hadded, hremoved⟩

end Manifestus
