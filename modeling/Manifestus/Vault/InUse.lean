import Manifestus.Vault.Move

/-! A settled vault in use: the committed index stays on the devices as it is while the index in
memory changes. -/
set_option linter.unusedSectionVars false

namespace Manifestus
open Prog

variable {H : Type} [Crates H]

/-- `d` is the primary of the vault, `e` its committed generation with the index `T`; `C` is the index
in memory. A power loss since mark `k` of the session from `m₀` leaves a sound image with an allowed
map. -/
structure InUse (m₀ : Mirror H) (k : Nat) (allowed : Map → Prop) (r : Nat) (v : Vault H) (d : Dev H)
    (e : SpineEntry H) (T C : Tree H) : Prop where
  attached : Attached m₀ k (Recovers allowed r) v.ring.mirror d (2 ^ r + v.tract.len)
  ringLog2 : v.ring.ringLog2 = r
  ringBase : v.ring.base = 0
  head : v.ring.head = some (e.gen % 2 ^ r, e)
  base : v.tract.base = 2 ^ r
  root : v.root = none
  policy : v.policy = .unlinkOnly
  settling : v.settling = none
  sound : Sound r d.image e T
  len : e.tractBlocks ≤ v.tract.len
  staging : Staging r v.tract.len T v.ring.mirror.staged
  indexed : Indexed v.live d v.store C
  live : ∀ p, v.live.Refers p ↔ T.Claims p
  clean : v.hamt.hasUncommitted = false → v.hamt.root = e.rootChild
  pending : ∀ x ∈ v.pendingReap, v.tract.reap ≤ x ∧ x ≤ v.tract.plow
  allows : allowed T.map

/-- The scene of a vault in use. -/
def Scene.Used (m₀ : Mirror H) (k : Nat) (allowed : Map → Prop) (r : Nat) (x : Scene H) : Prop :=
  InUse m₀ k allowed r x.vault x.primary x.entry x.committed x.current

/-- Moves in order, the vault in use after each. -/
abbrev Moves (m₀ : Mirror H) (k : Nat) (allowed : Map → Prop) (G : Vault H → Step → Prop) (r : Nat) :
    Scene H → Scene H → Prop :=
  Relation.ReflTransGen fun x y => Move G r x y ∧ y.Used m₀ k allowed r

/-- What every move keeps, moves in order keep. -/
theorem Moves.keep {m₀ : Mirror H} {k r : Nat} {allowed : Map → Prop} {G : Vault H → Step → Prop} {x y : Scene H}
    {P : Scene H → Prop} (hP : ∀ {x y : Scene H}, x.Used m₀ k allowed r → Move G r x y → y.Used m₀ k allowed r → P x → P y)
    (h : Moves m₀ k allowed G r x y) (hx : x.Used m₀ k allowed r) (hPx : P x) : P y ∧ y.Used m₀ k allowed r := by
  induction h with
  | refl => exact ⟨hPx, hx⟩
  | tail _ hmove ih => exact ⟨hP ih.2 hmove.1 hmove.2 ih.1, hmove.2⟩

variable {m₀ : Mirror H} {k r : Nat} {allowed : Map → Prop} {v v' : Vault H} {d : Dev H} {e : SpineEntry H}
  {T C C' : Tree H} {s s' : Store H} {G : Vault H → Step → Prop}

namespace Vault

@[simp] theorem store_withStore (s : Store H) (v : Vault H) : (v.withStore s).store = s := rfl

@[simp] theorem withStore_store (v : Vault H) : v.withStore v.store = v := rfl

theorem sat_onStore {α : Type} {x : Prog Error (Store H) α} {Q : α → Vault H → Prop} {E : Error → Vault H → Prop}
    (h : Sat x v.store (fun a s' => Q a (v.withStore s')) fun err s' => E err (v.withStore s')) :
    Sat (onStore x) v Q E := by
  unfold Sat at h ⊢
  unfold onStore
  rw [zoom_run]
  rcases hr : x.run v.store with ⟨_ | a, s'⟩ <;> rw [hr] at h <;> exact h

end Vault

/-- The index depends on nothing but the blocks it reads. -/
theorem Indexed.relocate {live : LiveSet H} {d' : Dev H} (h : Indexed live d s C) (hon : s'.On d')
    (hcur : s'.tract.Cursors) (hlen : s.tract.len ≤ s'.tract.len) (hhamt : s'.hamt = s.hamt)
    (hview : ∀ p < s.tract.len, s'.view d' p = s.view d p)
    (hbehind : ∀ x ∈ s.hamt.delta.added, s.tract.Behind x.1 → s'.tract.Behind x.1)
    (hlive : ∀ p, live.Refers p → p < s.tract.len) : Indexed live d' s' C := by
  have hpos := h.cursors.pos
  have hadded : ∀ x ∈ s.hamt.delta.added, x.1 < s.tract.len := by
    intro x hx
    obtain ⟨q, -, -, hq⟩ := (h.added x hx).1
    rw [hq]
    exact Nat.mod_lt _ hpos
  have hspot : ∀ p, p ∈ spots s.hamt.delta.added → p < s.tract.len := by
    intro p hp
    obtain ⟨x, hx, rfl⟩ := mem_spots.mp hp
    exact hadded x hx
  have hin : ∀ p, live.Refers p ∨ p ∈ spots s.hamt.delta.added → p < s.tract.len := fun p hp => hp.elim (hlive p) (hspot p)
  refine
    { on := hon
      cursors := hcur
      rep := ?_
      sep := h.sep
      claims := by rw [hhamt]; exact h.claims
      added := ?_
      removed := ?_
      known := ?_ }
  · rw [hhamt, Store.Holds]
    refine h.rep.congr hlen (fun p hp => hview p (h.rep.claims_lt hp)) fun x _ => by rw [hhamt]
  · rw [hhamt]
    intro x hx
    obtain ⟨hb, hhash⟩ := h.added x hx
    rw [hview _ (hadded x hx)]
    exact ⟨hbehind x hx hb, hhash⟩
  · rw [hhamt]
    intro x hx
    obtain ⟨hin', hhash⟩ := h.removed x hx
    rw [hview _ (hin _ hin')]
    exact ⟨hin', hhash⟩
  · intro x hx
    rw [hview _ (hlive _ (LiveSet.refers_iff.mpr (.inl (mem_spots.mpr ⟨x, hx, rfl⟩))))]
    exact h.known x hx

namespace Ring

/-- The budgets of the newest generations as the ring shows them. -/
def shownFences (q : Ring H) (d : Dev H) (k : Nat) : List Nat :=
  match q.headEntry with
  | none => []
  | some head => ((List.range (min k (head.gen + 1))).map (head.gen - ·)).map
      (budgetAt (fun slot => q.mirror.view d (q.base + slot)) q.ringLog2)

/-- The newest generations read back from the ring; the ring stays as it is. -/
theorem recentFences_run {q : Ring H} {d : Dev H} (h : q.mirror.Ready d) (hfit : q.base + q.n ≤ d.count) (k : Nat) :
    (recentFences k).run q = (.ok (q.shownFences d k), q) := by
  have hentry : ∀ g, ∃ x, (recentEntries.entryOf q.n g).run q = (.ok x, q) ∧
      (x.map SpineEntry.fenceBudget).getD 0 = budgetAt (fun slot => q.mirror.view d (q.base + slot)) q.ringLog2 g := by
    intro g
    have hclass : (genAt (g % q.n)).run q = (.ok (classify (q.mirror.view d (q.base + g % 2 ^ q.ringLog2))
        (g % 2 ^ q.ringLog2) (some q.ringLog2)), q) :=
      shows_of_ready h hfit (g % q.n) (Nat.mod_lt _ (Nat.two_pow_pos _))
    simp only [recentEntries.entryOf, bind_run, hclass, budgetAt]
    rcases classify (q.mirror.view d (q.base + g % 2 ^ q.ringLog2)) (g % 2 ^ q.ringLog2) (some q.ringLog2) with x | _ | _
    · refine ⟨_, rfl, ?_⟩
      simp only
      split <;> rfl
    · exact ⟨none, rfl, rfl⟩
    · exact ⟨none, rfl, rfl⟩
  have hcollect : ∀ gens : List Nat, ∃ es, (collect (recentEntries.entryOf q.n) gens).run q = (.ok es, q) ∧
      (es.map fun x => (x.map SpineEntry.fenceBudget).getD 0) =
        gens.map (budgetAt (fun slot => q.mirror.view d (q.base + slot)) q.ringLog2) := by
    intro gens
    induction gens with
    | nil => exact ⟨[], rfl, rfl⟩
    | cons g gens ih =>
      obtain ⟨x, hx, hbudget⟩ := hentry g
      obtain ⟨es, hes, hbudgets⟩ := ih
      exact ⟨x :: es, by simp [collect, hx, hes], by rw [List.map_cons, List.map_cons, hbudget, hbudgets]⟩
  simp only [recentFences, recentEntries, bind_run, state_run]
  unfold shownFences
  rcases q.headEntry with _ | head
  · rfl
  · obtain ⟨es, hes, hbudgets⟩ := hcollect ((List.range (min k (head.gen + 1))).map (head.gen - ·))
    simp only [hes, pure_run, hbudgets]

end Ring

namespace InUse

theorem live_lt (h : InUse m₀ k allowed r v d e T C) {p : Nat} (hp : v.live.Refers p) : p < v.tract.len :=
  (h.sound.claims_lt ((h.live p).mp hp)).trans_le h.len

theorem headEntry (h : InUse m₀ k allowed r v d e T C) : v.ring.headEntry = some e := by
  rw [Ring.headEntry, h.head]
  rfl

theorem headOr_run (h : InUse m₀ k allowed r v d e T C) (reason : String) :
    (Vault.headOr reason).run v = (.ok e, v) := by
  simp [Vault.headOr, h.headEntry]

/-- The tract as the devices show it. -/
theorem view_tract (h : InUse m₀ k allowed r v d e T C) (p : Nat) :
    v.store.view d p = v.ring.mirror.view d (2 ^ r + p) := by
  rw [Store.view, show v.store.tract.base = 2 ^ r from h.base]
  rfl

/-- What is committed is read from the devices. -/
theorem view_committed (h : InUse m₀ k allowed r v d e T C) {p : Nat} (hp : T.Claims p) :
    v.store.view d p = d.data (2 ^ r + p) := by
  rw [h.view_tract]
  refine Mirror.view_of_not_staged (Mirror.stagedAt_eq_none.mpr fun x hx hxp => ?_)
  obtain ⟨q, hq, -, hnot, -⟩ := h.staging x hx
  obtain rfl : q = p := by omega
  exact hnot hp

/-- The committed index is still there. -/
theorem holds_committed (h : InUse m₀ k allowed r v d e T C) (arena : List (Node H)) :
    Rep (v.store.view d) v.tract.len arena [] e.rootChild T :=
  h.sound.rep.congr h.len (fun _ hp => h.view_committed hp) fun x hx =>
    absurd hx (h.sound.rep.no_uses e.rootChild_ne_dirty x)

/-- Without uncommitted work the index in memory is the committed one. -/
theorem eq_of_clean (h : InUse m₀ k allowed r v d e T C) (hc : v.hamt.hasUncommitted = false) : C = T := by
  have hrep := h.indexed.rep
  rw [show v.store.hamt.root = e.rootChild from h.clean hc] at hrep
  exact (h.holds_committed v.hamt.arena).unique hrep

/-- Reads, appends and edits of the index in memory. -/
theorem edit (h : InUse m₀ k allowed r v d e T C) (hs : Steps v.live d v.store s')
    (hfate : v.hamt.Fate s'.hamt) (hidx : Indexed v.live d s' C') :
    InUse m₀ k allowed r (v.withStore s') d e T C' := by
  have hlen : s'.tract.len = v.tract.len := hs.len
  refine
    { attached := ?_
      ringLog2 := h.ringLog2
      ringBase := h.ringBase
      head := h.head
      base := hs.base.trans h.base
      root := h.root
      policy := h.policy
      settling := h.settling
      sound := h.sound
      len := by rw [show (v.withStore s').tract.len = s'.tract.len from rfl, hlen]; exact h.len
      staging := ?_
      indexed := hidx
      live := h.live
      clean := ?_
      pending := ?_
      allows := h.allows }
  · rw [show (v.withStore s').tract.len = s'.tract.len from rfl, hlen]
    exact h.attached.untouched hs.untouched hs.on.ready
  · intro x hx
    rcases hs.staged x hx with hx | ⟨q, -, -, hq, hnot, hroot⟩
    · obtain ⟨p, hp, hlt, hrest⟩ := h.staging x hx
      exact ⟨p, hp, hlt.trans_eq hlen.symm, hrest⟩
    · refine ⟨q % v.tract.len, hq.trans (by rw [show v.store.tract.base = 2 ^ r from h.base]; rfl), ?_, ?_, hroot⟩
      · rw [show (v.withStore s').tract.len = s'.tract.len from rfl, hlen]
        exact Nat.mod_lt _ h.indexed.cursors.pos
      · rw [← h.live]
        exact hnot
  · intro hc
    rcases hfate with hu | ⟨hroot, hdelta⟩
    · rw [show (v.withStore s').hamt = s'.hamt from rfl, hu] at hc
      cases hc
    · have hsame : v.hamt.hasUncommitted = false := by
        simpa [Hamt.hasUncommitted, Hamt.isDirty, Vault.withStore, hroot, hdelta] using hc
      exact hroot.trans (h.clean hsame)
  · intro x hx
    obtain ⟨h₁, h₂⟩ := h.pending x hx
    have hreap : s'.tract.reap = v.tract.reap := hs.reap
    have honward : v.tract.plow ≤ s'.tract.plow := hs.onward
    exact ⟨hreap.le.trans h₁, h₂.trans honward⟩

/-- Reads. -/
theorem reads (h : InUse m₀ k allowed r v d e T C) (hr : v.store.Reads d s') :
    InUse m₀ k allowed r (v.withStore s') d e T C := by
  have hs : Steps v.live d v.store s' := hr.steps h.indexed.on h.indexed.cursors
  refine h.edit hs ?_ (h.indexed.steps hs (by rw [hr.hamt]) (by rw [hr.hamt]) (by rw [hr.hamt]))
  rw [hr.hamt]
  exact .refl _

theorem put_sat (h : InUse m₀ k allowed r v d e T C) (key : Key) (value : Bytes) :
    Sat (Vault.onStore (Hamt.put v.live.liveness key value)) v
      (fun _ v' => ∃ C', InUse m₀ k allowed r v' d e T C' ∧ C'.map = Function.update C.map key (some value) ∧
        Moves m₀ k allowed G r ⟨v, d, e, T, C⟩ ⟨v', d, e, T, C'⟩)
      (fun err v' => err.Excused ∧ InUse m₀ k allowed r v' d e T C ∧ Moves m₀ k allowed G r ⟨v, d, e, T, C⟩ ⟨v', d, e, T, C⟩ ∧
        v'.hamt = v.hamt) := by
  refine Vault.sat_onStore ((Hamt.put_sat h.indexed key value).mono ?_ ?_)
  · rintro _ s' ⟨hs, hfate, C', hidx, hin, hfind⟩
    refine ⟨C', h.edit hs hfate hidx, ?_, .single ⟨.edit hs hin, h.edit hs hfate hidx⟩⟩
    funext x
    rw [Function.update_apply]
    exact hfind x
  · rintro err s' ⟨hexc, hs, hhamt⟩
    have h' := h.edit hs (hhamt ▸ .refl _) (h.indexed.steps hs (by rw [hhamt]) (by rw [hhamt]) (by rw [hhamt]))
    exact ⟨hexc, h', .single ⟨.edit hs (.refl _ _), h'⟩, hhamt⟩

theorem delete_sat (h : InUse m₀ k allowed r v d e T C) (key : Key) :
    Sat (Vault.onStore (Hamt.delete key v.policy)) v
      (fun existed v' => existed = (C.map key).isSome ∧
        ∃ C', InUse m₀ k allowed r v' d e T C' ∧ C'.map = Function.update C.map key none ∧
          Moves m₀ k allowed G r ⟨v, d, e, T, C⟩ ⟨v', d, e, T, C'⟩)
      (fun _ _ => False) := by
  rw [h.policy]
  obtain ⟨s', hrun, hs, hfate, C', hidx, hin, hfind⟩ := Hamt.delete_run h.indexed key
  refine Vault.sat_onStore ?_
  unfold Sat
  rw [hrun]
  refine ⟨rfl, C', h.edit hs hfate hidx, ?_, .single ⟨.edit hs hin, h.edit hs hfate hidx⟩⟩
  funext x
  rw [Function.update_apply]
  exact hfind x

theorem get_sat (h : InUse m₀ k allowed r v d e T C) (key : Key) :
    ∃ v', (Vault.get key).run v = (.ok (C.map key), v') ∧ InUse m₀ k allowed r v' d e T C ∧
      Moves m₀ k allowed G r ⟨v, d, e, T, C⟩ ⟨v', d, e, T, C⟩ := by
  obtain ⟨s', hrun, hr⟩ := Hamt.lookup_run h.indexed.on h.indexed.rep key
  refine ⟨v.withStore s', ?_, h.reads hr, .single ⟨.edit (hr.steps h.indexed.on h.indexed.cursors) (.refl _ _), h.reads hr⟩⟩
  rw [Vault.get, Vault.onStore, zoom_run, hrun]
  rfl

theorem holdsCommitted_sat (h : InUse m₀ k allowed r v d e T C) (key : Key) (value : Bytes) :
    Sat (Vault.holdsCommitted key value) v
      (fun held v' => (held = true → C.map key = some value) ∧ InUse m₀ k allowed r v' d e T C ∧
        Moves m₀ k allowed G r ⟨v, d, e, T, C⟩ ⟨v', d, e, T, C⟩)
      (fun _ _ => False) := by
  obtain ⟨s', hrun, hr⟩ := Hamt.findLeaf_run h.indexed.on h.indexed.rep key
  have h₁ := h.reads hr
  have hmove : Moves m₀ k allowed G r ⟨v, d, e, T, C⟩ ⟨v.withStore s', d, e, T, C⟩ :=
    .single ⟨.edit (hr.steps h.indexed.on h.indexed.cursors) (.refl _ _), h₁⟩
  have hfind : (Vault.onStore (Hamt.findLeaf key)).run v =
      (.ok ((C.locate key 0).map fun x => (x.2.1, x.1)), v.withStore s') := by
    rw [Vault.onStore, zoom_run, hrun]
  unfold Vault.holdsCommitted
  refine sat_run hfind ?_
  rcases hl : C.locate key 0 with _ | x
  · exact sat_pure ⟨(fun hf => by cases hf), h₁, hmove⟩
  · simp only [Option.map_some]
    refine sat_state ?_
    split
    · exact sat_pure ⟨(fun hf => by cases hf), h₁, hmove⟩
    · obtain ⟨v₂, hget, h₂, hmove₂⟩ := h₁.get_sat (G := G) key
      have htry : (attempt (Vault.get key)).run (v.withStore s') = (.ok (.ok (C.map key)), v₂) := by
        rw [attempt_run, hget]
      refine sat_run htry (sat_pure ⟨fun ht => ?_, h₂, hmove.trans hmove₂⟩)
      simpa using ht

/-- The fence alone. -/
theorem fence (h : InUse m₀ k allowed r v d e T C) (limit : Option Nat) :
    InUse m₀ k allowed r { v with tract := { v.tract with fenceLimit := limit } } d e T C where
  attached := h.attached
  ringLog2 := h.ringLog2
  ringBase := h.ringBase
  head := h.head
  base := h.base
  root := h.root
  policy := h.policy
  settling := h.settling
  sound := h.sound
  len := h.len
  staging := h.staging
  indexed := h.indexed.relocate ⟨h.indexed.on.ready, h.indexed.on.fits⟩ ⟨h.indexed.cursors.pos,
    h.indexed.cursors.order, h.indexed.cursors.lap⟩ le_rfl rfl (fun _ _ => rfl) (fun _ _ hb => hb) fun _ hp => h.live_lt hp
  live := h.live
  clean := h.clean
  pending := h.pending
  allows := h.allows

/-- The fence of the newest generations, as it is read back from the ring. -/
theorem refence_run (h : InUse m₀ k allowed r v d e T C) :
    Vault.refence.run v = (.ok (), { v with tract := { v.tract with fenceLimit := fenceOf d.data r e.gen } }) := by
  have hcount : 2 ^ r ≤ d.count := (Nat.le_add_right _ _).trans h.attached.room_primary
  have hn : v.ring.n = 2 ^ r := by rw [Ring.n, h.ringLog2]
  have hrun := Ring.recentFences_run h.attached.ready (show v.ring.base + v.ring.n ≤ d.count by
    rw [h.ringBase, hn]; omega) fenceK
  -- nothing is staged over the ring
  have hview : ∀ l < 2 ^ r, v.ring.mirror.view d l = d.data l := by
    intro l hl
    refine Mirror.view_of_not_staged (Mirror.stagedAt_eq_none.mpr fun x hx hxl => ?_)
    obtain ⟨q, hq, -⟩ := h.staging x hx
    omega
  have hbudget : budgetAt (fun slot => v.ring.mirror.view d (v.ring.base + slot)) v.ring.ringLog2 = budgetAt d.data r := by
    funext g
    simp only [budgetAt, h.ringBase, h.ringLog2, Nat.zero_add, hview _ (Nat.mod_lt g (Nat.two_pow_pos r))]
  simp only [Ring.shownFences, h.headEntry, hbudget] at hrun
  simp only [Vault.refence, Vault.onRing, bind_run, zoom_run, hrun, Vault.setFence, update_run]
  rfl

theorem refence_sat (h : InUse m₀ k allowed r v d e T C) :
    Sat Vault.refence v
      (fun _ v' => InUse m₀ k allowed r v' d e T C ∧ Moves m₀ k allowed G r ⟨v, d, e, T, C⟩ ⟨v', d, e, T, C⟩ ∧
        v'.hamt = v.hamt) (fun _ _ => False) := by
  unfold Sat
  rw [h.refence_run]
  exact ⟨h.fence _, .single ⟨.refence, h.fence _⟩, rfl⟩

end InUse

end Manifestus
