import Manifestus.Vault.Derive
import Manifestus.Vault.Steps

/-! Opening a vault on a sound image: the head is found, the index is walked, and the vault is in use
with the committed map. -/
set_option linter.unusedSectionVars false

namespace Manifestus
open Prog

variable {H : Type} [Crates H] {m m₀ : Mirror H} {d : Dev H} {k n r : Nat} {allowed : Map → Prop} {v : Vault H}
  {e : SpineEntry H} {T : Tree H}

theorem readRoot_go_run (hs : d.script = []) (hroot : d.image.Rootless) (best : Option (RootEntry H)) :
    ∀ slots : List Nat, (∀ l ∈ slots, l < d.count) → (readRoot.go best slots).run d = (.ok best, d) := by
  intro slots
  induction slots with
  | nil => intro _; rfl
  | cons l slots ih =>
    intro hl
    have hread := Dev.read_run hs (hl l (by simp))
    have hdecode : ∀ x, RootEntry.decode (d.data l) ≠ .ok x := by
      intro x hx
      have := hroot l (hl l (by simp))
      rcases hb : d.data l with _ | ⟨doc, extra⟩ | id <;> rw [hb] at hx
      · cases hx
      · cases doc <;> try cases hx
        exact this _ _ hb
      · cases hx
    simp only [readRoot.go, bind_run, hread]
    rcases hdec : RootEntry.decode (d.data l) with err | x
    · exact ih fun l' hl' => hl l' (by simp [hl'])
    · exact absurd hdec (hdecode x)

/-- Without a root entry the vault is one of the fixed layout. -/
theorem rootOf_run (h : m.Ready d) (hcache : m.cache = []) (hroot : d.image.Rootless) :
    Vault.rootOf.run m = (.ok none, m) := by
  have hsame : ({ m with cache := [] } : Mirror H) = m := by rw [← hcache]
  have hread : readRoot.run d = (.ok none, d) := by
    unfold readRoot
    rw [bind_run, state_run]
    refine readRoot_go_run h.script hroot none _ fun l hl => ?_
    have := List.mem_range.mp hl
    omega
  simp only [Vault.rootOf, Mirror.devices, bind_run, update_run, state_run, pure_run, hsame]
  have hfirst := Mirror.onFirst_run h.primary hread
  rcases ha : m.a with _ | a
  · rcases hb : m.b with _ | b
    · have hprim := h.primary
      simp [Mirror.primary, ha, hb] at hprim
    · exact hfirst
  · exact hfirst

namespace Vault

/-- The vault a resume starts from, its walk at `k`. -/
def unsettled (m : Mirror H) (r : Nat) (e : SpineEntry H) (w : Option (Walk H)) : Vault H where
  ring := ⟨m, r, 0, some (e.gen % 2 ^ r, e)⟩
  tract := ⟨2 ^ r, e.tractBlocks, e.plow, 0, none⟩
  hamt := Hamt.fromRoot e.hamtHash e.hamtLba
  live := LiveSet.empty
  root := none
  policy := .unlinkOnly
  pendingReap := none
  settling := w

/-- The walk is done: what it found is live, and the reap follows from it. -/
def walked (m : Mirror H) (r : Nat) (e : SpineEntry H) (w : Walk H) : Vault H :=
  let live := LiveSet.ofWalk w.liveBlocks w.referenced
  { unsettled m r e none with
    tract := ⟨2 ^ r, e.tractBlocks, e.plow, deriveReap e.plow e.tractBlocks live, none⟩
    live := live }

end Vault

/-- The open's end: the fence, and a rescue of a wedged head. -/
def Vault.wake : Prog Error (Vault H) Unit := do
  refence
  let v ← state
  if v.wedged then unwedge v.rescueTime

/-- A walked vault is in use. -/
theorem walked_inUse {w : Walk H} (hatt : Attached m₀ k (Recovers allowed r) m d (2 ^ r + e.tractBlocks))
    (hpend : m.pending = []) (hsound : Sound r d.image e T) (hallows : allowed T.map)
    (hwalk : Frontier (fun p => d.data (2 ^ r + p)) e.tractBlocks T [] w) :
    InUse m₀ k allowed r (Vault.walked m r e w) d e T T := by
  obtain ⟨hknown, hlive⟩ := hwalk.live
  have hpos : 0 < e.tractBlocks := Nat.pos_of_ne_zero hsound.spine.fits.sane.1
  have hview : ∀ t hamt, t.base = 2 ^ r → (⟨m, t, hamt⟩ : Store H).view d = fun p => d.data (2 ^ r + p) := by
    intro t hamt ht
    funext p
    rw [Store.view, Mirror.view_of_pending_nil hpend, ht]
  obtain ⟨hle, hlap⟩ := deriveReap_cursors (LiveSet.ofWalk w.liveBlocks w.referenced)
  refine
    { attached := hatt
      ringLog2 := rfl
      ringBase := rfl
      head := rfl
      base := rfl
      root := rfl
      policy := rfl
      settling := rfl
      sound := hsound
      len := le_rfl
      staging := by
        intro x hx
        simp [Vault.walked, Vault.unsettled, Mirror.staged, hpend] at hx
      indexed := ?_
      live := hlive
      clean := fun _ => rfl
      pending := by simp [Vault.walked, Vault.unsettled]
      allows := hallows }
  exact
    { on := ⟨hatt.ready, hatt.room_primary⟩
      cursors := ⟨hpos, hle, hlap⟩
      rep := hsound.rep.congr le_rfl (fun p _ => congrFun (hview _ _ rfl) p) fun _ _ => rfl
      sep := hsound.sep
      claims := fun p => by
        simp only [Vault.walked, Vault.unsettled, Vault.store, Hamt.fromRoot, spots_nil, List.not_mem_nil, or_false,
          not_false_iff, and_true]
        exact (hlive p).symm
      added := by simp [Vault.walked, Vault.unsettled, Vault.store, Hamt.fromRoot]
      removed := by simp [Vault.walked, Vault.unsettled, Vault.store, Hamt.fromRoot]
      known := fun x hx => (congrArg sealedHp (congrFun (hview _ _ rfl) x.1)).trans (hknown x hx) }

section Settle

variable {s : Store H} {w : Walk H}

/-- The open's tail when nothing is to be pruned. -/
theorem finishOpen_run (hstale : w.stale = []) (hdangling : w.dangling = []) :
    (Vault.finishOpen w).run (Vault.unsettled m r e none) =
      Vault.wake.run (Vault.walked m r e w) := by
  unfold Vault.finishOpen
  simp only [hstale, hdangling, each, bind_run, pure_run, update_run, state_run, List.isEmpty_nil, and_self, if_true,
    true_and]
  rfl

theorem settleSteps_succ (fuel : Nat) : (Vault.settleSteps (fuel + 1) : Prog Error (Vault H) Unit) =
    Vault.settleStep >>= fun done => if done then pure () else Vault.settleSteps fuel := by
  rfl

private theorem then_true_run (x : Prog Error (Vault H) Unit) (y : Prog Error (Vault H) Unit) (v : Vault H) :
    ((x >>= fun _ => pure true) >>= fun done => if done then pure () else y).run v = x.run v := by
  simp only [bind_run]
  rcases x.run v with ⟨_ | _, v'⟩ <;> rfl

/-- A walk that ends, in steps: the vault is settled by the tail of the open. -/
theorem settleSteps_run (hready : m.Ready d) (hpend : m.pending = []) (hfits : 2 ^ r + e.tractBlocks ≤ d.count) :
    ∀ (fuel : Nat) {ps : List (WalkItem H × Tree H)} {w : Walk H},
      Frontier (fun p => d.data (2 ^ r + p)) e.tractBlocks T ps w → w.todo = ps.map Prod.fst →
      e.tractBlocks < fuel + w.visited.marks.length →
      ∃ w', Frontier (fun p => d.data (2 ^ r + p)) e.tractBlocks T [] w' ∧
        (Vault.settleSteps fuel).run (Vault.unsettled m r e (some w)) =
          (Vault.finishOpen w').run (Vault.unsettled m r e none) := by
  have hview : (Vault.unsettled m r e none).store.view d = fun p => d.data (2 ^ r + p) := by
    funext p
    rw [Store.view, show (Vault.unsettled m r e none).store.mirror = m from rfl, Mirror.view_of_pending_nil hpend]
    rfl
  have hclear : ∀ {u : Walk H}, Frontier (fun p => d.data (2 ^ r + p)) e.tractBlocks T [] u →
      ({ u with dangling := [] } : Walk H) = u := by
    intro u hu
    rw [← hu.dangling]
  intro fuel
  induction fuel with
  | zero =>
    intro ps w hw _ hlt
    have := hw.length_le
    omega
  | succ fuel ih =>
    intro ps w hw htodo hlt
    rw [settleSteps_succ]
    rcases ps with _ | ⟨x, ps⟩
    · refine ⟨w, hw, ?_⟩
      have hstep : Vault.settleStep.run (Vault.unsettled m r e (some w)) =
          (Vault.finishOpen w >>= fun _ => pure true).run (Vault.unsettled m r e none) := by
        have hempty : w.todo.isEmpty = true := by rw [htodo]; rfl
        simp only [Vault.settleStep, bind_run, state_run, Vault.unsettled, update_run, hempty, if_true, hclear hw]
      rw [bind_run, hstep, ← bind_run]
      exact then_true_run _ _ _
    · have hne : w.todo.isEmpty = false := by rw [htodo]; rfl
      obtain ⟨ps', w', hrun, hw', htodo', hmarks⟩ := Walker.walkTreeStep_run (s := (Vault.unsettled m r e none).store)
        (d := d) (t := T) ⟨hready, hfits⟩ (by rw [hview]; exact hw) htodo
      rw [hview] at hw'
      have hwalk : (Vault.stepWalk w).run (Vault.unsettled m r e none) = (.ok w', Vault.unsettled m r e none) := by
        simp only [Vault.stepWalk, hrun, Vault.withStore_store]
      have hstep : Vault.settleStep.run (Vault.unsettled m r e (some w)) =
          (if w'.todo.isEmpty then (do
              Vault.finishOpen { w' with dangling := [] }
              pure true)
            else (do
              update fun v => { v with settling := some w' }
              pure false)).run (Vault.unsettled m r e none) := by
        have hnone : ({ Vault.unsettled m r e (some w) with settling := none } : Vault H) =
            Vault.unsettled m r e none := rfl
        simp only [Vault.settleStep, bind_run, state_run, show (Vault.unsettled m r e (some w)).settling = some w from rfl,
          update_run, hnone, hne, Bool.false_eq_true, if_false, hwalk]
      rcases ps' with _ | ⟨y, ps'⟩
      · refine ⟨w', hw', ?_⟩
        have hempty : w'.todo.isEmpty = true := by rw [htodo']; rfl
        rw [bind_run, hstep, hempty, if_pos rfl, hclear hw', ← bind_run]
        exact then_true_run _ _ _
      · have hne' : w'.todo.isEmpty = false := by rw [htodo']; rfl
        obtain ⟨w'', hw'', hrest⟩ := ih hw' htodo' (by have := hmarks (by simp); omega)
        refine ⟨w'', hw'', ?_⟩
        rw [bind_run, hstep, hne', if_neg (by simp)]
        exact hrest

end Settle

/-- What a mirror newly made from devices has beside them. -/
theorem Mirror.fromParts_fields (h : Mirror.fromParts m.a m.b = .ok m) :
    m.pending = [] ∧ m.cache = [] ∧ m.marks = [] ∧ m.dropped = none ∧ m.events = [] := by
  unfold Mirror.fromParts at h
  split at h
  · cases h
  · have hm := (Except.ok.inj h).symm
    rw [hm]
    exact ⟨rfl, rfl, rfl, rfl, rfl⟩

theorem Session.mono {m₀ : Mirror H} {n' : Nat} (h : Session m₀ m d n) (hn : n' ≤ n) : Session m₀ m d n' :=
  { h with room := fun x hx => hn.trans (h.room x hx) }

/-- The block count of a session's mirror fits its primary. -/
theorem Session.room_primary {m₀ : Mirror H} (h : Session m₀ m d n) : n ≤ d.count := by
  have hp := h.ready.primary
  rcases ha : m.a with _ | a
  · rw [Mirror.primary, ha, Option.none_or] at hp
    exact h.room d (.inr hp)
  · rw [Mirror.primary, ha, Option.some_or] at hp
    exact h.room d (.inl (ha.trans hp))

/-- Opening a vault on devices that hold one: the newest generation is found and its index walked. -/
theorem open_walked (allowed : Map → Prop) (hparts : Mirror.fromParts m.a m.b = .ok m) (hsess : Session m m d m.blockCount)
    (hsound : Sound r d.image e T) (hneed : 2 ^ r + e.tractBlocks ≤ m.blockCount) (hallows : allowed T.map)
    (ringLog2 : Nat) (now : Int) :
    ∃ w, InUse m 0 allowed r (Vault.walked m r e w) d e T T ∧
      Frontier (fun p => d.data (2 ^ r + p)) e.tractBlocks T [] w ∧
      ∀ {P : Vault H → Prop}, Sat Vault.wake (Vault.walked m r e w) (fun _ v => P v) (fun _ _ => False) →
        ∃ v, (Vault.open ringLog2 now .unlinkOnly).run m = (.ok v, v.ring.mirror) ∧ P v := by
  obtain ⟨hpend, hcache, hmarks, -⟩ := Mirror.fromParts_fields hparts
  have hready := hsess.ready
  have hroom := hsess.room_primary
  have hview : m.view d = d.data := Mirror.view_of_pending_nil hpend
  have hslots : ∀ s < 2 ^ r, m.view d s = d.image.data s := fun s _ => congrFun hview s
  have hroot := rootOf_run hready hcache hsound.rootless
  have hboot := hsound.spine.bootstrapN_run hready (by omega) (by omega) hslots
  have hopen := hsound.spine.openAt_run hready (by omega) hslots
  -- the walk
  have hrep : (Vault.unsettled m r e none).store.Holds d [] e.rootChild T := by
    show Rep ((Vault.unsettled m r e none).store.view d) e.tractBlocks [] [] e.rootChild T
    refine hsound.rep.congr le_rfl (fun p _ => ?_) fun _ _ => rfl
    rw [Store.view, show (Vault.unsettled m r e none).store.mirror = m from rfl, hview]
    rfl
  obtain ⟨ps, hps, hfrontier⟩ := Walker.frontier_start hrep hsound.sep e.rootChild_ne_dirty
  have hstart : Frontier (fun p => d.data (2 ^ r + p)) e.tractBlocks T ps
      (Walk.start e.tractBlocks (Walker.walkStart (Hamt.fromRoot e.hamtHash e.hamtLba))) := by
    have hsame : (Vault.unsettled m r e none).store.view d = fun p => d.data (2 ^ r + p) := by
      funext p
      rw [Store.view, show (Vault.unsettled m r e none).store.mirror = m from rfl, hview]
      rfl
    rw [hsame] at hfrontier
    exact hfrontier
  obtain ⟨w, hw, hsettle⟩ := settleSteps_run hready hpend (by omega) (e.tractBlocks + 2) hstart hps (by omega)
  rw [finishOpen_run hw.stale hw.dangling] at hsettle
  have hatt : Attached m 0 (Recovers allowed r) m d (2 ^ r + e.tractBlocks) := by
    have := (hsess.mono hneed).restart (Q := Recovers allowed r) (fun _ _ _ hc hq => hq.mono hc)
      ⟨e, T, hsound, le_rfl, hallows⟩
    rwa [hmarks] at this
  refine ⟨w, walked_inUse hatt hpend hsound hallows hw, hw, fun {P} htail => ?_⟩
  unfold Sat at htail
  rcases hrun : Vault.wake.run (Vault.walked m r e w) with ⟨err | ⟨⟩, v⟩
  · rw [hrun] at htail
    exact htail.elim
  · rw [hrun] at htail hsettle
    refine ⟨v, ?_, htail⟩
    have hresume : Vault.resumeUnsettled ⟨m, r, 0, some (e.gen % 2 ^ r, e)⟩ (2 ^ r) none .unlinkOnly =
        .ok (Vault.unsettled m r e
          (some (Walk.start e.tractBlocks (Walker.walkStart (Hamt.fromRoot e.hamtHash e.hamtLba))))) := by
      simp only [Vault.resumeUnsettled, Ring.headEntry, Option.map_some, checkedAdd]
      rw [if_neg (by omega)]
      rfl
    simp only [Vault.open, Vault.openWith, bind_run, hroot, hboot, Bool.false_eq_true, if_false, Vault.resume, hopen,
      Vault.resumeCommon, hresume, lift_run, Vault.launch, Vault.settle, state_run,
      show (Vault.unsettled m r e (some (Walk.start e.tractBlocks
        (Walker.walkStart (Hamt.fromRoot e.hamtHash e.hamtLba))))).tract.len = e.tractBlocks from rfl, hsettle, pure_run]

/-- Opening a vault on devices that hold one leads to a vault in use with its map. -/
theorem open_sound (allowed : Map → Prop) (hparts : Mirror.fromParts m.a m.b = .ok m) (hsess : Session m m d m.blockCount)
    (hsound : Sound r d.image e T) (hneed : 2 ^ r + e.tractBlocks ≤ m.blockCount) (hallows : allowed T.map)
    (ringLog2 : Nat) (now : Int) :
    ∃ v, (Vault.open ringLog2 now .unlinkOnly).run m = (.ok v, v.ring.mirror) ∧
      Serves m 0 allowed r v T.map T.map := by
  obtain ⟨w, huse, -, hwake⟩ := open_walked allowed hparts hsess hsound hneed hallows ringLog2 now
  have hkeeps := serves_keeps m 0 allowed r
  refine hwake ?_
  refine sat_bind (hkeeps.refence ⟨d, e, T, T, huse, rfl, rfl⟩) fun _ v₁ h₁ => sat_state ?_
  split
  · exact (hkeeps.rescues hallows).unwedge_sat _ h₁
  · exact sat_pure h₁

end Manifestus
