import Manifestus.Index.Flush
import Manifestus.Index.Prune
import Manifestus.Index.Steady

/-! The index after the prunes: a flush keeps its nodes and leaves sound whatever its furrows hold, and
a walk of the result has nothing stale to report. -/
set_option linter.unusedSectionVars false

namespace Manifestus
open Prog Store

variable {H : Type} [Crates H] {d d₀ : Dev H} {K : Nat → Prop} {s s' u u' : Store H}

/-! ### Two stores that append alike -/

/-- `u` is `s` on a device of its own, with other blocks at positions of `K` at most. -/
structure Twin (K : Nat → Prop) (d d₀ : Dev H) (s u : Store H) : Prop where
  on : s.On d
  twin : u.On d₀
  cursors : s.tract.Cursors
  tract : u.tract = s.tract
  hamt : u.hamt = s.hamt
  view : ∀ p, ¬ K p → u.view d₀ p = s.view d p

/-- `x` does the same on twins. -/
def Alike (K : Nat → Prop) (d d₀ : Dev H) {α : Type} (x : Prog Error (Store H) α) : Prop :=
  ∀ s u, Twin K d d₀ s u → ∃ r s' u', x.run s = (r, s') ∧ x.run u = (r, u') ∧ Twin K d d₀ s' u'

section Alike

variable {α β : Type}

theorem alike_pure (a : α) : Alike K d d₀ (pure a : Prog Error (Store H) α) :=
  fun s u h => ⟨.ok a, s, u, rfl, rfl, h⟩

theorem alike_fail (e : Error) : Alike K d d₀ (fail e : Prog Error (Store H) α) :=
  fun s u h => ⟨.error e, s, u, rfl, rfl, h⟩

theorem Alike.bind {x : Prog Error (Store H) α} {f : α → Prog Error (Store H) β} (hx : Alike K d d₀ x)
    (hf : ∀ a, Alike K d d₀ (f a)) : Alike K d d₀ (x >>= f) := by
  intro s u h
  obtain ⟨r, s₁, u₁, hs, hu, h₁⟩ := hx s u h
  rcases r with e | a
  · exact ⟨.error e, s₁, u₁, by simp only [bind_run, hs], by simp only [bind_run, hu], h₁⟩
  · obtain ⟨r, s₂, u₂, hs₂, hu₂, h₂⟩ := hf a s₁ u₁ h₁
    exact ⟨r, s₂, u₂, by simp only [bind_run, hs, hs₂], by simp only [bind_run, hu, hu₂], h₂⟩

theorem alike_each {f : α → Prog Error (Store H) Unit} (hf : ∀ a, Alike K d d₀ (f a)) (xs : List α) :
    Alike K d d₀ (each f xs) := by
  induction xs with
  | nil => exact alike_pure ()
  | cons x xs ih => exact (hf x).bind fun _ => ih

theorem alike_onHamt (f : Hamt H → Hamt H) : Alike K d d₀ (onHamt f) := by
  intro s u h
  refine ⟨.ok (), { s with hamt := f s.hamt }, { u with hamt := f u.hamt }, rfl, rfl, ?_⟩
  constructor
  case on => exact ⟨h.on.ready, h.on.fits⟩
  case twin => exact ⟨h.twin.ready, h.twin.fits⟩
  case cursors => exact h.cursors
  case tract => exact h.tract
  case hamt => exact congrArg f h.hamt
  case view => exact h.view

/-- Where and whether blocks are appended is read off the tract alone. -/
theorem alike_appendWith (live : Liveness H) (n : Nat) (make : Nat → Block H) :
    Alike K d d₀ (Tract.appendWith live n make) := by
  intro s u h
  simp only [Tract.appendWith, bind_run, state_run, h.tract]
  by_cases hfull : s.tract.cleanBlocks < n
  · simp only [if_pos hfull]
    exact ⟨_, s, u, rfl, rfl, h⟩
  by_cases hfence : (s.tract.fenceLimit.any fun limit => decide (limit < s.tract.plow + n)) = true
  · simp only [if_neg hfull, if_pos hfence]
    exact ⟨_, s, u, rfl, rfl, h⟩
  simp only [if_neg hfull, if_neg hfence]
  rcases hfind : (List.range n).find? fun i => live.isReferenced ((s.tract.plow + i) % s.tract.len) with _ | i
  · have hlimit : ∀ limit ∈ s.tract.fenceLimit, s.tract.plow + n ≤ limit := by
      intro limit hlimit
      rw [Option.mem_def.mp hlimit] at hfence
      simpa using hfence
    have hfree : ∀ i < n, live.isReferenced ((s.tract.plow + i) % s.tract.len) = false := by
      intro i hi
      have := List.find?_eq_none.mp hfind i (List.mem_range.mpr hi)
      simpa using this
    have hs : Tract.Appended live d make _ s _ := Tract.stageAll_appended h.on h.cursors (by omega) hlimit hfree
    have hcur : u.tract.Cursors := by
      rw [h.tract]
      exact h.cursors
    have hu : Tract.Appended live d₀ make ((List.range n).map fun i => (u.tract.plow + i) % u.tract.len) u _ :=
      Tract.stageAll_appended h.twin hcur (by rw [h.tract]; omega) (by rw [h.tract]; exact hlimit)
        (by rw [h.tract]; exact hfree)
    rw [h.tract] at hu
    refine ⟨.ok ((List.range n).map fun i => (s.tract.plow + i) % s.tract.len), { s with
        mirror := s.tract.stageAll make n s.mirror
        tract := { s.tract with plow := s.tract.plow + n } }, { u with
        mirror := s.tract.stageAll make n u.mirror
        tract := { s.tract with plow := s.tract.plow + n } }, rfl, ?_, ?_⟩
    · simp only [bind_run, update_run, pure_run, h.tract]
    constructor
    case on => exact hs.on
    case twin => exact hu.on
    case cursors => exact hs.cursors
    case tract => rfl
    case hamt => exact h.hamt
    case view =>
      intro p hp
      by_cases hmem : p ∈ (List.range n).map fun i => (s.tract.plow + i) % s.tract.len
      · obtain ⟨i, hi⟩ := List.mem_iff_getElem?.mp hmem
        exact (hu.placed i p hi).trans (hs.placed i p hi).symm
      · exact (hu.frame p hmem).trans ((h.view p hp).trans (hs.frame p hmem).symm)
  · refine ⟨.error .tractFull, _, _, rfl, rfl, ?_⟩
    constructor
    case on => exact ⟨⟨h.on.ready.primary, h.on.ready.script, h.on.ready.staged, h.on.ready.cached⟩, h.on.fits⟩
    case twin =>
      exact ⟨⟨h.twin.ready.primary, h.twin.ready.script, h.twin.ready.staged, h.twin.ready.cached⟩, h.twin.fits⟩
    case cursors => exact h.cursors
    case tract => exact h.tract
    case hamt => exact h.hamt
    case view => exact h.view

theorem alike_appendOne (live : Liveness H) (b : Block H) : Alike K d d₀ (Tract.appendOne live b) := by
  refine (alike_appendWith live _ _).bind fun placed => ?_
  split
  · exact alike_pure _
  · exact alike_fail _

theorem alike_nodeAt (idx : Nat) : Alike K d d₀ (Hamt.nodeAt idx : Prog Error (Store H) (Node H)) := by
  intro s u h
  rcases hnode : s.hamt.arena[idx]? with _ | node
  · refine ⟨.error (.panic "arena index out of bounds"), s, u, ?_, ?_, h⟩
    · simp only [Hamt.nodeAt, bind_run, state_run, hnode]
      rfl
    · simp only [Hamt.nodeAt, bind_run, state_run, h.hamt, hnode]
      rfl
  · exact ⟨.ok node, s, u, Hamt.nodeAt_run hnode, Hamt.nodeAt_run (by rw [h.hamt]; exact hnode), h⟩

theorem alike_flushNode (live : Liveness H) : ∀ fuel idx, Alike K d d₀ (Hamt.flushNode live fuel idx) := by
  intro fuel
  induction fuel with
  | zero => exact fun _ => alike_fail _
  | succ fuel ih =>
    intro idx
    have hchild : ∀ c, Alike K d d₀ (Hamt.flushChild (Hamt.flushNode live fuel) idx c) := by
      intro c
      refine (alike_nodeAt idx).bind fun node => ?_
      split
      · exact (ih _).bind fun _ => alike_onHamt _
      · exact alike_pure _
    rw [Hamt.flushNode]
    refine (alike_each hchild _).bind fun _ => (alike_nodeAt idx).bind fun node => ?_
    have hencode : Alike K d d₀ (encodeNode node : Prog Error (Store H) (Block H)) := by
      unfold encodeNode
      split
      · exact alike_fail _
      · exact alike_pure _
    refine hencode.bind fun block => (alike_appendOne live block).bind fun lba => ?_
    split
    · exact alike_fail _
    · exact (alike_onHamt _).bind fun _ => alike_pure _

end Alike

/-! ### The flush of an index whose furrows may be lost -/

section Content

variable {view : Nat → Block H} {len : Nat} {arena : List (Node H)} {t : Tree H}

/-- A node or a leaf is a sealed block and no furrow. -/
theorem Rep.block_sealed : ∀ {path : List (Fin 32)} {c : Option (Child H)} {p : Nat}, Rep view len arena path c t → t.Blocks p →
    ∃ doc extra, view p = .sealed doc extra ∧ ∀ key i payload, doc ≠ .furrow key i payload := by
  induction t with
  | empty => intro path c p _ hp; exact hp.elim
  | leaf hash lba key value furrows =>
    intro path c p hrep hp
    obtain ⟨-, -, hleaf⟩ := hrep
    obtain rfl : p = lba := hp
    obtain ⟨doc, extra, hview, -, hdoc⟩ := hleaf.doc
    refine ⟨doc, extra, hview, ?_⟩
    intro key' i payload heq
    rw [heq] at hdoc
    exact hdoc
  | disk hash lba ch ih =>
    intro path c p hrep hp
    obtain ⟨-, slots, hnode, hch⟩ := hrep
    rcases hp with rfl | ⟨i, hp⟩
    · obtain ⟨route, extra, hview, -⟩ := hnode.block
      exact ⟨_, extra, hview, fun key i payload heq => by cases heq⟩
    · exact ih i (hch i) hp
  | dirty idx ch ih =>
    intro path c p hrep hp
    obtain ⟨-, node, -, -, -, -, hch⟩ := hrep
    obtain ⟨i, hp⟩ := hp
    exact ih i (hch i) hp

/-- What else a tree holds is a furrow. -/
theorem Rep.furrow_sealed : ∀ {path : List (Fin 32)} {c : Option (Child H)} {p : Nat}, Rep view len arena path c t →
    t.Claims p → ¬ t.Blocks p → ∃ key i payload extra, view p = .sealed (.furrow key i payload) extra := by
  induction t with
  | empty => intro path c p _ hp; exact hp.elim
  | leaf hash lba key value furrows =>
    intro path c p hrep hp hno
    obtain ⟨-, -, hleaf⟩ := hrep
    have hmem : p ∈ furrows := hp.resolve_left hno
    obtain ⟨i, hi⟩ := List.mem_iff_getElem?.mp hmem
    obtain ⟨payload, extra, hview⟩ := hleaf.furrow_at hi
    exact ⟨key, i, payload, extra, hview⟩
  | disk hash lba ch ih =>
    intro path c p hrep hp hno
    obtain ⟨-, slots, -, hch⟩ := hrep
    rcases hp with rfl | ⟨i, hp⟩
    · exact absurd (.inl rfl) hno
    · exact ih i (hch i) hp fun hb => hno (.inr ⟨i, hb⟩)
  | dirty idx ch ih =>
    intro path c p hrep hp hno
    obtain ⟨-, node, -, -, -, -, hch⟩ := hrep
    obtain ⟨i, hp⟩ := hp
    exact ih i (hch i) hp fun hb => hno ⟨i, hb⟩

end Content

/-- A device with the blocks of `view` where the tract of `s` lies. -/
def Store.modelDev (s : Store H) (view : Nat → Block H) : Dev H :=
  ⟨s.tract.base + s.tract.len, fun l => view (l - s.tract.base), none, [], []⟩

/-- `s` with that device alone. -/
def Store.modelled (s : Store H) (view : Nat → Block H) : Store H :=
  { s with mirror := ⟨some (s.modelDev view), none, true, [], [], [], 0, none, []⟩ }

theorem Store.modelled_on (s : Store H) (view : Nat → Block H) : (s.modelled view).On (s.modelDev view) := by
  refine ⟨⟨rfl, rfl, ?_, ?_⟩, le_rfl⟩
  · intro x hx
    cases hx
  · intro e he
    cases he

theorem Store.modelled_view (s : Store H) (view : Nat → Block H) : (s.modelled view).view (s.modelDev view) = view := by
  funext p
  show view (s.tract.base + p - s.tract.base) = view p
  rw [Nat.add_sub_cancel_left]

namespace Hamt

/-- `s'` holds a committed index whose nodes and leaves are sound. -/
structure Remade (d : Dev H) (s' : Store H) (view : Nat → Block H) (t : Tree H) : Prop where
  on : s'.On d
  rep : Rep view s'.tract.len [] [] s'.hamt.root t
  sep : t.Sep
  sound : ∀ p, t.Blocks p → s'.view d p = view p

/-- The flush of an index whose nodes and leaves are sound. -/
theorem flush_remade {live : LiveSet H} {view : Nat → Block H} {t : Tree H} {hash : H} {lba : Nat} (hon : s.On d)
    (hcur : s.tract.Cursors) (hrep : Rep view s.tract.len s.hamt.arena [] s.hamt.root t) (hsep : t.Sep)
    (hsound : ∀ p, t.Blocks p → s.view d p = view p) (hkept : ∀ p, t.Claims p → live.Refers p)
    (hrun : (flush live.liveness).run s = (.ok (hash, lba), s')) :
    s'.hamt.root = (fromRoot hash lba : Hamt H).root ∧ s'.tract.len = s.tract.len ∧ ∃ view' t', Remade d s' view' t' := by
  rcases hroot : s.hamt.root with _ | (⟨h, l⟩ | idx)
  · simp only [flush, bind_run, state_run, hroot, pure_run, Prod.mk.injEq, Except.ok.injEq] at hrun
    obtain ⟨⟨rfl, rfl⟩, rfl⟩ := hrun
    rw [hroot] at hrep
    obtain rfl : t = .empty := Rep.unique (t := .empty) rfl hrep
    refine ⟨?_, rfl, view, .empty, hon, ?_, trivial, fun p hp => hp.elim⟩
    · simp [fromRoot, hroot]
    · rw [hroot]
      rfl
  · simp only [flush, bind_run, state_run, hroot, onHamt_run, pure_run, Prod.mk.injEq, Except.ok.injEq] at hrun
    obtain ⟨⟨rfl, rfl⟩, rfl⟩ := hrun
    rw [hroot] at hrep
    refine ⟨?_, rfl, view, t, ⟨hon.ready, hon.fits⟩, ?_, hsep, hsound⟩
    · rw [fromRoot_root_of_rep hrep]
    · exact Rep.congr hrep le_rfl (fun _ _ => rfl) fun u hu => absurd hu (hrep.no_uses (by simp) u)
  · rw [hroot] at hrep
    obtain ⟨ch, rfl⟩ : ∃ ch, t = .dirty idx ch := by
      cases t with
      | empty => cases hrep
      | leaf => cases hrep.1
      | disk => cases hrep.1
      | dirty j ch =>
        cases hrep.1
        exact ⟨ch, rfl⟩
    -- the same store with the furrows as they were
    obtain ⟨whole, hwhole, hothers⟩ : ∃ whole : Nat → Block H, (∀ p, (Tree.dirty idx ch).Claims p → whole p = view p) ∧
        ∀ p, ¬ ((Tree.dirty idx ch).Claims p ∧ ¬ (Tree.dirty idx ch).Blocks p) → whole p = s.view d p := by
      classical
      refine ⟨fun p => if (Tree.dirty idx ch).Claims p then view p else s.view d p, fun p hp => if_pos hp, ?_⟩
      intro p hp
      by_cases hclaim : (Tree.dirty idx ch).Claims p
      · have hblock : (Tree.dirty idx ch).Blocks p := by
          by_contra hno
          exact hp ⟨hclaim, hno⟩
        simp only [if_pos hclaim]
        exact (hsound p hblock).symm
      · simp only [if_neg hclaim]
    have htwin : Twin (fun p => (Tree.dirty idx ch).Claims p ∧ ¬ (Tree.dirty idx ch).Blocks p) d (s.modelDev whole) s
        (s.modelled whole) := by
      refine ⟨hon, s.modelled_on whole, hcur, rfl, rfl, ?_⟩
      intro p hp
      rw [s.modelled_view]
      exact hothers p hp
    have hripe : Ripe live (s.modelDev whole) [] (s.modelled whole) idx ch := by
      refine ⟨s.modelled_on whole, hcur, ?_, hsep, fun p hp => .inl (hkept p hp)⟩
      rw [Store.Holds, s.modelled_view]
      exact Rep.congr hrep le_rfl hwhole fun _ _ => rfl
    obtain ⟨r, s₁, u₁, hs₁, hu₁, h₁⟩ := alike_flushNode live.liveness descentFuel idx s (s.modelled whole) htwin
    simp only [flush, bind_run, state_run, hroot, hs₁] at hrun
    rcases r with e | ⟨h, l⟩
    · cases hrun
    simp only [onHamt_run, pure_run, Prod.mk.injEq, Except.ok.injEq] at hrun
    obtain ⟨⟨rfl, rfl⟩, rfl⟩ := hrun
    obtain ⟨-, t', hflushed⟩ := (flushNode_sat descentFuel hripe rfl).of_ok hu₁
    have hrep' := hflushed.rep
    have hlen : u₁.tract.len = s.tract.len := hflushed.steps.len
    refine ⟨?_, ?_, u₁.view (s.modelDev whole), t', ⟨h₁.on.ready, h₁.on.fits⟩, ?_, hflushed.sep, ?_⟩
    · rw [fromRoot_root_of_rep hrep']
      rfl
    · show s₁.tract.len = s.tract.len
      rw [← h₁.tract, hlen]
    · show Rep _ s₁.tract.len [] [] (some (.committed h l)) t'
      rw [← h₁.tract]
      exact Rep.congr hrep' le_rfl (fun _ _ => rfl) fun u hu => absurd hu (hrep'.no_uses (by simp) u)
    · intro p hp
      show s₁.view d p = _
      refine (h₁.view p ?_).symm
      -- a furrow of the index before is no node or leaf of the one after
      intro hfurrow
      obtain ⟨key, i, payload, extra, hold⟩ := Rep.furrow_sealed hrep hfurrow.1 hfurrow.2
      obtain ⟨doc, extra', hnew, hdoc⟩ := Rep.block_sealed hrep' hp
      rw [hflushed.steps.frame p (.inl (hkept p hfurrow.1)), s.modelled_view, hwhole p hfurrow.1, hold] at hnew
      cases hnew
      exact hdoc key i payload rfl

end Hamt

namespace Walker

open Hamt

variable {view : Nat → Block H} {t : Tree H}

/-- The tree walk of sound nodes and leaves ends with nothing stale. -/
theorem walkTreeCollect_remade (h : Remade d s view t) :
    ∃ w, walkTreeCollect.run ⟨s, .start s.tract.len []⟩ = (.ok (), w) ∧ w.walk.stale = [] := by
  have hrep := h.rep
  obtain ⟨es, htour, hstale, hnd⟩ : ∃ es, Toured (s.view d) s.tract.len (walkStart s.hamt) es ∧
      es.filterMap Arrival.asStale = [] ∧ (es.map Arrival.pos).Nodup := by
    rcases hroot : s.hamt.root with _ | (⟨hash, lba⟩ | idx)
    · exact ⟨[], by rw [walkStart, hroot]; exact .nil, rfl, .nil⟩
    · rw [hroot] at hrep
      obtain ⟨es, htour, hstale, hnd, -⟩ := toured_sound 0 hrep h.sep h.sound
      refine ⟨es, ?_, hstale, hnd⟩
      rw [walkStart, hroot]
      exact htour
    · exact ⟨[], by rw [walkStart, hroot]; exact .nil, rfl, .nil⟩
  have hwhole := walkTreeCollectOf_whole h.on fun _ : Nat => show 0 < walkStep by unfold walkStep; exact Nat.two_pow_pos 8
  rw [← walkTreeCollect_eq] at hwhole
  rcases hrun : walkTreeCollect.run ⟨s, .start s.tract.len []⟩ with ⟨e | _, w⟩
  · exact absurd hnd (hwhole.of_error hrun es htour)
  · obtain ⟨es₁, es₂, htour₁, hperm, -, -, -, hreport⟩ := hwhole.of_ok hrun
    refine ⟨w, rfl, ?_⟩
    have hnone := hperm.filterMap Arrival.asStale
    rw [← htour.unique htour₁, hstale] at hnone
    rw [hreport]
    exact hnone.symm.eq_nil

/-- So does the repairing walk. -/
theorem walkLiveRepair_remade (h : Remade d s view t) :
    ∃ w, walkLiveRepair.run ⟨s, .start s.tract.len []⟩ = (.ok (), w) ∧ w.walk.stale = [] := by
  have hrep := h.rep
  rcases hroot : s.hamt.root with _ | c
  · exact ⟨_, by simp only [walkLiveRepair, bind_run, state_run, hroot, pure_run]; rfl, rfl⟩
  · rw [hroot] at hrep
    obtain ⟨s', k', stale, dangling, live, hrun, -, hmended⟩ := walkChildRepair_run (k := Walk.start s.tract.len [])
      (f := maxDepth + 1) (r := 0) h.on h.on.refl hrep h.sep (fun p hp => .inl (h.sound p hp)) (onPath_nil 0)
      (Nat.zero_le _) rfl rfl (fun p _ hp => by cases hp)
    refine ⟨⟨s', k'⟩, ?_, ?_⟩
    · simp only [walkLiveRepair, bind_run, state_run, hroot, onWalk, update_run]
      exact hrun
    · rw [hmended.noted.1]
      rcases stale with _ | ⟨r, rest⟩
      · rfl
      · obtain ⟨hzero, hblock⟩ := hmended.zeroed r List.mem_cons_self
        obtain ⟨doc, extra, hsealed, -⟩ := Rep.block_sealed hrep hblock
        rw [h.sound _ hblock, hsealed] at hzero
        cases hzero

/-- A walk changes nothing of the store but the index cache. -/
theorem walk_reads (hon : s.On d) : Reading (s.Reads d) := by
  have hread : ∀ {α : Type} {x : Prog Error (Store H) α}, (∀ u : Store H, u.On d → u.Reads d (x.run u).2) →
      Steady (s.Reads d) x := by
    intro α x hx u hu
    have hr := hu.trans (hx u (hu.on hon))
    unfold Sat
    rcases hrun : x.run u with ⟨_ | a, u'⟩ <;> rw [hrun] at hr <;> exact hr
  constructor
  case read => exact fun lba => hread fun u hu => Tract.read_reads hu lba
  case readCached => exact fun lba => hread fun u hu => Tract.readCached_reads hu lba
  case readRun => exact fun lba n => hread fun u hu => Tract.readRun_reads hu lba n
  case readMany => exact fun lbas => hread fun u hu => Tract.readMany_reads hu lbas

/-- What an open of `s` goes on with once its walk is done: the tree walk, or the one that repairs. -/
def Finished (s s' : Store H) (k : Walk H) : Prop :=
  ∃ w : Walker H, w.store = s' ∧
    ((walkTreeCollect.run ⟨s, .start s.tract.len []⟩ = (.ok (), w) ∧ k = { w.walk with dangling := [] }) ∨
      (walkLiveRepair.run ⟨s, .start s.tract.len []⟩ = (.ok (), w) ∧ k = { w.walk with referenced := [] }))

/-- The stale pointers and the dangling ones, in the order of the report. -/
def reported (k : Walk H) : List (StalePointer H) := k.stale ++ k.dangling.map DanglingPointer.pointer

theorem Finished.reads {k : Walk H} (h : Finished s s' k) (hon : s.On d) : s.Reads d s' := by
  obtain ⟨w, rfl, ⟨hrun, -⟩ | ⟨hrun, -⟩⟩ := h
  · exact ((walk_reads hon).walkTreeCollect _ hon.refl).of_ok hrun
  · exact ((walk_reads hon).walkLiveRepair _ hon.refl).of_ok hrun

/-- Either walk of a damaged index reports pointers that cover what is lost, and finds the rest. -/
theorem Finished.reported {intact : Nat → Block H} {k : Walk H} (h : Finished s s' k) (hon : s.On d)
    (hrep : Rep intact s.tract.len s.hamt.arena [] s.hamt.root t) (hsep : t.Sep)
    (hroot : ∀ i, s.hamt.root ≠ some (.dirty i)) (hdamaged : Damaged intact (s.view d) t) :
    Reported intact (s.view d) [] t (reported k) (LiveSet.ofWalk k.liveBlocks k.referenced).Refers := by
  obtain ⟨w, rfl, ⟨hrun, rfl⟩ | ⟨hrun, rfl⟩⟩ := h
  · have hwhole := walkTreeCollectOf_whole hon fun _ : Nat => show 0 < walkStep by unfold walkStep; exact Nat.two_pow_pos 8
    rw [← walkTreeCollect_eq] at hwhole
    obtain ⟨es, es', htour, hperm, -, hblocks, hnames, hstale⟩ := hwhole.of_ok hrun
    have hreport : Reported intact (s.view d) [] t (es.filterMap Arrival.asStale) (Met es) := by
      rcases hr : s.hamt.root with _ | (⟨hash, lba⟩ | i)
      · rw [hr] at hrep
        rw [walkStart, hr] at htour
        rw [htour.unique .nil, Rep.unique (t := .empty) rfl hrep]
        exact .empty _ _
      · rw [hr] at hrep
        rw [walkStart, hr] at htour
        exact reported_of_toured hrep hsep hdamaged (onPath_nil 0) htour
      · exact absurd hr (hroot i)
    have hmet : ∀ p, Met es p → (LiveSet.ofWalk w.walk.liveBlocks w.walk.referenced).Refers p := by
      intro p hp
      rw [LiveSet.refers_ofWalk, hblocks, hnames]
      rcases hp with ⟨hash, hp⟩ | hp
      · exact .inl (mem_spots.mpr ⟨(p, hash), List.mem_filterMap.mpr ⟨_, hperm.mem_iff.mp hp, rfl⟩, rfl⟩)
      · exact .inr (List.mem_filterMap.mpr ⟨_, hperm.mem_iff.mp hp, rfl⟩)
    have hlist : Walker.reported { w.walk with dangling := [] } = es'.filterMap Arrival.asStale := by
      rw [Walker.reported, hstale, List.map_nil, List.append_nil]
    rw [hlist]
    exact (hreport.imp hmet).perm (hperm.filterMap _)
  · rcases hr : s.hamt.root with _ | c
    · simp only [walkLiveRepair, bind_run, state_run, hr, pure_run, Prod.mk.injEq, true_and] at hrun
      subst hrun
      rw [hr] at hrep
      rw [Rep.unique (t := .empty) rfl hrep]
      exact .empty _ _
    · rw [hr] at hrep
      have hrep' : Rep intact s.tract.len [] [] (some c) t :=
        Rep.congr hrep le_rfl (fun _ _ => rfl) fun u hu => absurd hu (hrep.no_uses (fun i => by rw [← hr]; exact hroot i) u)
      obtain ⟨s', k', stale, dangling, live, hwalk, -, hmended⟩ := walkChildRepair_run (k := Walk.start s.tract.len [])
        (f := maxDepth + 1) (r := 0) hon hon.refl hrep' hsep hdamaged (onPath_nil 0) (Nat.zero_le _) rfl rfl
        (fun p _ hp => by cases hp)
      have hend : walkLiveRepair.run ⟨s, .start s.tract.len []⟩ = (.ok (), ⟨s', k'⟩) := by
        simp only [walkLiveRepair, bind_run, state_run, hr, onWalk, update_run]
        exact hwalk
      rw [hend] at hrun
      cases hrun
      obtain ⟨hstale, hdangling, hlive⟩ := hmended.noted
      have hlist : Walker.reported { k' with referenced := [] } = stale ++ dangling.map DanglingPointer.pointer := by
        rw [Walker.reported, hstale, hdangling]
        rfl
      rw [hlist]
      refine hmended.reported.imp ?_
      intro p hp
      rw [LiveSet.refers_ofWalk, hlive]
      exact .inl hp

end Walker

/-- The prunes of an open, in the order of the report. -/
def pruneReported (k : Walk H) : Prog Error (Store H) Unit := do
  each (fun p => Hamt.prune p.route (p.hash, p.lba)) k.stale
  each (fun p => Hamt.prune p.route (p.hash, p.lba)) k.dangling

theorem pruneReported_run (k : Walk H) (s : Store H) : (pruneReported k).run s =
    (each (fun r : StalePointer H => Hamt.prune r.route (r.hash, r.lba)) (Walker.reported k)).run s := by
  have happend : ∀ (xs ys : List (StalePointer H)) (s : Store H),
      (each (fun r : StalePointer H => Hamt.prune r.route (r.hash, r.lba)) (xs ++ ys)).run s =
        (each (fun r : StalePointer H => Hamt.prune r.route (r.hash, r.lba)) xs >>= fun _ =>
          each (fun r : StalePointer H => Hamt.prune r.route (r.hash, r.lba)) ys).run s := by
    intro xs ys
    induction xs with
    | nil => exact fun _ => rfl
    | cons x xs ih =>
      intro s
      simp only [List.cons_append, each, bind_run]
      rcases (Hamt.prune x.route (x.hash, x.lba)).run s with ⟨_ | _, s'⟩
      · rfl
      · simp only [ih, bind_run]
  have hmap : ∀ xs : List (DanglingPointer H),
      (each (fun p => Hamt.prune p.route (p.hash, p.lba)) xs : Prog Error (Store H) Unit) =
        each (fun r : StalePointer H => Hamt.prune r.route (r.hash, r.lba)) (xs.map DanglingPointer.pointer) := by
    intro xs
    induction xs with
    | nil => rfl
    | cons x xs ih =>
      rw [List.map_cons, each, each, ih]
      rfl
  rw [Walker.reported, happend, pruneReported, hmap]

/-- The pointers that a walk of a damaged index reports, pruned by their routes in the order of the report: each is
cut with all below it, every pointer apart from them stays, a lookup that passes none of them answers as before, and
one that passes one finds nothing. A walk of what a flush then leaves reports nothing stale. -/
theorem prune_by_route {s s₁ : Store H} {intact : Nat → Block H} {t : Tree H} {k : Walk H} (hon : s.On d)
    (hrep : Rep intact s.tract.len s.hamt.arena [] s.hamt.root t) (hsep : t.Sep)
    (hroot : ∀ i, s.hamt.root ≠ some (.dirty i)) (hdamaged : Damaged intact (s.view d) t) (hwalk : Walker.Finished s s₁ k) :
    ∃ s' t', (pruneReported k).run s₁ = (.ok (), s') ∧ Rep intact s.tract.len s'.hamt.arena [] s'.hamt.root t' ∧
      (∀ r ∈ Walker.reported k, ∃ x, t.under r = some x ∧ (∀ p, x.Claims p → ¬ t'.Claims p) ∧
        ∀ key, t'.seek key r.hash r.lba 0 = none) ∧
      (∀ key h l y, t.seek key h l 0 = some y →
        (∀ r ∈ Walker.reported k, ∀ x, t.under r = some x → ∀ p, x.Claims p → ¬ y.Claims p) → t'.seek key h l 0 = some y) ∧
      (∀ key, (∀ r ∈ Walker.reported k, t.seek key r.hash r.lba 0 = none) →
        ((Hamt.lookup key).run s').1 = ((Hamt.lookup key).run s).1) ∧
      (∀ key, (∃ r ∈ Walker.reported k, t.seek key r.hash r.lba 0 ≠ none) → ((Hamt.lookup key).run s').1 = .ok none) ∧
      ∀ tract s'' hash lba, tract.base = s.tract.base → tract.len = s.tract.len → tract.Cursors →
        (Hamt.flush (LiveSet.ofWalk k.liveBlocks k.referenced).liveness).run { s' with tract := tract } =
          (.ok (hash, lba), s'') →
        (∃ w, Walker.walkTreeCollect.run ⟨{ s'' with hamt := Hamt.fromRoot hash lba }, .start s''.tract.len []⟩ =
          (.ok (), w) ∧ w.walk.stale = []) ∧
        ∃ w, Walker.walkLiveRepair.run ⟨{ s'' with hamt := Hamt.fromRoot hash lba }, .start s''.tract.len []⟩ =
          (.ok (), w) ∧ w.walk.stale = [] := by
  have hreads := hwalk.reads hon
  have hreport := hwalk.reported hon hrep hsep hroot hdamaged
  have hrep₁ : Rep intact s₁.tract.len s₁.hamt.arena [] s₁.hamt.root t := by
    rw [hreads.tract, hreads.hamt]
    exact hrep
  have hsought : ∀ r ∈ Walker.reported k, ∃ x, t.under r = some x ∧
      ∀ p, t.Way r.route 0 p → ¬ x.Claims p → s₁.view d p = intact p := by
    rw [hreads.view]
    exact hreport.sought
  obtain ⟨s', t', hrun, hpruned⟩ := Hamt.each_prune_run (hreads.on hon) hrep₁ hsep hsought hreport.apart
  have hrep' : Rep intact s.tract.len s'.hamt.arena [] s'.hamt.root t' := by
    rw [← hreads.tract]
    exact hpruned.rep
  have hview : s'.view d = s.view d := hpruned.view.trans hreads.view
  have htract : s'.tract = s.tract := hpruned.tract.trans hreads.tract
  -- what is left was found by the walk
  have hleft : ∀ p, t'.Claims p → (LiveSet.ofWalk k.liveBlocks k.referenced).Refers p ∧
      (t'.Blocks p → s.view d p = intact p) := by
    intro p hp
    obtain ⟨hpt, hno⟩ := hpruned.claims p hp
    rcases hreport.covers p hpt with ⟨hfound, hsound⟩ | ⟨r, hr, x, hx, hxp⟩
    · exact ⟨hfound, fun hb => hsound (hpruned.blocks p hb)⟩
    · exact absurd hxp (hno r hr x hx)
  refine ⟨s', t', (pruneReported_run k s₁).trans hrun, hrep', ?_, hpruned.kept, ?_, ?_, ?_⟩
  · intro r hr
    obtain ⟨x, hx, -⟩ := hsought r hr
    have hcut : ∀ p, x.Claims p → ¬ t'.Claims p := fun p hp hp' => (hpruned.claims p hp').2 r hr x hx hp
    refine ⟨x, hx, hcut, ?_⟩
    intro key
    by_contra hsome
    obtain ⟨y, hy⟩ := Option.ne_none_iff_exists'.mp hsome
    exact hcut _ (Tree.claims_root hx) (Tree.claims_of_seek hy (Tree.claims_root hy))
  · intro key hkey
    have hclean : ∀ u, ¬ t.Uses u := hrep.no_uses hroot
    have harena : s.hamt.arena <+: s'.hamt.arena := by
      rw [← hreads.hamt]
      exact hpruned.arena hclean
    have hway : ∀ p, t.Way key 0 p → s.view d p = intact p := by
      intro p hp
      rcases hreport.covers p hp.blocks.claims with ⟨-, hsound⟩ | ⟨r, hr, x, hx, hxp⟩
      · exact hsound hp.blocks
      · exact absurd (hkey r hr) (hp.passes hsep hx hxp)
    have hway' : ∀ p, t'.Way key 0 p → s'.view d p = intact p := by
      intro p hp
      rw [hview]
      exact (hleft p hp.blocks.claims).2 hp.blocks
    obtain ⟨u, hu, hbefore⟩ := Hamt.lookup_answer hon hrep hway
    obtain ⟨u', hu', hafter⟩ := Hamt.lookup_answer hpruned.on (by rw [htract]; exact hrep') hway'
    rw [hbefore, hafter, hpruned.stop key hkey]
    exact (Hamt.answerAt_echoes hon hpruned.on htract harena hview key _ hu hu').symm
  · intro key hkey
    have hway' : ∀ p, t'.Way key 0 p → s'.view d p = intact p := by
      intro p hp
      rw [hview]
      exact (hleft p hp.blocks.claims).2 hp.blocks
    obtain ⟨u', -, hafter⟩ := Hamt.lookup_answer hpruned.on (by rw [htract]; exact hrep') hway'
    rw [hafter, hpruned.ended key (.inr hkey)]
    rfl
  · intro tract s'' hash lba hbase hlen hcur hflush
    have hview' : ({ s' with tract := tract } : Store H).view d = s.view d := by
      rw [← hview]
      funext p
      rw [Store.view, Store.view, htract]
      exact congrArg (fun b => s'.mirror.view d (b + p)) hbase
    have hon' : ({ s' with tract := tract } : Store H).On d := by
      refine ⟨hpruned.on.ready, ?_⟩
      show tract.base + tract.len ≤ d.count
      rw [hbase, hlen]
      exact hon.fits
    obtain ⟨hroot', hlen', view', t'', hremade⟩ := Hamt.flush_remade hon' hcur
      (by rw [show ({ s' with tract := tract } : Store H).tract.len = s.tract.len from hlen]; exact hrep') hpruned.sep
      (by rw [hview']; exact fun p hp => (hleft p hp.claims).2 hp) (fun p hp => (hleft p hp).1) hflush
    have hremade' : Hamt.Remade d { s'' with hamt := Hamt.fromRoot hash lba } view' t'' := by
      refine ⟨⟨hremade.on.ready, hremade.on.fits⟩, ?_, hremade.sep, hremade.sound⟩
      show Rep view' s''.tract.len [] [] (Hamt.fromRoot hash lba : Hamt H).root t''
      rw [← hroot']
      exact hremade.rep
    exact ⟨Walker.walkTreeCollect_remade hremade', Walker.walkLiveRepair_remade hremade'⟩

/-- The first key of the slot 1. -/
def farKey : Key := 1#256 <<< 251

def pairSlots (i : Fin 32) : Option (Digest × Nat) :=
  if i.val = 0 then some (Crates.hash (.lone 5 [1, 2]) 0, 0)
  else if i.val = 1 then some (Crates.hash (.lone farKey [3]) 0, 1)
  else none

/-- A node over two lone values. -/
def pairBlocks : Nat → Block Digest
  | 0 => encodeLone 5 [1, 2]
  | 1 => encodeLone farKey [3]
  | 5 => sealBlock (.node 0 0 pairSlots)
  | _ => .zero

/-- Its tract with the second value zeroed. -/
def holedDev : Dev Digest := ⟨8, Function.update pairBlocks 1 .zero, none, [], []⟩

def holedStore : Store Digest where
  mirror := ⟨some holedDev, none, true, [], [], [], 0, none, []⟩
  tract := ⟨0, 8, 6, 0, none⟩
  hamt := ⟨some (.committed (Crates.hash (.node 0 0 pairSlots) 0) 5), [], ⟨[], []⟩, 0⟩

def holedWalk : Except Error Unit × Walker Digest := Walker.walkTreeCollect.run ⟨holedStore, .start 8 []⟩

def pairChild (i : Fin 32) : Tree Digest :=
  if i.val = 0 then .leaf (Crates.hash (.lone 5 [1, 2]) 0) 0 5 [1, 2] []
  else if i.val = 1 then .leaf (Crates.hash (.lone farKey [3]) 0) 1 farKey [3] []
  else .empty

def pairTree : Tree Digest := .disk (Crates.hash (.node 0 0 pairSlots) 0) 5 pairChild

theorem pairTree_rep : Rep pairBlocks 8 [] [] holedStore.hamt.root pairTree := by
  have hnode : NodeAt pairBlocks 8 [] (Crates.hash (.node 0 0 pairSlots) 0) 5 pairSlots :=
    ⟨by decide, by decide, ⟨0, 0, rfl, rfl, onPath_nil 0⟩, by decide⟩
  refine ⟨rfl, pairSlots, hnode, ?_⟩
  intro i
  by_cases h0 : i.val = 0
  · obtain rfl : i = ⟨0, by decide⟩ := Fin.ext h0
    exact ⟨rfl, (onPath_nil 5).snoc (by decide), .lone (by decide) (show _ = Block.sealed _ 0 from rfl) rfl⟩
  by_cases h1 : i.val = 1
  · obtain rfl : i = ⟨1, by decide⟩ := Fin.ext h1
    exact ⟨rfl, (onPath_nil farKey).snoc (by decide +kernel), .lone (by decide) (show _ = Block.sealed _ 0 from rfl) rfl⟩
  · simp only [pairSlots, pairChild, if_neg h0, if_neg h1]
    rfl

theorem pairTree_sep : pairTree.Sep := by
  have hclaims : ∀ i p, (pairChild i).Claims p → i.val = p ∧ p ≤ 1 := by
    intro i p hp
    unfold pairChild at hp
    split at hp
    · obtain rfl : p = 0 := by simpa [Tree.Claims] using hp
      omega
    split at hp
    · obtain rfl : p = 1 := by simpa [Tree.Claims] using hp
      omega
    · exact hp.elim
  have huses : ∀ i u, ¬ (pairChild i).Uses u := by
    intro i u hu
    unfold pairChild at hu
    split at hu
    · exact hu.elim
    split at hu
    · exact hu.elim
    · exact hu.elim
  refine ⟨?_, ?_, ?_⟩
  · intro i
    unfold pairChild
    split
    · exact ⟨by simp, by simp⟩
    split
    · exact ⟨by simp, by simp⟩
    · trivial
  · intro i j hij
    refine ⟨?_, fun u hu => absurd hu (huses i u)⟩
    intro p hp hp'
    have hi := hclaims i p hp
    have hj := hclaims j p hp'
    exact hij (Fin.ext (hi.1.trans hj.1.symm))
  · intro i hi
    have := hclaims i 5 hi
    omega

set_option maxRecDepth 10000 in
/-- The pointer to the lost value is cut; the other value is found as before, and the lost one no more. -/
theorem prune_by_route_holed : ∃ s', (pruneReported { holedWalk.2.walk with dangling := [] }).run holedWalk.2.store = (.ok (), s') ∧
    (Walker.reported { holedWalk.2.walk with dangling := [] }).map StalePointer.lba = [1] ∧
    ((Hamt.lookup 5).run s').1 = .ok (some [1, 2]) ∧ ((Hamt.lookup farKey).run s').1 = .ok none := by
  have hok : holedWalk.1 = .ok () := by decide +kernel
  have hreport : Walker.reported { holedWalk.2.walk with dangling := [] } =
      [⟨farKey, Crates.hash (.lone farKey [3]) 0, 1⟩] := by decide +kernel
  have hon : holedStore.On holedDev :=
    ⟨⟨rfl, rfl, by simp [holedStore, Mirror.staged], by simp [holedStore]⟩, le_rfl⟩
  have hdamaged : Damaged pairBlocks (holedStore.view holedDev) pairTree := by
    intro p _
    by_cases hp : p = 1
    · subst hp
      exact .inr (by decide +kernel)
    · refine .inl ?_
      show Function.update pairBlocks 1 .zero (0 + p) = pairBlocks p
      rw [Nat.zero_add, Function.update_of_ne hp]
  obtain ⟨s', t', hrun, -, -, -, hsame, hlost, -⟩ := prune_by_route hon pairTree_rep pairTree_sep (by simp [holedStore]) hdamaged
    ⟨holedWalk.2, rfl, .inl ⟨Prod.ext hok rfl, rfl⟩⟩
  rw [hreport] at hsame hlost
  have hkept : (chunk 5 0).val = 0 := by decide
  have hgone : (chunk farKey 0).val = 1 := by decide +kernel
  refine ⟨s', hrun, by rw [hreport]; rfl, ?_, ?_⟩
  · rw [hsame 5 ?_]
    · decide +kernel
    · simp only [List.mem_singleton, forall_eq, pairTree, Tree.seek, hkept, pairChild]
      simp [Tree.seek]
  · refine hlost _ ⟨_, List.mem_singleton_self _, ?_⟩
    simp only [pairTree, Tree.seek, hgone, pairChild]
    simp [Tree.seek]

end Manifestus
