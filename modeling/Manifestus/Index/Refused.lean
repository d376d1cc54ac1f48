import Manifestus.Index.Window

/-! A put that fails: at whatever point, and whatever the devices refuse, nothing of it can be seen. -/
set_option linter.unusedSectionVars false

namespace Manifestus
open Prog Store

variable {H : Type} [Crates H] {d : Dev H} {live : LiveSet H} {s s' s'' : Store H}

/-- The device once no more operations fail. -/
def Dev.calm (d : Dev H) : Dev H := { d with script := [] }

def Mirror.calm (m : Mirror H) : Mirror H := { m with a := m.a.map Dev.calm, b := m.b.map Dev.calm }

def Store.calm (s : Store H) : Store H := { s with mirror := s.mirror.calm }

namespace Dev

/-- A read takes a fault off the script, if anything. -/
theorem read_lapse (lba : Nat) (x : Dev H) :
    Sat (read lba) x (fun b x' => x'.calm = x.calm ∧ lba < x.count ∧ b = x.data lba) fun _ x' => x'.calm = x.calm := by
  unfold Sat
  by_cases hlt : lba < x.count
  · rcases hs : x.script with _ | ⟨f, rest⟩
    · simp [read, inBounds, nextFault, hlt, hs]
    · rcases f with _ | f <;> simp [read, inBounds, nextFault, hlt, hs, calm]
  · simp [read, inBounds, hlt]

end Dev

namespace Mirror

variable {m m' : Mirror H}

theorem calm_staged (m : Mirror H) : m.calm.staged = m.staged := rfl

theorem calm_stagedAt (m : Mirror H) (lba : Nat) : m.calm.stagedAt lba = m.stagedAt lba := rfl

theorem Ready.calmed (h : m.calm.Ready d) : ∃ x, m.primary = some x ∧ d = x.calm := by
  have hp : m.calm.primary = m.primary.map Dev.calm := by
    unfold Mirror.primary calm
    rcases m.a with _ | x <;> rfl
  have hsome := h.primary
  rw [hp, Option.map_eq_some_iff] at hsome
  obtain ⟨x, hx, hd⟩ := hsome
  exact ⟨x, hx, hd.symm⟩

/-- A read of the mirror changes nothing but the script of the device that answers. -/
theorem read_lapse (lba : Nat) (m : Mirror H) :
    Sat (read lba) m (fun b m' => m'.calm = m.calm ∧ ∀ d, m.calm.Ready d → m.stagedAt lba = none → lba < d.count ∧ b = d.data lba)
      fun _ m' => m'.calm = m.calm := by
  refine sat_state ?_
  split
  next b hb => exact sat_pure ⟨rfl, fun d _ hno => by rw [hno] at hb; cases hb⟩
  unfold Sat onFirst
  rcases ha : m.a with _ | x
  · rcases hb : m.b with _ | y
    · simp [ha, hb]
    · have hread := Dev.read_lapse lba y
      unfold Sat at hread
      rcases hr : (Dev.read lba).run y with ⟨e | b, y'⟩ <;> rw [hr] at hread <;> simp only [ha, hb, hr]
      · simp [calm, ha, hb, show y'.calm = y.calm from hread]
      · obtain ⟨hcalm, hlt, rfl⟩ := hread
        refine ⟨by simp [calm, ha, hb, hcalm], fun d hd _ => ?_⟩
        obtain ⟨z, hz, rfl⟩ := hd.calmed
        rw [primary, ha, hb] at hz
        cases hz
        exact ⟨hlt, rfl⟩
  · have hread := Dev.read_lapse lba x
    unfold Sat at hread
    rcases hr : (Dev.read lba).run x with ⟨e | b, x'⟩ <;> rw [hr] at hread <;> simp only [ha, hr]
    · simp [calm, ha, show x'.calm = x.calm from hread]
    · obtain ⟨hcalm, hlt, rfl⟩ := hread
      refine ⟨by simp [calm, ha, hcalm], fun d hd _ => ?_⟩
      obtain ⟨z, hz, rfl⟩ := hd.calmed
      rw [primary, ha] at hz
      cases hz
      exact ⟨hlt, rfl⟩

/-- So does a read of the index walk, the cache apart. -/
theorem readCached_lapse (lba : Nat) (m : Mirror H) :
    Sat (readCached lba) m (fun _ m' => m.calm.Agrees m'.calm ∧ ∀ d, m.calm.Ready d → m'.calm.Ready d)
      fun _ m' => m.calm.Agrees m'.calm ∧ ∀ d, m.calm.Ready d → m'.calm.Ready d := by
  refine sat_state ?_
  split
  · exact sat_pure ⟨.refl _, fun _ h => h⟩
  next hnone =>
    refine sat_update ?_
    split
    next e he =>
      refine ⟨rfl, fun d h => ⟨h.primary, h.script, h.staged, fun x hx => ?_⟩⟩
      obtain ⟨y, hy, rfl⟩ := List.mem_map.mp hx
      have hcached := h.cached y hy
      split <;> exact hcached
    next hmiss =>
      refine sat_bind ((read_lapse lba { m with uses := m.uses + 1 }).mono (fun _ _ h => h) fun _ m' h => ?_) fun b m' h => ?_
      · rw [h]
        exact ⟨rfl, fun d hd => ⟨hd.primary, hd.script, hd.staged, hd.cached⟩⟩
      · obtain ⟨hcalm, hread⟩ := h
        refine ⟨?_, fun d hd => ?_⟩
        · simp only [calm, mk.injEq] at hcalm
          obtain ⟨ha, hb, hdegraded, hevents, hpending, -, -, hdropped, hmarks⟩ := hcalm
          simp only [Agrees, calm, ha, hb, hdegraded, hevents, hpending, hdropped, hmarks]
        · have hd' : m'.calm.Ready d := by
            rw [hcalm]
            exact ⟨hd.primary, hd.script, hd.staged, hd.cached⟩
          obtain ⟨hlt, rfl⟩ := hread d ⟨hd.primary, hd.script, hd.staged, hd.cached⟩ hnone
          refine ⟨hd'.primary, hd'.script, hd'.staged, fun e he => ?_⟩
          rcases (List.mem_orderedInsert _).mp he with rfl | he
          · exact ⟨hlt, rfl⟩
          · exact hd'.cached e (mem_of_mem_evict he)

theorem Untouched.calm (h : m.Untouched m') : m.calm.Untouched m'.calm := by
  rw [h]
  rfl

theorem untouched_stageOne (lba : Nat) (b : Block H) (m : Mirror H) : m.Untouched (m.stageOne lba b) := by
  unfold Untouched stageOne
  split
  · split <;> rfl
  · rfl

theorem calm_stageOne (lba : Nat) (b : Block H) (m : Mirror H) : (m.stageOne lba b).calm = m.calm.stageOne lba b := by
  unfold stageOne
  rw [show m.calm.pending = m.pending from rfl]
  split
  · split <;> rfl
  · rfl

/-- Staging block after block. -/
theorem stageEach (xs : List (Nat × Block H)) : ∀ m : Mirror H,
    m.Untouched (xs.foldl (fun m x => m.stageOne x.1 x.2) m) ∧
      (xs.foldl (fun m x => m.stageOne x.1 x.2) m).staged = m.staged ++ xs ∧
      (xs.foldl (fun m x => m.stageOne x.1 x.2) m).calm = xs.foldl (fun m x => m.stageOne x.1 x.2) m.calm := by
  induction xs with
  | nil => exact fun m => ⟨.refl m, (List.append_nil _).symm, rfl⟩
  | cons x xs ih =>
    intro m
    obtain ⟨huntouched, hstaged, hcalm⟩ := ih (m.stageOne x.1 x.2)
    refine ⟨(untouched_stageOne x.1 x.2 m).trans huntouched, ?_, ?_⟩
    · rw [List.foldl_cons, hstaged, staged_stageOne, List.append_assoc]
      rfl
    · rw [List.foldl_cons, hcalm, calm_stageOne]
      rfl

end Mirror

/-- Reads, appends and what an unfinished put did to the index in memory. -/
structure Strayed (live : LiveSet H) (s s' : Store H) : Prop where
  root : s'.hamt.root = s.hamt.root
  arena : s.hamt.arena <+: s'.hamt.arena
  added : s.hamt.delta.added <+: s'.hamt.delta.added
  removed : s.hamt.delta.removed <+: s'.hamt.delta.removed
  untouched : s.mirror.calm.Untouched s'.mirror.calm
  tract : s'.tract = { s.tract with plow := s'.tract.plow }
  onward : s.tract.plow ≤ s'.tract.plow
  clean : s.tract.reap ≤ s.tract.plow → s'.tract.plow = s.tract.plow ∨ s'.tract.plow ≤ s.tract.reap + s.tract.len
  staged : ∃ items, s'.mirror.staged = s.mirror.staged ++ items ∧ ∀ x ∈ items, ∃ q, s.tract.plow ≤ q ∧
    q < s'.tract.plow ∧ x.1 = s.tract.base + q % s.tract.len ∧ ¬ live.Refers (q % s.tract.len)
  steps : ∀ d, s.calm.On d → s.tract.Cursors → Steps live d s.calm s'.calm

namespace Strayed

theorem refl (live : LiveSet H) (s : Store H) : Strayed live s s where
  root := rfl
  arena := List.prefix_refl _
  added := List.prefix_refl _
  removed := List.prefix_refl _
  untouched := .refl _
  tract := rfl
  onward := le_rfl
  clean _ := .inl rfl
  staged := ⟨[], by simp, by simp⟩
  steps _ hon hcur := .refl hon hcur

theorem trans (h : Strayed live s s') (h' : Strayed live s' s'') : Strayed live s s'' where
  root := h'.root.trans h.root
  arena := h.arena.trans h'.arena
  added := h.added.trans h'.added
  removed := h.removed.trans h'.removed
  untouched := h.untouched.trans h'.untouched
  tract := by rw [h'.tract, h.tract]
  onward := h.onward.trans h'.onward
  clean horder := by
    have h₁ := h.clean horder
    have honward := h.onward
    have hreap : s'.tract.reap = s.tract.reap := by rw [h.tract]
    have hlen : s'.tract.len = s.tract.len := by rw [h.tract]
    have h₂ := h'.clean (by omega)
    omega
  staged := by
    obtain ⟨xs, hxs, hin⟩ := h.staged
    obtain ⟨ys, hys, hin'⟩ := h'.staged
    refine ⟨xs ++ ys, by rw [hys, hxs, List.append_assoc], fun x hx => ?_⟩
    rcases List.mem_append.mp hx with hx | hx
    · obtain ⟨q, hlo, hhi, hrest⟩ := hin x hx
      exact ⟨q, hlo, hhi.trans_le h'.onward, hrest⟩
    · obtain ⟨q, hlo, hhi, hrest⟩ := hin' x hx
      rw [h.tract] at hrest
      exact ⟨q, h.onward.trans hlo, hhi, hrest⟩
  steps d hon hcur := by
    have h₁ := h.steps d hon hcur
    exact h₁.trans (h'.steps d h₁.on h₁.cursors)

/-- What the index in memory is changed to. -/
theorem of_hamt (h : Strayed live s s') {f : Hamt H} (hroot : f.root = s.hamt.root) (harena : s.hamt.arena <+: f.arena)
    (hadd : s.hamt.delta.added <+: f.delta.added) (hrem : s.hamt.delta.removed <+: f.delta.removed) :
    Strayed live s { s' with hamt := f } where
  root := hroot
  arena := harena
  added := hadd
  removed := hrem
  untouched := h.untouched
  tract := h.tract
  onward := h.onward
  clean := h.clean
  staged := h.staged
  steps d hon hcur := (h.steps d hon hcur).of_hamt f

end Strayed

/-- `x` strays at most, however it ends. -/
def Strays (live : LiveSet H) {α : Type} (x : Prog Error (Store H) α) : Prop :=
  ∀ s, Sat x s (fun _ s' => Strayed live s s') fun _ s' => Strayed live s s'

section Strays

variable {α β : Type}

theorem strays_pure (a : α) : Strays live (pure a : Prog Error (Store H) α) := fun s => sat_pure (.refl live s)

theorem strays_fail (e : Error) : Strays live (fail e : Prog Error (Store H) α) := fun s => sat_fail (.refl live s)

theorem strays_lift (r : Except Error α) : Strays live (lift r : Prog Error (Store H) α) := by
  intro s
  unfold Sat
  rw [lift_run]
  rcases r with e | a <;> exact .refl live s

theorem strays_lift_bind {r : Except Error α} {f : α → Prog Error (Store H) β} (hf : ∀ a, r = .ok a → Strays live (f a)) :
    Strays live (lift r >>= f) := by
  rcases r with e | a
  · exact fun s => sat_fail (.refl live s)
  · exact hf a rfl

theorem Strays.bind {x : Prog Error (Store H) α} {f : α → Prog Error (Store H) β} (hx : Strays live x)
    (hf : ∀ a, Strays live (f a)) : Strays live (x >>= f) := by
  intro s
  refine sat_bind (hx s) fun a s' h => ?_
  exact (hf a s').mono (fun _ _ h' => h.trans h') fun _ _ h' => h.trans h'

theorem strays_state {f : Store H → Prog Error (Store H) β} (hf : ∀ s, Strays live (f s)) :
    Strays live (state >>= f) := fun s => sat_state (hf s s)

theorem strays_each {f : α → Prog Error (Store H) Unit} (hf : ∀ a, Strays live (f a)) (xs : List α) :
    Strays live (each f xs) := by
  induction xs with
  | nil => exact strays_pure ()
  | cons x xs ih => exact (hf x).bind fun _ => ih

theorem strays_onHamt {f : Hamt H → Hamt H} (hroot : ∀ h, (f h).root = h.root) (harena : ∀ h, h.arena <+: (f h).arena)
    (hadd : ∀ h, h.delta.added <+: (f h).delta.added) (hrem : ∀ h, h.delta.removed <+: (f h).delta.removed) :
    Strays live (onHamt f) := fun s => (Strayed.refl live s).of_hamt (hroot _) (harena _) (hadd _) (hrem _)

end Strays

namespace Tract

theorem inBounds_strays (lba : Nat) : Strays live (inBounds lba : Prog Error (Store H) Unit) := by
  refine strays_state fun s => ?_
  split
  · exact strays_pure ()
  · exact strays_fail _

/-- A mirror read that changes the cache at most. -/
theorem strayed_of_reads {m' : Mirror H} (hagrees : s.mirror.calm.Agrees m'.calm)
    (hready : ∀ d, s.mirror.calm.Ready d → m'.calm.Ready d) : Strayed live s { s with mirror := m' } where
  root := rfl
  arena := List.prefix_refl _
  added := List.prefix_refl _
  removed := List.prefix_refl _
  untouched := hagrees.untouched
  tract := rfl
  onward := le_rfl
  clean _ := .inl rfl
  staged := ⟨[], by rw [List.append_nil]; exact hagrees.staged, by simp⟩
  steps d hon hcur :=
    have hreads : s.calm.Reads d ({ s with mirror := m' } : Store H).calm := ⟨m'.calm, rfl, hagrees, hready d hon.ready⟩
    hreads.steps hon hcur

theorem read_strays (lba : Nat) : Strays live (read lba : Prog Error (Store H) (Block H)) := by
  refine (inBounds_strays lba).bind fun _ => strays_state fun s₀ => ?_
  intro s
  have hread := Mirror.read_lapse (s₀.tract.base + lba) s.mirror
  unfold Sat at hread ⊢
  rw [onMirror, zoom_run]
  rcases hr : (Mirror.read (s₀.tract.base + lba)).run s.mirror with ⟨e | b, m'⟩ <;> rw [hr] at hread
  · exact strayed_of_reads (by rw [hread]; exact .refl _) fun d h => by rw [hread]; exact h
  · exact strayed_of_reads (by rw [hread.1]; exact .refl _) fun d h => by rw [hread.1]; exact h

theorem readCached_strays (lba : Nat) : Strays live (readCached lba : Prog Error (Store H) (Block H)) := by
  refine (inBounds_strays lba).bind fun _ => strays_state fun s₀ => ?_
  intro s
  have hread := Mirror.readCached_lapse (s₀.tract.base + lba) s.mirror
  unfold Sat at hread ⊢
  rw [onMirror, zoom_run]
  rcases hr : (Mirror.readCached (s₀.tract.base + lba)).run s.mirror with ⟨e | b, m'⟩ <;> rw [hr] at hread
  · exact strayed_of_reads hread.1 hread.2
  · exact strayed_of_reads hread.1 hread.2

/-- What an append stages. -/
theorem stageAll_staged (t : Tract) (make : Nat → Block H) (n : Nat) (m : Mirror H) :
    m.Untouched (t.stageAll make n m) ∧
      (t.stageAll make n m).staged = m.staged ++ (List.range n).map (fun i => (t.base + (t.plow + i) % t.len, make i)) ∧
      (t.stageAll make n m).calm = t.stageAll make n m.calm := by
  have hreserve : m.Untouched (m.reserveStaged n) := by
    unfold Mirror.Untouched Mirror.reserveStaged
    split <;> rfl
  have hcalm : (m.reserveStaged n).calm = m.calm.reserveStaged n := by
    unfold Mirror.reserveStaged
    split <;> rfl
  have hfold : ∀ m : Mirror H, (List.range n).foldl
      (fun m i => m.stageOne (t.base + (t.plow + i) % t.len) (make i)) m =
      ((List.range n).map fun i => (t.base + (t.plow + i) % t.len, make i)).foldl (fun m x => m.stageOne x.1 x.2) m := by
    intro m
    rw [List.foldl_map]
  obtain ⟨h₁, h₂, h₃⟩ := Mirror.stageEach ((List.range n).map fun i => (t.base + (t.plow + i) % t.len, make i))
    (m.reserveStaged n)
  refine ⟨?_, ?_, ?_⟩
  · rw [stageAll, hfold]
    exact hreserve.trans h₁
  · rw [stageAll, hfold, h₂, Mirror.staged_reserveStaged]
  · rw [stageAll, stageAll, hfold, hfold, h₃, hcalm]

theorem appendWith_strays {n : Nat} {make : Nat → Block H} (hroot : ∀ i < n, (make i).NotRoot) :
    Strays live (appendWith live.liveness n make) := by
  intro s
  have hcalm : ∀ d, s.calm.On d → s.tract.Cursors → Sat (appendWith live.liveness n make) s.calm
      (fun _ s' => Steps live d s.calm s') fun _ s' => Steps live d s.calm s' := by
    intro d hon hcur
    refine (appendWith_sat hon hcur n make).mono (fun ps s' h => ?_) fun _ s' h => h.2.steps hcur
    refine h.2.steps fun i p hp => hroot i ?_
    rw [← h.1]
    exact (List.getElem?_eq_some_iff.mp hp).1
  by_cases hclean : s.tract.cleanBlocks < n
  · have hrun : (appendWith live.liveness n make).run s = (.error .tractFull, s) := by
      simp [appendWith, hclean]
    unfold Sat
    rw [hrun]
    exact .refl live s
  by_cases hfence : s.tract.fenceLimit.any fun limit => limit < s.tract.plow + n
  · have hrun : (appendWith live.liveness n make).run s = (.error (.fenced s.tract.plow), s) := by
      simp only [appendWith, bind_run, state_run, if_neg hclean, if_pos hfence]
      rfl
    unfold Sat
    rw [hrun]
    exact .refl live s
  rcases hfind : (List.range n).find? fun i => live.liveness.isReferenced ((s.tract.plow + i) % s.tract.len) with _ | i
  · have hrun : ∀ m : Mirror H, (appendWith live.liveness n make).run ⟨m, s.tract, s.hamt⟩ =
        (.ok ((List.range n).map fun i => (s.tract.plow + i) % s.tract.len),
          ⟨s.tract.stageAll make n m, { s.tract with plow := s.tract.plow + n }, s.hamt⟩) := by
      intro m
      simp only [appendWith, bind_run, state_run, if_neg hclean, if_neg hfence, hfind]
      rfl
    obtain ⟨huntouched, hstaged, hcalmed⟩ := stageAll_staged s.tract make n s.mirror
    unfold Sat
    rw [hrun s.mirror]
    refine ⟨rfl, List.prefix_refl _, List.prefix_refl _, List.prefix_refl _, huntouched.calm, rfl, Nat.le_add_right _ _,
      fun horder => ?_, ⟨_, hstaged, fun x hx => ?_⟩, fun d hon hcur => ?_⟩
    · unfold cleanBlocks at hclean
      show s.tract.plow + n = _ ∨ s.tract.plow + n ≤ _
      omega
    · obtain ⟨i, hi, rfl⟩ := List.mem_map.mp hx
      have hlt := List.mem_range.mp hi
      have hno := List.find?_eq_none.mp hfind i hi
      exact ⟨s.tract.plow + i, Nat.le_add_right _ _, Nat.add_lt_add_left hlt _, rfl, hno⟩
    · have hsteps := (hcalm d hon hcur).of_ok (hrun s.mirror.calm)
      rw [← hcalmed] at hsteps
      exact hsteps
  · have hrun : ∀ m : Mirror H, (appendWith live.liveness n make).run ⟨m, s.tract, s.hamt⟩ = (.error .tractFull,
        ⟨{ m with events := m.events ++ [.liveLapAverted ((s.tract.plow + i) % s.tract.len)] }, s.tract, s.hamt⟩) := by
      intro m
      simp only [appendWith, bind_run, state_run, if_neg hclean, if_neg hfence, hfind]
      rfl
    unfold Sat
    rw [hrun s.mirror]
    refine ⟨rfl, List.prefix_refl _, List.prefix_refl _, List.prefix_refl _, rfl, rfl, le_rfl, fun _ => .inl rfl,
      ⟨[], (List.append_nil _).symm, by simp⟩, fun d hon hcur => ?_⟩
    exact (hcalm d hon hcur).of_error (hrun s.mirror.calm)

end Tract

theorem readDoc_strays (lba : Nat) (hash : H) : Strays live (readDoc lba hash) := by
  refine (Tract.readCached_strays lba).bind fun buf => strays_state fun s => strays_lift _

theorem chunkAt_strays (k : Key) (depth : Nat) : Strays live (chunkAt k depth) := by
  unfold chunkAt
  split
  · exact strays_pure _
  · exact strays_fail _

namespace Hamt

variable {key : Key} {value : Bytes} {leaf : Child H}

theorem pushAdded_strays (lba : Nat) (hash : H) : Strays live (onHamt (pushAdded lba hash)) :=
  strays_onHamt (fun _ => rfl) (fun _ => List.prefix_refl _) (fun _ => List.prefix_append _ _) fun _ => List.prefix_refl _

theorem pushRemoved_strays (lba : Nat) (hash : H) : Strays live (onHamt (pushRemoved lba hash)) :=
  strays_onHamt (fun _ => rfl) (fun _ => List.prefix_refl _) (fun _ => List.prefix_refl _) fun _ => List.prefix_append _ _

theorem pushNode_strays (node : Node H) : Strays live (pushNode node) := by
  refine strays_state fun s => Strays.bind ?_ fun _ => strays_pure _
  exact strays_onHamt (fun _ => rfl) (fun _ => List.prefix_append _ _) (fun _ => List.prefix_refl _) fun _ => List.prefix_refl _

theorem removeSealed_strays (lba : Nat) : Strays live (removeSealed lba : Prog Error (Store H) Unit) := by
  refine (Tract.read_strays lba).bind fun buf => ?_
  split
  · exact pushRemoved_strays lba _
  · exact strays_pure ()

theorem removeLeafBlocks_strays (lba : Nat) (hash : H) : Strays live (removeLeafBlocks lba hash) := by
  refine (pushRemoved_strays lba hash).bind fun _ => (readDoc_strays lba hash).bind fun doc => ?_
  split
  · exact strays_each removeSealed_strays _
  · exact strays_state fun s => (strays_lift _).bind fun ps => strays_each removeSealed_strays ps
  · exact strays_pure ()

theorem split_strays : ∀ (fuel depth : Nat) (a b : Key × Child H), Strays live (split fuel depth a b) := by
  intro fuel
  induction fuel with
  | zero => exact fun _ _ _ => strays_fail _
  | succ fuel ih =>
    intro depth a b
    refine (chunkAt_strays _ _).bind fun ca => (chunkAt_strays _ _).bind fun cb => ?_
    dsimp only
    split
    · exact (ih (depth + 1) a b).bind fun sub => (pushNode_strays _).bind fun idx => strays_pure _
    · exact (pushNode_strays _).bind fun idx => strays_pure _

/-- What comes after strays only where it ends in an error. -/
theorem strayed_after {α β : Type} {x : Prog Error (Store H) α} {f : α → Prog Error (Store H) β} (hx : Strays live x)
    (hf : ∀ a s', Sat (f a) s' (fun _ _ => True) fun _ s'' => Strayed live s' s'') :
    Sat (x >>= f) s (fun _ _ => True) fun _ s' => Strayed live s s' :=
  sat_bind (hx s) fun a s' h => (hf a s').mono (fun _ _ h' => h') fun _ _ h' => h.trans h'

/-- An insert that fails has changed no node: a node gets its new child once all below it has gone through. -/
theorem insertChild_strayed : ∀ (fuel depth : Nat) (slot : Option (Child H)) (s : Store H),
    Sat (insertChild key leaf fuel depth slot) s (fun _ _ => True) fun _ s' => Strayed live s s' := by
  intro fuel
  induction fuel with
  | zero => exact fun _ _ s => sat_fail (.refl live s)
  | succ fuel ih =>
    intro depth slot s
    rcases slot with _ | ⟨hash, lba⟩ | idx
    · exact sat_pure trivial
    · have hleaf : ∀ (k : Key) (s : Store H), Sat (if k = key then do
            removeLeafBlocks lba hash
            pure leaf
          else split descentFuel depth (k, .committed hash lba) (key, leaf)) s
          (fun _ _ => True) fun _ s' => Strayed live s s' := by
        intro k s
        split
        · exact strayed_after (removeLeafBlocks_strays lba hash) fun _ _ => sat_pure trivial
        · exact (split_strays _ _ _ _ s).mono (fun _ _ _ => trivial) fun _ _ h => h
      rw [insertChild]
      refine strayed_after (readDoc_strays lba hash) fun doc s => ?_
      split
      · exact sat_pure trivial
      next node =>
        refine strayed_after (x := nodeAtDepth node lba depth) ?_ fun _ s => ?_
        · unfold nodeAtDepth
          split
          · exact strays_pure ()
          · exact strays_fail _
        refine strayed_after (pushNode_strays node) fun idx s => strayed_after (chunkAt_strays key depth) fun c s => ?_
        exact sat_bind (ih (depth + 1) _ s) fun sub s' _ => trivial
      · exact hleaf _ s
      · exact hleaf _ s
      · exact hleaf _ s
      · exact sat_fail (.refl live s)
    · rw [insertChild]
      refine strayed_after (chunkAt_strays key depth) fun c s => strayed_after (x := nodeAt idx) ?_ fun node s => ?_
      · refine strays_state fun s => ?_
        split
        · exact strays_pure _
        · exact strays_fail _
      exact sat_bind (ih (depth + 1) _ s) fun sub s' _ => trivial

theorem putLeaf_strays (key : Key) (value : Bytes) : Strays live (putLeaf live.liveness key value) := by
  have hone : ∀ b : Block H, b.NotRoot → Strays live (Tract.appendOne live.liveness b) := by
    intro b hb
    refine (Tract.appendWith_strays fun i hi => ?_).bind fun ps => ?_
    · obtain rfl : i = 0 := Nat.lt_one_iff.mp hi
      exact hb
    · split
      · exact strays_pure _
      · exact strays_fail _
  unfold putLeaf
  split
  · exact (hone _ (notRoot_sealBlock (by simp))).bind fun lba => (pushAdded_strays _ _).bind fun _ => strays_pure _
  · refine (Tract.appendWith_strays fun i _ => notRoot_sealBlock (by simp)).bind fun placed => ?_
    refine (strays_each (fun p => pushAdded_strays _ _) _).bind fun _ => ?_
    refine strays_lift_bind fun leaf hleaf => ?_
    have hroot : leaf.NotRoot := by
      unfold encodeExtent at hleaf
      split at hleaf <;> cases hleaf
      exact notRoot_sealBlock (by simp)
    exact (hone leaf hroot).bind fun _ => (pushAdded_strays _ _).bind fun _ => strays_pure _

/-- A put before it takes its delta back. -/
theorem putInner_strayed (key : Key) (value : Bytes) (s : Store H) :
    Sat (putInner live.liveness key value) s (fun _ _ => True) fun _ s' => Strayed live s s' := by
  refine strayed_after (putLeaf_strays key value) fun r s₁ => sat_state ?_
  exact sat_bind (insertChild_strayed _ _ _ s₁) fun _ _ _ => trivial

/-- A put that fails keeps the delta it came with. -/
theorem put_strayed (hrun : (put live.liveness key value).run s = (.error e, s')) :
    Strayed live s s' ∧ s'.hamt.delta = s.hamt.delta := by
  have hsat : Sat (put live.liveness key value) s (fun _ _ => True)
      fun _ s' => Strayed live s s' ∧ s'.hamt.delta = s.hamt.delta := by
    refine sat_state (sat_try (putInner_strayed key value s) (fun _ _ _ => sat_pure trivial) fun e s₁ h => ?_)
    obtain ⟨added, hadded⟩ := h.added
    obtain ⟨removed, hremoved⟩ := h.removed
    have hdelta : (⟨s₁.hamt.delta.added.take s.hamt.delta.added.length,
        s₁.hamt.delta.removed.take s.hamt.delta.removed.length⟩ : Delta H) = s.hamt.delta := by
      rw [← hadded, ← hremoved, List.take_left, List.take_left]
    refine ⟨h.of_hamt h.root h.arena ?_ ?_, hdelta⟩
    · exact (congrArg Delta.added hdelta).symm ▸ List.prefix_refl _
    · exact (congrArg Delta.removed hdelta).symm ▸ List.prefix_refl _
  exact hsat.of_error hrun

end Hamt

/-- From reads of `s` and from reads of `s'`, `x` comes to the same. -/
def Echoes (d : Dev H) (s s' : Store H) {α : Type} (x : Prog Error (Store H) α) : Prop :=
  ∀ s₁ s₂, s.Reads d s₁ → s'.Reads d s₂ → ∃ r s₁' s₂', x.run s₁ = (r, s₁') ∧ x.run s₂ = (r, s₂') ∧
    s.Reads d s₁' ∧ s'.Reads d s₂'

section Echoes

variable {α β : Type}

theorem echoes_pure (a : α) : Echoes d s s' (pure a : Prog Error (Store H) α) :=
  fun s₁ s₂ h₁ h₂ => ⟨_, s₁, s₂, rfl, rfl, h₁, h₂⟩

theorem echoes_fail (e : Error) : Echoes d s s' (fail e : Prog Error (Store H) α) :=
  fun s₁ s₂ h₁ h₂ => ⟨_, s₁, s₂, rfl, rfl, h₁, h₂⟩

theorem Echoes.bind {x : Prog Error (Store H) α} {f : α → Prog Error (Store H) β} (hx : Echoes d s s' x)
    (hf : ∀ a, Echoes d s s' (f a)) : Echoes d s s' (x >>= f) := by
  intro s₁ s₂ h₁ h₂
  obtain ⟨r, t₁, t₂, hr₁, hr₂, h₁, h₂⟩ := hx s₁ s₂ h₁ h₂
  simp only [bind_run, hr₁, hr₂]
  rcases r with e | a
  · exact ⟨_, t₁, t₂, rfl, rfl, h₁, h₂⟩
  · exact hf a t₁ t₂ h₁ h₂

theorem echoes_lift_bind {r : Except Error α} {f : α → Prog Error (Store H) β}
    (hf : ∀ a, r = .ok a → Echoes d s s' (f a)) : Echoes d s s' (lift r >>= f) := by
  rcases r with e | a
  · exact echoes_fail e
  · exact hf a rfl

theorem echoes_readDoc (hon : s.On d) (hon' : s'.On d) (hlen : s'.tract.len = s.tract.len) {lba : Nat} {hash : H}
    (hview : lba < s.tract.len → s'.view d lba = s.view d lba) {f : Option (TractDoc H) → Prog Error (Store H) β}
    (hf : ∀ doc, lba < s.tract.len → docOf (s.view d lba) lba hash s.tract.len = .ok doc → Echoes d s s' (f doc)) :
    Echoes d s s' (readDoc lba hash >>= f) := by
  intro s₁ s₂ h₁ h₂
  by_cases hlt : lba < s.tract.len
  · obtain ⟨t₁, hr₁, hreads₁⟩ := readDoc_run (h₁.on hon) (by rw [h₁.tract]; exact hlt) hash
    obtain ⟨t₂, hr₂, hreads₂⟩ := readDoc_run (h₂.on hon') (by rw [h₂.tract, hlen]; exact hlt) hash
    rw [h₁.view, h₁.tract] at hr₁
    rw [h₂.view, h₂.tract, hlen, hview hlt] at hr₂
    simp only [bind_run, hr₁, hr₂]
    rcases hdoc : docOf (s.view d lba) lba hash s.tract.len with e | doc
    · exact ⟨_, t₁, t₂, rfl, rfl, h₁.trans hreads₁, h₂.trans hreads₂⟩
    · exact hf doc hlt hdoc t₁ t₂ (h₁.trans hreads₁) (h₂.trans hreads₂)
  · have hpast : ∀ t : Store H, t.tract.len = s.tract.len → (readDoc lba hash >>= f).run t = (.error (.bounds lba), t) := by
      intro t ht
      rw [← ht] at hlt
      simp [readDoc, Tract.readCached, Tract.inBounds, hlt]
    exact ⟨_, s₁, s₂, hpast s₁ (by rw [h₁.tract]), hpast s₂ (by rw [h₂.tract, hlen]), h₁, h₂⟩

theorem echoes_readRuns (hon : s.On d) (hon' : s'.On d) (hlen : s'.tract.len = s.tract.len) (key : Key)
    {runs : List (List Nat)} : ∀ start : Nat, (∀ r ∈ runs, IsRun r) →
      (∀ p ∈ runs.flatten, p < s.tract.len → s'.view d p = s.view d p) → Echoes d s s' (readRuns key start runs) := by
  induction runs with
  | nil => exact fun _ _ _ => echoes_pure _
  | cons run runs ih =>
    intro start hruns hview
    simp only [List.mem_cons, forall_eq_or_imp] at hruns
    have hread : Echoes d s s' (Tract.readRun (run.headD 0) run.length) := by
      intro s₁ s₂ h₁ h₂
      by_cases hpast : s.tract.len ≤ run.headD 0 ∨ s.tract.len - run.headD 0 < run.length
      · have hfail : ∀ t : Store H, t.tract.len = s.tract.len →
            (Tract.readRun (run.headD 0) run.length).run t = (.error (.bounds (run.headD 0)), t) := by
          intro t ht
          rw [← ht] at hpast
          simp only [Tract.readRun, bind_run, state_run, if_pos hpast]
          rfl
        exact ⟨_, s₁, s₂, hfail s₁ (by rw [h₁.tract]), hfail s₂ (by rw [h₂.tract, hlen]), h₁, h₂⟩
      · have hn : 0 < run.length := List.length_pos_iff.mpr hruns.1.1
        refine ⟨_, s₁, s₂, Tract.readRun_run (h₁.on hon) (by rw [h₁.tract]; omega) hn, ?_, h₁, h₂⟩
        rw [Tract.readRun_run (h₂.on hon') (by rw [h₂.tract, hlen]; omega) hn, h₁.view, h₂.view]
        have hsame : ∀ i ∈ List.range run.length, s'.view d (run.headD 0 + i) = s.view d (run.headD 0 + i) := by
          intro i hi
          have hmem : run.headD 0 + i ∈ (List.range run.length).map fun i => run.headD 0 + i :=
            List.mem_map.mpr ⟨i, hi, rfl⟩
          rw [← hruns.1.2] at hmem
          exact hview _ (List.mem_append_left _ hmem) (by have := List.mem_range.mp hi; omega)
        rw [List.map_congr_left hsame]
    refine hread.bind fun bufs => echoes_lift_bind fun bytes _ => ?_
    exact (ih _ hruns.2 fun p hp => hview p (List.mem_append_right _ hp)).bind fun rest => echoes_pure _

theorem echoes_readFurrows (hon : s.On d) (hon' : s'.On d) (hlen : s'.tract.len = s.tract.len) (key : Key) (size : Nat)
    {furrows : List Nat} (hview : ∀ p ∈ furrows, p < s.tract.len → s'.view d p = s.view d p) :
    Echoes d s s' (readFurrows key size furrows) := by
  obtain ⟨hflat, hall⟩ := cutRuns_spec runStep furrows
  have hruns := echoes_readRuns hon hon' hlen key 0 hall (by rwa [hflat])
  unfold readFurrows
  split
  · exact echoes_fail _
  · refine hruns.bind fun out => ?_
    split
    · exact echoes_fail _
    · exact echoes_pure _

end Echoes

/-- Every block and every node that a lookup from the pointer may read is there, the blocks in positions of `K`. -/
def Sheltered (K : Nat → Prop) (view : Nat → Block H) (len : Nat) (arena : List (Node H)) : Nat → Child H → Prop
  | 0, _ => True
  | fuel + 1, .dirty idx => ∃ node, arena[idx]? = some node ∧
    ∀ c child, node.children c = some child → Sheltered K view len arena fuel child
  | fuel + 1, .committed hash lba => lba < len → K lba ∧
    (∀ node, docOf (view lba) lba hash len = .ok (some (.node node)) →
      ∀ c child, node.children c = some child → Sheltered K view len arena fuel child) ∧
    (∀ key size furrows, docOf (view lba) lba hash len = .ok (some (.direct key size furrows)) →
      ∀ p ∈ furrows, p < len → K p) ∧
    ∀ key size runs furrows, docOf (view lba) lba hash len = .ok (some (.extent key size runs)) →
      expandRuns H runs size len = .ok furrows → ∀ p ∈ furrows, p < len → K p

namespace Hamt

theorem echoes_lookupFrom {K : Nat → Prop} (hon : s.On d) (hon' : s'.On d) (hlen : s'.tract.len = s.tract.len)
    (harena : s.hamt.arena <+: s'.hamt.arena) (hview : ∀ p, K p → s'.view d p = s.view d p) (key : Key) :
    ∀ (fuel depth : Nat) (c : Child H), Sheltered K (s.view d) s.tract.len s.hamt.arena fuel c →
      Echoes d s s' (lookupFrom key fuel depth c) := by
  intro fuel
  induction fuel with
  | zero => exact fun _ _ _ => echoes_fail _
  | succ fuel ih =>
    have hchunk : ∀ depth, Echoes d s s' (chunkAt key depth) := by
      intro depth
      unfold chunkAt
      split
      · exact echoes_pure _
      · exact echoes_fail _
    intro depth c h
    rcases c with ⟨hash, lba⟩ | idx
    · rw [lookupFrom]
      refine echoes_readDoc hon hon' hlen (fun hlt => hview lba (h hlt).1) fun doc hlt hdoc => ?_
      obtain ⟨-, hnode, hdirect, hextent⟩ := h hlt
      split
      · exact echoes_pure _
      next node =>
        refine Echoes.bind ?_ fun _ => (hchunk depth).bind fun c => ?_
        · unfold nodeAtDepth
          split
          · exact echoes_pure _
          · exact echoes_fail _
        · split
          · exact echoes_pure _
          next child hchild => exact ih (depth + 1) child (hnode node hdoc c child hchild)
      · exact echoes_pure _
      next k size furrows =>
        split
        · exact echoes_pure _
        · refine (echoes_readFurrows hon hon' hlen key size fun p hp hlt => ?_).bind fun _ => echoes_pure _
          exact hview p (hdirect k size furrows hdoc p hp hlt)
      next k size runs =>
        split
        · exact echoes_pure _
        · intro s₁ s₂ h₁ h₂
          have hrest : Echoes d s s' (lift (expandRuns H runs size s.tract.len) >>= fun positions =>
              readFurrows key size positions >>= fun value => pure (some value)) := by
            refine echoes_lift_bind fun furrows hruns => ?_
            refine (echoes_readFurrows hon hon' hlen key size fun p hp hlt => ?_).bind fun _ => echoes_pure _
            exact hview p (hextent k size runs furrows hdoc hruns p hp hlt)
          have h := hrest s₁ s₂ h₁ h₂
          simp only [bind_run, state_run, h₁.tract, h₂.tract, hlen] at h ⊢
          exact h
      · exact echoes_fail _
    · obtain ⟨node, hnode, hchildren⟩ := h
      have hnode' : s'.hamt.arena[idx]? = some node := by
        obtain ⟨more, hmore⟩ := harena
        rw [← hmore]
        exact List.getElem?_append_left (List.getElem?_eq_some_iff.mp hnode).1 ▸ hnode
      have hat : ∀ {β : Type} {f : Node H → Prog Error (Store H) β}, Echoes d s s' (f node) →
          Echoes d s s' (nodeAt idx >>= f) := by
        intro β f hf s₁ s₂ h₁ h₂
        rw [bind_run, bind_run, nodeAt_run (s := s₁) (by rw [h₁.hamt]; exact hnode),
          nodeAt_run (s := s₂) (by rw [h₂.hamt]; exact hnode')]
        exact hf s₁ s₂ h₁ h₂
      rw [lookupFrom]
      refine hat ((hchunk depth).bind fun c => ?_)
      split
      · exact echoes_pure _
      next child hchild => exact ih (depth + 1) child (hchildren c child hchild)

/-- A lookup finds what it found where all it may read is kept. -/
theorem lookup_kept {K : Nat → Prop} (hon : s.On d) (hon' : s'.On d) (hlen : s'.tract.len = s.tract.len)
    (hroot : s'.hamt.root = s.hamt.root) (harena : s.hamt.arena <+: s'.hamt.arena)
    (hview : ∀ p, K p → s'.view d p = s.view d p)
    (h : ∀ c ∈ s.hamt.root, Sheltered K (s.view d) s.tract.len s.hamt.arena descentFuel c) (key : Key) :
    ((lookup key).run s').1 = ((lookup key).run s).1 := by
  simp only [lookup, bind_run, state_run, hroot]
  rcases hc : s.hamt.root with _ | c
  · rfl
  · obtain ⟨r, t₁, t₂, h₁, h₂, -⟩ := echoes_lookupFrom hon hon' hlen harena hview key descentFuel 0 c (h c hc) s s'
      hon.refl hon'.refl
    simp only [h₁, h₂]

end Hamt

/-- Blocks in clean space that nothing refers to leave the index and its account as they were. -/
theorem Accounted.strayed {P : Block H → Prop} {t : Tree H} (h : Accounted P live d s.calm t) (hs : Strayed live s s')
    (hdelta : s'.hamt.delta = s.hamt.delta) : Accounted P live d s'.calm t := by
  have hsteps := hs.steps d h.on h.cursors
  have hstands : ∀ e ∈ live.map ++ s.hamt.delta.added ++ s.hamt.delta.removed, Stands P d s.calm e → Stands P d s'.calm e := by
    intro e he hst
    rw [Stands, show s'.calm.hamt.delta = s.hamt.delta from hdelta, hsteps.frame _ (h.kept_record he)]
    exact hst
  constructor
  · exact hsteps.on
  · exact hsteps.cursors
  · rw [show s'.calm.hamt.root = s.hamt.root from hs.root]
    refine Rep.congr h.rep (le_of_eq hsteps.len.symm) (fun p hp => hsteps.frame p (h.kept hp)) fun u hu => ?_
    obtain ⟨more, hmore⟩ := hs.arena
    show s'.hamt.arena[u]? = s.hamt.arena[u]?
    rw [← hmore]
    exact List.getElem?_append_left (h.rep.uses_lt u hu)
  · exact h.sep
  · rw [show s'.calm.hamt.delta = s.hamt.delta from hdelta]
    exact h.claims
  · rw [show s'.calm.hamt.delta = s.hamt.delta from hdelta]
    intro e he
    obtain ⟨hbehind, hst⟩ := h.added e he
    exact ⟨hsteps.behind _ hbehind, hstands e (List.mem_append_left _ (List.mem_append_right _ he)) hst⟩
  · rw [show s'.calm.hamt.delta = s.hamt.delta from hdelta]
    intro e he
    obtain ⟨hheld, hst⟩ := h.removed e he
    exact ⟨hheld, hstands e (List.mem_append_right _ he) hst⟩
  · exact fun e he => hstands e (List.mem_append_left _ (List.mem_append_left _ he)) (h.known e he)
  · rw [show s'.calm.hamt.delta = s.hamt.delta from hdelta]
    exact h.record

namespace Hamt

/-- The committed root of a flush represents what the index did. -/
theorem flush_represents {P : Block H → Prop} {t : Tree H} (h : Accounted P live d s t) {hash : H} {lba : Nat}
    (hrun : (flush live.liveness).run s = (.ok (hash, lba), s')) (key : Key) :
    ((lookup key).run { s' with hamt := fromRoot hash lba }).1 = ((lookup key).run s).1 := by
  obtain ⟨hroot, -, t', hgained, hfind⟩ := (flush_accounted h).of_ok hrun
  have hrep : ({ s' with hamt := fromRoot hash lba } : Store H).Holds d [] (fromRoot hash lba : Hamt H).root t' := by
    have hrep' := hgained.accounted.rep
    rw [hroot] at hrep'
    refine Rep.congr hrep' le_rfl (fun _ _ => rfl) fun u hu => absurd hu (hrep'.no_uses (fun i hi => ?_) u)
    simp only [fromRoot] at hi
    split at hi <;> cases hi
  obtain ⟨u, hlook, -⟩ := lookup_run h.on h.rep key
  obtain ⟨u', hlook', -⟩ := lookup_run (s := { s' with hamt := fromRoot hash lba })
    ⟨hgained.accounted.on.ready, hgained.accounted.on.fits⟩ hrep key
  rw [hlook, hlook', hfind]

/-- A put that is refused is not seen: only blocks in what was clean space and the plow show that it was tried. -/
theorem refused_put_unseen {key : Key} {value : Bytes} {e : Error}
    (hrun : (put live.liveness key value).run s = (.error e, s')) :
    s'.hamt.delta = s.hamt.delta ∧ s'.hamt.root = s.hamt.root ∧ s.hamt.arena <+: s'.hamt.arena ∧
      s.mirror.calm.Untouched s'.mirror.calm ∧ s'.tract = { s.tract with plow := s'.tract.plow } ∧
      (∃ items, s'.mirror.staged = s.mirror.staged ++ items ∧ ∀ x ∈ items, ∃ q, s.tract.plow ≤ q ∧
        q < s'.tract.plow ∧ x.1 = s.tract.base + q % s.tract.len ∧ ¬ live.Refers (q % s.tract.len)) ∧
      ∀ d, s.calm.On d → s.tract.Cursors →
        s'.calm.On d ∧ s.tract.plow ≤ s'.tract.plow ∧ s'.tract.plow ≤ s.tract.reap + s.tract.len ∧
        (∀ p, live.Refers p ∨ s.tract.Behind p → s'.calm.view d p = s.calm.view d p) ∧
        ((∀ c ∈ s.hamt.root, Sheltered (fun p => live.Refers p ∨ s.tract.Behind p) (s.calm.view d) s.tract.len
          s.hamt.arena descentFuel c) → ∀ k, ((lookup k).run s'.calm).1 = ((lookup k).run s.calm).1) ∧
        ∀ P t, Accounted P live d s.calm t → Accounted P live d s'.calm t ∧
          (∀ k, ((lookup k).run s'.calm).1 = ((lookup k).run s.calm).1) ∧
          ∀ s'' hash lba, (flush live.liveness).run s'.calm = (.ok (hash, lba), s'') →
            ∀ k, ((lookup k).run { s'' with hamt := fromRoot hash lba }).1 = ((lookup k).run s.calm).1 := by
  obtain ⟨hs, hdelta⟩ := put_strayed hrun
  refine ⟨hdelta, hs.root, hs.arena, hs.untouched, hs.tract, hs.staged, fun d hon hcur => ?_⟩
  have hsteps := hs.steps d hon hcur
  have hlap : s'.tract.plow ≤ s.tract.reap + s.tract.len := by
    have hlap := hsteps.cursors.lap
    rw [hsteps.reap, hsteps.len] at hlap
    exact hlap
  refine ⟨hsteps.on, hs.onward, hlap, hsteps.frame, fun hkept k => ?_, fun P t hacc => ?_⟩
  · exact lookup_kept hon hsteps.on hsteps.len hs.root hs.arena hsteps.frame hkept k
  · have hacc' := hacc.strayed hs hdelta
    have hlook : ∀ k, ((lookup k).run s'.calm).1 = ((lookup k).run s.calm).1 := by
      intro k
      obtain ⟨u, h, -⟩ := lookup_run hacc.on hacc.rep k
      obtain ⟨u', h', -⟩ := lookup_run hacc'.on hacc'.rep k
      rw [h, h']
    exact ⟨hacc', hlook, fun s'' hash lba hflush k => (flush_represents hacc' hflush k).trans (hlook k)⟩

/-- The device of `oneLone` about to lose a read. -/
def losingLone : Store Digest :=
  { oneLone with mirror := { oneLone.mirror with a := oneLone.mirror.a.map fun d => { d with script := [some .lost] } } }

/-- The leaf of the put is in the tract when the descent fails. -/
theorem refused_put_unseen_losing : ∃ s', (put oneLoneLive.liveness 7 [3]).run losingLone = (.error .io, s') ∧
    s'.tract.plow = 2 ∧ s'.hamt.delta = ⟨[], []⟩ ∧ ((lookup 5).run s'.calm).1 = .ok (some [1, 2]) ∧
    ((lookup 7).run s'.calm).1 = .ok none := by
  have herr : ((put oneLoneLive.liveness 7 [3]).run losingLone).1 = .error .io := by decide +kernel
  have hcalm : losingLone.calm = oneLone := rfl
  obtain ⟨hdelta, -, -, -, -, -, hrest⟩ := refused_put_unseen (s := losingLone) (Prod.ext herr rfl)
  have hacc := oneLone_accounted
  rw [← hcalm] at hacc
  obtain ⟨-, -, -, -, -, hall⟩ := hrest _ hacc.on hacc.cursors
  obtain ⟨-, hlook, -⟩ := hall _ _ hacc
  refine ⟨_, Prod.ext herr rfl, by decide +kernel, hdelta, ?_, ?_⟩
  · rw [hlook, hcalm]
    decide +kernel
  · rw [hlook, hcalm]
    decide +kernel

end Hamt
end Manifestus
