import Manifestus.Index.AnyImage
import Manifestus.Engine.Digest

/-! The depth-first walk and the walk in steps read the same index: what each meets, and when it ends
without an error, is told of the tract alone, in no order. -/
set_option linter.unusedSectionVars false

namespace Manifestus
open Prog Store

variable {H : Type} [Crates H]

/-- What a walk meets: a block of the index, a furrow, a pointer to a zeroed block. -/
inductive Arrival (H : Type) where
  | block (lba : Nat) (hash : H)
  | furrow (pos : Nat)
  | stale (pointer : StalePointer H)

namespace Arrival

def pos : Arrival H → Nat
  | block lba _ => lba
  | furrow p => p
  | stale pointer => pointer.lba

def asBlock : Arrival H → Option (Nat × H)
  | block lba hash => some (lba, hash)
  | _ => none

def asFurrow : Arrival H → Option Nat
  | furrow p => some p
  | _ => none

def asStale : Arrival H → Option (StalePointer H)
  | stale pointer => some pointer
  | _ => none

/-- A block of the index, or a furrow with its seal. -/
def asLive (view : Nat → Block H) : Arrival H → Option (Nat × H)
  | block lba hash => some (lba, hash)
  | furrow p => (sealedHp (view p)).map (p, ·)
  | stale _ => none

end Arrival

/-- The furrows a document names and the pointers below it, once its own checks pass. -/
def TractDoc.below (len : Nat) (route : Key) (depth : Nat) : TractDoc H → Option (List (Arrival H) × List (WalkItem H))
  | .node n => if n.depth = depth then some ([], Walker.childItems n route depth (List.finRange 32)) else none
  | .direct _ _ furrows => some (furrows.map .furrow, [])
  | .extent _ size runs =>
    match expandRuns H runs size len with
    | .ok ps => some (ps.map .furrow, [])
    | .error _ => none
  | _ => some ([], [])

/-- What one pointer is found to lead to; none where a check refuses it. -/
def WalkItem.opened (view : Nat → Block H) (len : Nat) (item : WalkItem H) :
    Option (List (Arrival H) × List (WalkItem H)) :=
  if item.lba < len then
    match docOf (view item.lba) item.lba item.hash len with
    | .error _ => none
    | .ok none => some ([.stale ⟨item.route, item.hash, item.lba⟩], [])
    | .ok (some doc) => (doc.below len item.route item.depth).map fun x => (.block item.lba item.hash :: x.1, x.2)
  else none

/-- Every pointer of the list opens, and so does all that is below it; `es` is met on the way. -/
inductive Toured (view : Nat → Block H) (len : Nat) : List (WalkItem H) → List (Arrival H) → Prop
  | nil : Toured view len [] []
  | cons {item : WalkItem H} {items children : List (WalkItem H)} {here below rest : List (Arrival H)}
      (hopen : item.opened view len = some (here, children)) (hbelow : Toured view len children below)
      (hrest : Toured view len items rest) : Toured view len (item :: items) (here ++ below ++ rest)

section Tour

variable {view : Nat → Block H} {len : Nat} {xs ys : List (WalkItem H)} {es es' : List (Arrival H)}

theorem Toured.append (h : Toured view len xs es) (h' : Toured view len ys es') :
    Toured view len (xs ++ ys) (es ++ es') := by
  induction h with
  | nil => exact h'
  | cons hopen hbelow _ _ ih =>
    rw [List.append_assoc _ _ es', List.cons_append]
    exact .cons hopen hbelow ih

theorem toured_append : Toured view len (xs ++ ys) es ↔
    ∃ a b, Toured view len xs a ∧ Toured view len ys b ∧ es = a ++ b := by
  constructor
  · intro h
    induction xs generalizing es with
    | nil => exact ⟨[], es, .nil, h, rfl⟩
    | cons x xs ih =>
      cases h with
      | cons hopen hbelow hrest =>
        obtain ⟨a, b, ha, hb, rfl⟩ := ih hrest
        exact ⟨_, b, .cons hopen hbelow ha, hb, (List.append_assoc _ _ _).symm⟩
  · intro ⟨a, b, ha, hb, heq⟩
    rw [heq]
    exact ha.append hb

theorem toured_singleton {item : WalkItem H} : Toured view len [item] es ↔
    ∃ here children below, item.opened view len = some (here, children) ∧ Toured view len children below ∧
      es = here ++ below := by
  constructor
  · intro h
    cases h with
    | cons hopen hbelow hrest =>
      cases hrest
      exact ⟨_, _, _, hopen, hbelow, List.append_nil _⟩
  · intro ⟨here, children, below, hopen, hbelow, heq⟩
    rw [heq, ← List.append_nil (here ++ below)]
    exact .cons hopen hbelow .nil

theorem Toured.unique (h : Toured view len xs es) (h' : Toured view len xs es') : es = es' := by
  induction h generalizing es' with
  | nil => cases h'; rfl
  | cons hopen _ _ ihb ihr =>
    cases h' with
    | cons hopen' hbelow' hrest' =>
      rw [hopen, Option.some.injEq, Prod.mk.injEq] at hopen'
      obtain ⟨rfl, rfl⟩ := hopen'
      rw [ihb hbelow', ihr hrest']

end Tour

namespace Walker

variable {d : Dev H} {w w' w'' : Walker H} {note : Arrival H → Option (Nat × H)} {name : Arrival H → Option Nat}
  {es es' : List (Arrival H)}

/-- `w'` is `w` after meeting `es`: of each, what `note` and `name` make of it is reported. -/
structure Noted (note : Arrival H → Option (Nat × H)) (name : Arrival H → Option Nat) (d : Dev H) (w : Walker H)
    (es : List (Arrival H)) (w' : Walker H) : Prop where
  store : w.store.Reads d w'.store
  marked : w'.walk.Marked w.store.tract.len
  marks : w'.marks.Perm (es.map Arrival.pos ++ w.marks)
  liveBlocks : w'.walk.liveBlocks = w.walk.liveBlocks ++ es.filterMap note
  referenced : w'.walk.referenced = w.walk.referenced ++ es.filterMap name
  stale : w'.walk.stale = w.walk.stale ++ es.filterMap Arrival.asStale

namespace Noted

theorem refl (hon : w.store.On d) (h : w.walk.Marked w.store.tract.len) : Noted note name d w [] w :=
  ⟨hon.refl, h, .refl _, by simp, by simp, by simp⟩

theorem trans (h : Noted note name d w es w') (h' : Noted note name d w' es' w'') :
    Noted note name d w (es ++ es') w'' where
  store := h.store.trans h'.store
  marked := by rw [← h.store.tract]; exact h'.marked
  marks := by
    rw [List.map_append]
    refine h'.marks.trans ((h.marks.append_left _).trans ?_)
    rw [← List.append_assoc]
    exact List.perm_append_comm.append_right _
  liveBlocks := by rw [h'.liveBlocks, h.liveBlocks, List.filterMap_append, List.append_assoc]
  referenced := by rw [h'.referenced, h.referenced, List.filterMap_append, List.append_assoc]
  stale := by rw [h'.stale, h.stale, List.filterMap_append, List.append_assoc]

theorem here (h : Noted note name d w es w') : w'.walk.Marked w'.store.tract.len := by
  rw [h.store.tract]
  exact h.marked

/-- No position was met twice. -/
theorem nodup (h : Noted note name d w es w') : (es.map Arrival.pos ++ w.marks).Nodup :=
  h.marks.nodup_iff.mp h.marked.nodup

/-- What comes twice after `es` comes twice after all. -/
theorem twice {ps : List Nat} (h : Noted note name d w es w') (hps : ¬ (ps ++ w'.marks).Nodup) :
    ¬ (es.map Arrival.pos ++ ps ++ w.marks).Nodup := by
  intro hnd
  refine hps (((h.marks.append_left ps).trans ?_).nodup_iff.mpr hnd)
  rw [← List.append_assoc]
  exact List.perm_append_comm.append_right _

end Noted

/-- A position is met: for the first time, or the walk ends. -/
theorem reach_sat (h : w.walk.Marked w.store.tract.len) {lba : Nat} (hlt : lba < w.store.tract.len) :
    Sat (reach lba) w
      (fun _ w' => lba ∉ w.marks ∧ w' = { w with walk := { w.walk with
        visited := { w.walk.visited with marks := lba :: w.walk.visited.marks } } })
      (fun _ _ => lba ∈ w.marks) := by
  by_cases hm : lba ∈ w.walk.visited.marks
  · have hin : ¬ w.walk.visited.words ≤ lba / 2 ^ 6 := by
      rw [h.words]
      unfold divCeil
      omega
    refine sat_state ?_
    rw [if_neg hin, if_pos hm]
    exact sat_fail hm
  · unfold Sat
    rw [reach_run (s := w.store) h.words hlt hm]
    exact ⟨hm, rfl⟩

theorem marked_reached (h : w.walk.Marked w.store.tract.len) {lba : Nat} (hlt : lba < w.store.tract.len)
    (hnew : lba ∉ w.marks) :
    Walk.Marked w.store.tract.len { w.walk with
      visited := { w.walk.visited with marks := lba :: w.walk.visited.marks } } := by
  refine ⟨h.words, List.nodup_cons.mpr ⟨hnew, h.nodup⟩, fun p hp => ?_⟩
  rcases List.mem_cons.mp hp with rfl | hp
  · exact hlt
  · exact h.lt p hp

/-- The block of a pointer is met and its hash taken. -/
theorem noted_block {s₁ : Store H} (hreads : w.store.Reads d s₁) (h : w.walk.Marked w.store.tract.len) {lba : Nat}
    (hlt : lba < w.store.tract.len) (hnew : lba ∉ w.marks) {hash : H} (hnote : note (.block lba hash) = some (lba, hash))
    (hname : name (.block lba hash) = none) :
    Noted note name d w [.block lba hash] ⟨s₁, { w.walk with
      visited := { w.walk.visited with marks := lba :: w.walk.visited.marks },
      liveBlocks := w.walk.liveBlocks ++ [(lba, hash)] }⟩ :=
  ⟨hreads, (marked_reached h hlt hnew).congr rfl, .refl _, by simp [hnote], by simp [hname], by simp [Arrival.asStale]⟩

/-- The block of a pointer is met and is zero. -/
theorem noted_stale {s₁ : Store H} (hreads : w.store.Reads d s₁) (h : w.walk.Marked w.store.tract.len) {lba : Nat}
    (hlt : lba < w.store.tract.len) (hnew : lba ∉ w.marks) {hash : H} {route : Key}
    (hnote : note (.stale ⟨route, hash, lba⟩) = none) (hname : name (.stale ⟨route, hash, lba⟩) = none) :
    Noted note name d w [.stale ⟨route, hash, lba⟩] ⟨s₁, { w.walk with
      visited := { w.walk.visited with marks := lba :: w.walk.visited.marks },
      stale := w.walk.stale ++ [⟨route, hash, lba⟩] }⟩ :=
  ⟨hreads, (marked_reached h hlt hnew).congr rfl, .refl _, by simp [hnote], by simp [hname], by simp [Arrival.asStale]⟩

/-- The furrows of a value, one after another. -/
theorem each_furrow_sat {f : Nat → Prog Error (Walker H) Unit}
    (hf : ∀ p (u : Walker H), w.store.Reads d u.store → u.walk.Marked u.store.tract.len → p < u.store.tract.len →
      Sat (f p) u (fun _ u' => Noted note name d u [.furrow p] u') fun _ _ => p ∈ u.marks)
    (hon : w.store.On d) : ∀ (ps : List Nat) (u : Walker H), w.store.Reads d u.store → u.walk.Marked u.store.tract.len →
      (∀ p ∈ ps, p < u.store.tract.len) →
      Sat (each f ps) u (fun _ u' => Noted note name d u (ps.map .furrow) u') fun _ _ => ¬ (ps ++ u.marks).Nodup := by
  intro ps
  induction ps with
  | nil => exact fun u hu h _ => sat_pure (.refl (hu.on hon) h)
  | cons p ps ih =>
    intro u hu h hps
    simp only [List.mem_cons, forall_eq_or_imp] at hps
    refine sat_bind ((hf p u hu h hps.1).mono (fun _ _ hx => hx) fun _ _ hmem hnd => ?_) fun _ u₁ h₁ => ?_
    · exact (List.nodup_cons.mp hnd).1 (List.mem_append_right _ hmem)
    · have hps₁ : ∀ q ∈ ps, q < u₁.store.tract.len := by
        rw [h₁.store.tract]
        exact hps.2
      exact (ih u₁ (hu.trans h₁.store) h₁.here hps₁).mono (fun _ _ h₂ => h₁.trans h₂) fun _ _ htwice => h₁.twice htwice

/-- A furrow by position. -/
theorem refer_sat (hon : w.store.On d) (h : w.walk.Marked w.store.tract.len) {p : Nat} (hlt : p < w.store.tract.len) :
    Sat (refer p) w (fun _ w' => Noted Arrival.asBlock Arrival.asFurrow d w [.furrow p] w') fun _ _ => p ∈ w.marks := by
  refine sat_bind (reach_sat h hlt) fun _ w₁ h₁ => ?_
  obtain ⟨hnew, rfl⟩ := h₁
  exact ⟨hon.refl, (marked_reached h hlt hnew).congr rfl, .refl _, by simp [Arrival.asBlock], by simp [Arrival.asFurrow],
    by simp [Arrival.asStale]⟩

/-- A furrow with its seal. -/
theorem walkFurrow_sat {view : Nat → Block H} (hon : w.store.On d) (hview : w.store.view d = view)
    (h : w.walk.Marked w.store.tract.len) {p : Nat} (hlt : p < w.store.tract.len) :
    Sat (walkFurrow p) w (fun _ w' => Noted (Arrival.asLive view) (fun _ => none) d w [.furrow p] w')
      fun _ _ => p ∈ w.marks := by
  refine sat_bind (reach_sat h hlt) fun _ w₁ h₁ => ?_
  obtain ⟨hnew, rfl⟩ := h₁
  have hread : (onStore (Tract.read p)).run ({ w with walk := { w.walk with
      visited := { w.walk.visited with marks := p :: w.walk.visited.marks } } } : Walker H) =
      (.ok (view p), { w with walk := { w.walk with
        visited := { w.walk.visited with marks := p :: w.walk.visited.marks } } }) := by
    rw [onStore, zoom_run, Tract.read_run hon hlt, hview]
  refine sat_run hread ?_
  have hmarked := marked_reached h hlt hnew
  rcases hs : sealedHp (view p) with _ | hash
  · exact sat_pure ⟨hon.refl, hmarked, .refl _, by simp [Arrival.asLive, hs], by simp, by simp [Arrival.asStale]⟩
  · exact ⟨hon.refl, hmarked.congr rfl, .refl _, by simp [Arrival.asLive, hs], by simp,
      by simp [Arrival.asStale]⟩

/-- A walk of the pointers `xs`: it ends without an error on what they lead to, and just when nothing
is met twice. -/
def Tours (note : Arrival H → Option (Nat × H)) (name : Arrival H → Option Nat) (d : Dev H) (view : Nat → Block H)
    (len : Nat) (xs : List (WalkItem H)) (x : Prog Error (Walker H) Unit) (w : Walker H) : Prop :=
  Sat x w (fun _ w' => ∃ es, Toured view len xs es ∧ Noted note name d w es w')
    fun _ _ => ∀ es, Toured view len xs es → ¬ (es.map Arrival.pos ++ w.marks).Nodup

theorem Tours.bind {view : Nat → Block H} {len : Nat} {xs ys : List (WalkItem H)} {x : Prog Error (Walker H) Unit}
    {y : Unit → Prog Error (Walker H) Unit} (hx : Tours note name d view len xs x w)
    (hy : ∀ w' es, Noted note name d w es w' → Tours note name d view len ys (y ()) w') :
    Tours note name d view len (xs ++ ys) (x >>= y) w := by
  refine sat_bind (hx.mono (fun _ _ h => h) fun _ _ herr es hes hnd => ?_) fun _ w₁ h₁ => ?_
  · obtain ⟨a, b, ha, -, rfl⟩ := toured_append.mp hes
    refine herr a ha (hnd.sublist ?_)
    rw [List.map_append]
    exact (List.sublist_append_left _ _).append_right _
  · obtain ⟨es, hes, hnoted⟩ := h₁
    refine (hy w₁ es hnoted).mono (fun _ w₂ h₂ => ?_) fun _ _ herr es' hes' hnd => ?_
    · obtain ⟨es₂, hes₂, hnoted₂⟩ := h₂
      exact ⟨es ++ es₂, hes.append hes₂, hnoted.trans hnoted₂⟩
    · obtain ⟨a, b, ha, hb, rfl⟩ := toured_append.mp hes'
      obtain rfl := ha.unique hes
      refine hnoted.twice (herr b hb) ?_
      rwa [List.map_append] at hnd

theorem childItems_cons (n : Node H) (route : Key) (depth : Nat) (i : Fin 32) (is : List (Fin 32)) :
    childItems n route depth (i :: is) = childItems n route depth [i] ++ childItems n route depth is := by
  rw [childItems, childItems, childItems, ← List.filterMap_append]
  rfl

section Opened

variable {view : Nat → Block H} {len : Nat} {item : WalkItem H} {here : List (Arrival H)} {children : List (WalkItem H)}

/-- The block of a pointer is met first. -/
theorem opened_head (h : item.opened view len = some (here, children)) : ∃ a rest, here = a :: rest ∧ a.pos = item.lba := by
  unfold WalkItem.opened at h
  split at h
  · split at h
    · cases h
    · cases h
      exact ⟨_, [], rfl, rfl⟩
    · obtain ⟨x, -, hx⟩ := Option.map_eq_some_iff.mp h
      cases hx
      exact ⟨_, x.1, rfl, rfl⟩
  · cases h

theorem not_toured (h : item.opened view len = none) (es : List (Arrival H)) : ¬ Toured view len [item] es := by
  intro hes
  obtain ⟨here, children, below, hopen, -⟩ := toured_singleton.mp hes
  rw [h] at hopen
  cases hopen

/-- Below the block of a pointer. -/
def Below (note : Arrival H → Option (Nat × H)) (name : Arrival H → Option Nat) (d : Dev H) (view : Nat → Block H)
    (len : Nat) (route : Key) (depth : Nat) (doc : TractDoc H) (x : Prog Error (Walker H) Unit) (w : Walker H) : Prop :=
  Sat x w
    (fun _ w' => ∃ here children below, doc.below len route depth = some (here, children) ∧
      Toured view len children below ∧ Noted note name d w (here ++ below) w')
    fun _ _ => ∀ here children below, doc.below len route depth = some (here, children) →
      Toured view len children below → ¬ ((here ++ below).map Arrival.pos ++ w.marks).Nodup

/-- A pointer and what is below its block. -/
theorem Below.tours {doc : TractDoc H} {hash : H} {lba : Nat} {route : Key} {depth : Nat} {x : Prog Error (Walker H) Unit}
    (hlt : lba < len) (hdoc : docOf (view lba) lba hash len = .ok (some doc))
    (hblock : Noted note name d w [.block lba hash] w') (hx : Below note name d view len route depth doc x w') :
    Sat x w' (fun _ w'' => ∃ es, Toured view len [⟨lba, hash, route, depth⟩] es ∧ Noted note name d w es w'')
      fun _ _ => ∀ es, Toured view len [⟨lba, hash, route, depth⟩] es → ¬ (es.map Arrival.pos ++ w.marks).Nodup := by
  have hopened : (⟨lba, hash, route, depth⟩ : WalkItem H).opened view len =
      (doc.below len route depth).map fun x => (.block lba hash :: x.1, x.2) := by
    rw [WalkItem.opened, if_pos hlt, hdoc]
  refine hx.mono (fun _ w'' h => ?_) fun _ _ herr es hes hnd => ?_
  · obtain ⟨here, kids, below, hbelow, htoured, hnoted⟩ := h
    refine ⟨[.block lba hash] ++ (here ++ below), toured_singleton.mpr ⟨.block lba hash :: here, kids, below, ?_,
      htoured, rfl⟩, hblock.trans hnoted⟩
    rw [hopened, hbelow, Option.map_some]
  · obtain ⟨here, children, below, hopen, htoured, rfl⟩ := toured_singleton.mp hes
    rw [hopened, Option.map_eq_some_iff] at hopen
    obtain ⟨⟨here', children'⟩, hbelow, heq⟩ := hopen
    cases heq
    refine hblock.twice (herr here' _ below hbelow htoured) ?_
    rwa [List.cons_append, List.map_cons] at hnd

theorem Below.of_tours {doc : TractDoc H} {route : Key} {depth : Nat} {x : Prog Error (Walker H) Unit}
    (hbelow : doc.below len route depth = some ([], children)) (h : Tours note name d view len children x w) :
    Below note name d view len route depth doc x w := by
  refine h.mono (fun _ w' hx => ?_) fun _ _ herr here' children' below hb htoured => ?_
  · obtain ⟨es, hes, hnoted⟩ := hx
    exact ⟨[], children, es, hbelow, hes, hnoted⟩
  · rw [hbelow] at hb
    cases hb
    exact herr below htoured

theorem Below.of_furrows {doc : TractDoc H} {route : Key} {depth : Nat} {x : Prog Error (Walker H) Unit} {ps : List Nat}
    (hbelow : doc.below len route depth = some (ps.map .furrow, []))
    (h : Sat x w (fun _ w' => Noted note name d w (ps.map .furrow) w') fun _ _ => ¬ (ps ++ w.marks).Nodup) :
    Below note name d view len route depth doc x w := by
  refine h.mono (fun _ w' hx => ⟨_, [], [], hbelow, .nil, by rwa [List.append_nil]⟩) fun _ _ herr here' children' below hb htoured hnd => ?_
  rw [hbelow] at hb
  cases hb
  cases htoured
  refine herr ?_
  rwa [List.append_nil, List.map_map, show Arrival.pos ∘ Arrival.furrow = id from rfl, List.map_id] at hnd

theorem Below.of_runs {f : Nat → Prog Error (Walker H) Unit} {key : Key} {size depth : Nat} {runs : List (Nat × Nat)}
    {route : Key} (hlen : w.store.tract.len = len)
    (hf : ∀ ps : List Nat, (∀ p ∈ ps, p < len) →
      Sat (each f ps) w (fun _ w' => Noted note name d w (ps.map .furrow) w') fun _ _ => ¬ (ps ++ w.marks).Nodup) :
    Below note name d view len route depth (.extent key size runs)
      (do let positions ← lift (expandRuns H runs size (← tractLen)); each f positions) w := by
  have hlength : (tractLen : Prog Error (Walker H) Nat).run w = (.ok len, w) := by rw [← hlen]; rfl
  refine sat_run hlength ?_
  rcases hx : expandRuns H runs size len with e | ps
  · unfold Sat
    rw [bind_run, lift_run]
    intro here children below hb
    simp only [TractDoc.below, hx] at hb
    cases hb
  · have hlift : (lift (.ok ps) : Prog Error (Walker H) (List Nat)).run w = (.ok ps, w) := by rw [lift_run]
    refine sat_run hlift (Below.of_furrows ?_ (hf ps (expandRuns_ok hx).2.2.2))
    simp only [TractDoc.below, hx]

end Opened

/-- One pointer of the depth-first walk with all below it. -/
theorem walkChild_sat (view : Nat → Block H) {len : Nat} : ∀ (fuel depth : Nat) (hash : H) (lba : Nat) (route : Key)
    (w : Walker H), depth + fuel = maxDepth + 1 → depth ≤ maxDepth → w.store.On d → w.store.view d = view →
    w.store.tract.len = len → w.walk.Marked w.store.tract.len →
    Tours (Arrival.asLive view) (fun _ => none) d view len [⟨lba, hash, route, depth⟩]
      (walkChild fuel depth (.committed hash lba) route) w := by
  intro fuel
  induction fuel with
  | zero => intro depth hash lba route w hfuel hdepth; omega
  | succ fuel ih =>
    intro depth hash lba route w hfuel hdepth hon hview hlen h
    rw [walkChild]
    by_cases hlt : lba < w.store.tract.len
    swap
    · have hrun : (onStore (readDoc lba hash)).run w = (.error (.bounds lba), w) := by
        simp [onStore, readDoc, Tract.readCached, Tract.inBounds, hlt]
      unfold Tours Sat
      rw [bind_run, hrun]
      intro es hes
      exact absurd hes (not_toured (by rw [WalkItem.opened, if_neg (by rwa [hlen] at hlt)]) es)
    obtain ⟨s₁, hrun, hreads⟩ := readDoc_run hon hlt hash
    rw [hview, hlen] at hrun
    have hread : (onStore (readDoc lba hash)).run w = (docOf (view lba) lba hash len, { w with store := s₁ }) := by
      rw [onStore, zoom_run, hrun]
    rcases hdoc : docOf (view lba) lba hash len with e | doc
    · rw [hdoc] at hread
      unfold Tours Sat
      rw [bind_run, hread]
      intro es hes
      refine absurd hes (not_toured ?_ es)
      rw [WalkItem.opened, if_pos (by rwa [hlen] at hlt), hdoc]
    rw [hdoc] at hread
    refine sat_run hread ?_
    set w₁ : Walker H := { w with store := s₁ } with hw₁
    have hlt₁ : lba < w₁.store.tract.len := by
      show lba < s₁.tract.len
      rwa [hreads.tract]
    have hmarked₁ : w₁.walk.Marked w₁.store.tract.len := by
      show w.walk.Marked s₁.tract.len
      rwa [hreads.tract]
    refine sat_bind ((reach_sat hmarked₁ hlt₁).mono (fun _ _ hx => hx) fun _ _ hmem es hes hnd => ?_) fun _ w₂ h₂ => ?_
    · obtain ⟨here, children, below, hopen, -, rfl⟩ := toured_singleton.mp hes
      obtain ⟨a, rest, rfl, hpos⟩ := opened_head hopen
      rw [List.cons_append, List.map_cons, hpos, List.cons_append] at hnd
      exact (List.nodup_cons.mp hnd).1 (List.mem_append_right _ hmem)
    obtain ⟨hnew, rfl⟩ := h₂
    have hnew₁ : lba ∉ w.marks := hnew
    rcases doc with _ | doc
    · refine ⟨_, toured_singleton.mpr ⟨_, [], [], ?_, .nil, (List.append_nil _).symm⟩,
        noted_stale hreads h hlt hnew₁ rfl rfl⟩
      rw [WalkItem.opened, if_pos (by rwa [hlen] at hlt), hdoc]
    have hblock : Noted (Arrival.asLive view) (fun _ => none) d w [.block lba hash] _ :=
      noted_block hreads h hlt hnew₁ rfl rfl
    refine sat_run (show (found lba hash).run _ = (.ok (), _) from rfl) (Below.tours (hlen ▸ hlt) hdoc hblock ?_)
    have hon₃ := hblock.store.on hon
    have hview₃ := hblock.store.view.trans hview
    have hlen₃ : _ = len := (congrArg Tract.len hblock.store.tract).trans hlen
    have hmarked₃ := hblock.here
    have hwithin := docOf_within hdoc
    have hfurrows : ∀ ps : List Nat, (∀ p ∈ ps, p < len) → Sat (each walkFurrow ps) _
        (fun _ w' => Noted (Arrival.asLive view) (fun _ => none) d _ (ps.map .furrow) w') fun _ _ => ¬ (ps ++ _).Nodup :=
      fun ps hps => each_furrow_sat (fun p u hu hm hp => walkFurrow_sat (hu.on hon₃) (hu.view.trans hview₃) hm hp) hon₃ ps _
        hon₃.refl hmarked₃ (by rwa [hlen₃])
    cases doc with
    | node n =>
      by_cases hn : n.depth = depth
      swap
      · unfold Below Sat
        rw [bind_run, show ∀ u : Walker H, (nodeAtDepth n lba depth).run u = (.error _, u) from fun u => by
          rw [nodeAtDepth, if_neg hn]; rfl]
        intro here children below hb
        rw [TractDoc.below, if_neg hn] at hb
        cases hb
      have hlevel : depth < maxDepth := hn ▸ hwithin.1
      refine sat_run (nodeAtDepth_run hn _) (Below.of_tours (by rw [TractDoc.below, if_pos hn]) ?_)
      -- slot by slot
      have hslots : ∀ {f : Fin 32 → Prog Error (Walker H) Unit}, (∀ (i : Fin 32) (u : Walker H), u.store.On d →
          u.store.view d = view → u.store.tract.len = len → u.walk.Marked u.store.tract.len →
          Tours (Arrival.asLive view) (fun _ => none) d view len (childItems n route depth [i]) (f i) u) →
          ∀ (is : List (Fin 32)) (u : Walker H), u.store.On d → u.store.view d = view → u.store.tract.len = len →
            u.walk.Marked u.store.tract.len →
            Tours (Arrival.asLive view) (fun _ => none) d view len (childItems n route depth is) (each f is) u := by
        intro f hf is
        induction is with
        | nil => exact fun u hu _ _ hm => sat_pure ⟨[], .nil, .refl hu hm⟩
        | cons i is ihs =>
          intro u hu hv hl hm
          rw [childItems_cons, each]
          exact Tours.bind (hf i u hu hv hl hm) fun u' es hnoted => ihs u' (hnoted.store.on hu)
            (hnoted.store.view.trans hv) ((congrArg Tract.len hnoted.store.tract).trans hl) hnoted.here
      refine hslots (fun i u hu hv hl hm => ?_) _ _ hon₃ hview₃ hlen₃ hmarked₃
      rcases hi : n.children i with _ | ⟨hash', lba'⟩ | idx
      · rw [childItems, List.filterMap_cons, hi]
        exact sat_pure ⟨[], .nil, .refl hu hm⟩
      · rw [childItems, List.filterMap_cons, hi]
        exact sat_run (routeAt_run hlevel i u) (ih (depth + 1) hash' lba' _ u (by omega) (by omega) hu hv hl hm)
      · exact absurd hi (hwithin.2.2 i idx)
    | direct key size furrows => exact Below.of_furrows rfl (hfurrows furrows (hlen ▸ hwithin))
    | extent key size runs => exact Below.of_runs hlen₃ fun ps hps => hfurrows ps hps
    | lone key value => exact sat_pure ⟨[], [], [], rfl, .nil, .refl hon₃ hmarked₃⟩
    | furrow key index payload => exact sat_pure ⟨[], [], [], rfl, .nil, .refl hon₃ hmarked₃⟩

theorem refer_todo (p : Nat) (w : Walker H) : Sat (refer p) w (fun _ w' => w'.walk.todo = w.walk.todo) fun _ _ => True := by
  have hreach : Sat (reach p) w (fun _ w₁ => w₁.walk.todo = w.walk.todo) fun _ _ => True := by
    refine sat_state ?_
    dsimp only
    split
    · exact sat_fail trivial
    split
    · exact sat_fail trivial
    · rfl
  refine sat_bind hreach ?_
  intro _ w₁ h₁
  exact h₁

/-- One pointer of a step with the block read for it: its children wait. -/
theorem walkItem_sat {view : Nat → Block H} {len : Nat} {item : WalkItem H} (hon : w.store.On d)
    (hlen : w.store.tract.len = len) (h : w.walk.Marked w.store.tract.len) (hlt : item.lba < len) :
    Sat (walkItem (item, view item.lba)) w
      (fun _ w' => ∃ here children, item.opened view len = some (here, children) ∧
        Noted Arrival.asBlock Arrival.asFurrow d w here w' ∧ w'.walk.todo = w.walk.todo ++ children)
      fun _ _ => ∀ here children, item.opened view len = some (here, children) →
        ¬ (here.map Arrival.pos ++ w.marks).Nodup := by
  obtain ⟨lba, hash, route, depth⟩ := item
  have hltw : lba < w.store.tract.len := hlen ▸ hlt
  have hopened : (⟨lba, hash, route, depth⟩ : WalkItem H).opened view len = match docOf (view lba) lba hash len with
      | .error _ => none
      | .ok none => some ([.stale ⟨route, hash, lba⟩], [])
      | .ok (some doc) => (doc.below len route depth).map fun x => (.block lba hash :: x.1, x.2) := by
    rw [WalkItem.opened, if_pos hlt]
  refine sat_bind ((reach_sat h hltw).mono (fun _ _ hx => hx) fun _ _ hmem here children hopen hnd => ?_) fun _ w₁ h₁ => ?_
  · obtain ⟨a, rest, rfl, hpos⟩ := opened_head hopen
    rw [List.map_cons, hpos, List.cons_append] at hnd
    exact (List.nodup_cons.mp hnd).1 (List.mem_append_right _ hmem)
  obtain ⟨hnew, rfl⟩ := h₁
  have hlength : ∀ u : Walker H, u.store = w.store → (tractLen : Prog Error (Walker H) Nat).run u = (.ok len, u) := by
    intro u hu
    rw [← hlen, ← hu]
    rfl
  refine sat_run (hlength _ rfl) ?_
  rcases hdoc : docOf (view lba) lba hash len with e | doc
  · rw [hdoc] at hopened
    unfold Sat
    rw [bind_run, lift_run]
    intro here children hopen
    rw [hopened] at hopen
    cases hopen
  rw [hdoc] at hopened
  refine sat_run (show (lift (.ok doc) : Prog Error (Walker H) _).run _ = (.ok doc, _) by rw [lift_run]) ?_
  rcases doc with _ | doc
  · exact ⟨_, [], hopened, noted_stale hon.refl h hltw hnew rfl rfl, (List.append_nil _).symm⟩
  obtain ⟨w₂, hw₂⟩ : ∃ u : Walker H, u = ⟨w.store, { w.walk with
      visited := { w.walk.visited with marks := lba :: w.walk.visited.marks },
      liveBlocks := w.walk.liveBlocks ++ [(lba, hash)] }⟩ := ⟨_, rfl⟩
  have hblock : Noted Arrival.asBlock Arrival.asFurrow d w [.block lba hash] w₂ := by
    rw [hw₂]
    exact noted_block hon.refl h hltw hnew rfl rfl
  replace hopened : (⟨lba, hash, route, depth⟩ : WalkItem H).opened view len =
      (doc.below len route depth).map fun x => (.block lba hash :: x.1, x.2) := hopened
  have hstore₂ : w₂.store = w.store := by rw [hw₂]
  have htodo₂ : w₂.walk.todo = w.walk.todo := by rw [hw₂]
  have hlen₂ : w₂.store.tract.len = len := by rw [hstore₂, hlen]
  have hwithin := docOf_within hdoc
  refine sat_run (show (found lba hash).run _ = (.ok (), w₂) by rw [hw₂]; rfl) ?_
  clear hw₂
  -- what the furrows of a leaf leave
  have hfurrows : ∀ ps : List Nat, doc.below len route depth = some (ps.map .furrow, []) → (∀ p ∈ ps, p < len) →
      Sat (each refer ps) w₂
        (fun _ w' => ∃ here children, (⟨lba, hash, route, depth⟩ : WalkItem H).opened view len = some (here, children) ∧
          Noted Arrival.asBlock Arrival.asFurrow d w here w' ∧ w'.walk.todo = w.walk.todo ++ children)
        fun _ _ => ∀ here children, (⟨lba, hash, route, depth⟩ : WalkItem H).opened view len = some (here, children) →
          ¬ (here.map Arrival.pos ++ w.marks).Nodup := by
    intro ps hbelow hps
    have htodo : Sat (each refer ps) w₂ (fun _ u => u.walk.todo = w.walk.todo ∧ ∀ p ∈ ps, True) fun _ _ => True :=
      sat_each (I := fun u => u.walk.todo = w.walk.todo)
        (fun p _ u hu => (refer_todo p u).mono (fun _ _ hx => ⟨hx.trans hu, trivial⟩) fun _ _ hx => hx) htodo₂
    have hmet := each_furrow_sat (f := refer) (d := d) (fun p u hu hm hp => refer_sat (hu.on hon) hm hp) hon ps w₂
      hblock.store hblock.here (by rwa [hlen₂])
    refine (hmet.and htodo).mono (fun _ w' hx => ?_) fun _ _ hx here children hopen hnd => ?_
    · refine ⟨[.block lba hash] ++ ps.map .furrow, [], by rw [hopened, hbelow]; rfl, hblock.trans hx.1, ?_⟩
      rw [hx.2.1, List.append_nil]
    · rw [hopened, hbelow] at hopen
      cases hopen
      refine hblock.twice hx.1 ?_
      simpa [Function.comp_def, Arrival.pos] using hnd
  cases doc with
  | node n =>
    by_cases hn : n.depth = depth
    · have hlevel : depth < maxDepth := hn ▸ hwithin.1
      refine sat_run (nodeAtDepth_run hn _) ?_
      unfold Sat
      rw [each_pushChild_run hlevel]
      refine ⟨[.block lba hash], childItems n route depth (List.finRange 32), ?_, ?_, congrArg (· ++ _) htodo₂⟩
      · simp only [hopened, TractDoc.below, if_pos hn, Option.map_some]
      · exact ⟨hblock.store, hblock.marked.congr rfl, hblock.marks, hblock.liveBlocks, hblock.referenced, hblock.stale⟩
    · unfold Sat
      rw [bind_run, show ∀ u : Walker H, (nodeAtDepth n lba depth).run u = (.error _, u) from fun u => by
        rw [nodeAtDepth, if_neg hn]; rfl]
      intro here children hopen
      simp only [hopened, TractDoc.below, if_neg hn, Option.map_none] at hopen
      cases hopen
  | direct key size furrows => exact hfurrows furrows rfl hwithin
  | extent key size runs =>
    refine sat_run (hlength _ hstore₂) ?_
    rcases hx : expandRuns H runs size len with e | ps
    · unfold Sat
      rw [bind_run, lift_run]
      intro here children hopen
      simp only [hopened, TractDoc.below, hx, Option.map_none] at hopen
      cases hopen
    · refine sat_run (show (lift (.ok ps) : Prog Error (Walker H) _).run _ = (.ok ps, _) by rw [lift_run])
        (hfurrows ps ?_ (expandRuns_ok hx).2.2.2)
      simp only [TractDoc.below, hx]
  | lone key value => exact sat_pure ⟨_, [], by rw [hopened]; rfl, hblock, by rw [htodo₂, List.append_nil]⟩
  | furrow key index payload => exact sat_pure ⟨_, [], by rw [hopened]; rfl, hblock, by rw [htodo₂, List.append_nil]⟩

/-- What is left of the pointers `xs` once `here` has been met. -/
structure Remains (view : Nat → Block H) (len : Nat) (xs : List (WalkItem H)) (here : List (Arrival H))
    (ys : List (WalkItem H)) : Prop where
  left : ∀ es, Toured view len xs es → ∃ cs, Toured view len ys cs ∧ es.Perm (here ++ cs)
  whole : ∀ cs, Toured view len ys cs → ∃ es, Toured view len xs es ∧ es.Perm (here ++ cs)

namespace Remains

variable {view : Nat → Block H} {len : Nat} {xs xs' ys ys' : List (WalkItem H)} {here here' : List (Arrival H)}

theorem refl : Remains view len xs [] xs := ⟨fun es hes => ⟨es, hes, .refl _⟩, fun es hes => ⟨es, hes, .refl _⟩⟩

theorem of_opened {item : WalkItem H} (h : item.opened view len = some (here, ys)) : Remains view len [item] here ys where
  left es hes := by
    obtain ⟨here', ys', below, hopen, hbelow, rfl⟩ := toured_singleton.mp hes
    rw [h] at hopen
    cases hopen
    exact ⟨below, hbelow, .refl _⟩
  whole cs hcs := ⟨here ++ cs, toured_singleton.mpr ⟨here, ys, cs, h, hcs, rfl⟩, .refl _⟩

theorem append (h : Remains view len xs here ys) (h' : Remains view len xs' here' ys') :
    Remains view len (xs ++ xs') (here ++ here') (ys ++ ys') := by
  have hmix : ∀ {a b c c' : List (Arrival H)}, a.Perm (here ++ c) → b.Perm (here' ++ c') →
      (a ++ b).Perm (here ++ here' ++ (c ++ c')) := by
    intro a b c c' ha hb
    refine (ha.append hb).trans ?_
    rw [List.append_assoc, List.append_assoc]
    refine List.Perm.append_left _ ?_
    rw [← List.append_assoc, ← List.append_assoc]
    exact List.perm_append_comm.append_right _
  constructor
  · intro es hes
    obtain ⟨a, b, ha, hb, rfl⟩ := toured_append.mp hes
    obtain ⟨c, hc, hperm⟩ := h.left a ha
    obtain ⟨c', hc', hperm'⟩ := h'.left b hb
    exact ⟨c ++ c', hc.append hc', hmix hperm hperm'⟩
  · intro cs hcs
    obtain ⟨c, c', hc, hc', rfl⟩ := toured_append.mp hcs
    obtain ⟨a, ha, hperm⟩ := h.whole c hc
    obtain ⟨b, hb, hperm'⟩ := h'.whole c' hc'
    exact ⟨a ++ b, ha.append hb, hmix hperm hperm'⟩

theorem trans (h : Remains view len xs here ys) (h' : Remains view len ys here' ys') :
    Remains view len xs (here ++ here') ys' := by
  constructor
  · intro es hes
    obtain ⟨c, hc, hperm⟩ := h.left es hes
    obtain ⟨c', hc', hperm'⟩ := h'.left c hc
    refine ⟨c', hc', hperm.trans ?_⟩
    rw [List.append_assoc]
    exact hperm'.append_left _
  · intro cs hcs
    obtain ⟨c, hc, hperm⟩ := h'.whole cs hcs
    obtain ⟨es, hes, hperm'⟩ := h.whole c hc
    refine ⟨es, hes, hperm'.trans ?_⟩
    rw [List.append_assoc]
    exact hperm.append_left _

end Remains

section Steps

variable {view : Nat → Block H} {len : Nat}

/-- The pointers of a step with the blocks read for them. -/
theorem each_walkItem_sat : ∀ (part : List (WalkItem H)) (w : Walker H), w.store.On d → w.store.tract.len = len →
    w.walk.Marked w.store.tract.len → (∀ x ∈ part, x.lba < len) →
    Sat (each walkItem (part.map fun x => (x, view x.lba))) w
      (fun _ w' => ∃ here children, Noted Arrival.asBlock Arrival.asFurrow d w here w' ∧
        w'.walk.todo = w.walk.todo ++ children ∧ Remains view len part here children ∧ part.length ≤ here.length)
      fun _ _ => ∀ es, Toured view len part es → ¬ (es.map Arrival.pos ++ w.marks).Nodup := by
  intro part
  induction part with
  | nil => exact fun w hon _ h _ => sat_pure ⟨[], [], .refl hon h, (List.append_nil _).symm, .refl, le_rfl⟩
  | cons item part ih =>
    intro w hon hlen h hlt
    simp only [List.mem_cons, forall_eq_or_imp] at hlt
    refine sat_bind ((walkItem_sat hon hlen h hlt.1).mono (fun _ _ hx => hx) fun _ _ herr es hes hnd => ?_) fun _ w₁ h₁ => ?_
    · cases hes with
      | cons hopen hbelow hrest =>
        refine herr _ _ hopen (hnd.sublist ?_)
        rw [List.append_assoc, List.map_append]
        exact (List.sublist_append_left _ _).append_right _
    · obtain ⟨here, children, hopen, hnoted, htodo⟩ := h₁
      have hlen₁ : w₁.store.tract.len = len := (congrArg Tract.len hnoted.store.tract).trans hlen
      refine (ih w₁ (hnoted.store.on hon) hlen₁ hnoted.here hlt.2).mono (fun _ w₂ h₂ => ?_) fun _ _ herr es hes hnd => ?_
      · obtain ⟨here₂, children₂, hnoted₂, htodo₂, hremains, hcount⟩ := h₂
        refine ⟨here ++ here₂, children ++ children₂, hnoted.trans hnoted₂, ?_, (Remains.of_opened hopen).append hremains, ?_⟩
        · rw [htodo₂, htodo, List.append_assoc]
        · obtain ⟨a, rest, rfl, -⟩ := opened_head hopen
          simp only [List.length_append, List.length_cons]
          omega
      · cases hes with
        | cons hopen' hbelow hrest =>
          rw [hopen] at hopen'
          cases hopen'
          refine hnoted.twice (herr _ hrest) (hnd.sublist ?_)
          rw [List.append_assoc, List.append_assoc, List.map_append, List.map_append, List.append_assoc, List.append_assoc]
          exact (List.sublist_append_right _ _).append_left _

/-- A batch with a position past the tract is not read. -/
theorem readMany_refused {s : Store H} {lbas : List Nat} (h : ∃ l ∈ lbas, ¬ l < s.tract.len) :
    ∃ e, (Tract.readMany lbas).run s = (.error e, s) := by
  obtain ⟨l, hmem, hl⟩ := h
  obtain ⟨p, hp⟩ := Tract.each_inBounds_past (s := s) fun hall => hl (hall l hmem)
  exact ⟨.bounds p, by simp [Tract.readMany, hp]⟩

/-- `walkTreeStep` with any number of pointers to a step. -/
def walkTreeStepOf (size : Nat) : Prog Error (Walker H) Unit := do
  let w ← state
  let kept := w.walk.todo.length - size
  let part := w.walk.todo.drop kept
  onWalk fun k => { k with todo := w.walk.todo.take kept }
  match ← attempt (onStore (Tract.readMany (part.map WalkItem.lba))) with
  | .error e => do
    onWalk fun k => { k with todo := k.todo ++ part }
    fail e
  | .ok blocks => each walkItem (part.zip blocks)

/-- Steps of the sizes `size` until the list is empty. -/
def walkTreeStepsOf (size : Nat → Nat) : Nat → Nat → Prog Error (Walker H) Unit
  | _, 0 => fail (.panic "walk outlived the tract")
  | i, fuel + 1 => do
    let w ← state
    if w.walk.todo.isEmpty then pure ()
    else do
      walkTreeStepOf (size i)
      walkTreeStepsOf size (i + 1) fuel

/-- The tree walk cut into steps of the sizes `size`. -/
def walkTreeCollectOf (size : Nat → Nat) : Prog Error (Walker H) Unit := do
  let w ← state
  onWalk fun k => { k with
    todo := walkStart w.store.hamt, visited := Visited.new w.store.tract.len }
  walkTreeStepsOf size 0 (w.store.tract.len + 2)

/-- The walk as the code cuts it. -/
theorem walkTreeCollect_eq : (walkTreeCollect : Prog Error (Walker H) Unit) = walkTreeCollectOf fun _ => walkStep := by
  have hsteps : ∀ fuel i, (walkTreeSteps fuel : Prog Error (Walker H) Unit) = walkTreeStepsOf (fun _ => walkStep) i fuel := by
    intro fuel
    induction fuel with
    | zero => exact fun _ => rfl
    | succ fuel ih =>
      intro i
      rw [walkTreeSteps_succ, walkTreeStepsOf, ih (i + 1)]
      rfl
  unfold walkTreeCollect walkTreeCollectOf
  simp only [hsteps _ 0]

theorem walkTreeStepOf_sat (hon : w.store.On d) (hview : w.store.view d = view) (hlen : w.store.tract.len = len)
    (h : w.walk.Marked w.store.tract.len) (size : Nat) :
    Sat (walkTreeStepOf size) w
      (fun _ w' => ∃ here, Noted Arrival.asBlock Arrival.asFurrow d w here w' ∧
        Remains view len w.walk.todo here w'.walk.todo ∧ min size w.walk.todo.length ≤ here.length)
      fun _ _ => ∀ es, Toured view len w.walk.todo es → ¬ (es.map Arrival.pos ++ w.marks).Nodup := by
  refine sat_state ?_
  obtain ⟨keep, hkeep⟩ : ∃ n, n = w.walk.todo.length - size := ⟨_, rfl⟩
  obtain ⟨part, hpart⟩ : ∃ l, l = w.walk.todo.drop keep := ⟨_, rfl⟩
  have hsplit : w.walk.todo = w.walk.todo.take keep ++ part := by rw [hpart, List.take_append_drop]
  have hcount : part.length = min size w.walk.todo.length := by
    rw [hpart, List.length_drop]
    omega
  dsimp only
  rw [← hkeep, ← hpart]
  obtain ⟨w₁, hw₁⟩ : ∃ u : Walker H, u = { w with walk := { w.walk with todo := w.walk.todo.take keep } } := ⟨_, rfl⟩
  refine sat_run (t := w₁) (by rw [hw₁]; rfl) ?_
  have hstore₁ : w₁.store = w.store := by rw [hw₁]
  have htodo₁ : w₁.walk.todo = w.walk.todo.take keep := by rw [hw₁]
  by_cases hin : ∀ x ∈ part, x.lba < len
  · have hlbas : ∀ l ∈ part.map WalkItem.lba, l < w₁.store.tract.len := by
      intro l hl
      obtain ⟨x, hx, rfl⟩ := List.mem_map.mp hl
      rw [hstore₁, hlen]
      exact hin x hx
    have hmany : (Tract.readMany (part.map WalkItem.lba)).run w₁.store = (.ok (part.map fun x => view x.lba), w₁.store) := by
      rw [Tract.readMany_run (hstore₁ ▸ hon) hlbas, hstore₁, hview, List.map_map]
      rfl
    have hread : (attempt (onStore (Tract.readMany (part.map WalkItem.lba)))).run w₁ =
        (.ok (.ok (part.map fun x => view x.lba)), w₁) := by
      rw [attempt_run, onStore, zoom_run, hmany]
    refine sat_run hread ?_
    dsimp only
    rw [← List.map_prod_left_eq_zip]
    have hnoted₁ : Noted Arrival.asBlock Arrival.asFurrow d w [] w₁ := by
      rw [hw₁]
      exact ⟨hon.refl, h.congr rfl, .refl _, by simp, by simp, by simp⟩
    refine (each_walkItem_sat part w₁ (hstore₁ ▸ hon) (hstore₁ ▸ hlen) hnoted₁.here hin).mono (fun _ w₂ h₂ => ?_)
      fun _ _ herr es hes hnd => ?_
    · obtain ⟨here, children, hnoted, htodo, hremains, hmet⟩ := h₂
      refine ⟨here, hnoted₁.trans hnoted, ?_, hcount.symm.le.trans hmet⟩
      have hall := (show Remains view len (w.walk.todo.take keep) [] (w.walk.todo.take keep) from .refl).append hremains
      rw [htodo, htodo₁]
      rwa [← hsplit, List.nil_append] at hall
    · rw [hsplit] at hes
      obtain ⟨a, b, -, hb, rfl⟩ := toured_append.mp hes
      refine hnoted₁.twice (herr b hb) (hnd.sublist ?_)
      rw [List.map_append]
      exact (List.sublist_append_right _ _).append_right _
  · simp only [not_forall] at hin
    obtain ⟨x, hx, hno⟩ := hin
    have hsome : ∃ l ∈ part.map WalkItem.lba, ¬ l < w₁.store.tract.len :=
      ⟨x.lba, List.mem_map_of_mem hx, by rwa [hstore₁, hlen]⟩
    obtain ⟨e, hmany⟩ := readMany_refused hsome
    have hread : (attempt (onStore (Tract.readMany (part.map WalkItem.lba)))).run w₁ = (.ok (.error e), w₁) := by
      rw [attempt_run, onStore, zoom_run, hmany]
    refine sat_run hread (sat_update (sat_fail fun es hes => ?_))
    -- the pointer read past the tract opens nowhere
    obtain ⟨l, l', hpart'⟩ := List.append_of_mem hx
    rw [hsplit, hpart'] at hes
    obtain ⟨_, b, -, hb, -⟩ := toured_append.mp hes
    obtain ⟨_, c, -, hc, -⟩ := toured_append.mp hb
    cases hc with
    | cons hopen _ _ =>
      rw [WalkItem.opened, if_neg hno] at hopen
      cases hopen

theorem walkTreeStepsOf_sat {size : Nat → Nat} (hsize : ∀ i, 0 < size i) : ∀ (fuel i : Nat) (w : Walker H), w.store.On d →
    w.store.view d = view → w.store.tract.len = len → w.walk.Marked w.store.tract.len →
    w.store.tract.len + 2 ≤ w.marks.length + fuel →
    Sat (walkTreeStepsOf size i fuel) w
      (fun _ w' => ∃ es es', Toured view len w.walk.todo es ∧ es.Perm es' ∧ Noted Arrival.asBlock Arrival.asFurrow d w es' w')
      fun _ _ => ∀ es, Toured view len w.walk.todo es → ¬ (es.map Arrival.pos ++ w.marks).Nodup := by
  intro fuel
  induction fuel with
  | zero =>
    intro i w _ _ _ h hfuel
    have hle : w.marks.length ≤ w.store.tract.len := h.length_le
    omega
  | succ fuel ih =>
    intro i w hon hview hlen h hfuel
    rw [walkTreeStepsOf]
    refine sat_state ?_
    split
    next hnil =>
      rw [List.isEmpty_iff] at hnil
      rw [hnil]
      exact sat_pure ⟨[], [], .nil, .refl _, .refl hon h⟩
    next hne =>
      have hsome : 0 < w.walk.todo.length := List.length_pos_iff.mpr fun hnil => hne (by rw [hnil, List.isEmpty_nil])
      refine sat_bind (walkTreeStepOf_sat hon hview hlen h (size i)) fun _ w₁ h₁ => ?_
      obtain ⟨here, hnoted, hremains, hmet⟩ := h₁
      have hgrown : w₁.marks.length = here.length + w.marks.length := by
        rw [hnoted.marks.length_eq, List.length_append, List.length_map]
      have hlen₁ : w₁.store.tract.len = len := (congrArg Tract.len hnoted.store.tract).trans hlen
      have hpos := hsize i
      refine (ih (i + 1) w₁ (hnoted.store.on hon) (hnoted.store.view.trans hview) hlen₁ hnoted.here (by omega)).mono
        (fun _ w₂ h₂ => ?_) fun _ _ herr es hes hnd => ?_
      · obtain ⟨cs, cs', hcs, hperm, hnoted₂⟩ := h₂
        obtain ⟨es, hes, hwhole⟩ := hremains.whole cs hcs
        exact ⟨es, here ++ cs', hes, hwhole.trans (hperm.append_left _), hnoted.trans hnoted₂⟩
      · obtain ⟨cs, hcs, hperm⟩ := hremains.left es hes
        refine hnoted.twice (herr cs hcs) ?_
        rw [← List.map_append]
        exact ((hperm.map _).append_right _).nodup_iff.mp hnd

end Steps

section Whole

variable {s : Store H}

/-- A walk from the start on `s` meets what the root leads to, and ends without an error just when nothing is met twice. -/
def Whole (note : Arrival H → Option (Nat × H)) (name : Arrival H → Option Nat) (d : Dev H) (s : Store H)
    (x : Prog Error (Walker H) Unit) : Prop :=
  Sat x ⟨s, .start s.tract.len []⟩
    (fun _ w' => ∃ es es', Toured (s.view d) s.tract.len (walkStart s.hamt) es ∧ es.Perm es' ∧ (es.map Arrival.pos).Nodup ∧
      w'.walk.liveBlocks = es'.filterMap note ∧ w'.walk.referenced = es'.filterMap name ∧
      w'.walk.stale = es'.filterMap Arrival.asStale)
    fun _ _ => ∀ es, Toured (s.view d) s.tract.len (walkStart s.hamt) es → ¬ (es.map Arrival.pos).Nodup

theorem walkTreeCollectOf_whole (hon : s.On d) {size : Nat → Nat} (hsize : ∀ i, 0 < size i) :
    Whole Arrival.asBlock Arrival.asFurrow d s (walkTreeCollectOf size) := by
  obtain ⟨w, hw⟩ : ∃ u : Walker H, u = ⟨s, .start s.tract.len (walkStart s.hamt)⟩ := ⟨_, rfl⟩
  have hstore : w.store = s := by rw [hw]
  have hmarks : w.marks = [] := by rw [hw]; rfl
  have htodo : w.walk.todo = walkStart s.hamt := by rw [hw]; rfl
  have hmarked : w.walk.Marked w.store.tract.len := by
    rw [hw]
    exact .new rfl
  refine sat_state (sat_run (t := w) (by rw [hw]; rfl) ?_)
  have hsat := walkTreeStepsOf_sat hsize (s.tract.len + 2) 0 w (hstore ▸ hon) (congrArg (Store.view · d) hstore)
    (congrArg (fun x : Store H => x.tract.len) hstore) hmarked (by rw [hstore]; omega)
  rw [htodo, hmarks] at hsat
  refine hsat.mono (fun _ w' h' => ?_) fun _ _ herr es hes hnd => herr es hes (by rwa [List.append_nil])
  obtain ⟨es, es', hes, hperm, hnoted⟩ := h'
  refine ⟨es, es', hes, hperm, (hperm.map _).nodup_iff.mpr (hnoted.nodup.sublist (List.sublist_append_left _ _)), ?_, ?_, ?_⟩
  · simpa [hw, Walk.start] using hnoted.liveBlocks
  · simpa [hw, Walk.start] using hnoted.referenced
  · simpa [hw, Walk.start] using hnoted.stale

theorem walkLiveCollect_whole (hon : s.On d) :
    Whole (Arrival.asLive (s.view d)) (fun _ => none) d s walkLiveCollect := by
  refine sat_state ?_
  dsimp only
  rcases hroot : s.hamt.root with _ | c
  · have hnil : walkStart s.hamt = [] := by rw [walkStart, hroot]
    rw [hnil]
    exact sat_pure ⟨[], [], .nil, .refl _, by simp, rfl, rfl, rfl⟩
  obtain ⟨w, hw⟩ : ∃ u : Walker H, u = ⟨s, .start s.tract.len []⟩ := ⟨_, rfl⟩
  refine sat_run (t := w) (by rw [hw]; rfl) ?_
  rcases c with ⟨hash, lba⟩ | idx
  swap
  · have hnil : walkStart s.hamt = [] := by rw [walkStart, hroot]
    rw [hnil]
    exact sat_pure ⟨[], [], .nil, .refl _, by simp, by rw [hw]; rfl, by rw [hw]; rfl, by rw [hw]; rfl⟩
  have hstart : walkStart s.hamt = [⟨lba, hash, 0, 0⟩] := by rw [walkStart, hroot]
  have hstore : w.store = s := by rw [hw]
  have hmarks : w.marks = [] := by rw [hw]; rfl
  have hmarked : w.walk.Marked w.store.tract.len := by
    rw [hw]
    exact .new rfl
  have hsat := walkChild_sat (s.view d) (maxDepth + 1) 0 hash lba 0 w (by omega) (Nat.zero_le _) (hstore ▸ hon)
    (congrArg (Store.view · d) hstore) (congrArg (fun x : Store H => x.tract.len) hstore) hmarked
  rw [hstart]
  refine hsat.mono (fun _ w' h' => ?_) fun _ _ herr es hes hnd => herr es hes (by rwa [hmarks, List.append_nil])
  obtain ⟨es, hes, hnoted⟩ := h'
  refine ⟨es, es, hes, .refl _, hnoted.nodup.sublist (List.sublist_append_left _ _), ?_, ?_, ?_⟩
  · simpa [hw, Walk.start] using hnoted.liveBlocks
  · simpa [hw, Walk.start] using hnoted.referenced
  · simpa [hw, Walk.start] using hnoted.stale

/-- The furrows the live walk keeps are those the tree walk names, if they are sealed. -/
theorem filterMap_asLive (view : Nat → Block H) (es : List (Arrival H)) : (es.filterMap (Arrival.asLive view)).Perm
    (es.filterMap Arrival.asBlock ++ (es.filterMap Arrival.asFurrow).filterMap fun p => (sealedHp (view p)).map (p, ·)) := by
  induction es with
  | nil => exact .refl _
  | cons e es ih =>
    cases e with
    | block lba hash => exact ih.cons _
    | stale pointer => exact ih
    | furrow p =>
      rcases hs : sealedHp (view p) with _ | hash
      · simpa [List.filterMap_cons, Arrival.asLive, Arrival.asBlock, Arrival.asFurrow, hs] using ih
      · simp only [List.filterMap_cons, Arrival.asLive, Arrival.asBlock, Arrival.asFurrow, hs, Option.map_some]
        exact (ih.cons _).trans List.perm_middle.symm

/-- Every arrival is in one of the three reports. -/
theorem perm_reports (es : List (Arrival H)) : (es.map Arrival.pos).Perm
    (spots (es.filterMap Arrival.asBlock) ++ es.filterMap Arrival.asFurrow ++
      (es.filterMap Arrival.asStale).map StalePointer.lba) := by
  induction es with
  | nil => exact .refl _
  | cons e es ih =>
    cases e with
    | block lba hash => exact ih.cons _
    | furrow p =>
      simp only [List.map_cons, List.filterMap_cons, Arrival.pos, Arrival.asBlock, Arrival.asFurrow, Arrival.asStale,
        List.append_assoc, List.cons_append] at ih ⊢
      exact (ih.cons _).trans List.perm_middle.symm
    | stale pointer =>
      simp only [List.map_cons, List.filterMap_cons, Arrival.pos, Arrival.asBlock, Arrival.asFurrow, Arrival.asStale] at ih ⊢
      exact (ih.cons _).trans List.perm_middle.symm

end Whole

end Walker

/-- The depth-first walk and the walk in steps, of the code's size or of any others, of any tract whose reads do
not fail: one goes through just when the other does, and they report the same blocks and stale pointers. The
furrows that the one keeps are those the other names whose block is sealed. -/
theorem walks_agree {s : Store H} {d : Dev H} (hon : s.On d) {size : Nat → Nat} (hsize : ∀ i, 0 < size i)
    {live tree : Except Error Unit} {w w' : Walker H}
    (hlive : Walker.walkLiveCollect.run ⟨s, .start s.tract.len []⟩ = (live, w))
    (htree : Walker.walkTreeCollect.run ⟨s, .start s.tract.len []⟩ = (tree, w') ∨
      (Walker.walkTreeCollectOf size).run ⟨s, .start s.tract.len []⟩ = (tree, w')) :
    (tree = .ok () ↔ live = .ok ()) ∧ (tree = .ok () →
      w.walk.stale.Perm w'.walk.stale ∧
      w.walk.liveBlocks.Perm (w'.walk.liveBlocks ++
        w'.walk.referenced.filterMap fun p => (sealedHp (s.view d p)).map (p, ·)) ∧
      (spots w'.walk.liveBlocks ++ w'.walk.referenced ++ w'.walk.stale.map StalePointer.lba).Nodup) := by
  have h := Walker.walkLiveCollect_whole hon
  obtain ⟨size', hsize', htree'⟩ : ∃ size' : Nat → Nat, (∀ i, 0 < size' i) ∧
      (Walker.walkTreeCollectOf size').run ⟨s, .start s.tract.len []⟩ = (tree, w') := by
    rcases htree with hcode | hcut
    · rw [Walker.walkTreeCollect_eq] at hcode
      exact ⟨_, fun _ => by unfold Walker.walkStep; exact Nat.two_pow_pos 8, hcode⟩
    · exact ⟨size, hsize, hcut⟩
  have h' := Walker.walkTreeCollectOf_whole hon hsize'
  rcases live with e | _
  · have hno := h.of_error hlive
    rcases tree with e' | _
    · exact ⟨by simp, nofun⟩
    · obtain ⟨es, -, hes, -, hnd, -⟩ := h'.of_ok htree'
      exact absurd hnd (hno es hes)
  · obtain ⟨es, es₁, hes, hperm, hnd, hblocks, -, hstale⟩ := h.of_ok hlive
    rcases tree with e' | _
    · exact absurd hnd (h'.of_error htree' es hes)
    refine ⟨by simp, fun _ => ?_⟩
    obtain ⟨es', es₂, hes', hperm', hnd', hblocks', hnames', hstale'⟩ := h'.of_ok htree'
    obtain rfl := hes.unique hes'
    have hboth : es₁.Perm es₂ := hperm.symm.trans hperm'
    refine ⟨?_, ?_, ?_⟩
    · rw [hstale, hstale']
      exact hboth.filterMap _
    · rw [hblocks, hblocks', hnames']
      exact (hboth.filterMap _).trans (Walker.filterMap_asLive _ _)
    · rw [hblocks', hnames', hstale']
      exact ((hperm'.map _).trans (Walker.perm_reports _)).nodup_iff.mp hnd

/-- A node over a lone value, a value of two furrows of which one is lost, and a zeroed block. -/
def mixedBlocks : Nat → Block Digest
  | 0 => encodeLone 5 [1, 2]
  | 1 => sealBlock (.extent 7 5000 [(3, 2)])
  | 3 => encodeFurrow 7 0 [9]
  | 4 => .raw 0
  | 5 => sealBlock (.node 0 0 fun i => match i.val with
    | 0 => some (Crates.hash (.lone 5 [1, 2]) 0, 0)
    | 1 => some (Crates.hash (.extent 7 5000 [(3, 2)]) 0, 1)
    | 2 => some (⟨3⟩, 2)
    | _ => none)
  | _ => .zero

def mixedStore : Store Digest where
  mirror := ⟨some ⟨8, mixedBlocks, none, [], []⟩, none, true, [], [], [], 0, none, []⟩
  tract := ⟨0, 8, 6, 0, none⟩
  hamt := ⟨(sealedHp (mixedBlocks 5)).map (.committed · 5), [], ⟨[], []⟩, 0⟩

theorem mixedStore_on : mixedStore.On ⟨8, mixedBlocks, none, [], []⟩ :=
  ⟨⟨rfl, rfl, by simp [mixedStore, Mirror.staged], by simp [mixedStore]⟩, le_rfl⟩

def mixedLive : Except Error Unit × Walker Digest := Walker.walkLiveCollect.run ⟨mixedStore, .start 8 []⟩

def mixedTree : Except Error Unit × Walker Digest := (Walker.walkTreeCollectOf fun _ => 2).run ⟨mixedStore, .start 8 []⟩

set_option maxRecDepth 10000 in
theorem walks_agree_mixed : mixedLive.1 = .ok () ∧ spots mixedLive.2.walk.liveBlocks = [5, 0, 1, 3] ∧
    spots mixedTree.2.walk.liveBlocks = [5, 1, 0] ∧ mixedTree.2.walk.referenced = [3, 4] ∧
    mixedLive.2.walk.stale.Perm mixedTree.2.walk.stale := by
  have hok : mixedTree.1 = .ok () := by decide +kernel
  have hlive : spots mixedLive.2.walk.liveBlocks = [5, 0, 1, 3] := by decide +kernel
  have htree : spots mixedTree.2.walk.liveBlocks = [5, 1, 0] := by decide +kernel
  have hnames : mixedTree.2.walk.referenced = [3, 4] := by decide +kernel
  obtain ⟨hiff, hsame⟩ := walks_agree mixedStore_on (fun _ => Nat.two_pos) (Prod.mk.eta (p := mixedLive)).symm
    (.inr (Prod.mk.eta (p := mixedTree)).symm)
  exact ⟨hiff.mp hok, hlive, htree, hnames, (hsame hok).1⟩

end Manifestus
