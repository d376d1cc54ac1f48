import Manifestus.Index.AnyBlock
import Manifestus.Index.Walk
import Manifestus.Engine.Digest

/-! The index walks on a tract of any content. No block is trusted: what a walk relies on is what
`docOf`, `expandRuns`, the visited bitset and the depth check let through. -/
set_option linter.unusedSectionVars false

namespace Manifestus
open Prog Store

variable {H : Type} [Crates H]

/-- The bitset is that of a tract of `len` blocks, and no position was marked twice. -/
structure Walk.Marked (len : Nat) (k : Walk H) : Prop where
  words : k.visited.words = divCeil len (2 ^ 6)
  nodup : k.visited.marks.Nodup
  lt : ∀ p ∈ k.visited.marks, p < len

theorem Walk.Marked.length_le {len : Nat} {k : Walk H} (h : k.Marked len) : k.visited.marks.length ≤ len := by
  have := h.nodup.length_le_of_subset fun p hp => List.mem_range.mpr (h.lt p hp)
  simpa using this

theorem Walk.Marked.congr {len : Nat} {k k' : Walk H} (h : k.Marked len) (hv : k'.visited = k.visited) :
    k'.Marked len := by
  obtain ⟨hwords, hnodup, hlt⟩ := h
  exact ⟨by rw [hv]; exact hwords, by rw [hv]; exact hnodup, by rw [hv]; exact hlt⟩

theorem Walk.Marked.new {len : Nat} {k : Walk H} (hv : k.visited = Visited.new len) : k.Marked len := by
  refine ⟨?_, ?_, ?_⟩ <;> rw [hv] <;> simp [Visited.new]

/-- The positions reached so far, the last first. -/
def Walker.marks (w : Walker H) : List Nat := w.walk.visited.marks

/-- `w'` is `w` after part of a walk. -/
structure Walker.Kept (w w' : Walker H) : Prop where
  store : w.store.Unmoved w'.store
  marked : w'.walk.Marked w.store.tract.len
  grown : w.marks.length ≤ w'.marks.length

namespace Walker

variable {w w' w'' : Walker H}

theorem Kept.trans (h : w.Kept w') (h' : w'.Kept w'') : w.Kept w'' :=
  ⟨h.store.trans h'.store, by rw [← h.store.tract]; exact h'.marked, h.grown.trans h'.grown⟩

theorem Kept.refl (h : w.walk.Marked w.store.tract.len) : w.Kept w := ⟨.refl _, h, le_rfl⟩

theorem Kept.here (h : w.Kept w') : w'.walk.Marked w'.store.tract.len := by
  rw [h.store.tract]
  exact h.marked

theorem onStore_any {α : Type} {x : Prog Error (Store H) α} {Q : α → Store H → Prop}
    (h : w.walk.Marked w.store.tract.len)
    (hx : Sat x w.store (fun a s' => Q a s' ∧ w.store.Unmoved s') fun e s' => e.Calm ∧ w.store.Unmoved s') :
    Sat (onStore x) w (fun a w' => Q a w'.store ∧ w.Kept w' ∧ w'.walk = w.walk)
      fun e w' => e.Calm ∧ w.Kept w' ∧ w'.walk = w.walk := by
  unfold Sat at hx ⊢
  simp only [onStore, zoom_run]
  rcases hr : x.run w.store with ⟨_ | a, s'⟩ <;> rw [hr] at hx <;> exact ⟨hx.1, ⟨hx.2, h, le_rfl⟩, rfl⟩

/-- What is noted besides the marks. -/
theorem onWalk_any {f : Walk H → Walk H} {Q : Unit → Walker H → Prop} {E : Error → Walker H → Prop}
    (h : w.walk.Marked w.store.tract.len) (hf : ∀ k, (f k).visited = k.visited)
    (hQ : w.Kept { w with walk := f w.walk } → Q () { w with walk := f w.walk }) : Sat (onWalk f) w Q E :=
  hQ ⟨.refl _, h.congr (hf _), (congrArg (fun v => v.marks.length) (hf w.walk)).ge⟩

theorem reach_any (h : w.walk.Marked w.store.tract.len) {lba : Nat} (hlt : lba < w.store.tract.len) :
    Sat (reach lba) w
      (fun _ w' => w.Kept w' ∧ w' = { w with walk := { w.walk with
        visited := { w.walk.visited with marks := lba :: w.walk.visited.marks } } })
      fun e w' => (∃ reason, e = .corrupt reason) ∧ w' = w := by
  refine sat_state ?_
  have hin : ¬ w.walk.visited.words ≤ lba / 2 ^ 6 := by
    rw [h.words]
    unfold divCeil
    omega
  rw [if_neg hin]
  by_cases hm : lba ∈ w.walk.visited.marks
  · rw [if_pos hm]
    exact sat_fail ⟨⟨_, rfl⟩, rfl⟩
  · rw [if_neg hm]
    refine ⟨⟨.refl _, ⟨h.words, List.nodup_cons.mpr ⟨hm, h.nodup⟩, fun p hp => ?_⟩, by simp [marks]⟩, rfl⟩
    rcases List.mem_cons.mp hp with rfl | hp
    · exact hlt
    · exact h.lt p hp

theorem reach_calm (h : w.walk.Marked w.store.tract.len) {lba : Nat} (hlt : lba < w.store.tract.len) :
    Sat (reach lba) w (fun _ w' => w.Kept w' ∧ w'.marks = lba :: w.marks) fun e _ => e.Calm := by
  refine (reach_any h hlt).mono (fun _ _ h => ⟨h.1, by rw [h.2, marks, marks]⟩) ?_
  rintro e _ ⟨⟨reason, rfl⟩, -⟩
  trivial

theorem nodeAtDepth_any {node : Node H} {lba depth : Nat} {σ : Type} (s : σ) :
    Sat (nodeAtDepth node lba depth) s (fun _ s' => s' = s ∧ node.depth = depth)
      fun e s' => (∃ reason, e = .corrupt reason) ∧ s' = s := by
  unfold nodeAtDepth
  split
  next h => exact sat_pure ⟨rfl, h⟩
  · exact sat_fail ⟨⟨_, rfl⟩, rfl⟩

end Walker

/-- Down the slots `path` of one node after another, the position `l` leads to `l'`. -/
def Descends (view : Nat → Block H) : List (Fin 32) → Nat → Nat → Prop
  | [], l, l' => l = l'
  | i :: path, l, l' => ∃ depth route slots extra hash next, view l = .sealed (.node depth route slots) extra ∧
      slots i = some (hash, next) ∧ Descends view path next l'

/-- Every node below `l`, which is met at `depth`, names the depth it is met at. -/
def Plumb (view : Nat → Block H) (depth l : Nat) : Prop :=
  ∀ path l', Descends view path l l' → ∀ own route slots extra, view l' = .sealed (.node own route slots) extra →
    own = depth + path.length ∧ own < maxDepth

/-- The positions at and below `l`, one for each pointer to it, `fuel` levels down. -/
def arrivals (view : Nat → Block H) : Nat → Nat → List Nat
  | 0, _ => []
  | fuel + 1, l => l :: match view l with
    | .sealed (.node _ _ slots) _ => (List.finRange 32).flatMap fun i =>
      match slots i with
      | some (_, next) => arrivals view fuel next
      | none => []
    | .sealed (.direct _ _ furrows) _ => furrows
    | .sealed (.extent _ _ runs) _ => runPositions runs
    | _ => []

/-- What a slot leads to. -/
def slotArrivals (view : Nat → Block H) (fuel : Nat) : Option (Child H) → List Nat
  | some (.committed _ next) => arrivals view fuel next
  | _ => []

/-- Below the block of a document: its furrows, or what its slots lead to. -/
def TractDoc.arrivals (view : Nat → Block H) (fuel : Nat) : TractDoc H → List Nat
  | .node n => (List.finRange 32).flatMap fun i => slotArrivals view fuel (n.children i)
  | .direct _ _ furrows => furrows
  | .extent _ _ runs => runPositions runs
  | _ => []

theorem arrivals_of_docOf {view : Nat → Block H} {lba len fuel : Nat} {hash : H} {doc : Option (TractDoc H)}
    (h : docOf (view lba) lba hash len = .ok doc) :
    arrivals view (fuel + 1) lba = lba :: doc.elim [] (TractDoc.arrivals view fuel) := by
  unfold docOf at h
  split at h
  next hzero =>
    cases h
    rw [arrivals, hzero]
    rfl
  split at h
  · cases h
  split at h
  · cases h
  split at h
  · cases h
  next decoded hdecode =>
  split at h
  · cases h
  cases h
  unfold decodeDoc at hdecode
  split at hdecode
  next hv => cases hdecode; rw [arrivals, hv]; rfl
  next hv => cases hdecode; rw [arrivals, hv]; rfl
  next hv => cases hdecode; rw [arrivals, hv]; rfl
  next hv => cases hdecode; rw [arrivals, hv]; rfl
  next slots extra hv =>
    split at hdecode <;> cases hdecode
    rw [arrivals, hv]
    simp only [Option.elim_some, TractDoc.arrivals, Node.ofSlots]
    congr 1
    refine List.flatMap_congr fun i _ => ?_
    rcases slots i with _ | ⟨h', l'⟩ <;> rfl
  · cases hdecode
  · cases hdecode

/-- What a pointer on a walk's list leads to. -/
def WalkItem.arrivals (view : Nat → Block H) (item : WalkItem H) : List Nat :=
  Manifestus.arrivals view (maxDepth + 1 - item.depth) item.lba

/-- The pointers of a node lead where its slots do. -/
theorem childItems_arrivals {view : Nat → Block H} {n : Node H} {route : Key} {depth fuel : Nat}
    (hfuel : depth + (fuel + 1) = maxDepth + 1) (is : List (Fin 32)) :
    (Walker.childItems n route depth is).flatMap (WalkItem.arrivals view) =
      is.flatMap fun i => slotArrivals view fuel (n.children i) := by
  have hone : maxDepth + 1 - (depth + 1) = fuel := by omega
  induction is with
  | nil => rfl
  | cons i is ih =>
    rw [List.flatMap_cons, ← ih, Walker.childItems, List.filterMap_cons]
    rcases n.children i with _ | ⟨h', l'⟩ | idx
    · rfl
    · simp only [List.flatMap_cons, slotArrivals, WalkItem.arrivals, hone, Walker.childItems]
    · rfl

/-- The block a pointer names decodes as its hash says, a node at the depth it is met at, and what
its slots point to does so below. -/
inductive Vetted (view : Nat → Block H) (len : Nat) : Nat → H → Nat → Prop where
  | mk {depth : Nat} {hash : H} {lba : Nat} {doc : Option (TractDoc H)} (hlt : lba < len)
      (hdoc : docOf (view lba) lba hash len = .ok doc) (hdepth : ∀ n, doc = some (.node n) → n.depth = depth)
      (hbelow : ∀ n, doc = some (.node n) → ∀ i h l, n.children i = some (.committed h l) →
        Vetted view len (depth + 1) h l) : Vetted view len depth hash lba

theorem Vetted.plumb {view : Nat → Block H} {len depth : Nat} {hash : H} {lba : Nat}
    (h : Vetted view len depth hash lba) : Plumb view depth lba := by
  induction h with
  | mk hlt hdoc hdepth _ ih =>
    intro path l' hdesc own route slots extra hl'
    cases path with
    | nil =>
      obtain rfl : _ = l' := hdesc
      rw [hl'] at hdoc
      obtain ⟨rfl, hown⟩ := docOf_sealed_node hdoc
      exact ⟨hdepth _ rfl, hown⟩
    | cons i path =>
      obtain ⟨d, r, sl, x, h, next, hview, hslot, hrest⟩ := hdesc
      rw [hview] at hdoc
      obtain ⟨rfl, -⟩ := docOf_sealed_node hdoc
      obtain ⟨hown, hlt⟩ := ih _ rfl i h next (by simp [Node.ofSlots, hslot]) path l' hrest own route slots extra hl'
      exact ⟨by rw [hown, List.length_cons]; omega, hlt⟩

namespace Walker

variable {w w' : Walker H}

/-- The positions of runs, if they are given, lie in the tract. -/
theorem expandRuns_any {σ : Type} (runs : List (Nat × Nat)) (size len : Nat) (s : σ) :
    Sat (lift (expandRuns H runs size len)) s (fun ps s' => s' = s ∧ ps = runPositions runs ∧ ∀ p ∈ ps, p < len)
      fun e s' => (∃ reason, e = .corrupt reason) ∧ s' = s := by
  unfold Sat
  rw [lift_run]
  rcases hx : expandRuns H runs size len with e | ps
  · exact ⟨expandRuns_error hx, rfl⟩
  · exact ⟨rfl, (expandRuns_ok hx).1, (expandRuns_ok hx).2.2.2⟩

/-- Each of a list, with the positions it reaches. -/
theorem each_any {α : Type} {f : α → Prog Error (Walker H) Unit} {P : Dev H → α → Prop} {A : Dev H → α → List Nat} :
    ∀ {xs : List α} {u : Walker H}, w.Kept u →
    (∀ x ∈ xs, ∀ u, w.Kept u → Sat (f x) u
      (fun _ u' => u.Kept u' ∧ ∀ d, w.store.On d → P d x ∧ u'.marks.Perm (A d x ++ u.marks)) fun e _ => e.Calm) →
    Sat (each f xs) u
      (fun _ u' => u.Kept u' ∧ ∀ d, w.store.On d →
        (∀ x ∈ xs, P d x) ∧ u'.marks.Perm (xs.flatMap (A d) ++ u.marks))
      fun e _ => e.Calm := by
  intro xs
  induction xs with
  | nil => exact fun hu _ => sat_pure ⟨.refl hu.here, fun d _ => ⟨by simp, .refl _⟩⟩
  | cons x xs ih =>
    intro u hu hf
    refine sat_bind (hf x (by simp) u hu) ?_
    rintro _ u₁ ⟨h₁, hx⟩
    refine (ih (hu.trans h₁) fun y hy => hf y (by simp [hy])).mono ?_ fun _ _ he => he
    rintro _ u₂ ⟨h₂, hxs⟩
    refine ⟨h₁.trans h₂, fun d hd => ⟨?_, ?_⟩⟩
    · simpa using ⟨(hx d hd).1, (hxs d hd).1⟩
    · have hone := (hx d hd).2
      have hrest := (hxs d hd).2
      simp only [List.perm_iff_count, List.count_append, List.flatMap_cons] at hone hrest ⊢
      intro p
      have := hone p
      have := hrest p
      omega

/-- Each of some positions of the tract, once. -/
theorem each_pos_any {f : Nat → Prog Error (Walker H) Unit} {ps : List Nat} (h : w.walk.Marked w.store.tract.len)
    (hps : ∀ p ∈ ps, p < w.store.tract.len)
    (hf : ∀ p (u : Walker H), u.walk.Marked u.store.tract.len → p < u.store.tract.len →
      Sat (f p) u (fun _ u' => u.Kept u' ∧ u'.marks = p :: u.marks) fun e _ => e.Calm) :
    Sat (each f ps) w (fun _ w' => w.Kept w' ∧ ∀ d, w.store.On d → w'.marks.Perm (ps ++ w.marks)) fun e _ => e.Calm := by
  refine (each_any (P := fun _ _ => True) (A := fun _ p => [p]) (.refl h) fun p hp u hu => ?_).mono
    (fun _ w' hx => ⟨hx.1, fun d hd => ?_⟩) fun _ _ he => he
  · have hlt : p < u.store.tract.len := by
      rw [hu.store.tract]
      exact hps p hp
    exact (hf p u hu.here hlt).mono (fun _ u' hx => ⟨hx.1, fun _ _ => ⟨trivial, .of_eq hx.2⟩⟩) fun _ _ he => he
  · simpa using (hx.2 d hd).2

theorem walkFurrow_any {pos : Nat} (h : w.walk.Marked w.store.tract.len) (hlt : pos < w.store.tract.len) :
    Sat (walkFurrow pos) w (fun _ w' => w.Kept w' ∧ w'.marks = pos :: w.marks) fun e _ => e.Calm := by
  refine sat_bind (reach_calm h hlt) ?_
  rintro _ w₁ ⟨h₁, hm₁⟩
  refine sat_bind ((onStore_any (Q := fun _ _ => True) h₁.here ((read_any _ pos).mono (fun _ _ h => ⟨trivial, h⟩)
    fun _ _ h => h)).mono (fun _ _ h => h) fun _ _ h => h.1) ?_
  rintro buf w₂ ⟨-, h₂, hw₂⟩
  have hm₂ : w₂.marks = pos :: w.marks := (congrArg (fun k => k.visited.marks) hw₂).trans hm₁
  split
  · exact onWalk_any h₂.here (fun _ => rfl) fun h₃ => ⟨(h₁.trans h₂).trans h₃, hm₂⟩
  · exact sat_pure ⟨h₁.trans h₂, hm₂⟩

theorem walkChild_any : ∀ (fuel depth : Nat) (c : Child H) (route : Key) (w : Walker H), depth + fuel = maxDepth + 1 →
    depth ≤ maxDepth → (∀ hash lba, c = .committed hash lba → lba < w.store.tract.len) →
    w.walk.Marked w.store.tract.len →
    Sat (walkChild fuel depth c route) w
      (fun _ w' => w.Kept w' ∧ ∀ d, w.store.On d →
        (∀ hash lba, c = .committed hash lba → Vetted (w.store.view d) w.store.tract.len depth hash lba) ∧
        w'.marks.Perm (slotArrivals (w.store.view d) fuel (some c) ++ w.marks))
      fun e _ => e.Calm := by
  intro fuel
  induction fuel with
  | zero => intro depth c route w hfuel hdepth; omega
  | succ fuel ih =>
    intro depth c route w hfuel hdepth hc h
    rcases c with ⟨hash, lba⟩ | idx
    swap
    · exact sat_pure ⟨.refl h, fun _ _ => ⟨nofun, .refl _⟩⟩
    rw [walkChild]
    refine sat_bind ((onStore_any h ((readDoc_any w.store lba hash).mono (fun doc s' hx => ⟨hx.2, hx.1⟩)
      fun _ _ hx => hx)).mono (fun _ _ hx => hx) fun _ _ hx => hx.1) ?_
    rintro doc w₁ ⟨⟨hlt, hwithin, hdoc⟩, h₁, hw₁⟩
    refine sat_bind (reach_calm h₁.here (by rw [h₁.store.tract]; exact hc _ _ rfl)) ?_
    rintro _ w₂ ⟨h₂, hm₂⟩
    have h₁₂ := h₁.trans h₂
    have hm : w₂.marks = lba :: w.marks := hm₂.trans (congrArg (fun k => lba :: k.visited.marks) hw₁)
    -- the pointer is told by what is below its block
    have hdone : ∀ w' : Walker H, w.Kept w' →
        (∀ d, w.store.On d → (∀ n, doc = some (.node n) → n.depth = depth ∧
          ∀ i h l, n.children i = some (.committed h l) →
            Vetted (w.store.view d) w.store.tract.len (depth + 1) h l) ∧
          w'.marks.Perm (doc.elim [] (TractDoc.arrivals (w.store.view d) fuel) ++ w₂.marks)) →
        w.Kept w' ∧ ∀ d, w.store.On d → (∀ hash' lba', Child.committed hash lba = .committed hash' lba' →
          Vetted (w.store.view d) w.store.tract.len depth hash' lba') ∧
          w'.marks.Perm (slotArrivals (w.store.view d) (fuel + 1) (some (.committed hash lba)) ++ w.marks) := by
      refine fun w' hk hbelow => ⟨hk, fun d hd => ⟨?_, ?_⟩⟩
      · rintro _ _ ⟨⟩
        exact .mk hlt (hdoc d hd) (fun n hn => ((hbelow d hd).1 n hn).1) fun n hn => ((hbelow d hd).1 n hn).2
      · rw [slotArrivals, arrivals_of_docOf (hdoc d hd)]
        refine (hbelow d hd).2.trans ?_
        rw [hm]
        exact List.perm_middle
    rcases doc with _ | doc
    · exact onWalk_any h₂.here (fun _ => rfl) fun h₃ => hdone _ (h₁₂.trans h₃) fun d _ => ⟨by simp, .refl _⟩
    refine sat_bind (R := fun _ w₃ => w.Kept w₃ ∧ w₃.marks = w₂.marks)
      (onWalk_any h₂.here (fun _ => rfl) fun h₃ => ⟨h₁₂.trans h₃, rfl⟩) ?_
    rintro _ w₃ ⟨h₃, hm₃⟩
    have hdocw := hwithin doc rfl
    cases doc with
    | node n =>
      refine sat_bind ((nodeAtDepth_any w₃).mono (fun _ _ hx => hx) ?_) ?_
      · rintro e _ ⟨⟨reason, rfl⟩, -⟩
        trivial
      rintro _ _ ⟨rfl, hn⟩
      have hlevel : depth < maxDepth := hn ▸ hdocw.1
      refine (each_any
        (P := fun d i => ∀ h' l', n.children i = some (.committed h' l') →
          Vetted (w.store.view d) w.store.tract.len (depth + 1) h' l')
        (A := fun d i => slotArrivals (w.store.view d) fuel (n.children i)) h₃ fun i _ u hu => ?_).mono
        (fun _ w' hx => hdone _ (h₃.trans hx.1) fun d hd => ⟨?_, hm₃ ▸ (hx.2 d hd).2⟩) fun _ _ he => he
      · rcases hi : n.children i with _ | c
        · exact sat_pure ⟨.refl hu.here, fun _ _ => ⟨nofun, .refl _⟩⟩
        refine sat_run (routeAt_run hlevel i u) ((ih (depth + 1) c _ u (by omega) (by omega) ?_ hu.here).mono ?_
          fun _ _ he => he)
        · rintro h' l' rfl
          rw [hu.store.tract]
          exact hdocw.2.1 i h' l' hi
        · rintro _ u' ⟨hu', hbelow⟩
          refine ⟨hu', fun d hd => ?_⟩
          obtain ⟨hvet, hperm⟩ := hbelow d (hu.store.on d hd)
          rw [hu.store.view d hd] at hvet hperm
          rw [hu.store.tract] at hvet
          exact ⟨fun h' l' hx => hvet h' l' (Option.some.inj hx), hperm⟩
      · rintro _ ⟨⟩
        exact ⟨hn, fun i => (hx.2 d hd).1 i (List.mem_finRange i)⟩
    | direct key size furrows =>
      refine (each_pos_any h₃.here (fun p hp => ?_) fun p u hu hp => walkFurrow_any hu hp).mono
        (fun _ w' h₄ => hdone _ (h₃.trans h₄.1) fun d hd => ⟨by simp, hm₃ ▸ h₄.2 d (h₃.store.on d hd)⟩) fun _ _ he => he
      rw [h₃.store.tract]
      exact hdocw p hp
    | extent key size runs =>
      refine sat_run (show (tractLen : Prog Error (Walker H) Nat).run w₃ = (.ok w₃.store.tract.len, w₃) from rfl) ?_
      refine sat_bind ((expandRuns_any runs size _ w₃).mono (fun _ _ hx => hx) ?_) ?_
      · rintro e _ ⟨⟨reason, rfl⟩, -⟩
        trivial
      rintro ps _ ⟨rfl, rfl, hps⟩
      exact (each_pos_any h₃.here hps fun p u hu hp => walkFurrow_any hu hp).mono
        (fun _ w' h₄ => hdone _ (h₃.trans h₄.1) fun d hd => ⟨by simp, hm₃ ▸ h₄.2 d (h₃.store.on d hd)⟩) fun _ _ he => he
    | lone key value => exact sat_pure (hdone _ h₃ fun d _ => ⟨by simp, hm₃ ▸ .refl _⟩)
    | furrow key index payload => exact sat_pure (hdone _ h₃ fun d _ => ⟨by simp, hm₃ ▸ .refl _⟩)

theorem walkKeysChild_any : ∀ (fuel depth : Nat) (c : Child H) (w : Walker H), depth + fuel = maxDepth + 1 →
    depth ≤ maxDepth → (∀ hash lba, c = .committed hash lba → lba < w.store.tract.len) →
    w.walk.Marked w.store.tract.len →
    Sat (walkKeysChild fuel depth c) w (fun _ w' => w.Kept w') fun e _ => e.Calm := by
  intro fuel
  induction fuel with
  | zero => intro depth c w hfuel hdepth; omega
  | succ fuel ih =>
    intro depth c w hfuel hdepth hc h
    rcases c with ⟨hash, lba⟩ | idx
    swap
    · exact sat_pure (.refl h)
    rw [walkKeysChild]
    refine sat_bind ((onStore_any h ((readDoc_any w.store lba hash).mono (fun doc s' hx => ⟨hx.2, hx.1⟩)
      fun _ _ hx => hx)).mono (fun _ _ hx => hx) fun _ _ hx => hx.1) ?_
    rintro doc w₁ ⟨⟨-, hwithin, -⟩, h₁, -⟩
    rcases doc with _ | doc
    · exact sat_pure h₁
    refine sat_bind (reach_calm h₁.here (by rw [h₁.store.tract]; exact hc _ _ rfl)) fun _ w₂ h₂ => ?_
    have h₁₂ := h₁.trans h₂.1
    have hdocw := hwithin doc rfl
    have hkey : ∀ key : Key, Sat (onWalk fun k : Walk H => { k with keys := k.keys ++ [key] }) w₂
        (fun _ w' => w.Kept w') fun e _ => e.Calm := fun key =>
      onWalk_any h₂.1.here (fun _ => rfl) fun h₃ => h₁₂.trans h₃
    cases doc with
    | node n =>
      refine sat_bind ((nodeAtDepth_any w₂).mono (fun _ _ hx => hx) ?_) ?_
      · rintro e _ ⟨⟨reason, rfl⟩, -⟩
        trivial
      rintro _ _ ⟨rfl, hn⟩
      have hlt : depth < maxDepth := hn ▸ hdocw.1
      refine (sat_each (I := fun u => w.Kept u) (P := fun _ => True) (fun i _ u hu => ?_) h₁₂).mono
        (fun _ _ hx => hx.1) fun _ _ he => he
      rcases hi : n.children i with _ | c
      · exact sat_pure ⟨hu, trivial⟩
      refine (ih (depth + 1) c u (by omega) (by omega) ?_ hu.here).mono (fun _ _ hk => ⟨hu.trans hk, trivial⟩)
        fun _ _ he => he
      rintro h' l' rfl
      rw [hu.store.tract]
      exact hdocw.2.1 i h' l' hi
    | lone key value => exact hkey key
    | extent key size runs => exact hkey key
    | direct key size furrows => exact hkey key
    | furrow key index payload => exact sat_pure h₁₂

/-- A position lost to a repair is noted. -/
theorem foundDangling_any {d : DanglingPointer H} (h : w.walk.Marked w.store.tract.len) :
    Sat (foundDangling d) w (fun _ w' => w.Kept w') fun e _ => e.Calm :=
  onWalk_any h (fun _ => rfl) fun h₁ => h₁

/-- A repair goes on from a second arrival. -/
theorem attempt_reach_any {α : Type} {f : Except Error Unit → Prog Error (Walker H) α} {Q : α → Walker H → Prop}
    {lba : Nat} (h : w.walk.Marked w.store.tract.len) (hlt : lba < w.store.tract.len)
    (hok : ∀ w', w.Kept w' → Sat (f (.ok ())) w' Q fun e _ => e.Calm)
    (herr : ∀ reason, Sat (f (.error (.corrupt reason))) w Q fun e _ => e.Calm) :
    Sat (attempt (reach lba) >>= f) w Q fun e _ => e.Calm := by
  refine sat_try (reach_any h hlt) (fun _ w' h' => hok w' h'.1) ?_
  rintro e _ ⟨⟨reason, rfl⟩, rfl⟩
  exact herr reason

theorem repairFurrows_any {dangle : String → DanglingPointer H} {key : Key} : ∀ (ps : List Nat) (index : Nat)
    (w : Walker H), w.walk.Marked w.store.tract.len → (∀ p ∈ ps, p < w.store.tract.len) →
    Sat (repairFurrows dangle key index ps) w (fun _ w' => w.Kept w') fun e _ => e.Calm := by
  intro ps
  induction ps with
  | nil => exact fun index w h _ => sat_pure (.refl h)
  | cons pos rest ih =>
    intro index w h hps
    have hlost : ∀ (reason : String) (u : Walker H), w.Kept u →
        Sat (do foundDangling (dangle reason); pure (none : Option (List (Nat × H)))) u (fun _ w' => w.Kept w')
          fun e _ => e.Calm := fun reason u hu =>
      sat_bind (foundDangling_any hu.here) fun _ _ hk => sat_pure (hu.trans hk)
    refine attempt_reach_any h (hps pos (by simp)) (fun w₁ h₁ => ?_) fun reason => hlost reason w (.refl h)
    refine sat_bind ((onStore_any (Q := fun _ _ => True) h₁.here ((read_any _ pos).mono
      (fun _ _ hx => ⟨trivial, hx⟩) fun _ _ hx => hx)).mono (fun _ _ hx => hx) fun _ _ hx => hx.1) ?_
    rintro buf w₂ ⟨-, h₂, -⟩
    have h₁₂ := h₁.trans h₂
    split
    · exact hlost _ w₂ h₁₂
    · refine sat_bind (ih (index + 1) w₂ h₁₂.here fun p hp => ?_) fun _ w₃ h₃ => sat_pure (h₁₂.trans h₃)
      rw [h₁₂.store.tract]
      exact hps p (by simp [hp])

theorem repairCheckFurrows_any {lba : Nat} {hash : H} {route key : Key} {ps : List Nat}
    (h : w.walk.Marked w.store.tract.len) (hps : ∀ p ∈ ps, p < w.store.tract.len) :
    Sat (repairCheckFurrows lba hash route key ps) w (fun _ w' => w.Kept w') fun e _ => e.Calm := by
  refine sat_bind (repairFurrows_any ps 0 w h hps) fun sound w₁ h₁ => ?_
  split
  · exact sat_pure h₁
  · exact onWalk_any h₁.here (fun _ => rfl) fun h₂ => h₁.trans h₂

theorem walkChildRepair_any : ∀ (fuel depth : Nat) (c : Child H) (route : Key) (w : Walker H),
    depth + fuel = maxDepth + 1 → depth ≤ maxDepth →
    (∀ hash lba, c = .committed hash lba → lba < w.store.tract.len) → w.walk.Marked w.store.tract.len →
    Sat (walkChildRepair fuel depth c route) w (fun _ w' => w.Kept w') fun e _ => e.Calm := by
  intro fuel
  induction fuel with
  | zero => intro depth c route w hfuel hdepth; omega
  | succ fuel ih =>
    intro depth c route w hfuel hdepth hc h
    rcases c with ⟨hash, lba⟩ | idx
    swap
    · exact sat_pure (.refl h)
    rw [walkChildRepair]
    have hlost : ∀ (d : DanglingPointer H) (u : Walker H), w.Kept u →
        Sat (foundDangling d) u (fun _ w' => w.Kept w') fun e _ => e.Calm := fun d u hu =>
      (foundDangling_any hu.here).mono (fun _ _ hk => hu.trans hk) fun _ _ he => he
    refine sat_try (onStore_any h ((readDoc_any w.store lba hash).mono (fun doc s' hx => ⟨hx.2, hx.1⟩)
      fun _ _ hx => hx)) ?_ ?_
    · rintro doc w₁ ⟨⟨-, hwithin, -⟩, h₁, -⟩
      rcases doc with _ | doc
      · exact onWalk_any h₁.here (fun _ => rfl) fun h₂ => h₁.trans h₂
      have hdocw := hwithin doc rfl
      refine attempt_reach_any h₁.here (by rw [h₁.store.tract]; exact hc _ _ rfl) (fun w₂ h₂ => ?_)
        fun reason => hlost _ w₁ h₁
      have h₁₂ := h₁.trans h₂
      cases doc with
      | node n =>
        refine sat_try (nodeAtDepth_any w₂) ?_ ?_
        · rintro _ _ ⟨rfl, hn⟩
          have hlt : depth < maxDepth := hn ▸ hdocw.1
          refine sat_bind (R := fun _ w₃ => w.Kept w₃) (onWalk_any h₂.here (fun _ => rfl) fun h₃ => h₁₂.trans h₃)
            fun _ w₃ h₃ => ?_
          refine (sat_each (I := fun u => w.Kept u) (P := fun _ => True) (fun i _ u hu => ?_) h₃).mono
            (fun _ _ hx => hx.1) fun _ _ he => he
          rcases hi : n.children i with _ | c
          · exact sat_pure ⟨hu, trivial⟩
          refine sat_run (routeAt_run hlt i u) ((ih (depth + 1) c _ u (by omega) (by omega) ?_ hu.here).mono
            (fun _ _ hk => ⟨hu.trans hk, trivial⟩) fun _ _ he => he)
          rintro h' l' rfl
          rw [hu.store.tract]
          exact hdocw.2.1 i h' l' hi
        · rintro e _ ⟨⟨reason, rfl⟩, rfl⟩
          exact hlost _ _ h₁₂
      | lone key value => exact onWalk_any h₂.here (fun _ => rfl) fun h₃ => h₁₂.trans h₃
      | direct key size furrows =>
        refine (repairCheckFurrows_any h₂.here fun p hp => ?_).mono (fun _ _ hk => h₁₂.trans hk) fun _ _ he => he
        rw [h₁₂.store.tract]
        exact hdocw p hp
      | extent key size runs =>
        refine sat_run (show (tractLen : Prog Error (Walker H) Nat).run w₂ = (.ok w₂.store.tract.len, w₂) from rfl) ?_
        rcases hx : expandRuns H runs size w₂.store.tract.len with e | ps
        · obtain ⟨reason, rfl⟩ := expandRuns_error hx
          exact hlost _ w₂ h₁₂
        · exact (repairCheckFurrows_any h₂.here (expandRuns_ok hx).2.2.2).mono (fun _ _ hk => h₁₂.trans hk)
            fun _ _ he => he
      | furrow key index payload => exact hlost _ w₂ h₁₂
    · rintro e w₁ ⟨he, h₁, -⟩
      cases e <;> first | exact hlost _ w₁ h₁ | exact sat_fail he

/-- A position reached is recorded, or there is nothing there. -/
def Covered (s : Store H) (w : Walker H) : Prop :=
  ∀ p ∈ w.marks, p ∈ spots w.walk.liveBlocks ∨ p ∈ w.walk.referenced ∨ ∀ d, s.On d → s.view d p = .zero

/-- Furrows by position: the list of pointers is left alone. -/
theorem each_refer_any {ps : List Nat} (h : w.walk.Marked w.store.tract.len) (hps : ∀ p ∈ ps, p < w.store.tract.len) :
    Sat (each refer ps) w
      (fun _ w' => w.Kept w' ∧ w'.walk.todo = w.walk.todo ∧ w'.marks.Perm (ps ++ w.marks) ∧
        ∀ s, Covered s w → Covered s w')
      fun e _ => e.Calm := by
  induction ps generalizing w with
  | nil => exact sat_pure ⟨.refl h, rfl, .refl _, fun _ hc => hc⟩
  | cons p ps ih =>
    simp only [List.mem_cons, forall_eq_or_imp] at hps
    refine sat_bind (R := fun _ w₁ => w.Kept w₁ ∧ w₁.walk.todo = w.walk.todo ∧ w₁.marks = p :: w.marks ∧
      ∀ s, Covered s w → Covered s w₁) ?_ ?_
    · refine sat_bind ((reach_any h hps.1).mono (fun _ _ hx => hx) ?_) ?_
      · rintro e _ ⟨⟨reason, rfl⟩, -⟩
        trivial
      · rintro _ w₁ ⟨h₁, rfl⟩
        refine onWalk_any h₁.here (fun _ => rfl) fun h₂ => ⟨h₁.trans h₂, rfl, rfl, fun s hc q hq => ?_⟩
        rcases List.mem_cons.mp hq with rfl | hq
        · exact .inr (.inl (by simp))
        · rcases hc q hq with hl | hr | hz
          · exact .inl hl
          · exact .inr (.inl (by simp [hr]))
          · exact .inr (.inr hz)
    · rintro _ w₁ ⟨h₁, htodo, hm, hc₁⟩
      refine (ih h₁.here (by rw [h₁.store.tract]; exact hps.2)).mono
        (fun _ w₂ h₂ => ⟨h₁.trans h₂.1, h₂.2.1.trans htodo, ?_, fun s hc => h₂.2.2.2 s (hc₁ s hc)⟩) fun _ _ he => he
      rw [hm] at h₂
      exact h₂.2.2.1.trans List.perm_middle

/-- With `marks` reached and `old` to read, part of a walk ends with `marks'` reached and `new` to read. -/
structure Owed (s : Store H) (marks : List Nat) (old : List (WalkItem H)) (marks' : List Nat)
    (new : List (WalkItem H)) : Prop where
  lt : ∀ x ∈ new, x.lba < s.tract.len ∧ x.depth ≤ maxDepth
  vetted : ∀ d, s.On d → (∀ x ∈ new, Vetted (s.view d) s.tract.len x.depth x.hash x.lba) →
    ∀ x ∈ old, Vetted (s.view d) s.tract.len x.depth x.hash x.lba
  told : ∀ d, s.On d → (marks' ++ new.flatMap (WalkItem.arrivals (s.view d))).Perm
    (marks ++ old.flatMap (WalkItem.arrivals (s.view d)))

section Owed

variable {s : Store H} {ms ms' ms'' : List Nat} {old new old' new' next : List (WalkItem H)}

theorem Owed.refl (h : ∀ x ∈ old, x.lba < s.tract.len ∧ x.depth ≤ maxDepth) : Owed s ms old ms old :=
  ⟨h, fun _ _ hp => hp, fun _ _ => .refl _⟩

theorem Owed.trans (h : Owed s ms old ms' new) (h' : Owed s ms' new ms'' next) : Owed s ms old ms'' next :=
  ⟨h'.lt, fun d hd hp => h.vetted d hd (h'.vetted d hd hp), fun d hd => (h'.told d hd).trans (h.told d hd)⟩

/-- One list after another. -/
theorem Owed.append (h : Owed s ms old ms' new) (h' : Owed s ms' old' ms'' new') :
    Owed s ms (old ++ old') ms'' (new ++ new') where
  lt x hx := (List.mem_append.mp hx).elim (h.lt x) (h'.lt x)
  vetted d hd hp x hx := (List.mem_append.mp hx).elim
    (h.vetted d hd (fun y hy => hp y (List.mem_append_left _ hy)) x)
    (h'.vetted d hd (fun y hy => hp y (List.mem_append_right _ hy)) x)
  told d hd := by
    have hfst := h.told d hd
    have hsnd := h'.told d hd
    simp only [List.perm_iff_count, List.count_append, List.flatMap_append] at hfst hsnd ⊢
    intro p
    have := hfst p
    have := hsnd p
    omega

end Owed

theorem walkItem_any {s : Store H} {lba depth : Nat} {hash : H} {route : Key} {buf : Block H}
    (hs : s.Unmoved w.store) (h : w.walk.Marked w.store.tract.len) (hlt : lba < w.store.tract.len)
    (hdepth : depth ≤ maxDepth) (hbuf : ∀ d, s.On d → buf = s.view d lba) :
    Sat (walkItem (⟨lba, hash, route, depth⟩, buf)) w
      (fun _ w' => w.Kept w' ∧ w.marks.length < w'.marks.length ∧
        (Covered s w → Covered s w') ∧
        ∃ new, w'.walk.todo = w.walk.todo ++ new ∧ Owed s w.marks [⟨lba, hash, route, depth⟩] w'.marks new)
      fun e _ => e.Calm := by
  refine sat_bind ((reach_any h hlt).mono (fun _ _ hx => hx) ?_) ?_
  · rintro e _ ⟨⟨reason, rfl⟩, -⟩
    trivial
  rintro _ w₁ ⟨h₁, hw₁⟩
  have hm₁ : w₁.marks = lba :: w.marks := by rw [hw₁, marks, marks]
  have htodo : w₁.walk.todo = w.walk.todo := by rw [hw₁]
  have hlen : w₁.store.tract.len = s.tract.len := congrArg _ (hs.trans h₁.store).tract
  refine sat_run (show (tractLen : Prog Error (Walker H) Nat).run w₁ = (.ok w₁.store.tract.len, w₁) from rfl) ?_
  rcases hdoc : docOf buf lba hash w₁.store.tract.len with e | doc
  · exact docOf_error hdoc
  refine sat_run (lift_run _ _) ?_
  obtain ⟨fuel, hfuel⟩ : ∃ n, n + 1 = maxDepth + 1 - depth := ⟨maxDepth - depth, by omega⟩
  have hlevel : depth + (fuel + 1) = maxDepth + 1 := by omega
  -- the pointer is told by the marks made below its block and the pointers added for it
  have hdone : ∀ (w' : Walker H) (new : List (WalkItem H)), w₁.Kept w' → w'.walk.todo = w₁.walk.todo ++ new →
      (Covered s w → Covered s w') →
      (∀ x ∈ new, x.lba < s.tract.len ∧ x.depth ≤ maxDepth) →
      (∀ n, doc = some (.node n) → n.depth = depth ∧
        ∀ i h l, n.children i = some (.committed h l) → ∃ x ∈ new, x.lba = l ∧ x.hash = h ∧ x.depth = depth + 1) →
      (∀ d, s.On d → (w'.marks ++ new.flatMap (WalkItem.arrivals (s.view d))).Perm
        (doc.elim [] (TractDoc.arrivals (s.view d) fuel) ++ w₁.marks)) →
      w.Kept w' ∧ w.marks.length < w'.marks.length ∧ (Covered s w → Covered s w') ∧
        ∃ new, w'.walk.todo = w.walk.todo ++ new ∧ Owed s w.marks [⟨lba, hash, route, depth⟩] w'.marks new := by
    intro w' new hk ht hcov hlt' hnode htold
    refine ⟨h₁.trans hk, ?_, hcov, new, by rw [ht, htodo], hlt', fun d hd hnew x hx => ?_, fun d hd => ?_⟩
    · have := hk.grown
      rw [hm₁, List.length_cons] at this
      omega
    · obtain rfl := List.mem_singleton.mp hx
      rw [hbuf d hd, hlen] at hdoc
      refine .mk (hs.tract ▸ hlt) hdoc (fun n hn => (hnode n hn).1) fun n hn i h' l' hc => ?_
      obtain ⟨y, hy, rfl, rfl, hydepth⟩ := (hnode n hn).2 i h' l' hc
      rw [← hydepth]
      exact hnew y hy
    · rw [hbuf d hd] at hdoc
      refine (htold d hd).trans ?_
      rw [List.flatMap_singleton, WalkItem.arrivals, ← hfuel, arrivals_of_docOf hdoc, hm₁]
      simp only [List.perm_iff_count, List.count_append, List.count_cons]
      intro p
      omega
  rcases doc with _ | doc
  · refine onWalk_any h₁.here (fun _ => rfl) fun h₂ => hdone _ [] h₂ (List.append_nil _).symm (fun hc p hp => ?_)
      (by simp) (by simp) fun d _ => by simpa using .refl _
    rcases List.mem_cons.mp (hm₁ ▸ hp) with rfl | hp
    · refine .inr (.inr fun d hd => ?_)
      rw [hbuf d hd] at hdoc
      exact docOf_none hdoc
    · simpa [hw₁] using hc p hp
  refine sat_bind (R := fun _ w₂ => w₁.Kept w₂ ∧ w₂.walk.todo = w₁.walk.todo ∧ w₂.marks = w₁.marks ∧
    (Covered s w → Covered s w₂))
    (onWalk_any h₁.here (fun _ => rfl) fun h₂ => ⟨h₂, rfl, rfl, fun hc p hp => ?_⟩) ?_
  · rcases List.mem_cons.mp (hm₁ ▸ hp) with rfl | hp
    · exact .inl (by simp [spots])
    · rcases hc p hp with hl | hr
      · exact .inl (by simp only [hw₁, spots, List.map_append] at hl ⊢; exact List.mem_append_left _ hl)
      · exact .inr (by simpa [hw₁] using hr)
  rintro _ w₂ ⟨h₂, ht₂, hm₂, hc₂⟩
  have hwithin := docOf_within hdoc
  -- the furrows of a leaf
  have hrefer : ∀ ps, (∀ p ∈ ps, p < w₂.store.tract.len) → (∀ n, doc ≠ .node n) →
      (∀ d, doc.arrivals (s.view d) fuel = ps) →
      Sat (each refer ps) w₂
        (fun _ w' => w.Kept w' ∧ w.marks.length < w'.marks.length ∧ (Covered s w → Covered s w') ∧
          ∃ new, w'.walk.todo = w.walk.todo ++ new ∧ Owed s w.marks [⟨lba, hash, route, depth⟩] w'.marks new)
        fun e _ => e.Calm := by
    intro ps hps hno harr
    refine (each_refer_any h₂.here hps).mono (fun _ w₃ h₃ =>
      hdone w₃ [] (h₂.trans h₃.1) (by rw [h₃.2.1, ht₂, List.append_nil]) (fun hc => h₃.2.2.2 s (hc₂ hc)) (by simp)
        (fun n hn => absurd (Option.some.inj hn) (hno n)) fun d _ => ?_) fun _ _ he => he
    have hperm := h₃.2.2.1
    rw [hm₂] at hperm
    simpa [harr] using hperm
  cases doc with
  | node n =>
    refine sat_bind ((nodeAtDepth_any w₂).mono (fun _ _ hx => hx) ?_) ?_
    · rintro e _ ⟨⟨reason, rfl⟩, -⟩
      trivial
    rintro _ _ ⟨rfl, hn⟩
    have hlt' : depth < maxDepth := hn ▸ hwithin.1
    unfold Sat
    rw [each_pushChild_run hlt']
    refine hdone _ _ ⟨h₂.store, h₂.marked.congr rfl, h₂.grown⟩ (congrArg (· ++ _) ht₂) hc₂ (fun x hx => ?_) ?_
      fun d hd => ?_
    · obtain ⟨i, -, h', l', hc, rfl⟩ := mem_childItems.mp hx
      rw [← hlen]
      exact ⟨hwithin.2.1 i h' l' hc, hlt'⟩
    · rintro _ ⟨⟩
      exact ⟨hn, fun i h' l' hc =>
        ⟨_, mem_childItems.mpr ⟨i, List.mem_finRange i, h', l', hc, rfl⟩, rfl, rfl, rfl⟩⟩
    · rw [childItems_arrivals hlevel]
      exact List.perm_append_comm.trans (.of_eq (congrArg (_ ++ ·) hm₂))
  | direct key size furrows => exact hrefer furrows (by rw [h₂.store.tract]; exact hwithin) (by simp) fun _ => rfl
  | extent key size runs =>
    refine sat_run (show (tractLen : Prog Error (Walker H) Nat).run w₂ = (.ok w₂.store.tract.len, w₂) from rfl) ?_
    refine sat_bind ((expandRuns_any runs size _ w₂).mono (fun _ _ hx => hx) ?_) ?_
    · rintro e _ ⟨⟨reason, rfl⟩, -⟩
      trivial
    rintro ps _ ⟨rfl, rfl, hps⟩
    exact hrefer _ hps (by simp) fun _ => rfl
  | lone key value =>
    exact sat_pure (hdone w₂ [] h₂ (by rw [ht₂, List.append_nil]) hc₂ (by simp) (by simp) fun d _ => by
      simp [TractDoc.arrivals, hm₂])
  | furrow key index payload =>
    exact sat_pure (hdone w₂ [] h₂ (by rw [ht₂, List.append_nil]) hc₂ (by simp) (by simp) fun d _ => by
      simp [TractDoc.arrivals, hm₂])

/-- A batch of pointers with the blocks read for them. -/
theorem each_walkItem_any {s : Store H} : ∀ (items : List (WalkItem H × Block H)) (w : Walker H),
    s.Unmoved w.store → w.walk.Marked w.store.tract.len →
    (∀ x ∈ items, x.1.lba < s.tract.len ∧ x.1.depth ≤ maxDepth) →
    (∀ x ∈ items, ∀ d, s.On d → x.2 = s.view d x.1.lba) →
    Sat (each walkItem items) w
      (fun _ w' => w.Kept w' ∧ w.marks.length + items.length ≤ w'.marks.length ∧ (Covered s w → Covered s w') ∧
        ∃ new, w'.walk.todo = w.walk.todo ++ new ∧ Owed s w.marks (items.map Prod.fst) w'.marks new)
      fun e _ => e.Calm := by
  intro items
  induction items with
  | nil => exact fun w _ h _ _ => sat_pure ⟨.refl h, le_rfl, id, [], by simp, .refl (by simp)⟩
  | cons item items ih =>
    intro w hs h hlt hbuf
    obtain ⟨⟨lba, hash, route, depth⟩, buf⟩ := item
    simp only [List.mem_cons, forall_eq_or_imp] at hlt hbuf
    refine sat_bind (walkItem_any hs h (hs.tract ▸ hlt.1.1) hlt.1.2 hbuf.1) ?_
    rintro _ w₁ ⟨h₁, hmarks₁, hcov₁, new₁, htodo₁, howed₁⟩
    refine (ih w₁ (hs.trans h₁.store) h₁.here hlt.2 hbuf.2).mono ?_ fun _ _ he => he
    rintro _ w₂ ⟨h₂, hmarks₂, hcov₂, new₂, htodo₂, howed₂⟩
    refine ⟨h₁.trans h₂, ?_, hcov₂ ∘ hcov₁, new₁ ++ new₂, by rw [htodo₂, htodo₁, List.append_assoc], howed₁.append howed₂⟩
    rw [List.length_cons]
    omega

/-- A step reads the last pointers of the list and marks a position for each. -/
theorem walkTreeStep_any {s : Store H} (hs : s.Unmoved w.store) (h : w.walk.Marked w.store.tract.len)
    (hlt : ∀ x ∈ w.walk.todo, x.lba < s.tract.len ∧ x.depth ≤ maxDepth) (hne : w.walk.todo ≠ []) :
    Sat walkTreeStep w
      (fun _ w' => w.Kept w' ∧ w.marks.length < w'.marks.length ∧ (Covered s w → Covered s w') ∧
        Owed s w.marks w.walk.todo w'.marks w'.walk.todo)
      fun e _ => e.Calm := by
  rw [walkTreeStep]
  refine sat_state ?_
  obtain ⟨keep, hkeep⟩ : ∃ n, n = w.walk.todo.length - walkStep := ⟨_, rfl⟩
  rw [← hkeep]
  obtain ⟨part, hpart⟩ : ∃ l, l = w.walk.todo.drop keep := ⟨_, rfl⟩
  have hsplit : w.walk.todo.take keep ++ part = w.walk.todo := by rw [hpart, List.take_append_drop]
  have hlen : 0 < part.length := by
    have := List.length_pos_iff.mpr hne
    rw [hpart, List.length_drop]
    unfold walkStep at hkeep
    omega
  dsimp only
  rw [← hpart]
  refine sat_bind (R := fun _ w₁ => w.Kept w₁ ∧ w₁.store = w.store ∧ w₁.walk = { w.walk with todo := w.walk.todo.take keep })
    (onWalk_any h (fun _ => rfl) fun h₁ => ⟨h₁, rfl, rfl⟩) ?_
  rintro _ w₁ ⟨h₁, hstore₁, hwalk₁⟩
  refine sat_try (onStore_any h₁.here ((readMany_any _ _).mono (fun _ _ hx => ⟨hx.2, hx.1⟩) fun _ _ hx => hx)) ?_ ?_
  · rintro blocks w₂ ⟨⟨hlength, hblocks⟩, h₂, hwalk₂⟩
    rw [List.length_map] at hlength
    have hs₁ : s.Unmoved w₁.store := hs.trans h₁.store
    rw [hwalk₁] at hwalk₂
    have hm₂ : w₂.marks = w.marks := congrArg (fun k => k.visited.marks) hwalk₂
    have hcov₂ : Covered s w → Covered s w₂ := fun hc p hp => by
      rw [hwalk₂]
      exact hc p (hm₂ ▸ hp)
    have hzip : (part.zip blocks).map Prod.fst = part := List.map_fst_zip hlength.ge
    refine (each_walkItem_any (part.zip blocks) w₂ (hs₁.trans h₂.store) h₂.here (fun x hx => ?_)
      fun x hx d hd => ?_).mono ?_ fun _ _ he => he
    · refine hlt _ (hsplit ▸ List.mem_append_right _ ?_)
      rw [← hzip]
      exact List.mem_map_of_mem hx
    · have hmap := hblocks d (hs₁.on d hd)
      rw [hs₁.view d hd, List.map_map] at hmap
      rw [hmap, List.zip_map_right, List.mem_map] at hx
      obtain ⟨⟨y, y'⟩, hy, rfl⟩ := hx
      obtain rfl : y = y' := by
        obtain ⟨i, hi, hyi⟩ := List.mem_iff_getElem.mp hy
        rw [List.getElem_zip] at hyi
        cases hyi
        rfl
      rfl
    · rintro _ w₃ ⟨h₃, hmarks₃, hcov₃, new, htodo₃, howed⟩
      rw [hm₂] at hmarks₃ howed
      refine ⟨(h₁.trans h₂).trans h₃, ?_, hcov₃ ∘ hcov₂, ?_⟩
      · have hz : (part.zip blocks).length = part.length := by rw [← List.length_map Prod.fst, hzip]
        omega
      · rw [htodo₃, hwalk₂]
        rw [hzip] at howed
        have hkept : Owed s w.marks (w.walk.todo.take keep) w.marks (w.walk.todo.take keep) :=
          .refl fun x hx => hlt x (List.mem_of_mem_take hx)
        have hall := hkept.append howed
        rwa [hsplit] at hall
  · rintro e w₂ ⟨he, h₂, -⟩
    exact sat_bind (R := fun _ _ => True) (onWalk_any h₂.here (fun _ => rfl) fun _ => trivial) fun _ _ _ => sat_fail he

theorem walkTreeSteps_any {s : Store H} : ∀ (fuel : Nat) (w : Walker H), s.Unmoved w.store →
    w.walk.Marked w.store.tract.len → (∀ x ∈ w.walk.todo, x.lba < s.tract.len ∧ x.depth ≤ maxDepth) →
    w.store.tract.len + 2 ≤ w.marks.length + fuel →
    Sat (walkTreeSteps fuel) w
      (fun _ w' => w.Kept w' ∧ (Covered s w → Covered s w') ∧ Owed s w.marks w.walk.todo w'.marks [])
      fun e _ => e.Calm := by
  intro fuel
  induction fuel with
  | zero =>
    intro w _ h _ hfuel
    have hle : w.marks.length ≤ w.store.tract.len := h.length_le
    omega
  | succ fuel ih =>
    intro w hs h hlt hfuel
    rw [walkTreeSteps_succ]
    refine sat_state ?_
    split
    next hnil =>
      rw [List.isEmpty_iff] at hnil
      rw [hnil]
      exact sat_pure ⟨.refl h, id, .refl (by simp)⟩
    next hne =>
      have hcons : w.walk.todo ≠ [] := fun hnil => hne (by rw [hnil, List.isEmpty_nil])
      refine sat_bind (walkTreeStep_any hs h hlt hcons) ?_
      rintro _ w₁ ⟨h₁, hmarks, hcov, howed⟩
      refine (ih w₁ (hs.trans h₁.store) h₁.here howed.lt ?_).mono
        (fun _ w₂ h₂ => ⟨h₁.trans h₂.1, h₂.2.1 ∘ hcov, howed.trans h₂.2.2⟩) fun _ _ he => he
      rw [h₁.store.tract]
      omega

/-- What a finished walk says of the index below its root. -/
structure Told (w w' : Walker H) (hash : H) (lba : Nat) : Prop where
  marked : w'.walk.Marked w.store.tract.len
  perm : ∀ d, w.store.On d → w'.marks.Perm (arrivals (w.store.view d) (maxDepth + 1) lba)
  vetted : ∀ d, w.store.On d → Vetted (w.store.view d) w.store.tract.len 0 hash lba

section Whole

variable {hash : H} {lba : Nat}

/-- A walk starts on a fresh bitset. -/
theorem fresh_any {f : Walk H → Walk H} {x : Prog Error (Walker H) Unit} {Q : Unit → Walker H → Prop}
    (hf : ∀ k, (f k).visited = Visited.new w.store.tract.len)
    (hx : ∀ u : Walker H, u.store = w.store → u.walk = f w.walk → u.walk.Marked u.store.tract.len → u.marks = [] →
      Sat x u Q fun e _ => e.Calm) : Sat (onWalk f >>= fun _ => x) w Q fun e _ => e.Calm :=
  hx _ rfl rfl (.new (hf _)) (by rw [marks, hf]; rfl)

theorem walkTreeCollect_any (hroot : w.store.hamt.root = some (.committed hash lba) ∨ w.store.hamt.root = none)
    (hlba : lba < w.store.tract.len) :
    Sat walkTreeCollect w
      (fun _ w' => w.store.Unmoved w'.store ∧
        (w.store.hamt.root = some (.committed hash lba) → Told w w' hash lba ∧ Covered w.store w'))
      fun e _ => e.Calm := by
  refine sat_state (fresh_any (fun _ => rfl) fun u hu hwalk hmarked hmarks => ?_)
  have htodo : u.walk.todo = walkStart w.store.hamt := by rw [hwalk]
  have hlt : ∀ x ∈ u.walk.todo, x.lba < w.store.tract.len ∧ x.depth ≤ maxDepth := by
    rw [htodo, walkStart]
    rcases hroot with hroot | hroot <;> rw [hroot]
    · intro x hx
      obtain rfl := List.mem_singleton.mp hx
      exact ⟨hlba, Nat.zero_le _⟩
    · simp
  refine (walkTreeSteps_any (s := w.store) _ u (hu ▸ .refl _) hmarked hlt (by rw [hu]; omega)).mono
    (fun _ w' h' => ⟨hu ▸ h'.1.store, fun hsome => ?_⟩) fun _ _ he => he
  obtain ⟨hkept, hcov, howed⟩ := h'
  rw [htodo, walkStart, hsome, hmarks] at howed
  refine ⟨⟨hu ▸ hkept.marked, fun d hd => ?_, fun d hd => ?_⟩, hcov fun p hp => by simp [hmarks] at hp⟩
  · simpa [WalkItem.arrivals] using howed.told d hd
  · exact howed.vetted d hd (by simp) _ (List.mem_singleton_self _)

theorem walkLiveCollect_any (hroot : w.store.hamt.root = some (.committed hash lba) ∨ w.store.hamt.root = none)
    (hlba : lba < w.store.tract.len) :
    Sat walkLiveCollect w (fun _ w' => w.store.hamt.root = some (.committed hash lba) → Told w w' hash lba)
      fun e _ => e.Calm := by
  refine sat_state ?_
  rcases hroot with hroot | hroot <;> rw [hroot]
  · refine fresh_any (fun _ => rfl) fun u hu _ hmarked hmarks => ?_
    refine (walkChild_any (maxDepth + 1) 0 (.committed hash lba) 0 u (by omega) (by omega) ?_ hmarked).mono
      (fun _ w' h' _ => ?_) fun _ _ he => he
    · rintro _ _ ⟨⟩
      exact hu ▸ hlba
    obtain ⟨hkept, hbelow⟩ := h'
    rw [hu] at hbelow
    refine ⟨hu ▸ hkept.marked, fun d hd => ?_, fun d hd => (hbelow d hd).1 hash lba rfl⟩
    have hperm := (hbelow d hd).2
    rwa [hmarks, List.append_nil] at hperm
  · exact sat_pure nofun

theorem walkKeys_any (hroot : w.store.hamt.root = some (.committed hash lba) ∨ w.store.hamt.root = none)
    (hlba : lba < w.store.tract.len) : Sat walkKeys w (fun _ _ => True) fun e _ => e.Calm := by
  refine sat_state ?_
  rcases hroot with hroot | hroot <;> rw [hroot]
  · refine fresh_any (fun _ => rfl) fun u hu _ hmarked _ => ?_
    refine (walkKeysChild_any (maxDepth + 1) 0 (.committed hash lba) u (by omega) (by omega) ?_ hmarked).mono
      (fun _ _ _ => trivial) fun _ _ he => he
    rintro _ _ ⟨⟩
    exact hu ▸ hlba
  · exact sat_pure trivial

theorem walkLiveRepair_any (hroot : w.store.hamt.root = some (.committed hash lba) ∨ w.store.hamt.root = none)
    (hlba : lba < w.store.tract.len) : Sat walkLiveRepair w (fun _ _ => True) fun e _ => e.Calm := by
  refine sat_state ?_
  rcases hroot with hroot | hroot <;> rw [hroot]
  · refine fresh_any (fun _ => rfl) fun u hu _ hmarked _ => ?_
    refine (walkChildRepair_any (maxDepth + 1) 0 (.committed hash lba) 0 u (by omega) (by omega) ?_ hmarked).mono
      (fun _ _ _ => trivial) fun _ _ he => he
    rintro _ _ ⟨⟩
    exact hu ▸ hlba
  · exact sat_pure trivial

end Whole

end Walker

theorem Hamt.fromRoot_some {h : Hamt H} {hash : H} {lba : Nat} (hroot : h = Hamt.fromRoot hash lba)
    (hne : hash ≠ Crates.zeros) : h.root = some (.committed hash lba) := by
  rw [hroot, Hamt.fromRoot]
  dsimp only
  rw [if_neg hne]

theorem Hamt.fromRoot_none {h : Hamt H} {hash : H} {lba : Nat} (hroot : h = Hamt.fromRoot hash lba)
    (hzero : hash = Crates.zeros) : h.root = none := by
  rw [hroot, Hamt.fromRoot]
  dsimp only
  rw [if_pos hzero]

theorem Hamt.fromRoot_cases {h : Hamt H} {hash : H} {lba : Nat} (hroot : h = Hamt.fromRoot hash lba) :
    h.root = some (.committed hash lba) ∨ h.root = none := by
  by_cases hzero : hash = Crates.zeros
  · exact .inr (fromRoot_none hroot hzero)
  · exact .inl (fromRoot_some hroot hzero)

/-- On any image and with any device faults the walks of an index whose root lies in the tract come
to an end, and without a panic. A walk that succeeds has reached the target of every pointer once,
and every node at the depth it names. -/
theorem index_walks_safe {w : Walker H} {hash : H} {lba : Nat} (hroot : w.store.hamt = Hamt.fromRoot hash lba)
    (hlba : lba < w.store.tract.len) :
    (∀ walk ∈ [Walker.walkTreeCollect, Walker.walkLiveCollect, Walker.walkKeys, Walker.walkLiveRepair],
      ∀ reason, (walk.run w).1 ≠ .error (.panic reason)) ∧
    (∀ runs size ps, expandRuns H runs size w.store.tract.len = .ok ps → ps.length ≤ w.store.tract.len) ∧
    ∀ walk ∈ [Walker.walkTreeCollect, Walker.walkLiveCollect], ∀ w', walk.run w = (.ok (), w') →
      hash ≠ Crates.zeros →
      (w'.marks.Nodup ∧ ∀ p ∈ w'.marks, p < w.store.tract.len) ∧
      ∀ d, w.store.On d →
        w'.marks.Perm (arrivals (w.store.view d) (maxDepth + 1) lba) ∧
        ∀ path l, Descends (w.store.view d) path lba l → ∀ depth route slots extra,
          w.store.view d l = .sealed (.node depth route slots) extra → depth = path.length ∧ depth < 52 := by
  have hcases := Hamt.fromRoot_cases hroot
  have htree := Walker.walkTreeCollect_any hcases hlba
  have hlive := Walker.walkLiveCollect_any hcases hlba
  have hkeys := Walker.walkKeys_any hcases hlba
  have hrepair := Walker.walkLiveRepair_any hcases hlba
  refine ⟨?_, fun runs size ps hps => (expandRuns_ok hps).2.2.1, ?_⟩
  · simp only [List.mem_cons, List.not_mem_nil, or_false, forall_eq_or_imp, forall_eq]
    exact ⟨Error.Calm.of_sat htree, Error.Calm.of_sat hlive, Error.Calm.of_sat hkeys, Error.Calm.of_sat hrepair⟩
  · intro walk hwalk w' hrun hne
    have hsome := Hamt.fromRoot_some hroot hne
    have htold : Walker.Told w w' hash lba := by
      have hsat : Sat walk w (fun _ w' => w.store.hamt.root = some (.committed hash lba) → Walker.Told w w' hash lba)
          fun e _ => e.Calm := by
        simp only [List.mem_cons, List.not_mem_nil, or_false] at hwalk
        rcases hwalk with rfl | rfl
        · exact htree.mono (fun _ _ h hsome => (h.2 hsome).1) fun _ _ he => he
        · exact hlive
      unfold Sat at hsat
      rw [hrun] at hsat
      exact hsat hsome
    refine ⟨⟨htold.marked.nodup, htold.marked.lt⟩, fun d hd => ⟨htold.perm d hd, ?_⟩⟩
    intro path l hdesc depth route slots extra hl
    obtain ⟨hdepth, hlt⟩ := (htold.vetted d hd).plumb path l hdesc depth route slots extra hl
    exact ⟨by omega, hlt⟩

namespace Digest

/-- A walk of four blocks whose first is the root; the last two are free. -/
def walkerOf (root : Block Digest) (rest : List (Block Digest)) : Walker Digest :=
  ⟨⟨⟨some ⟨4, fun p => (root :: rest).getD p .zero, none, [], []⟩, none, false, [], [], [], 0, none, []⟩,
    ⟨0, 4, 2, 0, none⟩, .fromRoot ((sealedHp root).getD ⟨0⟩) 0⟩, .start 4 []⟩

/-- A node whose slots `is` all hold the pointer to block 1. -/
def nodeTo (leaf : Block Digest) (is : List (Fin 32)) : Block Digest :=
  sealBlock (.node 0 0 fun i => if i ∈ is then (sealedHp leaf).map (·, 1) else none)

end Digest

/-- One pointer to a leaf is walked; two pointers to the same leaf are refused. -/
theorem index_walks_safe_shared :
    (∃ w', Walker.walkTreeCollect.run (Digest.walkerOf (Digest.nodeTo (encodeLone 5 [1]) [2]) [encodeLone 5 [1]]) =
        (.ok (), w') ∧ w'.marks.Nodup) ∧
    (∀ reason, (Walker.walkTreeCollect.run
      (Digest.walkerOf (Digest.nodeTo (encodeLone 5 [1]) [2, 3]) [encodeLone 5 [1]])).1 ≠ .error (.panic reason)) ∧
    (Walker.walkTreeCollect.run
      (Digest.walkerOf (Digest.nodeTo (encodeLone 5 [1]) [2, 3]) [encodeLone 5 [1]])).1 ≠ .ok () := by
  have hok : (Walker.walkTreeCollect.run
      (Digest.walkerOf (Digest.nodeTo (encodeLone 5 [1]) [2]) [encodeLone 5 [1]])).1 = .ok () := by decide +kernel
  rcases hr : Walker.walkTreeCollect.run
    (Digest.walkerOf (Digest.nodeTo (encodeLone 5 [1]) [2]) [encodeLone 5 [1]]) with ⟨r, w'⟩
  rw [hr] at hok
  obtain rfl : r = .ok () := hok
  have hone := index_walks_safe (w := Digest.walkerOf (Digest.nodeTo (encodeLone 5 [1]) [2]) [encodeLone 5 [1]]) rfl
    (by decide)
  have htwo := index_walks_safe (w := Digest.walkerOf (Digest.nodeTo (encodeLone 5 [1]) [2, 3]) [encodeLone 5 [1]]) rfl
    (by decide)
  exact ⟨⟨w', rfl, (hone.2.2 _ (by simp) w' hr (by decide +kernel)).1.1⟩, htwo.1 _ (by simp), by decide +kernel⟩

end Manifestus
