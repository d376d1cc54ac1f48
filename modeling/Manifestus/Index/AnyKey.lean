import Manifestus.Index.AnyImage
import Manifestus.Index.Append
import Manifestus.Index.Insert

/-! Point operations on an index of any content that the open's walk let through. Only the descent
of a put below the leaf it meets may run past the key: no walk compares a leaf's key with the path
that leads to it. -/
set_option linter.unusedSectionVars false

namespace Manifestus
open Prog Store

variable {H : Type} [Crates H]

section Calm

theorem Tract.inBounds_calm (lba : Nat) : Calm (Tract.inBounds (H := H) lba) := by
  refine always_state fun s => ?_
  split
  · exact always_pure trivial
  · exact always_fail trivial

theorem Tract.readRun_calm (lba n : Nat) : Calm (Tract.readRun (H := H) lba n) := by
  refine always_state fun s => ?_
  split
  · exact always_fail trivial
  · exact always_zoom (Mirror.readRun_calm _ n)

theorem furrowPayload_error {key : Key} {index : Nat} {buf : Block H} {e : Error}
    (h : furrowPayload key index buf = .error e) : e.Calm := by
  unfold furrowPayload at h
  split at h
  · cases h
    trivial
  split at h
  next hdecode =>
    cases h
    exact decodeDoc_error hdecode
  · split at h <;> cases h
    trivial
  · cases h
    trivial

theorem payloads_error {key : Key} : ∀ {bufs : List (Block H)} {index : Nat} {e : Error},
    payloads key index bufs = .error e → e.Calm := by
  intro bufs
  induction bufs with
  | nil => intro index e h; cases h
  | cons buf bufs ih =>
    intro index e h
    rw [payloads] at h
    split at h
    next hone =>
      cases h
      exact furrowPayload_error hone
    · split at h
      next hrest =>
        cases h
        exact ih hrest
      · cases h

theorem readRuns_calm (key : Key) : ∀ (runs : List (List Nat)) (start : Nat), Calm (readRuns (H := H) key start runs) := by
  intro runs
  induction runs with
  | nil => exact fun start => always_pure trivial
  | cons run runs ih =>
    intro start
    refine always_bind (Tract.readRun_calm _ _) fun bufs _ => ?_
    refine always_bind (always_lift (fun _ _ => trivial) fun e he => payloads_error he) fun bytes _ => ?_
    exact always_bind (ih _) fun rest _ => always_pure trivial

theorem readFurrows_calm (key : Key) (size : Nat) (furrows : List Nat) :
    Calm (readFurrows (H := H) key size furrows) := by
  unfold readFurrows
  have hread : Calm (do
      let out ← readRuns (H := H) key 0 (cutRuns runStep furrows)
      if out.length ≠ size then fail (.corrupt "assembled size mismatch")
      pure out) := by
    refine always_bind (readRuns_calm key _ 0) fun out _ => ?_
    split
    · exact always_stop trivial
    · exact always_pure trivial
  split
  · exact always_stop trivial
  · exact hread

theorem Tract.zeroDelete_calm (lba : Nat) : Calm (Tract.zeroDelete (H := H) lba) :=
  always_bind (Tract.inBounds_calm lba) fun _ _ => always_state fun _ => always_zoom (Mirror.writeVerified_calm _ _)

namespace Hamt

variable {key route : Key} {s s' : Store H}

/-- A pointer into the tract, not into the arena. -/
def OnTract (c : Option (Child H)) : Prop := ∀ idx, c ≠ some (.dirty idx)

theorem lookupFrom_calm : ∀ (fuel depth : Nat) (c : Child H) (s : Store H), depth + fuel = maxDepth + 1 →
    depth ≤ maxDepth → OnTract (some c) → Sat (lookupFrom key fuel depth c) s (fun _ _ => True) fun e _ => e.Calm := by
  intro fuel
  induction fuel with
  | zero => intro depth c s hfuel hdepth; omega
  | succ fuel ih =>
    intro depth c s hfuel hdepth hc
    rcases c with ⟨hash, lba⟩ | idx
    swap
    · exact absurd rfl (hc idx)
    rw [lookupFrom]
    refine sat_bind ((readDoc_any s lba hash).mono (fun _ _ h => h) fun _ _ h => h.1) ?_
    rintro doc s₁ ⟨-, -, hwithin, -⟩
    rcases doc with _ | doc
    · exact sat_pure trivial
    have hdoc := hwithin doc rfl
    cases doc with
    | node n =>
      refine sat_bind ((Walker.nodeAtDepth_any s₁).mono (fun _ _ hx => hx) ?_) ?_
      · rintro e _ ⟨⟨reason, rfl⟩, -⟩
        trivial
      rintro _ _ ⟨rfl, hn⟩
      have hlt : depth < maxDepth := hn ▸ hdoc.1
      refine sat_run (chunkAt_run hlt _) ?_
      rcases hchild : n.children (chunk key depth) with _ | child
      · exact sat_pure trivial
      · exact ih (depth + 1) child _ (by omega) (by omega) fun idx hx => hdoc.2.2 _ idx (hchild.trans hx)
    | lone k value => exact sat_pure trivial
    | direct k size furrows =>
      dsimp only
      split
      · exact sat_pure trivial
      · exact sat_bind (readFurrows_calm key size furrows s₁) fun _ _ _ => sat_pure trivial
    | extent k size runs =>
      dsimp only
      split
      · exact sat_pure trivial
      · refine sat_state (sat_bind (R := fun _ _ => True) ?_ fun ps s₂ _ => ?_)
        · refine (Walker.expandRuns_any runs size _ s₁).mono (fun _ _ _ => trivial) ?_
          rintro e _ ⟨⟨reason, rfl⟩, -⟩
          trivial
        · exact sat_bind (readFurrows_calm key size ps s₂) fun _ _ _ => sat_pure trivial
    | furrow k index payload => exact sat_fail trivial

theorem lookup_calm (key : Key) (h : OnTract s.hamt.root) : Sat (lookup key) s (fun _ _ => True) fun e _ => e.Calm := by
  refine sat_state ?_
  rcases hroot : s.hamt.root with _ | c
  · exact sat_pure trivial
  · exact lookupFrom_calm descentFuel 0 c s (Nat.zero_add _) (Nat.zero_le _) (hroot ▸ h)

theorem findLeafFrom_calm : ∀ (fuel depth : Nat) (c : Child H) (s : Store H), depth + fuel = maxDepth + 1 →
    depth ≤ maxDepth → OnTract (some c) →
    Sat (findLeafFrom key fuel depth c) s (fun _ s' => s.Unmoved s') fun e _ => e.Calm := by
  intro fuel
  induction fuel with
  | zero => intro depth c s hfuel hdepth; omega
  | succ fuel ih =>
    intro depth c s hfuel hdepth hc
    rcases c with ⟨hash, lba⟩ | idx
    swap
    · exact absurd rfl (hc idx)
    rw [findLeafFrom]
    refine sat_bind ((readDoc_any s lba hash).mono (fun _ _ h => h) fun _ _ h => h.1) ?_
    rintro doc s₁ ⟨hs, -, hwithin, -⟩
    rcases doc with _ | doc
    · exact sat_pure hs
    have hdoc := hwithin doc rfl
    cases doc with
    | node n =>
      refine sat_bind ((Walker.nodeAtDepth_any s₁).mono (fun _ _ hx => hx) ?_) ?_
      · rintro e _ ⟨⟨reason, rfl⟩, -⟩
        trivial
      rintro _ _ ⟨rfl, hn⟩
      have hlt : depth < maxDepth := hn ▸ hdoc.1
      refine sat_run (chunkAt_run hlt _) ?_
      rcases hchild : n.children (chunk key depth) with _ | child
      · exact sat_pure hs
      · exact (ih (depth + 1) child _ (by omega) (by omega) fun idx hx => hdoc.2.2 _ idx (hchild.trans hx)).mono
          (fun _ _ h => hs.trans h) fun _ _ he => he
    | lone k value => exact sat_pure hs
    | direct k size furrows => exact sat_pure hs
    | extent k size runs => exact sat_pure hs
    | furrow k index payload => exact sat_fail trivial

/-- The blocks of a leaf join the removals; the root stays. -/
theorem removeLeafBlocks_calm (s : Store H) (lba : Nat) (hash : H) :
    Sat (removeLeafBlocks lba hash) s (fun _ s' => s'.hamt.root = s.hamt.root) fun e _ => e.Calm := by
  have hone : ∀ p (u : Store H), Sat (removeSealed p) u (fun _ u' => u'.hamt.root = u.hamt.root) fun e _ => e.Calm := by
    intro p u
    refine sat_bind ((read_any u p).mono (fun _ _ h => h) fun _ _ h => h.1) fun buf u₁ h₁ => ?_
    have hr : u₁.hamt.root = u.hamt.root := congrArg Hamt.root h₁.hamt
    split
    · exact hr
    · exact sat_pure hr
  have hall : ∀ ps (u : Store H), Sat (each removeSealed ps) u (fun _ u' => u'.hamt.root = u.hamt.root)
      fun e _ => e.Calm := fun ps u =>
    (sat_each (I := fun v => v.hamt.root = u.hamt.root) (P := fun _ => True)
      (fun p _ v hv => (hone p v).mono (fun _ _ h => ⟨h.trans hv, trivial⟩) fun _ _ he => he) rfl).mono
      (fun _ _ h => h.1) fun _ _ he => he
  refine sat_run (onHamt_run _ s) ?_
  refine sat_bind ((readDoc_any _ lba hash).mono (fun _ _ h => h) fun _ _ h => h.1) ?_
  rintro doc s₂ ⟨hs, -, -, -⟩
  have h₂ : s₂.hamt.root = s.hamt.root := by
    rw [hs.hamt]
    rfl
  split
  · exact (hall _ s₂).mono (fun _ _ h => h.trans h₂) fun _ _ he => he
  · refine sat_state (sat_bind ((Walker.expandRuns_any _ _ _ s₂).mono (fun _ _ h => h) ?_) ?_)
    · rintro e _ ⟨⟨reason, rfl⟩, -⟩
      trivial
    · rintro ps _ ⟨rfl, -, -⟩
      exact (hall ps _).mono (fun _ _ h => h.trans h₂) fun _ _ he => he
  · exact sat_pure h₂

/-- Zeroing the blocks of a leaf leaves the index. -/
theorem eraseLeaf_calm (s : Store H) (lba : Nat) (hash : H) :
    Sat (eraseLeaf lba hash) s (fun _ s' => s'.hamt = s.hamt) fun e _ => e.Calm := by
  have hone : ∀ p (u : Store H), Sat (Tract.zeroDelete p) u (fun _ u' => u'.hamt = u.hamt) fun e _ => e.Calm := by
    intro p u
    have hcalm := Tract.zeroDelete_calm p u
    have hsame : ((Tract.zeroDelete p).run u).2.hamt = u.hamt := by
      by_cases hp : p < u.tract.len <;> simp [Tract.zeroDelete, Tract.inBounds, hp, onMirror]
    exact hcalm.self.mono (fun _ _ h => h.2 ▸ hsame) fun _ _ h => h.1
  have hall : ∀ ps (u : Store H), Sat (each Tract.zeroDelete ps) u (fun _ u' => u'.hamt = u.hamt)
      fun e _ => e.Calm := fun ps u =>
    (sat_each (I := fun v => v.hamt = u.hamt) (P := fun _ => True)
      (fun p _ v hv => (hone p v).mono (fun _ _ h => ⟨h.trans hv, trivial⟩) fun _ _ he => he) rfl).mono
      (fun _ _ h => h.1) fun _ _ he => he
  refine sat_bind ((readDoc_any s lba hash).mono (fun _ _ h => h) fun _ _ h => h.1) ?_
  rintro doc s₁ ⟨hs, -, -, -⟩
  have hlast : ∀ ps, Sat (each Tract.zeroDelete ps >>= fun _ => Tract.zeroDelete lba) s₁
      (fun _ s' => s'.hamt = s.hamt) fun e _ => e.Calm := fun ps =>
    sat_bind (hall ps s₁) fun _ s₂ h₂ => (hone lba s₂).mono (fun _ _ h => h.trans (h₂.trans hs.hamt)) fun _ _ he => he
  split
  · exact sat_pure hs.hamt
  · exact hlast _
  · refine sat_state (sat_bind ((Walker.expandRuns_any _ _ _ s₁).mono (fun _ _ h => h) ?_) ?_)
    · rintro e _ ⟨⟨reason, rfl⟩, -⟩
      trivial
    · rintro ps _ ⟨rfl, -, -⟩
      exact hlast ps
  · exact (hone lba s₁).mono (fun _ _ h => h.trans hs.hamt) fun _ _ he => he

theorem pruneChild_calm {old : H × Nat} : ∀ (fuel depth : Nat) (c : Option (Child H)) (s : Store H),
    depth + fuel = maxDepth + 1 → depth ≤ maxDepth → OnTract c →
    Sat (pruneChild route old fuel depth c) s (fun _ _ => True) fun e _ => e.Calm := by
  intro fuel
  induction fuel with
  | zero => intro depth c s hfuel hdepth; omega
  | succ fuel ih =>
    intro depth c s hfuel hdepth hc
    rcases c with _ | ⟨hash, lba⟩ | idx
    · exact sat_pure trivial
    · rw [pruneChild]
      split
      · exact sat_pure trivial
      refine sat_bind ((readDoc_any s lba hash).mono (fun _ _ h => h) fun _ _ h => h.1) ?_
      rintro doc s₁ ⟨-, -, hwithin, -⟩
      split
      next n =>
        have hdoc := hwithin _ rfl
        refine sat_bind ((Walker.nodeAtDepth_any s₁).mono (fun _ _ hx => hx) ?_) ?_
        · rintro e _ ⟨⟨reason, rfl⟩, -⟩
          trivial
        rintro _ _ ⟨rfl, hn⟩
        have hlt : depth < maxDepth := hn ▸ hdoc.1
        refine sat_run (pushNode_run _ n) (sat_bind (R := fun _ _ => True) trivial fun _ s₂ _ => ?_)
        refine sat_run (chunkAt_run hlt _) ?_
        refine sat_bind (ih (depth + 1) _ s₂ (by omega) (by omega) fun idx hx => hdoc.2.2 _ idx hx) fun sub s₃ _ => ?_
        exact sat_bind (R := fun _ _ => True) trivial fun _ _ _ => sat_pure trivial
      · exact sat_pure trivial
    · exact absurd rfl (hc idx)

theorem delete_calm (key : Key) (policy : DeletePolicy) (h : OnTract s.hamt.root) :
    Sat (delete key policy) s (fun _ _ => True) fun e _ => e.Calm := by
  have hfind : Sat (findLeaf key) s (fun _ s' => s.Unmoved s') fun e _ => e.Calm := by
    refine sat_state ?_
    rcases hroot : s.hamt.root with _ | c
    · exact sat_pure (.refl s)
    · exact findLeafFrom_calm descentFuel 0 c s (Nat.zero_add _) (Nat.zero_le _) (hroot ▸ h)
  refine sat_bind hfind fun found s₁ h₁ => ?_
  have hr₁ : s₁.hamt.root = s.hamt.root := congrArg Hamt.root h₁.hamt
  split
  · exact sat_pure trivial
  · next lba hash =>
    refine sat_bind (removeLeafBlocks_calm s₁ lba hash) fun _ s₂ hr₂ => ?_
    have hprune : ∀ s₃ : Store H, s₃.hamt.root = s₂.hamt.root →
        Sat (prune key (hash, lba) >>= fun _ => pure true) s₃ (fun _ _ => True) fun e _ => e.Calm := by
      intro s₃ hr₃
      have hclean : OnTract s₃.hamt.root := by
        rw [hr₃, hr₂, hr₁]
        exact h
      refine sat_bind (R := fun _ _ => True) (sat_state ?_) fun _ _ _ => sat_pure trivial
      exact sat_bind (pruneChild_calm descentFuel 0 _ s₃ (Nat.zero_add _) (Nat.zero_le _) hclean) fun _ _ _ => trivial
    split
    · exact sat_bind (eraseLeaf_calm s₂ lba hash) fun _ s₃ h₃ => hprune s₃ (congrArg Hamt.root h₃)
    · exact hprune s₂ rfl

end Hamt

end Calm

end Manifestus
