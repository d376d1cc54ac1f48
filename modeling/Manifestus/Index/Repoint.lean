import Manifestus.Index.Cut
import Manifestus.Index.Insert
import Manifestus.Engine.Reap

/-! Following a pointer down the way of a key: it is cut, or replaced by another. -/
set_option linter.unusedSectionVars false

namespace Manifestus
open Prog Store

variable {H : Type} [Crates H] {d : Dev H}

/-- What a pointer on the way leads to is there as the pointer says. -/
theorem Rep.sought {view : Nat → Block H} {len : Nat} {arena : List (Node H)} {k : Key} {h : H} {l : Nat}
    {x t : Tree H} : ∀ {path : List (Fin 32)} {c : Option (Child H)}, Rep view len arena path c t →
      OnPath path k → t.seek k h l path.length = some x →
      ∃ path', OnPath path' k ∧ path.length ≤ path'.length ∧
        Rep view len arena path' (some (.committed h l)) x := by
  induction t with
  | empty => intro path c _ _ hs; simp [Tree.seek] at hs
  | leaf hash lba key value furrows =>
    intro path c hrep hk hs
    rw [Tree.seek] at hs
    split at hs
    next heq =>
      obtain ⟨rfl, rfl⟩ := heq
      cases hs
      exact ⟨path, hk, le_rfl, rfl, hrep.2⟩
    · cases hs
  | disk hash lba ch ih =>
    intro path c hrep hk hs
    rw [Tree.seek] at hs
    split at hs
    next heq =>
      obtain ⟨rfl, rfl⟩ := heq
      cases hs
      exact ⟨path, hk, le_rfl, rfl, hrep.2⟩
    · obtain ⟨-, slots, -, hch⟩ := hrep
      obtain ⟨path', hk', hle, hrep'⟩ := ih (chunk k path.length) (hch _) (hk.snoc rfl) (by simpa using hs)
      rw [List.length_append, List.length_singleton] at hle
      exact ⟨path', hk', by omega, hrep'⟩
  | dirty idx ch ih =>
    intro path c hrep hk hs
    rw [Tree.seek] at hs
    obtain ⟨-, node, -, -, -, -, hch⟩ := hrep
    obtain ⟨path', hk', hle, hrep'⟩ := ih (chunk k path.length) (hch _) (hk.snoc rfl) (by simpa using hs)
    rw [List.length_append, List.length_singleton] at hle
    exact ⟨path', hk', by omega, hrep'⟩

namespace Hamt

/-- The subtree under the pointer is cut. What it was need not be there any more. -/
theorem pruneChild_run {view : Nat → Block H} {route : Key} {h : H} {l : Nat} {x t : Tree H} :
    ∀ {s : Store H} {path : List (Fin 32)} {c : Option (Child H)} {f : Nat}, s.On d →
      Rep view s.tract.len s.hamt.arena path c t →
      (∀ p, t.Way route path.length p → ¬ x.Claims p → s.view d p = view p) → t.Sep → OnPath path route → f + path.length = descentFuel →
      path.length ≤ maxDepth → t.seek route h l path.length = some x →
      ∃ m' arena' lost n c' t' gone,
        (pruneChild route (h, l) f path.length c).run s =
          (.ok c', { s with mirror := m', hamt := ({ s.hamt with arena := arena' } : Hamt H).lose lost }) ∧
        s.mirror.Agrees m' ∧ m'.Ready d ∧
        Edited view s.tract.len s.hamt.arena arena' route path n t t' x .empty c' gone ∧
        t.Cut route h l path.length t' ∧ ∀ e, e ∈ lost ↔ e ∈ gone := by
  induction t with
  | empty => intro s path c fuel _ _ _ _ _ _ _ hs; simp [Tree.seek] at hs
  | leaf hash lba key value furrows =>
    intro s path c fuel hon hrep hview hsep hpath hfuel hmax hs
    obtain ⟨f, rfl⟩ : ∃ f, fuel = f + 1 := ⟨fuel - 1, by simp [descentFuel] at hfuel; omega⟩
    obtain ⟨rfl, -, -⟩ := hrep
    rw [Tree.seek] at hs
    split at hs
    next heq =>
      obtain ⟨rfl, rfl⟩ := heq
      cases hs
      exact ⟨s.mirror, s.hamt.arena, [], path.length, none, .empty, [], by simp [pruneChild], .refl _, hon.ready,
        .here rfl trivial le_rfl (fun _ _ _ => rfl) fun u hu => hu.elim, .leaf, by simp⟩
    · cases hs
  | disk hash lba ch ih =>
    intro s path c fuel hon hrep hview hsep hpath hfuel hmax hs
    obtain ⟨f, rfl⟩ : ∃ f, fuel = f + 1 := ⟨fuel - 1, by simp [descentFuel] at hfuel; omega⟩
    obtain ⟨rfl, slots, hnode, hch⟩ := hrep
    rw [Tree.seek] at hs
    split at hs
    next heq =>
      obtain ⟨rfl, rfl⟩ := heq
      cases hs
      exact ⟨s.mirror, s.hamt.arena, [], path.length, none, .empty, [], by simp [pruneChild], .refl _, hon.ready,
        .here rfl trivial le_rfl (fun _ _ _ => rfl) fun u hu => hu.elim, .node, by simp⟩
    next hne =>
      obtain ⟨s₁, hdoc, m₁, rfl, ha₁, hr₁⟩ := readDoc_run hon hnode.lt hash
      have hlba : s.view d lba = view lba := hview lba (.inl rfl) fun hx => hsep.2.2 _ (Tree.claims_of_seek hs hx)
      rw [hlba] at hdoc
      obtain ⟨nodeRoute, hroute, hd⟩ := hnode.docOf
      rw [hd] at hdoc
      have hdepth := hnode.depth
      set node := Node.ofSlots path.length nodeRoute slots with hnodeDef
      set s₂ : Store H := { s with
        mirror := m₁
        hamt := ({ s.hamt with arena := s.hamt.arena ++ [node] } : Hamt H).lose [(lba, hash)] } with hs₂
      have hview₂ : s₂.view d = s.view d := by
        funext p
        exact congrFun (ha₁.view d) _
      obtain ⟨m', arena', lost, n, c', t', gone, hrun, ha, hr, hedit, hcut, hl⟩ :=
        ih (chunk route path.length) (s := s₂) (f := f)
          ⟨hr₁, hon.fits⟩
          ((hch _).congr le_rfl (fun _ _ => rfl) fun u hu => List.getElem?_append_left ((hch _).uses_lt u hu))
          (fun p hp hx => by rw [hview₂]; exact hview p (.inr (by simpa using hp)) hx)
          (hsep.1 _) (hpath.snoc rfl) (by simp; omega) (by simp; omega) (by simpa using hs)
      rw [List.length_append, List.length_singleton] at hrun hcut
      refine ⟨m', _, [(lba, hash)] ++ lost, n, _, _, _, ?_, ha₁.trans ha, hr,
        Edited.disk hdepth hroute hch hsep hnode.hash_eq hedit fun p hp => hp.elim, .disk hne hcut, fun e => ?_⟩
      · have hpush : (pushNode node).run { s with mirror := m₁ } =
            (.ok s.hamt.arena.length,
              { s with mirror := m₁, hamt := { s.hamt with arena := s.hamt.arena ++ [node] } }) :=
          pushNode_run _ _
        have hat : (nodeAtDepth node lba path.length).run { s with mirror := m₁ } =
            (.ok (), { s with mirror := m₁ }) := nodeAtDepth_run rfl _
        change (pruneChild route (h, l) f (path.length + 1)
          (node.children (chunk route path.length))).run s₂ = _ at hrun
        simp only [pruneChild, if_neg hne, bind_run, hdoc, hat, hpush, chunkAt_run hdepth, onHamt_run,
          pure_run, pushRemoved_eq]
        rw [hrun]
        simp only [← lose_lose]
        rfl
      · rw [List.mem_append, hl, List.mem_singleton, List.mem_cons]
  | dirty idx ch ih =>
    intro s path c fuel hon hrep hview hsep hpath hfuel hmax hs
    obtain ⟨f, rfl⟩ : ∃ f, fuel = f + 1 := ⟨fuel - 1, by simp [descentFuel] at hfuel; omega⟩
    have hrep' := hrep
    obtain ⟨rfl, node, hnode, hdepth, hlt, hroute, hch⟩ := hrep
    obtain ⟨m', arena', lost, n, c', t', gone, hrun, ha, hr, hedit, hcut, hl⟩ :=
      ih (chunk route path.length) (f := f) hon (hch _) (fun p hp hx => hview p (by simpa [Tree.Way] using hp) hx)
        (hsep.1 _) (hpath.snoc rfl) (by simp; omega) (by simp; omega) (by simpa [Tree.seek] using hs)
    rw [List.length_append, List.length_singleton] at hrun hcut
    refine ⟨m', _, lost, n, _, _, gone, ?_, ha, hr, Edited.dirty hrep' hsep hedit fun p hp => hp.elim, .dirty hcut, hl⟩
    simp only [pruneChild, bind_run, chunkAt_run hlt, nodeAt_run hnode, hrun, onHamt_run, pure_run]
    rfl

/-- The pointer is replaced, and what it leads to with it. -/
theorem repoint_run {key : Key} {targetDepth : Option Nat} {h h' : H} {l l' : Nat} {x y t : Tree H}
    (hsep' : y.Sep) (huses : ∀ u, ¬ y.Uses u) :
    ∀ {s : Store H} {path : List (Fin 32)} {c : Option (Child H)} {f : Nat}, s.On d →
      s.Holds d path c t → t.Sep → OnPath path key → f + path.length = descentFuel →
      path.length ≤ maxDepth → t.seek key h l path.length = some x →
      (∀ depth ∈ targetDepth, ∃ route slots extra, s.view d l = .sealed (.node depth route slots) extra) →
      (∀ path' arena, OnPath path' key → Rep (s.view d) s.tract.len arena path' (some (.committed h l)) x →
        Rep (s.view d) s.tract.len arena path' (some (.committed h' l')) y) →
      (∀ p, y.Claims p → x.Claims p ∨ ¬ t.Claims p) →
      ∃ m' arena' lost n c' t' gone,
        (repoint key targetDepth (h, l) (h', l') f path.length c).run s =
          (.ok c', { s with
            mirror := m'
            hamt := ({ s.hamt with
              arena := arena', repointHits := s.hamt.repointHits + 1 } : Hamt H).lose lost }) ∧
        s.mirror.Agrees m' ∧ m'.Ready d ∧
        Edited (s.view d) s.tract.len s.hamt.arena arena' key path n t t' x y c' gone ∧
        ∀ e, e ∈ lost ↔ e ∈ gone := by
  induction t with
  | empty => intro s path c fuel _ _ _ _ _ _ hs; simp [Tree.seek] at hs
  | leaf hash lba k value furrows =>
    intro s path c fuel hon hrep hsep hpath hfuel hmax hs htarget hy hnew
    obtain ⟨f, rfl⟩ : ∃ f, fuel = f + 1 := ⟨fuel - 1, by simp [descentFuel] at hfuel; omega⟩
    have hrep' := hrep
    obtain ⟨rfl, -, -⟩ := hrep
    rw [Tree.seek] at hs
    split at hs
    next heq =>
      obtain ⟨rfl, rfl⟩ := heq
      cases hs
      exact ⟨s.mirror, s.hamt.arena, [], path.length, some (.committed h' l'), y, [],
        by simp [repoint, onHamt], .refl _, hon.ready,
        .here (hy path _ hpath hrep') hsep' le_rfl (fun _ _ _ => rfl) fun u hu => (huses u hu).elim, by simp⟩
    · cases hs
  | disk hash lba ch ih =>
    intro s path c fuel hon hrep hsep hpath hfuel hmax hs htarget hy hnew
    obtain ⟨f, rfl⟩ : ∃ f, fuel = f + 1 := ⟨fuel - 1, by simp [descentFuel] at hfuel; omega⟩
    have hrep' := hrep
    obtain ⟨path', hpath', hle, hx⟩ := Rep.sought hrep hpath hs
    obtain ⟨rfl, slots, hnode, hch⟩ := hrep
    -- the pointer sought is not above its own depth
    have hdeep : ¬ (targetDepth.any fun depth => depth + 1 < path.length) = true := by
      rcases htd : targetDepth with _ | depth
      · simp
      · obtain ⟨r, sl, extra, hblock⟩ := htarget depth (by rw [htd]; rfl)
        cases x with
        | empty => cases hx
        | leaf =>
          obtain ⟨hc, -, hleaf⟩ := hx
          cases hc
          obtain ⟨doc, extra', hv, -, hdoc⟩ := hleaf.doc
          rw [hblock] at hv
          cases hv
          exact hdoc.elim
        | disk =>
          obtain ⟨hc, slots', hnode', -⟩ := hx
          cases hc
          obtain ⟨r', extra', hb, -, -⟩ := hnode'.block
          rw [hblock] at hb
          cases hb
          simp
          omega
        | dirty => cases hx.1
    rw [Tree.seek] at hs
    split at hs
    next heq =>
      obtain ⟨rfl, rfl⟩ := heq
      cases hs
      exact ⟨s.mirror, s.hamt.arena, [], path.length, some (.committed h' l'), y, [],
        by simp [repoint, onHamt], .refl _, hon.ready,
        .here (hy path _ hpath hrep') hsep' le_rfl (fun _ _ _ => rfl) fun u hu => (huses u hu).elim, by simp⟩
    next hne =>
      obtain ⟨s₁, hdoc, m₁, rfl, ha₁, hr₁⟩ := readDoc_run hon hnode.lt hash
      obtain ⟨nodeRoute, hroute, hd⟩ := hnode.docOf
      rw [hd] at hdoc
      have hdepth := hnode.depth
      set node := Node.ofSlots path.length nodeRoute slots with hnodeDef
      set s₂ : Store H := { s with
        mirror := m₁
        hamt := ({ s.hamt with arena := s.hamt.arena ++ [node] } : Hamt H).lose [(lba, hash)] } with hs₂
      have hview₂ : s₂.view d = s.view d := by
        funext p
        exact congrFun (ha₁.view d) _
      obtain ⟨m', arena', lost, n, c', t', gone, hrun, ha, hr, hedit, hl⟩ :=
        ih (chunk key path.length) (s := s₂) (f := f)
          ⟨hr₁, hon.fits⟩
          (by
            rw [Store.Holds, hview₂]
            refine (hch _).congr le_rfl (fun _ _ => rfl) fun u hu => ?_
            exact List.getElem?_append_left ((hch _).uses_lt u hu))
          (hsep.1 _) (hpath.snoc rfl) (by simp; omega) (by simp; omega) (by simpa using hs)
          (by rw [hview₂]; exact htarget) (by rw [hview₂]; exact hy)
          fun p hp => (hnew p hp).imp_right fun hno hc => hno (.inr ⟨_, hc⟩)
      rw [hview₂] at hedit
      rw [List.length_append, List.length_singleton] at hrun
      refine ⟨m', _, [(lba, hash)] ++ lost, n, _, _, _, ?_, ha₁.trans ha, hr,
        Edited.disk hdepth hroute hch hsep hnode.hash_eq hedit fun p hp => ?_, fun e => ?_⟩
      · have hpush : (pushNode node).run { s with mirror := m₁ } =
            (.ok s.hamt.arena.length,
              { s with mirror := m₁, hamt := { s.hamt with arena := s.hamt.arena ++ [node] } }) :=
          pushNode_run _ _
        have hat : (nodeAtDepth node lba path.length).run { s with mirror := m₁ } =
            (.ok (), { s with mirror := m₁ }) := nodeAtDepth_run rfl _
        change (repoint key targetDepth (h, l) (h', l') f (path.length + 1)
          (node.children (chunk key path.length))).run s₂ = _ at hrun
        simp only [repoint, if_neg hne, if_neg hdeep, bind_run, hdoc, hat, hpush, chunkAt_run hdepth,
          onHamt_run, pure_run, pushRemoved_eq]
        rw [hrun]
        simp only [← lose_lose]
        rfl
      · rcases hnew p hp with hx | hno
        · exact .inl hx
        · exact .inr ⟨fun hc => hno (.inl hc), fun i hi => hno (.inr ⟨i, hi⟩)⟩
      · rw [List.mem_append, hl, List.mem_singleton, List.mem_cons]
  | dirty idx ch ih =>
    intro s path c fuel hon hrep hsep hpath hfuel hmax hs htarget hy hnew
    obtain ⟨f, rfl⟩ : ∃ f, fuel = f + 1 := ⟨fuel - 1, by simp [descentFuel] at hfuel; omega⟩
    have hrep' := hrep
    obtain ⟨rfl, node, hnode, hdepth, hlt, hroute, hch⟩ := hrep
    obtain ⟨m', arena', lost, n, c', t', gone, hrun, ha, hr, hedit, hl⟩ :=
      ih (chunk key path.length) (f := f) hon (hch _)
        (hsep.1 _) (hpath.snoc rfl) (by simp; omega) (by simp; omega) (by simpa [Tree.seek] using hs) htarget
        hy
        fun p hp => (hnew p hp).imp_right fun hno hc => hno ⟨_, hc⟩
    rw [List.length_append, List.length_singleton] at hrun
    refine ⟨m', _, lost, n, _, _, gone, ?_, ha, hr,
      Edited.dirty hrep' hsep hedit fun p hp => (hnew p hp).imp_right fun hno i hi => hno ⟨i, hi⟩, hl⟩
    simp only [repoint, bind_run, chunkAt_run hlt, nodeAt_run hnode, hrun, onHamt_run, pure_run]
    rfl

end Hamt
end Manifestus
