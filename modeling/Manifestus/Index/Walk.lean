import Manifestus.Index.Live
import Manifestus.Index.Flush
import Manifestus.Engine.Walk

/-! Walking a sound index: every block it holds is reached once, and nothing else. -/
set_option linter.unusedSectionVars false

namespace Manifestus
open Prog Store

variable {H : Type} [Crates H] {d : Dev H} {s : Store H} {t : Tree H}

/-- A pointer to read with the tree it leads to. -/
structure Pointed (view : Nat → Block H) (len : Nat) (item : WalkItem H) (t : Tree H) : Prop where
  rep : ∃ path, path.length = item.depth ∧ Rep view len [] path (some (.committed item.hash item.lba)) t
  sep : t.Sep

/-- A walk under way: `ps` are the pointers still to read, and what they lead to and what has been
found make up the index. -/
structure Frontier (view : Nat → Block H) (len : Nat) (t : Tree H) (ps : List (WalkItem H × Tree H))
    (k : Walk H) : Prop where
  pointed : ∀ x ∈ ps, Pointed view len x.1 x.2
  apart : ps.Pairwise fun x y => ∀ p, x.2.Claims p → ¬ y.2.Claims p
  claims : ∀ p, t.Claims p ↔ p ∈ k.visited.marks ∨ ∃ x ∈ ps, x.2.Claims p
  fresh : ∀ x ∈ ps, ∀ p, x.2.Claims p → p ∉ k.visited.marks
  marks : ∀ p, p ∈ k.visited.marks ↔ p ∈ spots k.liveBlocks ∨ p ∈ k.referenced
  hashes : ∀ e ∈ k.liveBlocks, sealedHp (view e.1) = some e.2
  nodup : k.visited.marks.Nodup
  lt : ∀ p ∈ k.visited.marks, p < len
  words : k.visited.words = divCeil len (2 ^ 6)
  stale : k.stale = []
  dangling : k.dangling = []

theorem Frontier.length_le {view : Nat → Block H} {len : Nat} {ps : List (WalkItem H × Tree H)} {k : Walk H}
    (h : Frontier view len t ps k) : k.visited.marks.length ≤ len := by
  have := h.nodup.length_le_of_subset fun p hp => List.mem_range.mpr (h.lt p hp)
  simpa using this

namespace Walker

theorem reach_run {k : Walk H} {lba len : Nat} (hwords : k.visited.words = divCeil len (2 ^ 6)) (hlt : lba < len)
    (hnew : lba ∉ k.visited.marks) :
    (reach lba).run ⟨s, k⟩ =
      (.ok (), ⟨s, { k with visited := { k.visited with marks := lba :: k.visited.marks } }⟩) := by
  have hin : ¬ k.visited.words ≤ lba / 2 ^ 6 := by
    rw [hwords]
    unfold divCeil
    omega
  simp only [reach, bind_run, state_run, if_neg hin, if_neg hnew, onWalk, update_run]

/-- The furrows of a value are marked by position. -/
theorem each_refer_run {len : Nat} (fs : List Nat) : ∀ {k : Walk H},
    k.visited.words = divCeil len (2 ^ 6) → (∀ p ∈ fs, p < len) → fs.Nodup → (∀ p ∈ fs, p ∉ k.visited.marks) →
    ∃ marks, (each refer fs).run ⟨s, k⟩ =
        (.ok (), ⟨s, { k with visited := { k.visited with marks := marks }, referenced := k.referenced ++ fs }⟩) ∧
      (∀ p, p ∈ marks ↔ p ∈ k.visited.marks ∨ p ∈ fs) ∧ (k.visited.marks.Nodup → marks.Nodup) ∧
      k.visited.marks.length ≤ marks.length := by
  induction fs with
  | nil => intro k _ _ _ _; exact ⟨k.visited.marks, by simp [each], by simp, id, le_rfl⟩
  | cons p fs ih =>
    intro k hwords hlt hnd hnew
    simp only [List.mem_cons, forall_eq_or_imp] at hlt hnew
    rw [List.nodup_cons] at hnd
    obtain ⟨marks, hrun, hmem, hnodup, hlen⟩ := ih
      (k := { k with
        visited := { k.visited with marks := p :: k.visited.marks }, referenced := k.referenced ++ [p] })
      hwords hlt.2 hnd.2 fun q hq hc => by
        rcases List.mem_cons.mp hc with rfl | hc
        · exact hnd.1 hq
        · exact hnew.2 q hq hc
    refine ⟨marks, ?_, fun q => ?_, fun h => hnodup (List.nodup_cons.mpr ⟨hnew.1, h⟩), ?_⟩
    · simp only [each, refer, bind_run, reach_run hwords hlt.1 hnew.1, onWalk, update_run, hrun, List.append_assoc,
        List.singleton_append]
    · rw [hmem]
      simp only [List.mem_cons]
      tauto
    · simp only [List.length_cons] at hlen
      omega

/-- The pointers of a node with the trees they lead to. -/
def childPairs (slots : Fin 32 → Option (H × Nat)) (ch : Fin 32 → Tree H) (route : Key) (depth : Nat) :
    List (WalkItem H × Tree H) :=
  (List.finRange 32).filterMap fun i =>
    (slots i).map fun p => (⟨p.2, p.1, routeWithChunk route depth i, depth + 1⟩, ch i)

/-- The pointers of some slots of a node. -/
def childItems (node : Node H) (route : Key) (depth : Nat) (is : List (Fin 32)) : List (WalkItem H) :=
  is.filterMap fun i =>
    match node.children i with
    | some (.committed hash lba) => some ⟨lba, hash, routeWithChunk route depth i, depth + 1⟩
    | _ => none

theorem mem_childItems {node : Node H} {route : Key} {depth : Nat} {is : List (Fin 32)} {item : WalkItem H} :
    item ∈ childItems node route depth is ↔ ∃ i ∈ is, ∃ hash lba, node.children i = some (.committed hash lba) ∧
      item = ⟨lba, hash, routeWithChunk route depth i, depth + 1⟩ := by
  rw [childItems, List.mem_filterMap]
  constructor
  · rintro ⟨i, hi, hx⟩
    split at hx
    next hash lba hc => exact ⟨i, hi, hash, lba, hc, (Option.some.inj hx).symm⟩
    · cases hx
  · rintro ⟨i, hi, hash, lba, hc, rfl⟩
    exact ⟨i, hi, by rw [hc]⟩

theorem map_childPairs (slots : Fin 32 → Option (H × Nat)) (ch : Fin 32 → Tree H) (nodeRoute route : Key) (depth : Nat) :
    (childPairs slots ch route depth).map Prod.fst =
      childItems (Node.ofSlots depth nodeRoute slots) route depth (List.finRange 32) := by
  simp only [childPairs, List.map_filterMap, childItems, Option.map_map]
  refine List.filterMap_congr fun i _ => ?_
  rcases hs : slots i with _ | p <;> simp [Node.ofSlots, hs]

theorem each_pushChild_run {node : Node H} {route : Key} {depth : Nat} (h : depth < maxDepth) :
    ∀ (is : List (Fin 32)) (w : Walker H), (each (pushChild node route depth) is).run w =
      (.ok (), { w with walk := { w.walk with todo := w.walk.todo ++ childItems node route depth is } }) := by
  intro is
  induction is with
  | nil => intro w; simp [each, childItems]
  | cons i is ih =>
    intro w
    have hone : (pushChild node route depth i).run w =
        (.ok (), { w with walk := { w.walk with todo := w.walk.todo ++ childItems node route depth [i] } }) := by
      rcases hs : node.children i with _ | ⟨hash, lba⟩ | idx
      · simp [pushChild, hs, childItems]
      · simp [pushChild, hs, childItems, routeAt_run h, onWalk]
      · simp [pushChild, hs, childItems]
    have hcons : childItems node route depth (i :: is) =
        childItems node route depth [i] ++ childItems node route depth is := by
      rw [childItems, childItems, childItems, ← List.filterMap_append]
      rfl
    rw [each, bind_run, hone]
    simp only [ih, hcons, List.append_assoc]

theorem mem_childPairs {slots : Fin 32 → Option (H × Nat)} {ch : Fin 32 → Tree H} {route : Key} {depth : Nat}
    {x : WalkItem H × Tree H} : x ∈ childPairs slots ch route depth ↔
      ∃ i p, slots i = some p ∧ x = (⟨p.2, p.1, routeWithChunk route depth i, depth + 1⟩, ch i) := by
  simp only [childPairs, List.mem_filterMap, List.mem_finRange, true_and, Option.map_eq_some_iff]
  constructor
  · rintro ⟨i, p, hp, rfl⟩
    exact ⟨i, p, hp, rfl⟩
  · rintro ⟨i, p, hp, rfl⟩
    exact ⟨i, p, hp, rfl⟩

theorem childPairs_apart {slots : Fin 32 → Option (H × Nat)} {ch : Fin 32 → Tree H} (h : Tree.Apart ch)
    (route : Key) (depth : Nat) :
    (childPairs slots ch route depth).Pairwise fun x y => ∀ p, x.2.Claims p → ¬ y.2.Claims p := by
  rw [childPairs, List.pairwise_filterMap]
  refine (List.nodup_finRange 32).imp fun {i j} hij x hx y hy => ?_
  obtain ⟨p, -, rfl⟩ := Option.map_eq_some_iff.mp hx
  obtain ⟨q, -, rfl⟩ := Option.map_eq_some_iff.mp hy
  exact (h i j hij).1

end Walker

variable {view : Nat → Block H} {len : Nat}

/-- The block of the first pointer has been found with the furrows `refs`; `cs` are the pointers it
leads to. -/
theorem Frontier.found {item : WalkItem H} {tr : Tree H} {qs : List (WalkItem H × Tree H)} {k : Walk H}
    (h : Frontier view len t ((item, tr) :: qs) k) (cs : List (WalkItem H × Tree H)) (refs marks : List Nat)
    (hmarks : ∀ p, p ∈ marks ↔ p ∈ k.visited.marks ∨ p = item.lba ∨ p ∈ refs) (hnd : marks.Nodup)
    (hclaims : ∀ p, tr.Claims p ↔ (p = item.lba ∨ p ∈ refs) ∨ ∃ y ∈ cs, y.2.Claims p)
    (hpointed : ∀ y ∈ cs, Pointed view len y.1 y.2)
    (hpair : cs.Pairwise fun x y => ∀ p, x.2.Claims p → ¬ y.2.Claims p)
    (hnew : ∀ y ∈ cs, ∀ p, y.2.Claims p → p ≠ item.lba ∧ p ∉ refs)
    (hhash : sealedHp (view item.lba) = some item.hash) :
    Frontier view len t (qs ++ cs)
      { k with
        todo := k.todo ++ cs.map Prod.fst
        visited := { k.visited with marks := marks }
        liveBlocks := k.liveBlocks ++ [(item.lba, item.hash)]
        referenced := k.referenced ++ refs } := by
  have hrest := h.pointed
  have hfresh := h.fresh
  have hapart := h.apart
  simp only [List.mem_cons, forall_eq_or_imp] at hrest hfresh
  rw [List.pairwise_cons] at hapart
  obtain ⟨path, -, hrep⟩ := hrest.1.rep
  have hcs : ∀ y ∈ cs, ∀ p, y.2.Claims p → tr.Claims p := fun y hy p hc =>
    (hclaims p).mpr (.inr ⟨y, hy, hc⟩)
  have hfound : ∀ p, p = item.lba ∨ p ∈ refs → tr.Claims p := fun p hp => (hclaims p).mpr (.inl hp)
  refine
    { pointed := fun y hy => ?_
      apart := ?_
      claims := fun p => ?_
      fresh := fun y hy p hc hm => ?_
      marks := fun p => ?_
      hashes := fun e he => ?_
      nodup := hnd
      lt := fun p hm => ?_
      words := h.words
      stale := h.stale
      dangling := h.dangling }
  · rcases List.mem_append.mp hy with hy | hy
    · exact hrest.2 y hy
    · exact hpointed y hy
  · rw [List.pairwise_append]
    refine ⟨hapart.2, hpair, fun x hx y hy p hcx hcy => ?_⟩
    exact hapart.1 x hx p (hcs y hy p hcy) hcx
  · rw [h.claims]
    simp only [hmarks, List.mem_cons, List.mem_append, or_and_right, exists_or, exists_eq_left]
    rw [hclaims]
    generalize (∃ y ∈ cs, y.2.Claims p) = below
    generalize (∃ y ∈ qs, y.2.Claims p) = beside
    tauto
  · rw [hmarks] at hm
    rcases List.mem_append.mp hy with hy | hy
    · rcases hm with hm | hm
      · exact hfresh.2 y hy p hc hm
      · exact hapart.1 y hy p (hfound p hm) hc
    · rcases hm with hm | hm
      · exact hfresh.1 p (hcs y hy p hc) hm
      · exact (hnew y hy p hc).elim fun h₁ h₂ => hm.elim h₁ h₂
  · rw [hmarks, h.marks]
    simp only [spots_append, spots_cons, spots_nil, List.mem_append, List.mem_singleton]
    tauto
  · rcases List.mem_append.mp he with he | he
    · exact h.hashes e he
    · rw [List.mem_singleton.mp he]
      exact hhash
  · rw [hmarks] at hm
    rcases hm with hm | hm
    · exact h.lt p hm
    · exact hrep.claims_lt (hfound p hm)

namespace Walker

/-- One pointer is read: what it leads to has been found or is still to read. -/
theorem walkItem_run {x : WalkItem H × Tree H} {qs : List (WalkItem H × Tree H)} {k : Walk H}
    (hlen : s.tract.len = len) (h : Frontier view len t (x :: qs) k) :
    ∃ cs k', (walkItem (x.1, view x.1.lba)).run ⟨s, k⟩ = (.ok (), ⟨s, k'⟩) ∧ Frontier view len t (qs ++ cs) k' ∧
      k'.todo = k.todo ++ cs.map Prod.fst ∧ k.visited.marks.length < k'.visited.marks.length := by
  obtain ⟨⟨lba, hash, route, depth⟩, tr⟩ := x
  obtain ⟨⟨path, hdepth, hrep⟩, hsep⟩ := h.pointed _ List.mem_cons_self
  have hfresh := h.fresh _ List.mem_cons_self
  simp only at hdepth hrep hsep hfresh
  subst hdepth
  cases tr with
  | empty => cases hrep
  | dirty => cases hrep.1
  | leaf hash' lba' key value furrows =>
    obtain ⟨hc, hpath, hleaf⟩ := hrep
    cases hc
    have hreach := reach_run (s := s) h.words hleaf.lt (hfresh lba (.inl rfl))
    rcases hleaf.docOf with ⟨hdoc, rfl⟩ | hdoc
    · refine ⟨[], _, ?_, h.found [] [] (lba :: k.visited.marks) (by simp [or_comm])
        (List.nodup_cons.mpr ⟨hfresh lba (.inl rfl), h.nodup⟩) (by simp [Tree.Claims]) (by simp) (by simp)
        (by simp) hleaf.hash_eq, by simp, by simp⟩
      simp only [walkItem, bind_run, hreach, tractLen, state_run, pure_run, hlen, hdoc, lift_run, found, onWalk,
        update_run]
      simp
    · obtain ⟨marks, heach, hmem, hnodup, hlength⟩ := each_refer_run furrows (s := s)
        (k := { k with
          visited := { k.visited with marks := lba :: k.visited.marks }
          liveBlocks := k.liveBlocks ++ [(lba, hash)] })
        h.words (fun p hp => hleaf.furrow_lt hp) hsep.2 (fun p hp hm => by
          rcases List.mem_cons.mp hm with rfl | hm
          · exact hsep.1 hp
          · exact hfresh p (.inr hp) hm)
      refine ⟨[], _, ?_, h.found [] furrows marks ?_ ?_ (by simp [Tree.Claims])
        (by simp) (by simp) (by simp) hleaf.hash_eq, by simp, ?_⟩
      · rcases hdoc with ⟨runs, hdoc, hruns, -⟩ | ⟨hdoc, -⟩
        · simp only [walkItem, bind_run, hreach, tractLen, state_run, pure_run, hlen, hdoc, lift_run, found, onWalk,
            update_run, hruns, heach]
          simp
        · simp only [walkItem, bind_run, hreach, tractLen, state_run, pure_run, hlen, hdoc, lift_run, found, onWalk,
            update_run, heach]
          simp
      · intro p
        rw [hmem, List.mem_cons]
        clear hdoc
        tauto
      · exact hnodup (List.nodup_cons.mpr ⟨hfresh lba (.inl rfl), h.nodup⟩)
      · simp only [List.length_cons] at hlength ⊢
        omega
  | disk hash' lba' ch =>
    obtain ⟨hc, slots, hnode, hch⟩ := hrep
    cases hc
    obtain ⟨hseps, hapart, hself⟩ := hsep
    have hreach := reach_run (s := s) h.words hnode.lt (hfresh lba (.inl rfl))
    obtain ⟨nodeRoute, -, hdoc⟩ := hnode.docOf
    refine ⟨childPairs slots ch route path.length, _, ?_, h.found _ [] (lba :: k.visited.marks)
      (by simp [or_comm]) (List.nodup_cons.mpr ⟨hfresh lba (.inl rfl), h.nodup⟩) (fun p => ?_) (fun y hy => ?_)
      (childPairs_apart hapart route path.length) (fun y hy p hc => ?_) hnode.hash_eq, by simp, by simp⟩
    · have hat : ∀ w : Walker H, (nodeAtDepth (Node.ofSlots path.length nodeRoute slots) lba path.length).run w =
          (.ok (), w) := nodeAtDepth_run rfl
      simp only [walkItem, bind_run, hreach, tractLen, state_run, pure_run, hlen, hdoc, lift_run, found, onWalk,
        update_run, hat, map_childPairs _ _ nodeRoute, List.append_nil]
      exact each_pushChild_run hnode.depth _ _
    · simp only [Tree.Claims, List.not_mem_nil, or_false]
      refine or_congr_right ⟨?_, ?_⟩
      · rintro ⟨i, hi⟩
        rcases hs : slots i with _ | q
        · have hempty := hch i
          rw [hs] at hempty
          rw [Rep.unique (t := .empty) rfl hempty] at hi
          exact hi.elim
        · exact ⟨_, mem_childPairs.mpr ⟨i, q, hs, rfl⟩, hi⟩
      · rintro ⟨y, hy, hc⟩
        obtain ⟨i, q, -, rfl⟩ := mem_childPairs.mp hy
        exact ⟨i, hc⟩
    · obtain ⟨i, q, hs, rfl⟩ := mem_childPairs.mp hy
      have hrep := hch i
      rw [hs] at hrep
      exact ⟨⟨path ++ [i], by simp, hrep⟩, hseps i⟩
    · obtain ⟨i, q, -, rfl⟩ := mem_childPairs.mp hy
      refine ⟨?_, by simp⟩
      rintro rfl
      exact hself i hc

/-- The pointers of a step in order. -/
theorem each_walkItem_run {xs : List (WalkItem H × Tree H)} (hlen : s.tract.len = len) :
    ∀ {qs : List (WalkItem H × Tree H)} {k : Walk H}, Frontier view len t (xs ++ qs) k →
      k.todo = qs.map Prod.fst →
      ∃ qs' k', (each walkItem ((xs.map Prod.fst).zip ((xs.map fun x => view x.1.lba)))).run ⟨s, k⟩ =
          (.ok (), ⟨s, k'⟩) ∧
        Frontier view len t qs' k' ∧ k'.todo = qs'.map Prod.fst ∧
        k.visited.marks.length + xs.length ≤ k'.visited.marks.length := by
  induction xs with
  | nil =>
    intro qs k h htodo
    exact ⟨qs, k, rfl, h, htodo, by simp⟩
  | cons x xs ih =>
    intro qs k h htodo
    obtain ⟨cs, k₁, hrun, h₁, htodo₁, hlt⟩ := walkItem_run hlen h
    change Frontier view len t (xs ++ qs ++ cs) k₁ at h₁
    rw [List.append_assoc] at h₁
    obtain ⟨qs', k', hrun', h', htodo', hle⟩ := ih h₁ (by rw [htodo₁, htodo, List.map_append])
    refine ⟨qs', k', ?_, h', htodo', by simp only [List.length_cons]; omega⟩
    simp only [List.map_cons, List.zip_cons_cons, each, bind_run, hrun, hrun']

/-- A step of the tree walk on a sound index. -/
theorem walkTreeStep_run {ps : List (WalkItem H × Tree H)} {k : Walk H} (hon : s.On d)
    (h : Frontier (s.view d) s.tract.len t ps k) (htodo : k.todo = ps.map Prod.fst) :
    ∃ ps' k', walkTreeStep.run ⟨s, k⟩ = (.ok (), ⟨s, k'⟩) ∧ Frontier (s.view d) s.tract.len t ps' k' ∧
      k'.todo = ps'.map Prod.fst ∧ (ps ≠ [] → k.visited.marks.length < k'.visited.marks.length) := by
  obtain ⟨kept, hkept⟩ : ∃ kept, kept = k.todo.length - walkStep := ⟨_, rfl⟩
  have hpart : k.todo.drop kept = (ps.drop kept).map Prod.fst := by rw [htodo, List.map_drop]
  have htake : k.todo.take kept = (ps.take kept).map Prod.fst := by rw [htodo, List.map_take]
  have hswap : Frontier (s.view d) s.tract.len t (ps.drop kept ++ ps.take kept) { k with todo := k.todo.take kept } := by
    have hperm : (ps.drop kept ++ ps.take kept).Perm ps :=
      List.perm_append_comm.trans (.of_eq (List.take_append_drop kept ps))
    exact
      { h with
        pointed := fun x hx => h.pointed x (hperm.mem_iff.mp hx)
        apart := (List.Perm.pairwise_iff (fun {x y} hxy p hy hx => hxy p hx hy) hperm).mpr h.apart
        claims := fun p => by
          rw [h.claims]
          simp only [hperm.mem_iff]
        fresh := fun x hx => h.fresh x (hperm.mem_iff.mp hx) }
  have hread : (Tract.readMany ((k.todo.drop kept).map WalkItem.lba)).run s =
      (.ok ((ps.drop kept).map fun x => s.view d x.1.lba), s) := by
    have hlt : ∀ l ∈ (k.todo.drop kept).map WalkItem.lba, l < s.tract.len := by
      intro l hl
      rw [hpart, List.map_map] at hl
      obtain ⟨x, hx, rfl⟩ := List.mem_map.mp hl
      obtain ⟨path, -, hrep⟩ := (h.pointed x (List.mem_of_mem_drop hx)).rep
      refine hrep.claims_lt (p := x.1.lba) ?_
      cases hx2 : x.2 with
      | empty => rw [hx2] at hrep; cases hrep
      | dirty => rw [hx2] at hrep; cases hrep.1
      | leaf => rw [hx2] at hrep; cases hrep.1; exact .inl rfl
      | disk => rw [hx2] at hrep; cases hrep.1; exact .inl rfl
    rw [Tract.readMany_run hon hlt, hpart, List.map_map, List.map_map]
    rfl
  rw [hpart] at hread
  obtain ⟨ps', k', hrun, h', htodo', hle⟩ := each_walkItem_run (s := s) rfl hswap htake
  refine ⟨ps', k', ?_, h', htodo', fun hne => ?_⟩
  · simp only [walkTreeStep, bind_run, state_run, onWalk, update_run, attempt_run, Walker.onStore, zoom_run, ← hkept,
      hpart, hread]
    exact hrun
  · have hpos : 0 < (ps.drop kept).length := by
      have : 0 < ps.length := List.length_pos_of_ne_nil hne
      have hl : k.todo.length = ps.length := by rw [htodo, List.length_map]
      rw [List.length_drop, hkept, hl]
      unfold walkStep
      omega
    simp only at hle
    omega

theorem walkTreeSteps_succ (fuel : Nat) : (walkTreeSteps (fuel + 1) : Prog Error (Walker H) Unit) =
    state >>= fun w => if w.walk.todo.isEmpty then pure () else walkTreeStep >>= fun _ => walkTreeSteps fuel := by
  delta walkTreeSteps
  with_reducible rfl

theorem walkTreeSteps_run (hon : s.On d) : ∀ (fuel : Nat) {ps : List (WalkItem H × Tree H)} {k : Walk H},
    Frontier (s.view d) s.tract.len t ps k → k.todo = ps.map Prod.fst →
    s.tract.len < fuel + k.visited.marks.length →
    ∃ k', (walkTreeSteps fuel).run ⟨s, k⟩ = (.ok (), ⟨s, k'⟩) ∧ Frontier (s.view d) s.tract.len t [] k' := by
  intro fuel
  induction fuel with
  | zero =>
    intro ps k h _ hfuel
    have := h.length_le
    omega
  | succ fuel ih =>
    intro ps k h htodo hfuel
    by_cases hps : ps = []
    · subst hps
      refine ⟨k, ?_, h⟩
      have hnil : k.todo.isEmpty = true := by rw [htodo]; rfl
      simp only [walkTreeSteps_succ, bind_run, state_run, hnil, if_true, pure_run]
    · obtain ⟨ps', k', hrun, h', htodo', hlt⟩ := walkTreeStep_run hon h htodo
      obtain ⟨k'', hrun', h''⟩ := ih h' htodo' (by have := hlt hps; omega)
      refine ⟨k'', ?_, h''⟩
      have hne : k.todo.isEmpty = false := by
        rw [htodo]
        cases ps with
        | nil => exact absurd rfl hps
        | cons => rfl
      simp only [walkTreeSteps_succ, bind_run, state_run, hne, Bool.false_eq_true, if_false, hrun, hrun']

/-- The walk's start on a committed index. -/
theorem frontier_start (hrep : s.Holds d [] s.hamt.root t) (hsep : t.Sep)
    (hroot : ∀ i, s.hamt.root ≠ some (.dirty i)) :
    ∃ ps, walkStart s.hamt = ps.map Prod.fst ∧
      Frontier (s.view d) s.tract.len t ps (Walk.start s.tract.len (walkStart s.hamt)) := by
  rcases hr : s.hamt.root with _ | (⟨hash, lba⟩ | i)
  · rw [hr] at hrep
    obtain rfl : t = .empty := Rep.unique (t := .empty) rfl hrep
    refine ⟨[], by simp [walkStart, hr], ?_⟩
    constructor <;> simp [Walk.start, Visited.new, Tree.Claims]
  · rw [hr] at hrep
    have hrep' : Rep (s.view d) s.tract.len [] [] (some (.committed hash lba)) t :=
      Rep.congr hrep le_rfl (fun _ _ => rfl) fun u hu => absurd hu (hrep.no_uses (by simp) u)
    refine ⟨[(⟨lba, hash, 0, 0⟩, t)], by simp [walkStart, hr], ?_⟩
    refine
      { pointed := ?_
        apart := by simp
        claims := by simp [Walk.start, Visited.new]
        fresh := by simp [Walk.start, Visited.new]
        marks := by simp [Walk.start, Visited.new]
        hashes := by simp [Walk.start]
        nodup := by simp [Walk.start, Visited.new]
        lt := by simp [Walk.start, Visited.new]
        words := rfl
        stale := rfl
        dangling := rfl }
    intro x hx
    rw [List.mem_singleton.mp hx]
    exact ⟨⟨[], rfl, hrep'⟩, hsep⟩
  · exact absurd hr (hroot i)

/-- The tree-only walk of a sound index. -/
theorem walkTreeCollect_run (hon : s.On d) (hrep : s.Holds d [] s.hamt.root t) (hsep : t.Sep)
    (hroot : ∀ i, s.hamt.root ≠ some (.dirty i)) :
    ∃ k', walkTreeCollect.run ⟨s, Walk.start s.tract.len []⟩ = (.ok (), ⟨s, k'⟩) ∧
      Frontier (s.view d) s.tract.len t [] k' := by
  obtain ⟨ps, hstart, hfront⟩ := frontier_start hrep hsep hroot
  obtain ⟨k', hrun, h'⟩ := walkTreeSteps_run hon (s.tract.len + 2) hfront hstart (by omega)
  refine ⟨k', ?_, h'⟩
  simp only [walkTreeCollect, bind_run, state_run, onWalk, update_run]
  exact hrun

end Walker

/-- A finished walk has found what the index holds. -/
theorem Frontier.live {k : Walk H} (h : Frontier view len t [] k) :
    (LiveSet.ofWalk k.liveBlocks k.referenced).Known (fun p => sealedHp (view p)) ∧
      ∀ p, (LiveSet.ofWalk k.liveBlocks k.referenced).Refers p ↔ t.Claims p := by
  obtain ⟨hk, hp⟩ := LiveSet.ofWalk_spec (fun p => sealedHp (view p)) k.referenced h.hashes
  refine ⟨hk, fun p => ?_⟩
  rw [hp, h.claims, h.marks]
  simp

end Manifestus
