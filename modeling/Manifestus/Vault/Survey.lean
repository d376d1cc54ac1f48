import Manifestus.Engine.InspectTree
import Manifestus.Index.Lost
import Manifestus.Vault.Audit

/-! The inspector's walk of a sound index: it decodes every block apart from the engine, finds no fault in any
of them, and reaches the positions that the index holds and no other. -/
set_option linter.unusedSectionVars false

namespace Manifestus
open Prog

variable {H : Type} [Crates H] {d : Dev H} {base len : Nat} {s s' s'' : Survey H} {P Q : Nat → Prop}

/-- `s'` is `s` with sound blocks more, at the positions in `P`, each met once. -/
structure Survey.Found (P : Nat → Prop) (s s' : Survey H) : Prop where
  dev : s'.dev = s.dev
  blocks : ∃ more, s'.tree = s.tree ++ more ∧ s'.reachable = (more.map TreeNode.lba).reverse ++ s.reachable ∧
    ∀ t ∈ more, t.sealOk = true ∧ t.selfAddrOk = true
  reachable : ∀ p, p ∈ s'.reachable ↔ p ∈ s.reachable ∨ P p
  nodup : s.reachable.Nodup → s'.reachable.Nodup

namespace Survey.Found

theorem refl (hP : ∀ p, ¬ P p) (s : Survey H) : Survey.Found P s s where
  dev := rfl
  blocks := ⟨[], by simp, rfl, by simp⟩
  reachable p := by simp [hP p]
  nodup h := h

theorem trans (h : Survey.Found P s s') (h' : Survey.Found Q s' s'') : Survey.Found (fun p => P p ∨ Q p) s s'' where
  dev := h'.dev.trans h.dev
  blocks := by
    obtain ⟨more, htree, hreach, hsound⟩ := h.blocks
    obtain ⟨more', htree', hreach', hsound'⟩ := h'.blocks
    exists more ++ more'
    constructor
    · rw [htree', htree, List.append_assoc]
    constructor
    · rw [hreach', hreach, List.map_append, List.reverse_append, List.append_assoc]
    · intro t ht
      cases List.mem_append.mp ht with
      | inl ht => exact hsound t ht
      | inr ht => exact hsound' t ht
  reachable p := by rw [h'.reachable, h.reachable, or_assoc]
  nodup hs := h'.nodup (h.nodup hs)

theorem congr (h : Survey.Found P s s') (hPQ : ∀ p, P p ↔ Q p) : Survey.Found Q s s' where
  dev := h.dev
  blocks := h.blocks
  reachable p := by rw [h.reachable, hPQ]
  nodup := h.nodup

theorem length_le (h : Survey.Found P s s') : s.tree.length ≤ s'.tree.length := by
  obtain ⟨more, htree, -⟩ := h.blocks
  rw [htree, List.length_append]
  exact Nat.le_add_right _ _

/-- One block reached for the first time and reported. -/
theorem one {lba : Nat} {n : TreeNode H} (hfresh : lba ∉ s.reachable) (hn : n.lba = lba ∧ n.sealOk = true ∧ n.selfAddrOk = true)
    (hdev : s'.dev = s.dev) (htree : s'.tree = s.tree ++ [n]) (hreach : s'.reachable = s.reachable.insert lba) :
    Survey.Found (· = lba) s s' where
  dev := hdev
  blocks := by
    exists [n]
    constructor
    · exact htree
    constructor
    · rw [hreach, List.insert_of_not_mem hfresh, ← hn.1]
      rfl
    · simpa using hn.2
  reachable p := by rw [hreach, List.mem_insert_iff, or_comm]
  nodup h := by
    rw [hreach]
    exact h.insert

end Survey.Found

namespace Inspect

theorem outside_of_lt {lba : Nat} (h : base + lba < d.count) : outside base lba d = false := by
  simp only [outside, Bool.or_eq_false_iff, decide_eq_false_iff_not]
  omega

theorem onDev_read_run {lba : Nat} (hdev : s.dev.script = []) (h : lba < s.dev.count) :
    (onDev (Dev.read lba)).run s = (.ok (s.dev.data lba), s) := by
  rw [onDev, zoom_run, Dev.read_run hdev h]

/-- The furrows of a value that reads. -/
theorem walkFurrows_run (hs : d.script = []) (owner : Key) (indent : Nat) : ∀ (ps : List Nat) (i : Nat) {value : Bytes} {s : Survey H},
    s.dev = d → (∀ p ∈ ps, base + p < d.count) → ps.Nodup → (∀ p ∈ ps, p ∉ s.reachable) →
    payloads owner i (ps.map fun p => d.data (base + p)) = .ok value →
    ∃ s', (walkFurrows base owner indent i ps).run s = (.ok (), s') ∧ Survey.Found (· ∈ ps) s s' := by
  intro ps
  induction ps with
  | nil =>
    intro i value s hdev _ _ _ _
    exact ⟨s, rfl, .refl (by simp) s⟩
  | cons p ps ih =>
    intro i value s hdev hbound hnd hfresh hread
    obtain ⟨hp, hps⟩ := List.forall_mem_cons.mp hbound
    obtain ⟨hnot, hnd'⟩ := List.nodup_cons.mp hnd
    obtain ⟨hnew, hrest'⟩ := List.forall_mem_cons.mp hfresh
    rw [List.map_cons, payloads] at hread
    rcases hfirst : furrowPayload owner i (d.data (base + p)) with err | payload <;> rw [hfirst] at hread
    · cases hread
    · rcases hrest : payloads owner (i + 1) (ps.map fun p => d.data (base + p)) with err | rest <;> rw [hrest] at hread
      · cases hread
      · obtain ⟨extra, hblock⟩ := furrowPayload_ok hfirst
        have hlast : decodeTract (d.data (base + p)) =
            .ok (Crates.hash (.furrow owner i payload) extra, .furrow owner i payload.length) := by rw [hblock]; rfl
        subst hdev
        set s₁ : Survey H := { s with
          reachable := s.reachable.insert p
          furrows := s.furrows + 1
          tree := s.tree ++ [⟨indent, p, .furrow owner i payload.length, true, true, none⟩] } with hs₁
        have hone : (walkFurrow base p owner i indent).run s = (.ok (), s₁) := by
          simp only [walkFurrow, bind_run, state_run, outside_of_lt hp, Bool.false_eq_true, if_false, update_run]
          rw [onDev_read_run (s := { s with reachable := s.reachable.insert p }) hs hp]
          simp only [hlast, isFurrowOf, decide_true, Bool.and_self, if_true, push, update_run]
          rfl
        have hstill : ∀ q ∈ ps, q ∉ s₁.reachable := by
          intro q hq hmem
          rw [hs₁, List.mem_insert_iff] at hmem
          cases hmem with
          | inl heq => exact hnot (heq ▸ hq)
          | inr hmem => exact hrest' q hq hmem
        obtain ⟨s', hrun, hfound⟩ := ih (i + 1) (s := s₁) rfl hps hnd' hstill hrest
        refine ⟨s', ?_, ?_⟩
        · rw [walkFurrows, bind_run, hone]
          exact hrun
        · apply ((Survey.Found.one hnew ⟨rfl, rfl, rfl⟩ rfl rfl rfl : Survey.Found (· = p) s s₁).trans hfound).congr
          simp

theorem countRuns_of_checkRuns {tractLen : Nat} : ∀ {runs : List (Nat × Nat)} {total t : Nat},
    checkRuns tractLen total runs = .ok t → countRuns tractLen total runs = .ok t := by
  intro runs
  induction runs with
  | nil =>
    intro total t h
    cases h
    rfl
  | cons run runs ih =>
    intro total t h
    obtain ⟨a, c⟩ := run
    rw [checkRuns] at h
    rw [countRuns]
    split at h
    · cases h
    next hin =>
      split at h
      · cases h
      next hfits =>
        rw [if_neg hin, if_neg hfits]
        exact ih h

/-- The runs of an extent that reads add up for the inspector too. -/
theorem leafFurrows_extent {tractLen size : Nat} {key : Key} {runs : List (Nat × Nat)} {furrows : List Nat}
    (h : expandRuns H runs size len = .ok furrows) (hlen : len ≤ tractLen) :
    leafFurrows tractLen (.extent key size runs : TractBlock H) = (furrows, none) := by
  unfold expandRuns at h
  rcases hcheck : checkRuns len 0 runs with err | total <;> rw [hcheck] at h
  · cases h
  · dsimp only at h
    split at h
    · cases h
    next htotal =>
      cases h
      simp only [leafFurrows, countRuns_of_checkRuns (checkRuns_mono hlen hcheck)]
      rw [if_neg htotal]

/-- A leaf on its route. -/
theorem walkLeaf_run (hs : d.script = []) (hdev : s.dev = d) (lba indent : Nat) {path : List (Fin 32)} {route key : Key}
    {doc : TractBlock H} {bytes : Bytes} {furrows : List Nat} (hroute : OnPath path route) (hkey : OnPath path key)
    (hdoc : leafFurrows (d.count - base) doc = (furrows, none)) (hin : ∀ p ∈ furrows, base + p < d.count)
    (hfresh : lba ∉ s.reachable ∧ ∀ p ∈ furrows, p ∉ s.reachable) (hsep : lba ∉ furrows ∧ furrows.Nodup)
    (hread : payloads key 0 (furrows.map fun p => d.data (base + p)) = .ok bytes) :
    ∃ s', (walkLeaf base lba indent path.length route key doc true none).run { s with reachable := s.reachable.insert lba } = (.ok (), s') ∧
      Survey.Found (fun p => p = lba ∨ p ∈ furrows) s s' ∧ s.tree.length < s'.tree.length := by
  have haddr : ((List.range path.length).all fun i => chunk key i = chunk route i) = true := by
    simp only [List.all_eq_true, List.mem_range, decide_eq_true_eq]
    intro i hi
    rw [hkey i hi, hroute i hi]
  subst hdev
  set s₁ : Survey H := { s with
    reachable := s.reachable.insert lba
    leaves := s.leaves + 1
    tree := s.tree ++ [⟨indent, lba, doc, true, true, none⟩] } with hs₁
  have hstill : ∀ p ∈ furrows, p ∉ s₁.reachable := by
    intro p hp hmem
    rw [hs₁, List.mem_insert_iff] at hmem
    cases hmem with
    | inl heq => exact hsep.1 (heq ▸ hp)
    | inr hmem => exact hfresh.2 p hp hmem
  obtain ⟨s', hrun, hfound⟩ := walkFurrows_run hs key (indent + 1) furrows 0 (s := s₁) rfl hin hsep.2 hstill hread
  refine ⟨s', ?_, ?_, ?_⟩
  · simp only [walkLeaf, bind_run, update_run, state_run, haddr, hdoc, Option.isNone_none, Bool.and_true, joinNotes, Option.map_none,
      push]
    exact hrun
  · exact (Survey.Found.one hfresh.1 ⟨rfl, rfl, rfl⟩ rfl rfl rfl : Survey.Found (· = lba) s s₁).trans hfound
  · have hle := hfound.length_le
    rw [hs₁, List.length_append] at hle
    exact hle

/-- The children of a node as the inspector lists them. -/
def childrenIn (slots : Fin 32 → Option (H × Nat)) (is : List (Fin 32)) : List (Fin 32 × H × Nat) :=
  is.filterMap fun i => (slots i).map fun p => (i, p.1, p.2)

/-- Children walked one after the other, none of which meets what another holds. -/
theorem each_walkTree_run {slots : Fin 32 → Option (H × Nat)} {ch : Fin 32 → Tree H} (fuel indent depth : Nat) (route : Key)
    (hempty : ∀ i, slots i = none → ∀ p, ¬ (ch i).Claims p) (hapart : Tree.Apart ch)
    (hwalk : ∀ i p, slots i = some p → ∀ s : Survey H, s.dev = d → (∀ q, (ch i).Claims q → q ∉ s.reachable) →
      ∃ s', (walkTree base fuel p.2 p.1 indent depth (keyWithChunk route (depth - 1) i)).run s = (.ok (), s') ∧
        Survey.Found (ch i).Claims s s') :
    ∀ (is : List (Fin 32)) (s : Survey H), is.Nodup → s.dev = d → (∀ i ∈ is, ∀ q, (ch i).Claims q → q ∉ s.reachable) →
      ∃ s', (each (fun c => walkTree base fuel c.2.2 c.2.1 indent depth (keyWithChunk route (depth - 1) c.1)) (childrenIn slots is)).run s =
        (.ok (), s') ∧ Survey.Found (fun q => ∃ i ∈ is, (ch i).Claims q) s s' := by
  intro is
  induction is with
  | nil => exact fun s _ _ _ => ⟨s, rfl, .refl (by simp) s⟩
  | cons i is ih =>
    intro s hnd hdev hfresh
    obtain ⟨hnot, hnd'⟩ := List.nodup_cons.mp hnd
    obtain ⟨hi, his⟩ := List.forall_mem_cons.mp hfresh
    cases hslot : slots i with
    | none =>
      obtain ⟨s', hrun, hfound⟩ := ih s hnd' hdev his
      refine ⟨s', ?_, ?_⟩
      · rw [childrenIn, List.filterMap_cons_none (by rw [hslot]; rfl)]
        exact hrun
      · apply hfound.congr
        intro q
        simp [hempty i hslot q]
    | some p =>
      obtain ⟨s₁, hrun₁, hfound₁⟩ := hwalk i p hslot s hdev hi
      obtain ⟨s', hrun, hfound⟩ := ih s₁ hnd' (hfound₁.dev.trans hdev) (by
        intro j hj q hq hmem
        rw [hfound₁.reachable] at hmem
        cases hmem with
        | inl hmem => exact his j hj q hq hmem
        | inr hmem => exact (hapart j i fun heq => hnot (heq ▸ hj)).1 q hq hmem)
      refine ⟨s', ?_, ?_⟩
      · rw [childrenIn, List.filterMap_cons_some (by rw [hslot]; rfl), each, bind_run, hrun₁]
        exact hrun
      · apply (hfound₁.trans hfound).congr
        intro q
        simp

/-- The walk of a sound index. -/
theorem walkTree_run (hs : d.script = []) (hroom : base + len ≤ d.count) (t : Tree H) :
    ∀ (fuel lba indent : Nat) (hash : H) (path : List (Fin 32)) (route : Key) (s : Survey H), s.dev = d →
      Rep (fun p => d.data (base + p)) len [] path (some (.committed hash lba)) t → t.Sep →
      OnPath path route → path.length ≤ 52 → 53 ≤ fuel + path.length → (∀ p, t.Claims p → p ∉ s.reachable) →
      ∃ s', (walkTree base fuel lba hash indent path.length route).run s = (.ok (), s') ∧ Survey.Found t.Claims s s' ∧
        s.tree.length < s'.tree.length := by
  induction t with
  | empty =>
    intro fuel lba indent hash path route s _ hrep
    cases hrep
  | leaf hash lba key value furrows =>
    intro fuel lba' indent hash' path route s hdev ⟨hc, hkey, hleaf⟩ hsep hroute hdepth hfuel hfresh
    cases hc
    subst hdev
    obtain ⟨fuel, rfl⟩ : ∃ f, fuel = f + 1 := ⟨fuel - 1, by omega⟩
    have hlt : lba < len := by cases hleaf <;> assumption
    have hnew : lba ∉ s.reachable := hfresh lba (.inl rfl)
    have hin : base + lba < s.dev.count := by omega
    have hlen : len ≤ s.dev.count - base := by omega
    -- whatever kind of leaf it is
    have hwalk : ∀ {doc : TractBlock H} {block : Block H} {bytes : Bytes}, s.dev.data (base + lba) = block → block ≠ .zero →
        decodeTract block = .ok (hash, doc) → leafFurrows (s.dev.count - base) doc = (furrows, none) →
        ((∃ n, doc = .lone key n) ∨ (∃ size runs, doc = .extent key size runs) ∨ ∃ size fs, doc = .direct key size fs) →
        payloads key 0 (furrows.map fun p => s.dev.data (base + p)) = .ok bytes → (∀ p ∈ furrows, p < len) →
        ∃ s', (walkTree base (fuel + 1) lba hash indent path.length route).run s = (.ok (), s') ∧
          Survey.Found (Tree.leaf hash lba key value furrows).Claims s s' ∧ s.tree.length < s'.tree.length := by
      intro doc block bytes hblock hne hdecode hfurrows hkind hread hbound
      obtain ⟨s', hrun, hfound, hmore⟩ := walkLeaf_run hs rfl lba indent hroute hkey hfurrows
        (fun p hp => by have := hbound p hp; omega) ⟨hnew, fun p hp => hfresh p (.inr hp)⟩ hsep hread
      refine ⟨s', ?_, hfound, hmore⟩
      simp only [walkTree, bind_run, state_run, outside_of_lt hin, Bool.false_eq_true, if_false]
      rw [onDev_read_run hs hin]
      simp only [hblock, hne, if_false, hnew, bind_run, update_run, hdecode, decide_true, if_true]
      rcases hkind with ⟨n, rfl⟩ | ⟨size, runs, rfl⟩ | ⟨size, fs, rfl⟩ <;> exact hrun
    cases hleaf with
    | lone _ hview hhash =>
      exact hwalk hview (by simp) (by rw [decodeTract, hhash]) rfl (.inl ⟨_, rfl⟩) rfl (by simp)
    | extent _ hview hhash hruns hread =>
      exact hwalk hview (by simp) (by rw [decodeTract, hhash]) (leafFurrows_extent hruns hlen) (.inr (.inl ⟨_, _, rfl⟩)) hread
        (expandRuns_ok hruns).2.2.2
    | direct _ hview hhash _ hbound hread =>
      exact hwalk hview (by simp) (by rw [decodeTract, hhash]) rfl (.inr (.inr ⟨_, _, rfl⟩)) hread hbound
  | disk hash lba ch ih =>
    intro fuel lba' indent hash' path route s hdev ⟨hc, slots, hnode, hch⟩ ⟨hsep, hapart, hown⟩ hroute hdepth hfuel hfresh
    cases hc
    subst hdev
    obtain ⟨fuel, rfl⟩ : ∃ f, fuel = f + 1 := ⟨fuel - 1, by omega⟩
    obtain ⟨own, extra, hview, hhash, -⟩ := hnode.block
    have hmax : path.length < 52 := hnode.depth
    have hlt := hnode.lt
    have hin : base + lba < s.dev.count := by omega
    have hnew : lba ∉ s.reachable := hfresh lba (.inl rfl)
    have hne : s.dev.data (base + lba) ≠ .zero := by
      rw [show s.dev.data (base + lba) = _ from hview]
      simp
    have hall : (childrenIn slots (List.finRange 32)).filter (fun _ => decide (path.length < 52) && true) =
        childrenIn slots (List.finRange 32) := by simp [hmax]
    have hdecode : decodeTract (s.dev.data (base + lba)) = .ok (hash, .node path.length own (childrenIn slots (List.finRange 32))) := by
      rw [show s.dev.data (base + lba) = _ from hview, decodeTract, hhash, Nat.mod_eq_of_lt (show path.length < 2 ^ 8 by omega)]
      rfl
    set s₁ : Survey H := { s with
      reachable := s.reachable.insert lba
      nodes := s.nodes + 1
      tree := s.tree ++ [⟨indent, lba, .node path.length own (childrenIn slots (List.finRange 32)), true, true, none⟩] } with hs₁
    have hempty : ∀ i, slots i = none → ∀ p, ¬ (ch i).Claims p := by
      intro i hnone p hp
      have hrep := hch i
      rw [hnone] at hrep
      have hnothing : ch i = .empty := Rep.unique (t := .empty) rfl hrep
      rw [hnothing] at hp
      exact hp
    have hwalk : ∀ i p, slots i = some p → ∀ u : Survey H, u.dev = s.dev → (∀ q, (ch i).Claims q → q ∉ u.reachable) →
        ∃ s', (walkTree base fuel p.2 p.1 (indent + 1) (path.length + 1) (keyWithChunk route (path.length + 1 - 1) i)).run u = (.ok (), s') ∧
          Survey.Found (ch i).Claims u s' := by
      intro i p hslot u hdev hfresh
      have hrep := hch i
      rw [hslot] at hrep
      obtain ⟨k, hk⟩ := hrep.exists_onPath
      have hbelow : OnPath (path ++ [i]) (keyWithChunk route (path.length + 1 - 1) i) := by
        rw [Nat.add_sub_cancel, keyWithChunk, if_neg (by omega)]
        exact hroute.below hnode.depth hk
      have hlength : (path ++ [i]).length = path.length + 1 := by rw [List.length_append, List.length_singleton]
      obtain ⟨s', hrun, hfound, -⟩ := ih i fuel p.2 (indent + 1) p.1 (path ++ [i]) _ u hdev hrep (hsep i) hbelow
        (by omega) (by omega) hfresh
      rw [hlength] at hrun
      exact ⟨s', hrun, hfound⟩
    have hstill : ∀ i ∈ List.finRange 32, ∀ q, (ch i).Claims q → q ∉ s₁.reachable := by
      intro i _ q hq hmem
      rw [hs₁, List.mem_insert_iff] at hmem
      cases hmem with
      | inl heq => exact hown i (heq ▸ hq)
      | inr hmem => exact hfresh q (.inr ⟨i, hq⟩) hmem
    obtain ⟨s', hrun, hfound⟩ := each_walkTree_run fuel (indent + 1) (path.length + 1) route hempty hapart hwalk
      (List.finRange 32) s₁ (List.nodup_finRange 32) rfl hstill
    refine ⟨s', ?_, ?_, ?_⟩
    · simp only [walkTree, bind_run, state_run, outside_of_lt hin, Bool.false_eq_true, if_false]
      rw [onDev_read_run hs hin]
      simp only [hne, if_false, hnew, bind_run, update_run, hdecode, decide_true, if_true, push, hall]
      exact hrun
    · apply ((Survey.Found.one hnew ⟨rfl, rfl, rfl⟩ rfl rfl rfl : Survey.Found (· = lba) s s₁).trans hfound).congr
      intro q
      simp [Tree.Claims]
    · have hle := hfound.length_le
      rw [hs₁, List.length_append] at hle
      exact hle
  | dirty idx ch ih =>
    intro fuel lba indent hash path route s _ hrep
    cases hrep.1

/-- Blocks read one after the other. -/
theorem scanOrphans_run (hs : d.script = []) (hroom : base + len ≤ d.count) (reachable : List Nat) :
    (scanOrphans base (some len) reachable).run d =
      (.ok ((List.range len).filter fun p => blockIsSealed (d.data (base + p)) && decide (p ∉ reachable)), d) := by
  have hgo : ∀ ps : List Nat, (∀ p ∈ ps, p < len) →
      (scanOrphans.go base reachable ps).run d =
        (.ok (ps.filter fun p => blockIsSealed (d.data (base + p)) && decide (p ∉ reachable)), d) := by
    intro ps
    induction ps with
    | nil => exact fun _ => rfl
    | cons p ps ih =>
      intro hlt
      obtain ⟨hp, hps⟩ := List.forall_mem_cons.mp hlt
      simp only [scanOrphans.go, bind_run, Dev.read_run hs (show base + p < d.count by omega), ih hps, List.filter_cons]
      by_cases hfound : blockIsSealed (d.data (base + p)) = true ∧ p ∉ reachable
      · rw [if_pos hfound, if_pos (by simpa using hfound)]
        rfl
      · rw [if_neg hfound, if_neg (by simpa using hfound)]
        rfl
  simp only [scanOrphans, bind_run, state_run, Option.bind_some, checkedAdd, Nat.min_eq_left hroom, Nat.add_sub_cancel_left]
  exact hgo _ fun p hp => List.mem_range.mp hp

/-- The walk from the root of a sound image. -/
theorem surveyTree_run {r : Nat} {e : SpineEntry H} {T : Tree H} (h : Sound r d.image e T) (hs : d.script = [])
    (hroot : e.hamtHash ≠ Crates.zeros) :
    ∃ s, (surveyTree (2 ^ r) e.hamtLba e.hamtHash).run d = (.ok s, d) ∧ Survey.Found T.Claims ⟨d, [], [], 0, 0, 0⟩ s ∧
      s.tree ≠ [] := by
  have hrep : Rep (fun p => d.data (2 ^ r + p)) e.tractBlocks [] [] (some (.committed e.hamtHash e.hamtLba)) T := by
    have hchild : e.rootChild = some (.committed e.hamtHash e.hamtLba) := by rw [SpineEntry.rootChild, Hamt.fromRoot, if_neg hroot]
    exact hchild ▸ h.rep
  obtain ⟨s, hrun, hfound, hmore⟩ := walkTree_run hs h.fits T 53 e.hamtLba 0 e.hamtHash [] 0 ⟨d, [], [], 0, 0, 0⟩ rfl
    hrep h.sep (by intro i hi; exact absurd hi (Nat.not_lt_zero i)) (Nat.zero_le _) le_rfl (by simp)
  refine ⟨s, ?_, hfound, ?_⟩
  · unfold surveyTree
    rw [List.length_nil] at hrun
    simp only [hrun, hfound.dev]
  · intro hnil
    rw [hnil] at hmore
    exact absurd hmore (Nat.lt_irrefl _)

/-- What the walk and the two verdicts on it come to on a sound image. -/
theorem inspect_run {r : Nat} {e : SpineEntry H} {T : Tree H} (h : Sound r d.image e T) (hs : d.script = []) (scan : Bool) :
    ∃ ring report, inspectRing.run d = (.ok ring, d) ∧ (inspect ⟨scan, true⟩).run d = (.ok report, d) ∧ report.ring = ring ∧
      ring.head = some (e.gen % 2 ^ r, e) ∧ (report.tree.map TreeNode.lba).Nodup ∧
      (∀ p, p ∈ report.tree.map TreeNode.lba ↔ T.Claims p) ∧
      report.orphans = (if scan then some ((List.range e.tractBlocks).filter fun p =>
        blockIsSealed (d.data (2 ^ r + p)) && decide (p ∉ report.tree.map TreeNode.lba)) else none) ∧
      report.checks = ring.checks ++ treeChecks ring.head report.tree report.tree.length ∧
      (merkleCheck e report.tree).pass = true ∧ (treeCheck report.tree).pass = true := by
  have hfit : 2 ^ r ≤ d.count := (Nat.le_add_right _ _).trans h.fits
  obtain ⟨ring, hring, -, hbase, hblocks, hhead, -⟩ := h.spine.inspectRing_run hs hfit
  -- the findings of the walk, or none where the index is empty
  obtain ⟨s, hsurvey, hfound, hmerkle⟩ : ∃ s : Survey H,
      (if e.hamtHash ≠ Crates.zeros then surveyTree (2 ^ r) e.hamtLba e.hamtHash
        else pure (⟨d, [], [], 0, 0, 0⟩ : Survey H) : Prog Error (Dev H) (Survey H)).run d = (.ok s, d) ∧
      Survey.Found T.Claims ⟨d, [], [], 0, 0, 0⟩ s ∧ (merkleCheck e s.tree).pass = true := by
    by_cases hroot : e.hamtHash = Crates.zeros
    · have hchild : e.rootChild = none := by rw [SpineEntry.rootChild, Hamt.fromRoot, if_pos hroot]
      have hempty : T = .empty := Rep.unique (t := .empty) (show Rep _ _ [] [] none .empty from rfl) (hchild ▸ h.rep)
      exists ⟨d, [], [], 0, 0, 0⟩
      constructor
      · rw [if_neg (by simpa using hroot)]
        rfl
      constructor
      · rw [hempty]
        exact .refl (fun p hp => hp) _
      · rw [merkleCheck, if_pos hroot]
    · obtain ⟨s, hrun, hfound, hne⟩ := surveyTree_run h hs hroot
      exists s
      constructor
      · rw [if_pos hroot]
        exact hrun
      constructor
      · exact hfound
      · obtain ⟨more, htree, -, hsound⟩ := hfound.blocks
        rw [List.nil_append] at htree
        rw [merkleCheck, if_neg hroot]
        rcases hcons : s.tree with _ | ⟨n, rest⟩
        · exact absurd hcons hne
        · exact (hsound n (by rw [← htree, hcons]; exact List.mem_cons_self)).1
  obtain ⟨more, htree, hreach, hsound⟩ := hfound.blocks
  rw [List.nil_append] at htree
  subst htree
  rw [List.append_nil] at hreach
  have hmem : ∀ p, p ∈ s.reachable ↔ p ∈ s.tree.map TreeNode.lba := fun p => by rw [hreach, List.mem_reverse]
  have hlength : s.reachable.length = s.tree.length := by rw [hreach, List.length_reverse, List.length_map]
  have hscan := scanOrphans_run hs h.fits s.reachable
  simp only [hmem] at hscan
  set report : InspectReport H :=
    { ring := ring
      tree := s.tree
      reachableNodes := s.nodes
      reachableLeaves := s.leaves
      reachableFurrows := s.furrows
      reachableBlocks := s.reachable.length
      orphans := if scan then some ((List.range e.tractBlocks).filter fun p =>
        blockIsSealed (d.data (2 ^ r + p)) && decide (p ∉ s.tree.map TreeNode.lba)) else none
      checks := ring.checks ++ treeChecks ring.head s.tree s.reachable.length } with hreport
  have hrun : (inspect ⟨scan, true⟩).run d = (.ok report, d) := by
    simp only [inspect, bind_run, hring, state_run, hhead, hbase, hblocks, true_and]
    split
    next hroot =>
      rw [if_pos hroot] at hsurvey
      rw [bind_run, hsurvey]
      cases scan with
      | false => simp [hreport, hhead]
      | true => simp [hscan, hreport, hhead]
    next hroot =>
      rw [if_neg hroot] at hsurvey
      rw [bind_run, hsurvey]
      cases scan with
      | false => simp [hreport, hhead]
      | true => simp [hscan, hreport, hhead]
  have hbad : ∀ t ∈ s.tree, ¬ (!t.sealOk || !t.selfAddrOk) = true := by
    intro t ht
    obtain ⟨hok, haddr⟩ := hsound t ht
    simp [hok, haddr]
  refine ⟨ring, report, hring, hrun, rfl, hhead, ?_, ?_, rfl, ?_, hmerkle, ?_⟩
  · have hnd := hfound.nodup List.nodup_nil
    rw [hreach] at hnd
    exact List.nodup_reverse.mp hnd
  · intro p
    rw [← hmem, hfound.reachable]
    simp
  · show _ ++ _ = _
    rw [hlength]
  · simp only [treeCheck, decide_eq_true_eq, List.countP_eq_zero]
    exact hbad

end Inspect

end Manifestus
