import Manifestus.Index.Walk

/-! The live walk of a sound index: every block it holds is found once, with its hash. -/
set_option linter.unusedSectionVars false

namespace Manifestus
open Prog Store

variable {H : Type} [Crates H] {d : Dev H} {s : Store H} {view : Nat → Block H} {len : Nat}

/-- Between two points of a live walk the positions `P` were found. -/
structure Collected (view : Nat → Block H) (P : Nat → Prop) (k k' : Walk H) : Prop where
  marks : ∀ p, p ∈ k'.visited.marks ↔ p ∈ k.visited.marks ∨ P p
  live : ∀ p, p ∈ spots k'.liveBlocks ↔ p ∈ spots k.liveBlocks ∨ P p
  hashes : ∀ e ∈ k'.liveBlocks, e ∈ k.liveBlocks ∨ sealedHp (view e.1) = some e.2
  words : k'.visited.words = k.visited.words

theorem Collected.none (k : Walk H) : Collected view (fun _ => False) k k where
  marks := by simp
  live := by simp
  hashes := fun _ he => .inl he
  words := rfl

theorem Collected.trans {P Q : Nat → Prop} {k k' k'' : Walk H} (h : Collected view P k k') (h' : Collected view Q k' k'') :
    Collected view (fun p => P p ∨ Q p) k k'' where
  marks p := by rw [h'.marks, h.marks, or_assoc]
  live p := by rw [h'.live, h.live, or_assoc]
  hashes e he := (h'.hashes e he).elim (h.hashes e) .inr
  words := h'.words.trans h.words

theorem Collected.congr {P Q : Nat → Prop} {k k' : Walk H} (h : Collected view P k k') (hpq : ∀ p, P p ↔ Q p) :
    Collected view Q k k' where
  marks p := by rw [h.marks, hpq]
  live p := by rw [h.live, hpq]
  hashes := h.hashes
  words := h.words

namespace Walker

theorem tractLen_run (s : Store H) (k : Walk H) : tractLen.run ⟨s, k⟩ = (.ok s.tract.len, ⟨s, k⟩) := rfl

/-- A block is marked and found. -/
theorem collected_one {k : Walk H} {lba : Nat} {hash : H} (hhash : sealedHp (view lba) = some hash) :
    Collected view (· = lba) k
      { k with
        visited := { k.visited with marks := lba :: k.visited.marks }
        liveBlocks := k.liveBlocks ++ [(lba, hash)] } where
  marks p := by
    simp only [List.mem_cons]
    tauto
  live p := by simp
  hashes e he := by
    rcases List.mem_append.mp he with he | he
    · exact .inl he
    · rw [List.mem_singleton.mp he]
      exact .inr hhash
  words := rfl

theorem walkFurrow_run {k : Walk H} {pos : Nat} {hash : H} (hon : s.On d)
    (hwords : k.visited.words = divCeil s.tract.len (2 ^ 6)) (hlt : pos < s.tract.len) (hnew : pos ∉ k.visited.marks)
    (hhash : sealedHp (s.view d pos) = some hash) :
    ∃ k', (walkFurrow pos).run ⟨s, k⟩ = (.ok (), ⟨s, k'⟩) ∧ Collected (s.view d) (· = pos) k k' := by
  refine ⟨_, ?_, collected_one hhash⟩
  simp only [walkFurrow, bind_run, reach_run hwords hlt hnew, onStore, zoom_run, Tract.read_run hon hlt, hhash, found,
    onWalk, update_run]

/-- The furrows of a value. -/
theorem each_walkFurrow_run (fs : List Nat) (hon : s.On d) : ∀ {k : Walk H},
    k.visited.words = divCeil s.tract.len (2 ^ 6) → (∀ p ∈ fs, p < s.tract.len) → fs.Nodup →
    (∀ p ∈ fs, p ∉ k.visited.marks) → (∀ p ∈ fs, ∃ hash, sealedHp (s.view d p) = some hash) →
    ∃ k', (each walkFurrow fs).run ⟨s, k⟩ = (.ok (), ⟨s, k'⟩) ∧ Collected (s.view d) (· ∈ fs) k k' := by
  induction fs with
  | nil =>
    intro k _ _ _ _ _
    exact ⟨k, rfl, (Collected.none k).congr (by simp)⟩
  | cons p fs ih =>
    intro k hwords hlt hnd hnew hhash
    simp only [List.mem_cons, forall_eq_or_imp] at hlt hnew hhash
    rw [List.nodup_cons] at hnd
    obtain ⟨hash, hp⟩ := hhash.1
    obtain ⟨k₁, hrun, h₁⟩ := walkFurrow_run hon hwords hlt.1 hnew.1 hp
    obtain ⟨k₂, hrun₂, h₂⟩ := ih (h₁.words.trans hwords) hlt.2 hnd.2 (fun q hq hm => by
      rcases (h₁.marks q).mp hm with hm | rfl
      · exact hnew.2 q hq hm
      · exact hnd.1 hq) hhash.2
    refine ⟨k₂, ?_, (h₁.trans h₂).congr fun q => ?_⟩
    · simp only [each, bind_run, hrun, hrun₂]
    · rw [List.mem_cons]

/-- The pointers of a node, each walked by `walk`. -/
theorem each_walkChild_run (slots : Fin 32 → Option (H × Nat)) (walk : Child H → Fin 32 → Prog Error (Walker H) Unit)
    {ch : Fin 32 → Tree H} (hapart : Tree.Apart ch)
    (hempty : ∀ i, slots i = none → ∀ p, ¬ (ch i).Claims p)
    (hwalk : ∀ i q, slots i = some q → ∀ (s' : Store H) (k : Walk H), s.Reads d s' →
      k.visited.words = divCeil s.tract.len (2 ^ 6) → (∀ p, (ch i).Claims p → p ∉ k.visited.marks) →
      ∃ s'' k', (walk (.committed q.1 q.2) i).run ⟨s', k⟩ = (.ok (), ⟨s'', k'⟩) ∧ s.Reads d s'' ∧
        Collected (s.view d) (ch i).Claims k k') :
    ∀ {is : List (Fin 32)} {s' : Store H} {k : Walk H}, is.Nodup → s.Reads d s' →
      k.visited.words = divCeil s.tract.len (2 ^ 6) → (∀ i ∈ is, ∀ p, (ch i).Claims p → p ∉ k.visited.marks) →
      ∃ s'' k', (each (fun i =>
          match (slots i).map fun p : H × Nat => Child.committed p.1 p.2 with
          | some child => walk child i
          | none => pure ()) is).run ⟨s', k⟩ = (.ok (), ⟨s'', k'⟩) ∧ s.Reads d s'' ∧
        Collected (s.view d) (fun p => ∃ i ∈ is, (ch i).Claims p) k k' := by
  intro is
  induction is with
  | nil =>
    intro s' k _ hr _ _
    exact ⟨s', k, rfl, hr, (Collected.none k).congr (by simp)⟩
  | cons i is ih =>
    intro s' k hnd hr hwords hnew
    simp only [List.mem_cons, forall_eq_or_imp] at hnew
    rw [List.nodup_cons] at hnd
    obtain ⟨s₁, k₁, hrun, hr₁, h₁⟩ : ∃ s₁ k₁, (match (slots i).map fun p : H × Nat => Child.committed p.1 p.2 with
          | some child => walk child i
          | none => pure ()).run ⟨s', k⟩ = (.ok (), ⟨s₁, k₁⟩) ∧ s.Reads d s₁ ∧
        Collected (s.view d) (ch i).Claims k k₁ := by
      rcases hs : slots i with _ | q
      · exact ⟨s', k, rfl, hr, (Collected.none k).congr fun p => by simp [hempty i hs p]⟩
      · exact hwalk i q hs s' k hr hwords hnew.1
    obtain ⟨s₂, k₂, hrun₂, hr₂, h₂⟩ := ih hnd.2 hr₁ (h₁.words.trans hwords) (fun j hj p hp hm => by
      rcases (h₁.marks p).mp hm with hm | hm
      · exact hnew.2 j hj p hp hm
      · exact (hapart i j fun hij => hnd.1 (hij ▸ hj)).1 p hm hp)
    refine ⟨s₂, k₂, ?_, hr₂, (h₁.trans h₂).congr fun p => by simp⟩
    simp only [each, bind_run, hrun, hrun₂]

theorem walkChild_run {t : Tree H} : ∀ {s' : Store H} {k : Walk H} {path : List (Fin 32)} {c : Child H} {f : Nat}
    {r : Key}, s.On d → s.Reads d s' → Rep (s.view d) s.tract.len [] path (some c) t → t.Sep →
    path.length ≤ maxDepth → f + path.length = maxDepth + 1 → k.visited.words = divCeil s.tract.len (2 ^ 6) →
    (∀ p, t.Claims p → p ∉ k.visited.marks) →
    ∃ s'' k', (walkChild f path.length c r).run ⟨s', k⟩ = (.ok (), ⟨s'', k'⟩) ∧ s.Reads d s'' ∧
      Collected (s.view d) t.Claims k k' := by
  induction t with
  | empty =>
    intro s' k path c fuel route _ _ hrep
    cases hrep
  | dirty idx ch =>
    intro s' k path c fuel route _ _ hrep
    obtain ⟨-, node, hnode, -⟩ := hrep
    simp at hnode
  | leaf hash lba key value furrows =>
    intro s' k path c fuel route hon hr hrep hsep hdepth hfuel hwords hnew
    obtain ⟨hc, -, hleaf⟩ := hrep
    cases hc
    obtain ⟨fuel, rfl⟩ : ∃ f, fuel = f + 1 := ⟨fuel - 1, by omega⟩
    have hon' := hr.on hon
    have hlt : lba < s'.tract.len := by rw [hr.tract]; exact hleaf.lt
    obtain ⟨s₁, hread, hr₁⟩ := readDoc_run hon' hlt hash
    rw [hr.view, hr.tract] at hread
    have hreach := reach_run (s := s₁) hwords hleaf.lt (hnew lba (.inl rfl))
    have hr₂ := hr.trans hr₁
    have hone := collected_one (k := k) hleaf.hash_eq
    rcases hleaf.docOf with ⟨hdoc, rfl⟩ | hdoc
    · refine ⟨s₁, _, ?_, hr₂, hone.congr fun p => by simp [Tree.Claims]⟩
      simp only [walkChild, bind_run, onStore, zoom_run, hread, hdoc, hreach, found, onWalk, update_run, pure_run]
    · obtain ⟨k₁, heach, h₁⟩ := each_walkFurrow_run furrows (hr₂.on hon)
        (k := { k with
          visited := { k.visited with marks := lba :: k.visited.marks }
          liveBlocks := k.liveBlocks ++ [(lba, hash)] })
        (by rw [hr₂.tract]; exact hwords) (fun p hp => by rw [hr₂.tract]; exact hleaf.furrow_lt hp) hsep.2
        (fun p hp hm => by
          rcases List.mem_cons.mp hm with rfl | hm
          · exact hsep.1 hp
          · exact hnew p (.inr hp) hm)
        (fun p hp => by
          obtain ⟨i, hi⟩ := List.mem_iff_getElem?.mp hp
          obtain ⟨payload, extra, hblock⟩ := hleaf.furrow_at hi
          exact ⟨_, by rw [hr₂.view, hblock]; rfl⟩)
      rw [hr₂.view] at h₁
      refine ⟨s₁, k₁, ?_, hr₂, (hone.trans h₁).congr fun p => by simp [Tree.Claims]⟩
      rcases hdoc with ⟨runs, hdoc, hruns, -⟩ | ⟨hdoc, -⟩
      · simp only [walkChild, bind_run, onStore, zoom_run, hread, hdoc, hreach, found, onWalk, update_run, tractLen_run,
          hr₂.tract, hruns, lift_run, heach]
      · simp only [walkChild, bind_run, onStore, zoom_run, hread, hdoc, hreach, found, onWalk, update_run, heach]
  | disk hash lba ch ih =>
    intro s' k path c fuel route hon hr hrep hsep hdepth hfuel hwords hnew
    obtain ⟨hc, slots, hnode, hch⟩ := hrep
    cases hc
    obtain ⟨fuel, rfl⟩ : ∃ f, fuel = f + 1 := ⟨fuel - 1, by omega⟩
    obtain ⟨hseps, hapart, hself⟩ := hsep
    have hlt : lba < s'.tract.len := by rw [hr.tract]; exact hnode.lt
    obtain ⟨s₁, hread, hr₁⟩ := readDoc_run (hr.on hon) hlt hash
    rw [hr.view, hr.tract] at hread
    obtain ⟨nodeRoute, -, hdoc⟩ := hnode.docOf
    have hreach := reach_run (s := s₁) hwords hnode.lt (hnew lba (.inl rfl))
    have hone := collected_one (k := k) hnode.hash_eq
    obtain ⟨s₂, k₂, heach, hr₂, h₂⟩ := each_walkChild_run slots
      (fun child i => routeAt route path.length i >>= walkChild fuel (path.length + 1) child) (s := s) (d := d) hapart
      (fun i hi p hp => by
        have hrep := hch i
        rw [hi] at hrep
        rw [Rep.unique (t := .empty) rfl hrep] at hp
        exact hp)
      (fun i q hq s' k hr hwords hnew => by
        have hrep := hch i
        rw [hq] at hrep
        have hlen : (path ++ [i]).length = path.length + 1 := by simp
        have := ih i (f := fuel) (r := routeWithChunk route path.length i) hon hr hrep (hseps i)
          (by rw [hlen]; exact hnode.depth) (by rw [hlen]; omega) hwords hnew
        rw [hlen] at this
        rw [bind_run, routeAt_run hnode.depth]
        exact this)
      (List.nodup_finRange 32) (hr.trans hr₁)
      (k := { k with
          visited := { k.visited with marks := lba :: k.visited.marks }
          liveBlocks := k.liveBlocks ++ [(lba, hash)] })
      hwords (fun i _ p hp hm => by
        rcases List.mem_cons.mp hm with rfl | hm
        · exact hself i hp
        · exact hnew p (.inr ⟨i, hp⟩) hm)
    refine ⟨s₂, k₂, ?_, hr₂, (hone.trans h₂).congr fun p => by simp [Tree.Claims]⟩
    have hat : ∀ w : Walker H, (nodeAtDepth (Node.ofSlots path.length nodeRoute slots) lba path.length).run w =
        (.ok (), w) := nodeAtDepth_run rfl
    simp only [walkChild, bind_run, onStore, zoom_run, hread, hdoc, hreach, found, onWalk, update_run, hat]
    exact heach

/-- The live walk of a sound committed index. -/
theorem walkLiveCollect_run {t : Tree H} (hon : s.On d) (hrep : s.Holds d [] s.hamt.root t) (hsep : t.Sep)
    (hroot : ∀ i, s.hamt.root ≠ some (.dirty i)) :
    ∃ s' k, walkLiveCollect.run ⟨s, Walk.start s.tract.len []⟩ = (.ok (), ⟨s', k⟩) ∧ s.Reads d s' ∧
      (∀ p, p ∈ spots k.liveBlocks ↔ t.Claims p) ∧ ∀ e ∈ k.liveBlocks, sealedHp (s.view d e.1) = some e.2 := by
  rcases hr : s.hamt.root with _ | c
  · rw [hr] at hrep
    obtain rfl : t = .empty := Rep.unique (t := .empty) rfl hrep
    refine ⟨s, _, by simp only [walkLiveCollect, bind_run, state_run, hr, pure_run]; rfl, hon.refl, ?_, ?_⟩
    · simp [Walk.start, Tree.Claims]
    · simp [Walk.start]
  · rw [hr] at hrep
    have hrep' : Rep (s.view d) s.tract.len [] [] (some c) t :=
      Rep.congr hrep le_rfl (fun _ _ => rfl) fun u hu => absurd hu (hrep.no_uses (fun x => by rw [← hr]; exact hroot x) u)
    obtain ⟨s', k, hrun, hreads, hcol⟩ := walkChild_run (k := Walk.start s.tract.len [])
      (f := maxDepth + 1) (r := 0) hon hon.refl hrep' hsep (by simp) (by simp) rfl (by simp [Walk.start, Visited.new])
    refine ⟨s', k, ?_, hreads, ?_, ?_⟩
    · simp only [walkLiveCollect, bind_run, state_run, hr, onWalk, update_run]
      exact hrun
    · intro p
      rw [hcol.live]
      simp [Walk.start]
    · intro e he
      exact (hcol.hashes e he).resolve_left (by simp [Walk.start])

end Walker
end Manifestus
