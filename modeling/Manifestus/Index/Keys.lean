import Manifestus.Index.Walk

/-! The key walk of a sound index: it lists the key of every leaf once, and these are the keys with a
value. -/
set_option linter.unusedSectionVars false

namespace Manifestus
open Prog Store

variable {H : Type} [Crates H] {d : Dev H} {s : Store H} {view : Nat → Block H} {len : Nat} {arena : List (Node H)}

/-- The keys of the leaves. -/
def Tree.Keeps : Tree H → Key → Prop
  | .empty, _ => False
  | .leaf _ _ key _ _, k => key = k
  | .disk _ _ ch, k => ∃ i, (ch i).Keeps k
  | .dirty _ ch, k => ∃ i, (ch i).Keeps k

/-- A leaf is on the way of its key. -/
theorem Rep.keeps_onPath {t : Tree H} {key : Key} : ∀ {path : List (Fin 32)} {c : Option (Child H)},
    Rep view len arena path c t → t.Keeps key → OnPath path key := by
  induction t with
  | empty => exact fun _ h => h.elim
  | leaf hash lba key' value furrows =>
    intro path c hrep hkey
    obtain rfl : key' = key := hkey
    exact hrep.2.1
  | disk hash lba ch ih =>
    intro path c hrep hkey
    obtain ⟨-, slots, -, hch⟩ := hrep
    obtain ⟨i, hi⟩ := hkey
    exact (ih i (hch i) hi).init
  | dirty idx ch ih =>
    intro path c hrep hkey
    obtain ⟨-, node, -, -, -, -, hch⟩ := hrep
    obtain ⟨i, hi⟩ := hkey
    exact (ih i (hch i) hi).init

/-- The keys of the leaves are the keys with a value. -/
theorem Rep.keeps_iff {t : Tree H} {key : Key} : ∀ {path : List (Fin 32)} {c : Option (Child H)},
    Rep view len arena path c t → (t.Keeps key ↔ OnPath path key ∧ (t.find key path.length).isSome) := by
  -- a child that keeps the key is the one on its way
  have hnode : ∀ {path : List (Fin 32)} {ch : Fin 32 → Tree H} {c : Fin 32 → Option (Child H)},
      (∀ i, Rep view len arena (path ++ [i]) (c i) (ch i)) →
      (∀ i, (ch i).Keeps key ↔ OnPath (path ++ [i]) key ∧ ((ch i).find key (path ++ [i]).length).isSome) →
      ((∃ i, (ch i).Keeps key) ↔ OnPath path key ∧ ((ch (chunk key path.length)).find key (path.length + 1)).isSome) := by
    intro path ch c hch hkeeps
    constructor
    · intro hex
      obtain ⟨i, hi⟩ := hex
      obtain ⟨hon, hsome⟩ := (hkeeps i).mp hi
      rw [List.length_append, List.length_singleton] at hsome
      rw [hon.chunk_eq]
      exact ⟨hon.init, hsome⟩
    · intro hin
      obtain ⟨hon, hsome⟩ := hin
      exists chunk key path.length
      rw [hkeeps, List.length_append, List.length_singleton]
      exact ⟨hon.snoc rfl, hsome⟩
  induction t with
  | empty =>
    intro path c _
    simp [Tree.Keeps, Tree.find]
  | leaf hash lba key' value furrows =>
    intro path c hrep
    obtain ⟨-, hon, -⟩ := hrep
    by_cases hkey : key' = key
    · subst hkey
      simp [Tree.Keeps, Tree.find, Tree.locate_leaf, hon]
    · simp [Tree.Keeps, Tree.find, Tree.locate_leaf, hkey]
  | disk hash lba ch ih =>
    intro path c hrep
    obtain ⟨-, slots, -, hch⟩ := hrep
    exact hnode hch fun i => ih i (hch i)
  | dirty idx ch ih =>
    intro path c hrep
    obtain ⟨-, node, -, -, -, -, hch⟩ := hrep
    exact hnode hch fun i => ih i (hch i)

/-- Between two points of a key walk the keys in `K` were listed, in blocks at positions of `P`. -/
structure Listed (P : Nat → Prop) (K : Key → Prop) (k k' : Walk H) : Prop where
  marks : ∀ p ∈ k'.visited.marks, p ∈ k.visited.marks ∨ P p
  words : k'.visited.words = k.visited.words
  keys : ∃ more, k'.keys = k.keys ++ more ∧ more.Nodup ∧ ∀ key, key ∈ more ↔ K key

namespace Listed

variable {P Q : Nat → Prop} {K L : Key → Prop} {k k' k'' : Walk H}

theorem none (hK : ∀ key, ¬ K key) (k : Walk H) : Listed P K k k where
  marks _ hp := .inl hp
  words := rfl
  keys := ⟨[], by simp, List.nodup_nil, by simp [hK]⟩

theorem trans (h : Listed P K k k') (h' : Listed Q L k' k'') (hKL : ∀ key, K key → ¬ L key) :
    Listed (fun p => P p ∨ Q p) (fun key => K key ∨ L key) k k'' where
  marks p hp := by
    cases h'.marks p hp with
    | inl hp =>
      cases h.marks p hp with
      | inl hp => exact .inl hp
      | inr hp => exact .inr (.inl hp)
    | inr hp => exact .inr (.inr hp)
  words := h'.words.trans h.words
  keys := by
    obtain ⟨more, hmore, hnd, hmem⟩ := h.keys
    obtain ⟨more', hmore', hnd', hmem'⟩ := h'.keys
    refine ⟨more ++ more', by rw [hmore', hmore, List.append_assoc], ?_, ?_⟩
    · apply List.nodup_append.mpr
      refine ⟨hnd, hnd', ?_⟩
      intro x hx y hy heq
      subst heq
      exact hKL x ((hmem x).mp hx) ((hmem' x).mp hy)
    · intro key
      rw [List.mem_append, hmem, hmem']

theorem congr (h : Listed P K k k') (hP : ∀ p, P p → Q p) (hK : ∀ key, K key ↔ L key) : Listed Q L k k' where
  marks p hp := (h.marks p hp).imp id (hP p)
  words := h.words
  keys := by
    obtain ⟨more, hmore, hnd, hmem⟩ := h.keys
    exact ⟨more, hmore, hnd, fun key => by rw [hmem, hK]⟩

end Listed

namespace Walker

/-- The children of a node, each walked by `walk`. -/
theorem each_walkKeysChild_run (slots : Fin 32 → Option (H × Nat)) (walk : Child H → Prog Error (Walker H) Unit)
    {ch : Fin 32 → Tree H} (hapart : Tree.Apart ch) (hkeys : ∀ i j key, (ch i).Keeps key → (ch j).Keeps key → i = j)
    (hempty : ∀ i, slots i = none → ch i = .empty)
    (hwalk : ∀ i q, slots i = some q → ∀ (s' : Store H) (k : Walk H), s.Reads d s' →
      k.visited.words = divCeil s.tract.len (2 ^ 6) → (∀ p, (ch i).Claims p → p ∉ k.visited.marks) →
      ∃ s'' k', (walk (.committed q.1 q.2)).run ⟨s', k⟩ = (.ok (), ⟨s'', k'⟩) ∧ s.Reads d s'' ∧
        Listed (ch i).Claims (ch i).Keeps k k') :
    ∀ {is : List (Fin 32)} {s' : Store H} {k : Walk H}, is.Nodup → s.Reads d s' →
      k.visited.words = divCeil s.tract.len (2 ^ 6) → (∀ i ∈ is, ∀ p, (ch i).Claims p → p ∉ k.visited.marks) →
      ∃ s'' k', (each (fun i =>
          match (slots i).map fun p : H × Nat => Child.committed p.1 p.2 with
          | some child => walk child
          | none => pure ()) is).run ⟨s', k⟩ = (.ok (), ⟨s'', k'⟩) ∧ s.Reads d s'' ∧
        Listed (fun p => ∃ i ∈ is, (ch i).Claims p) (fun key => ∃ i ∈ is, (ch i).Keeps key) k k' := by
  intro is
  induction is with
  | nil => exact fun _ hr _ _ => ⟨_, _, rfl, hr, Listed.none (by simp) _⟩
  | cons i is ih =>
    intro s' k hnd hr hwords hnew
    obtain ⟨hnot, hnd'⟩ := List.nodup_cons.mp hnd
    obtain ⟨hi, his⟩ := List.forall_mem_cons.mp hnew
    obtain ⟨s₁, k₁, hrun, hr₁, h₁⟩ : ∃ s₁ k₁, (match (slots i).map fun p : H × Nat => Child.committed p.1 p.2 with
          | some child => walk child
          | none => pure ()).run ⟨s', k⟩ = (.ok (), ⟨s₁, k₁⟩) ∧ s.Reads d s₁ ∧ Listed (ch i).Claims (ch i).Keeps k k₁ := by
      cases hs : slots i with
      | none => exact ⟨s', k, rfl, hr, Listed.none (by simp [hempty i hs, Tree.Keeps]) k⟩
      | some q => exact hwalk i q hs s' k hr hwords hi
    obtain ⟨s₂, k₂, hrun₂, hr₂, h₂⟩ := ih hnd' hr₁ (h₁.words.trans hwords) (by
      intro j hj p hp hm
      cases h₁.marks p hm with
      | inl hm => exact his j hj p hp hm
      | inr hm => exact (hapart i j fun hij => hnot (hij ▸ hj)).1 p hm hp)
    refine ⟨s₂, k₂, by simp only [each, bind_run, hrun, hrun₂], hr₂, ?_⟩
    apply (h₁.trans h₂ ?_).congr
    · intro p hp
      simpa using hp
    · intro key
      simp
    · intro key hkey hrest
      obtain ⟨j, hj, hkey'⟩ := hrest
      exact hnot (hkeys i j key hkey hkey' ▸ hj)

theorem walkKeysChild_run {t : Tree H} : ∀ {s' : Store H} {k : Walk H} {path : List (Fin 32)} {c : Child H} {f : Nat},
    s.On d → s.Reads d s' → Rep (s.view d) s.tract.len [] path (some c) t → t.Sep → path.length ≤ maxDepth →
    f + path.length = maxDepth + 1 → k.visited.words = divCeil s.tract.len (2 ^ 6) → (∀ p, t.Claims p → p ∉ k.visited.marks) →
    ∃ s'' k', (walkKeysChild f path.length c).run ⟨s', k⟩ = (.ok (), ⟨s'', k'⟩) ∧ s.Reads d s'' ∧
      Listed t.Claims t.Keeps k k' := by
  induction t with
  | empty =>
    intro s' k path c fuel _ _ hrep
    cases hrep
  | dirty idx ch =>
    intro s' k path c fuel _ _ hrep
    obtain ⟨-, node, hnode, -⟩ := hrep
    simp at hnode
  | leaf hash lba key value furrows =>
    intro s' k path c fuel hon hr hrep hsep hdepth hfuel hwords hnew
    obtain ⟨hc, -, hleaf⟩ := hrep
    cases hc
    obtain ⟨fuel, rfl⟩ : ∃ f, fuel = f + 1 := ⟨fuel - 1, by omega⟩
    have hlt : lba < s'.tract.len := by rw [hr.tract]; exact hleaf.lt
    obtain ⟨s₁, hread, hr₁⟩ := readDoc_run (hr.on hon) hlt hash
    rw [hr.view, hr.tract] at hread
    have hreach := reach_run (s := s₁) hwords hleaf.lt (hnew lba (.inl rfl))
    have hlisted : Listed (Tree.leaf hash lba key value furrows).Claims (Tree.leaf hash lba key value furrows).Keeps k
        { k with visited := { k.visited with marks := lba :: k.visited.marks }, keys := k.keys ++ [key] } := by
      constructor
      · intro p hp
        cases List.mem_cons.mp hp with
        | inl heq => exact .inr (.inl heq)
        | inr hp => exact .inl hp
      · rfl
      · exact ⟨[key], rfl, List.nodup_singleton key, fun key' => by rw [List.mem_singleton]; exact eq_comm⟩
    refine ⟨s₁, _, ?_, hr.trans hr₁, hlisted⟩
    rcases hleaf.docOf with ⟨hdoc, rfl⟩ | ⟨runs, hdoc, -⟩ | ⟨hdoc, -⟩ <;>
      simp only [walkKeysChild, bind_run, onStore, zoom_run, hread, hdoc, hreach, onWalk, update_run]
  | disk hash lba ch ih =>
    intro s' k path c fuel hon hr hrep hsep hdepth hfuel hwords hnew
    obtain ⟨hc, slots, hnode, hch⟩ := hrep
    cases hc
    obtain ⟨fuel, rfl⟩ : ∃ f, fuel = f + 1 := ⟨fuel - 1, by omega⟩
    obtain ⟨hseps, hapart, hself⟩ := hsep
    have hlt : lba < s'.tract.len := by rw [hr.tract]; exact hnode.lt
    obtain ⟨s₁, hread, hr₁⟩ := readDoc_run (hr.on hon) hlt hash
    rw [hr.view, hr.tract] at hread
    obtain ⟨nodeRoute, -, hdoc⟩ := hnode.docOf
    have hreach := reach_run (s := s₁) hwords hnode.lt (hnew lba (.inl rfl))
    set k₁ : Walk H := { k with visited := { k.visited with marks := lba :: k.visited.marks } } with hk₁
    have hkeys : ∀ i j key, (ch i).Keeps key → (ch j).Keeps key → i = j := by
      intro i j key hi hj
      rw [← (Rep.keeps_onPath (hch i) hi).chunk_eq, ← (Rep.keeps_onPath (hch j) hj).chunk_eq]
    have hempty : ∀ i, slots i = none → ch i = .empty := by
      intro i hi
      have hrep := hch i
      rw [hi] at hrep
      exact Rep.unique (t := .empty) rfl hrep
    have hwalk : ∀ i q, slots i = some q → ∀ (s' : Store H) (k : Walk H), s.Reads d s' →
        k.visited.words = divCeil s.tract.len (2 ^ 6) → (∀ p, (ch i).Claims p → p ∉ k.visited.marks) →
        ∃ s'' k', (walkKeysChild fuel (path.length + 1) (.committed q.1 q.2)).run ⟨s', k⟩ = (.ok (), ⟨s'', k'⟩) ∧
          s.Reads d s'' ∧ Listed (ch i).Claims (ch i).Keeps k k' := by
      intro i q hq s' k hr hwords hnew
      have hrep := hch i
      rw [hq] at hrep
      have hlength : (path ++ [i]).length = path.length + 1 := by rw [List.length_append, List.length_singleton]
      have hrun := ih i (f := fuel) hon hr hrep (hseps i) (by rw [hlength]; exact hnode.depth) (by omega) hwords hnew
      rwa [hlength] at hrun
    obtain ⟨s₂, k₂, heach, hr₂, h₂⟩ := each_walkKeysChild_run slots (walkKeysChild fuel (path.length + 1)) (s := s) (d := d)
      hapart hkeys hempty hwalk (List.nodup_finRange 32) (hr.trans hr₁) (k := k₁) hwords (by
        intro i _ p hp hm
        cases List.mem_cons.mp hm with
        | inl heq => exact hself i (heq ▸ hp)
        | inr hm => exact hnew p (.inr ⟨i, hp⟩) hm)
    refine ⟨s₂, k₂, ?_, hr₂, ?_⟩
    · have hat : ∀ w : Walker H, (nodeAtDepth (Node.ofSlots path.length nodeRoute slots) lba path.length).run w =
          (.ok (), w) := nodeAtDepth_run rfl
      simp only [walkKeysChild, bind_run, onStore, zoom_run, hread, hdoc, hreach, onWalk, hat]
      exact heach
    · have hone : Listed (· = lba) (fun _ => False) k k₁ := by
        constructor
        · intro p hp
          cases List.mem_cons.mp hp with
          | inl heq => exact .inr heq
          | inr hp => exact .inl hp
        · rfl
        · exact ⟨[], by simp [hk₁], List.nodup_nil, by simp⟩
      apply (hone.trans h₂ fun _ hf => hf.elim).congr
      · intro p hp
        simpa [Tree.Claims] using hp
      · intro key
        simp [Tree.Keeps]

/-- The key walk of a sound committed index. -/
theorem walkKeys_run {t : Tree H} (hon : s.On d) (hrep : s.Holds d [] s.hamt.root t) (hsep : t.Sep)
    (hroot : ∀ i, s.hamt.root ≠ some (.dirty i)) :
    ∃ s' k, walkKeys.run ⟨s, Walk.start s.tract.len []⟩ = (.ok (), ⟨s', k⟩) ∧ s.Reads d s' ∧ k.keys.Nodup ∧
      ∀ key, key ∈ k.keys ↔ (t.find key 0).isSome := by
  rcases hr : s.hamt.root with _ | c
  · rw [hr] at hrep
    obtain rfl : t = .empty := Rep.unique (t := .empty) rfl hrep
    refine ⟨s, _, by simp only [walkKeys, bind_run, state_run, hr, pure_run]; rfl, hon.refl, ?_, ?_⟩
    · exact List.nodup_nil
    · simp [Walk.start, Tree.find]
  · have hclean : Rep (s.view d) s.tract.len [] [] (some c) t := by
      rw [hr] at hrep
      exact Rep.congr hrep le_rfl (fun _ _ => rfl) fun u hu => absurd hu (hrep.no_uses (fun x => by rw [← hr]; exact hroot x) u)
    obtain ⟨s', k, hrun, hreads, hlisted⟩ := walkKeysChild_run (k := Walk.start s.tract.len []) (f := maxDepth + 1) hon hon.refl
      hclean hsep (Nat.zero_le _) rfl rfl (by simp [Walk.start, Visited.new])
    obtain ⟨more, hmore, hnd, hmem⟩ := hlisted.keys
    refine ⟨s', k, ?_, hreads, ?_, ?_⟩
    · simp only [walkKeys, bind_run, state_run, hr, onWalk, update_run]
      exact hrun
    · rw [hmore]
      exact hnd
    · intro key
      rw [hmore, Walk.start, List.nil_append, hmem, hclean.keeps_iff, and_iff_right (onPath_nil key)]
      rfl

end Walker

end Manifestus
