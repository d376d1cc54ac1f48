import Manifestus.Index.State

/-! Inserting a leaf: it takes an empty place, takes the place of the key's old leaf, or is
split from another leaf. -/
set_option linter.unusedSectionVars false

namespace Manifestus
open Prog Store

variable {H : Type} [Crates H] {d : Dev H}

namespace Hamt

/-- The index with positions recorded as added. -/
def gain (l : List (Nat × H)) (h : Hamt H) : Hamt H :=
  { h with delta := { h.delta with added := h.delta.added ++ l } }

/-- The index with positions recorded as removed. -/
def lose (l : List (Nat × H)) (h : Hamt H) : Hamt H :=
  { h with delta := { h.delta with removed := h.delta.removed ++ l } }

@[simp] theorem lose_nil (h : Hamt H) : h.lose [] = h := by simp [lose]

@[simp] theorem gain_nil (h : Hamt H) : h.gain [] = h := by simp [gain]

@[simp] theorem lose_lose (l l' : List (Nat × H)) (h : Hamt H) : (h.lose l).lose l' = h.lose (l ++ l') := by
  simp [lose]

@[simp] theorem gain_gain (l l' : List (Nat × H)) (h : Hamt H) : (h.gain l).gain l' = h.gain (l ++ l') := by
  simp [gain]

@[simp] theorem pushRemoved_eq (lba : Nat) (hash : H) (h : Hamt H) :
    h.pushRemoved lba hash = h.lose [(lba, hash)] := rfl

@[simp] theorem pushAdded_eq (lba : Nat) (hash : H) (h : Hamt H) :
    h.pushAdded lba hash = h.gain [(lba, hash)] := rfl

theorem onHamt_run (f : Hamt H → Hamt H) (s : Store H) :
    (onHamt f).run s = (.ok (), { s with hamt := f s.hamt }) := rfl

theorem pushNode_run (s : Store H) (node : Node H) :
    (pushNode node).run s = (.ok s.hamt.arena.length,
      { s with hamt := { s.hamt with arena := s.hamt.arena ++ [node] } }) := by
  simp [pushNode, onHamt]

theorem each_removeSealed_run {furrows : List Nat} : ∀ {s : Store H}, s.On d →
    (∀ p ∈ furrows, p < s.tract.len ∧ ∃ h, sealedHp (s.view d p) = some h) →
    ∃ l, (each removeSealed furrows).run s = (.ok (), { s with hamt := s.hamt.lose l }) ∧
      spots l = furrows ∧ ∀ e ∈ l, sealedHp (s.view d e.1) = some e.2 := by
  induction furrows with
  | nil => intro s _ _; exact ⟨[], by simp [each], rfl, by simp⟩
  | cons p furrows ih =>
    intro s hon h
    simp only [List.mem_cons, forall_eq_or_imp] at h
    obtain ⟨⟨hlt, hash, hh⟩, hrest⟩ := h
    obtain ⟨l, hrun, hspots, hhashes⟩ :=
      ih (s := { s with hamt := s.hamt.lose [(p, hash)] }) ⟨hon.ready, hon.fits⟩ hrest
    refine ⟨(p, hash) :: l, ?_, by simp [hspots], ?_⟩
    · simp [each, removeSealed, Tract.read_run hon hlt, hh, onHamt, hrun]
    · intro e he
      rcases List.mem_cons.mp he with rfl | he
      · exact hh
      · exact hhashes e he

/-- A leaf and its furrows are recorded as removed, each with the hash of its block. -/
theorem removeLeafBlocks_run {s : Store H} (hon : s.On d) {hash : H} {lba : Nat} {key : Key} {value : Bytes}
    {furrows : List Nat} (hleaf : LeafAt (s.view d) s.tract.len hash lba key value furrows) :
    ∃ m' l, (removeLeafBlocks lba hash).run s = (.ok (), { s with mirror := m', hamt := s.hamt.lose l }) ∧
      s.mirror.Agrees m' ∧ m'.Ready d ∧ spots l = lba :: furrows ∧
      ∀ e ∈ l, sealedHp (s.view d e.1) = some e.2 := by
  obtain ⟨s', hrun, m', rfl, ha, hr⟩ :=
    readDoc_run (s := { s with hamt := s.hamt.lose [(lba, hash)] }) ⟨hon.ready, hon.fits⟩ hleaf.lt hash
  change _ = (docOf (s.view d lba) lba hash s.tract.len, _) at hrun
  -- a lone leaf has no furrows; those of the other two are recorded one by one
  rcases hleaf.docOf with ⟨hdoc, rfl⟩ | hdoc
  · refine ⟨m', [(lba, hash)], ?_, ha, hr, rfl, by simpa using hleaf.hash_eq⟩
    rw [hdoc] at hrun
    simp [removeLeafBlocks, onHamt, hrun]
  · have hfurrows : ∀ p ∈ furrows, p < s.tract.len ∧ ∃ h, sealedHp (s.view d p) = some h := by
      intro p hp
      obtain ⟨i, hi⟩ := List.mem_iff_getElem?.mp hp
      obtain ⟨payload, extra, hv⟩ := hleaf.furrow_at hi
      exact ⟨hleaf.furrow_lt hp, _, by rw [hv, sealedHp]⟩
    have hview : ({ s with mirror := m', hamt := s.hamt.lose [(lba, hash)] } : Store H).view d = s.view d := by
      funext p
      exact congrFun (ha.view d) _
    obtain ⟨l, heach, hspots, hhashes⟩ :=
      each_removeSealed_run (s := { s with mirror := m', hamt := s.hamt.lose [(lba, hash)] })
        ⟨hr, hon.fits⟩ (by rw [hview]; exact hfurrows)
    refine ⟨m', (lba, hash) :: l, ?_, ha, hr, by simp [hspots], ?_⟩
    · rcases hdoc with ⟨runs, hdoc, hruns, -⟩ | ⟨hdoc, -⟩
      · rw [hdoc] at hrun
        simp [removeLeafBlocks, onHamt, hrun, hruns, heach]
      · rw [hdoc] at hrun
        simp [removeLeafBlocks, onHamt, hrun, heach]
    · rw [hview] at hhashes
      intro e he
      rcases List.mem_cons.mp he with rfl | he
      · exact hleaf.hash_eq
      · exact hhashes e he

end Hamt

variable {view : Nat → Block H} {len : Nat}

/-- A tree that is a leaf of the tract. -/
structure Lone (view : Nat → Block H) (len : Nat) (hash : H) (lba : Nat) (key : Key) (value : Bytes)
    (furrows : List Nat) : Prop where
  leaf : LeafAt view len hash lba key value furrows
  apart : lba ∉ furrows
  nodup : furrows.Nodup

theorem Lone.rep {hash : H} {lba : Nat} {key : Key} {value : Bytes} {furrows : List Nat}
    (h : Lone view len hash lba key value furrows) (arena : List (Node H)) {path : List (Fin 32)}
    (hpath : OnPath path key) :
    Rep view len arena path (some (.committed hash lba)) (.leaf hash lba key value furrows) :=
  ⟨rfl, hpath, h.leaf⟩

theorem Lone.sep {hash : H} {lba : Nat} {key : Key} {value : Bytes} {furrows : List Nat}
    (h : Lone view len hash lba key value furrows) : (Tree.leaf hash lba key value furrows).Sep :=
  ⟨h.apart, h.nodup⟩

/-- `y` is `x` with the leaf `(hash, lba, value, furrows)` of `key`, less the blocks `extra` of the leaf
it takes the place of. -/
structure Insertion (key : Key) (hash : H) (lba : Nat) (value : Bytes) (furrows : List Nat) (n : Nat)
    (x y : Tree H) (extra : List (Nat × H)) : Prop where
  claims : ∀ p, y.Claims p ↔ (x.Claims p ∧ p ∉ spots extra) ∨ p = lba ∨ p ∈ furrows
  extra : ∀ p ∈ spots extra, x.Claims p
  locate : ∀ k, y.locate k n = if k = key then some (hash, lba, value, furrows) else x.locate k n

/-- What a tree holds once a leaf is grafted into it, and what it finds. -/
theorem Graft.inserted {key : Key} {hash : H} {lba n : Nat} {value : Bytes} {furrows : List Nat}
    {t t' x y : Tree H} {gone extra : List (Nat × H)} (h : Graft key 0 n t t' x y gone)
    (hins : Insertion key hash lba value furrows n x y extra)
    (hnew : ∀ p, p = lba ∨ p ∈ furrows → ¬ t.Claims p) {l : List (Nat × H)}
    (hl : ∀ e, e ∈ l ↔ e ∈ gone ∨ e ∈ extra) :
    (∀ p, t'.Claims p ↔ (t.Claims p ∨ p = lba ∨ p ∈ furrows) ∧ p ∉ spots l) ∧
      (∀ e ∈ l, t.Claims e.1) ∧
      ∀ k, t'.locate k 0 = if k = key then some (hash, lba, value, furrows) else t.locate k 0 := by
  have hextra : ∀ e ∈ extra, x.Claims e.1 := fun e he => hins.extra e.1 (mem_spots.mpr ⟨e, he, rfl⟩)
  have hlost : ∀ e ∈ l, t.Claims e.1 := by
    intro e he
    rcases (hl e).mp he with he | he
    · exact (h.gone e he).1
    · exact h.within _ (hextra e he)
  refine ⟨fun p => ?_, hlost, fun k => ?_⟩
  · rw [h.claims, hins.claims]
    constructor
    · rintro (⟨hp, hx, hg⟩ | (⟨hx, hne⟩ | hp))
      · refine ⟨.inl hp, fun hmem => ?_⟩
        obtain ⟨e, he, rfl⟩ := mem_spots.mp hmem
        rcases (hl e).mp he with he | he
        · exact hg e he rfl
        · exact hx (hextra e he)
      · refine ⟨.inl (h.within p hx), fun hmem => ?_⟩
        obtain ⟨e, he, rfl⟩ := mem_spots.mp hmem
        rcases (hl e).mp he with he | he
        · exact (h.gone e he).2 hx
        · exact hne (mem_spots.mpr ⟨e, he, rfl⟩)
      · refine ⟨.inr hp, fun hmem => ?_⟩
        obtain ⟨e, he, rfl⟩ := mem_spots.mp hmem
        exact hnew _ hp (hlost e he)
    · rintro ⟨hp | hp, hne⟩
      · have hgone : ∀ e ∈ gone, e.1 ≠ p := fun e he hep =>
          hne (mem_spots.mpr ⟨e, (hl e).mpr (.inl he), hep⟩)
        by_cases hx : x.Claims p
        · refine .inr (.inl ⟨hx, fun hmem => ?_⟩)
          obtain ⟨e, he, rfl⟩ := mem_spots.mp hmem
          exact hne (mem_spots.mpr ⟨e, (hl e).mpr (.inr he), rfl⟩)
        · exact .inl ⟨hp, hx, hgone⟩
      · exact .inr (.inr hp)
  · by_cases hk : k = key
    · subst hk
      rw [h.way.2, hins.locate, if_pos rfl, if_pos rfl]
    · rw [if_neg hk]
      rcases h.others k with h' | ⟨h₁, h₂⟩
      · exact h'
      · rw [h₂, hins.locate, if_neg hk, h₁]

namespace Hamt

/-- Two leaves of different keys, parted below their common path. -/
theorem split_run {ha hb : H} {la lb : Nat} {ka kb : Key} {va vb : Bytes} {fa fb : List Nat}
    (hne : ka ≠ kb) (hdis : ∀ p, p = lb ∨ p ∈ fb → ¬ (p = la ∨ p ∈ fa)) :
    ∀ (fuel : Nat) {s : Store H} {path : List (Fin 32)},
      Lone (s.view d) s.tract.len ha la ka va fa → Lone (s.view d) s.tract.len hb lb kb vb fb →
      OnPath path ka → OnPath path kb → maxDepth ≤ fuel + path.length →
      ∃ news t' idx, (split fuel path.length (ka, .committed ha la) (kb, .committed hb lb)).run s =
          (.ok (.dirty idx), { s with hamt := { s.hamt with arena := s.hamt.arena ++ news } }) ∧
        Rep (s.view d) s.tract.len (s.hamt.arena ++ news) path (some (.dirty idx)) t' ∧ t'.Sep ∧
        (∀ p, t'.Claims p ↔ (p = la ∨ p ∈ fa) ∨ p = lb ∨ p ∈ fb) ∧
        (∀ u, t'.Uses u → s.hamt.arena.length ≤ u) ∧
        ∀ k, t'.locate k path.length = if k = kb then some (hb, lb, vb, fb)
          else (Tree.leaf ha la ka va fa).locate k path.length := by
  intro fuel
  induction fuel with
  | zero =>
    intro s path _ _ hpa hpb hfuel
    have := hpa.length_lt hpb hne
    omega
  | succ fuel ih =>
    intro s path hla hlb hpa hpb hfuel
    have hmax := hpa.length_lt hpb hne
    have hempty : Tree.Apart (fun _ : Fin 32 => (Tree.empty : Tree H)) := by
      intro i j _
      exact ⟨fun p hp => hp.elim, fun x hx => hx.elim⟩
    by_cases hc : chunk ka path.length = chunk kb path.length
    · obtain ⟨news, t₁, idx, hrun, hrep, hsep, hclaims, huses, hlocate⟩ :=
        ih hla hlb (hpa.snoc rfl) (hpb.snoc hc.symm) (by simp; omega)
      rw [List.length_append, List.length_singleton] at hrun hlocate
      -- one node above the chain that parts the keys further down
      refine ⟨news ++ [⟨path.length, ka, Function.update (fun _ => none) (chunk ka path.length)
          (some (.dirty idx))⟩],
        .dirty (s.hamt.arena ++ news).length
          (Function.update (fun _ => .empty) (chunk ka path.length) t₁),
        (s.hamt.arena ++ news).length, ?_, ?_, ?_, ?_, ?_, ?_⟩
      · simp [split, chunkAt_run hmax, hc, hrun, pushNode_run]
      · rw [← List.append_assoc]
        refine Rep.push hmax hpa fun i => ?_
        by_cases hi : i = chunk ka path.length
        · subst hi
          rw [Function.update_self, Function.update_self]
          exact hrep
        · rw [Function.update_of_ne hi, Function.update_of_ne hi]
          exact rfl
      · refine ⟨Tree.sep_update (f := fun _ => .empty) (fun _ => trivial) hsep,
          hempty.update (fun p _ => .inr fun i _ h => h) (fun u _ => .inr fun i _ h => h), fun i hi => ?_⟩
        by_cases hic : i = chunk ka path.length
        · subst hic
          rw [Function.update_self] at hi
          have := hrep.uses_lt _ hi
          omega
        · rw [Function.update_of_ne hic] at hi
          exact hi
      · intro p
        rw [← hclaims]
        refine (Tree.exists_update (P := fun t => t.Claims p)).trans ⟨?_, .inl⟩
        rintro (h | ⟨i, -, h⟩)
        · exact h
        · exact h.elim
      · rintro u (rfl | hu)
        · simp
        · rcases (Tree.exists_update (P := fun t => t.Uses u)).mp hu with h | ⟨i, -, h⟩
          · exact huses u h
          · exact h.elim
      · intro k
        rw [Tree.locate_dirty, Tree.locate_leaf]
        by_cases hk : chunk k path.length = chunk ka path.length
        · rw [hk, Function.update_self, hlocate, Tree.locate_leaf]
        · rw [Function.update_of_ne hk, if_neg (by rintro rfl; exact hk hc.symm), Tree.locate_empty,
            if_neg (by rintro rfl; exact hk rfl)]
    · have hapart : Tree.Apart (Function.update (fun _ => .empty) (chunk ka path.length)
          (Tree.leaf ha la ka va fa)) :=
        hempty.update (fun p _ => .inr fun i _ h => h) (fun u _ => .inr fun i _ h => h)
      refine ⟨[⟨path.length, ka, Function.update (Function.update (fun _ => none)
          (chunk ka path.length) (some (.committed ha la))) (chunk kb path.length) (some (.committed hb lb))⟩],
        .dirty s.hamt.arena.length (Function.update (Function.update (fun _ => .empty)
          (chunk ka path.length) (.leaf ha la ka va fa)) (chunk kb path.length) (.leaf hb lb kb vb fb)),
        s.hamt.arena.length, ?_, ?_, ?_, ?_, ?_, ?_⟩
      · simp [split, chunkAt_run hmax, hc, pushNode_run]
      · refine Rep.push hmax hpa fun i => ?_
        by_cases hi : i = chunk kb path.length
        · subst hi
          rw [Function.update_self, Function.update_self]
          exact hlb.rep _ (hpb.snoc rfl)
        · by_cases hia : i = chunk ka path.length
          · subst hia
            rw [Function.update_of_ne hi, Function.update_of_ne hi, Function.update_self, Function.update_self]
            exact hla.rep _ (hpa.snoc rfl)
          · rw [Function.update_of_ne hi, Function.update_of_ne hi, Function.update_of_ne hia,
              Function.update_of_ne hia]
            exact rfl
      · refine ⟨Tree.sep_update (Tree.sep_update (f := fun _ => .empty) (fun _ => trivial) hla.sep) hlb.sep,
          hapart.update (fun p hp => .inr fun i hi h => ?_) (fun u hu => hu.elim), fun i hi => ?_⟩
        · by_cases hia : i = chunk ka path.length
          · subst hia
            rw [Function.update_self] at h
            exact hdis p hp h
          · rw [Function.update_of_ne hia] at h
            exact h
        · rcases (Tree.exists_update (P := fun t => t.Uses _)).mp ⟨i, hi⟩ with h | ⟨j, -, h⟩
          · exact h
          · rcases (Tree.exists_update (P := fun t => t.Uses _)).mp ⟨j, h⟩ with h | ⟨-, -, h⟩ <;> exact h
      · intro p
        refine (Tree.exists_update (P := fun t => t.Claims p)).trans ⟨?_, ?_⟩
        · rintro (h | ⟨i, -, h⟩)
          · exact .inr h
          · rcases (Tree.exists_update (P := fun t => t.Claims p)).mp ⟨i, h⟩ with h | ⟨-, -, h⟩
            · exact .inl h
            · exact h.elim
        · rintro (h | h)
          · exact .inr ⟨chunk ka path.length, hc, by rw [Function.update_self]; exact h⟩
          · exact .inl h
      · rintro u (rfl | hu)
        · exact le_rfl
        · rcases (Tree.exists_update (P := fun t => t.Uses u)).mp hu with h | ⟨j, -, h⟩
          · exact h.elim
          · rcases (Tree.exists_update (P := fun t => t.Uses u)).mp ⟨j, h⟩ with h | ⟨-, -, h⟩ <;> exact h.elim
      · intro k
        rw [Tree.locate_dirty, Tree.locate_leaf]
        by_cases hk : k = kb
        · subst hk
          rw [Function.update_self, if_pos rfl, Tree.locate_leaf, if_pos rfl]
        · rw [if_neg hk]
          by_cases hkb : chunk k path.length = chunk kb path.length
          · rw [hkb, Function.update_self, Tree.locate_leaf, if_neg (Ne.symm hk),
              if_neg (by rintro rfl; exact hc hkb)]
          · rw [Function.update_of_ne hkb]
            by_cases hka : chunk k path.length = chunk ka path.length
            · rw [hka, Function.update_self, Tree.locate_leaf]
            · rw [Function.update_of_ne hka, Tree.locate_empty, if_neg (by rintro rfl; exact hka rfl)]

/-- The leaf takes an empty place, or that of the key's old leaf, or is split from the leaf
found there; the nodes on the way move to the arena. -/
theorem insertChild_run {key : Key} {hash : H} {lba : Nat} {value : Bytes} {furrows : List Nat} {t : Tree H} :
    ∀ {s : Store H} {path : List (Fin 32)} {c : Option (Child H)} {f : Nat}, s.On d →
      s.Holds d path c t → t.Sep → OnPath path key → f + path.length = descentFuel →
      path.length ≤ maxDepth → Lone (s.view d) s.tract.len hash lba key value furrows →
      (∀ p, p = lba ∨ p ∈ furrows → ¬ t.Claims p) →
      ∃ m' arena' l n c' t' x y gone extra,
        (insertChild key (.committed hash lba) f path.length c).run s =
          (.ok c', { s with mirror := m', hamt := ({ s.hamt with arena := arena' } : Hamt H).lose l }) ∧
        s.mirror.Agrees m' ∧ m'.Ready d ∧
        Edited (s.view d) s.tract.len s.hamt.arena arena' key path n t t' x y (some c') gone ∧
        Insertion key hash lba value furrows n x y extra ∧
        (∀ e ∈ extra, sealedHp (s.view d e.1) = some e.2) ∧ ∀ e, e ∈ l ↔ e ∈ gone ∨ e ∈ extra := by
  induction t with
  | empty =>
    intro s path c fuel hon h hsep hpath hfuel hmax hlone hnew
    obtain ⟨f, rfl⟩ : ∃ f, fuel = f + 1 := ⟨fuel - 1, by simp [descentFuel] at hfuel; omega⟩
    obtain rfl : c = none := h
    refine ⟨s.mirror, s.hamt.arena, [], path.length, .committed hash lba, _, .empty,
      .leaf hash lba key value furrows, [], [], by simp [insertChild], .refl _, hon.ready,
      .here (hlone.rep _ hpath) hlone.sep le_rfl (fun _ _ _ => rfl) fun u hu => hu.elim, ?_, by simp, by simp⟩
    refine ⟨fun p => ?_, by simp, fun k => ?_⟩
    · simp [Tree.Claims]
    · rw [Tree.locate_leaf, Tree.locate_empty]
      simp only [eq_comm]
  | leaf oldHash oldLba k oldValue oldFurrows =>
    intro s path c fuel hon h hsep hpath hfuel hmax hlone hnew
    obtain ⟨f, rfl⟩ : ∃ f, fuel = f + 1 := ⟨fuel - 1, by simp [descentFuel] at hfuel; omega⟩
    obtain ⟨rfl, hkpath, hleaf⟩ := h
    obtain ⟨s₁, hdoc, m₁, rfl, ha₁, hr₁⟩ := readDoc_run hon hleaf.lt oldHash
    have hview₁ : ({ s with mirror := m₁ } : Store H).view d = s.view d := by
      funext p
      exact congrFun (ha₁.view d) _
    -- both kinds of leaf go on alike
    have hrun : (insertChild key (.committed hash lba) (f + 1) path.length (some (.committed oldHash oldLba))).run s =
        (if k = key then do
          removeLeafBlocks oldLba oldHash
          pure (.committed hash lba)
        else split descentFuel path.length (k, .committed oldHash oldLba) (key, .committed hash lba)).run
          { s with mirror := m₁ } := by
      rcases hleaf.docOf with ⟨hd, -⟩ | ⟨runs, hd, -, -⟩ | ⟨hd, -, -⟩ <;> rw [hd] at hdoc <;> simp [insertChild, hdoc]
    by_cases hk : k = key
    · subst hk
      obtain ⟨m₂, l, hrem, ha₂, hr₂, hspots, hhashes⟩ :=
        removeLeafBlocks_run (s := { s with mirror := m₁ }) ⟨hr₁, hon.fits⟩ (by rw [hview₁]; exact hleaf)
      rw [hview₁] at hhashes
      refine ⟨m₂, s.hamt.arena, l, path.length, .committed hash lba, _, .leaf oldHash oldLba k oldValue oldFurrows,
        .leaf hash lba k value furrows, [], l, ?_, ha₁.trans ha₂, hr₂,
        .here (hlone.rep _ hpath) hlone.sep le_rfl (fun _ _ _ => rfl) fun u hu => hu.elim, ?_, hhashes,
        by simp⟩
      · rw [hrun, if_pos rfl]
        simp [hrem]
      · refine ⟨fun p => ?_, fun p hp => ?_, fun k' => ?_⟩
        · rw [hspots, List.mem_cons]
          simp only [Tree.Claims, and_not_self_iff, false_or]
        · rw [hspots] at hp
          simpa [Tree.Claims] using hp
        · rw [Tree.locate_leaf, Tree.locate_leaf]
          by_cases hk' : k' = k
          · rw [if_pos hk'.symm, if_pos hk']
          · rw [if_neg (Ne.symm hk'), if_neg hk', if_neg (Ne.symm hk')]
    · have hold : Lone (s.view d) s.tract.len oldHash oldLba k oldValue oldFurrows := ⟨hleaf, hsep.1, hsep.2⟩
      obtain ⟨news, t', idx, hsplit, hrep, hsep', hclaims, huses, hlocate⟩ :=
        split_run (d := d) hk hnew descentFuel (s := { s with mirror := m₁ }) (by rw [hview₁]; exact hold)
          (by rw [hview₁]; exact hlone) hkpath hpath (by simp [descentFuel]; omega)
      rw [hview₁] at hrep
      refine ⟨m₁, s.hamt.arena ++ news, [], path.length, .dirty idx, t', .leaf oldHash oldLba k oldValue oldFurrows,
        t', [], [], ?_, ha₁, hr₁, .here hrep hsep' (by simp) (fun u hu _ => List.getElem?_append_left hu)
        fun u hu => .inr (huses u hu), ?_, by simp, by simp⟩
      · rw [hrun, if_neg hk, hsplit, lose_nil]
      · refine ⟨fun p => ?_, by simp, hlocate⟩
        rw [hclaims]
        simp [Tree.Claims]
  | disk nodeHash nodeLba ch ih =>
    intro s path c fuel hon h hsep hpath hfuel hmax hlone hnew
    obtain ⟨f, rfl⟩ : ∃ f, fuel = f + 1 := ⟨fuel - 1, by simp [descentFuel] at hfuel; omega⟩
    obtain ⟨rfl, slots, hnode, hch⟩ := h
    obtain ⟨s₁, hdoc, m₁, rfl, ha₁, hr₁⟩ := readDoc_run hon hnode.lt nodeHash
    obtain ⟨route, hroute, hd⟩ := hnode.docOf
    rw [hd] at hdoc
    have hdepth := hnode.depth
    set node := Node.ofSlots path.length route slots with hnodeDef
    set s₂ : Store H := { s with mirror := m₁, hamt := { s.hamt with arena := s.hamt.arena ++ [node] } } with hs₂
    have hview₂ : s₂.view d = s.view d := by
      funext p
      exact congrFun (ha₁.view d) _
    obtain ⟨m', arena', l, n, c', t', x, y, gone, extra, hrun, ha, hr, hedit, hins, hhash, hl⟩ :=
      ih (chunk key path.length) (s := s₂) (f := f)
        ⟨hr₁, hon.fits⟩
        (by
          rw [Store.Holds, hview₂]
          refine (hch _).congr le_rfl (fun _ _ => rfl) fun u hu => ?_
          exact List.getElem?_append_left ((hch _).uses_lt u hu))
        (hsep.1 _) (hpath.snoc rfl) (by simp; omega) (by simp; omega) (by rw [hview₂]; exact hlone)
        fun p hp hc => hnew p hp (.inr ⟨_, hc⟩)
    rw [hview₂] at hedit hhash
    rw [List.length_append, List.length_singleton] at hrun
    refine ⟨m', _, l ++ [(nodeLba, nodeHash)], n, _, _, x, y, _, extra, ?_, ha₁.trans ha, hr,
      Edited.disk hdepth hroute hch hsep hnode.hash_eq hedit fun p hp => ?_, hins, hhash, fun e => ?_⟩
    · have hpush : (pushNode node).run { s with mirror := m₁ } = (.ok s.hamt.arena.length, s₂) :=
        pushNode_run _ _
      have hat : (nodeAtDepth node nodeLba path.length).run { s with mirror := m₁ } =
          (.ok (), { s with mirror := m₁ }) := nodeAtDepth_run rfl _
      change (insertChild key (.committed hash lba) f (path.length + 1)
        (node.children (chunk key path.length))).run s₂ = _ at hrun
      simp only [insertChild, bind_run, hdoc, hat, hpush, chunkAt_run hdepth, hrun, onHamt, update_run,
        pure_run, pushRemoved_eq]
      rw [← lose_lose]
      rfl
    · rcases (hins.claims p).mp hp with ⟨hx, -⟩ | hp
      · exact .inl hx
      · exact .inr ⟨fun h => hnew p hp (.inl h), fun i hi => hnew p hp (.inr ⟨i, hi⟩)⟩
    · rw [List.mem_append, hl, List.mem_singleton, List.mem_cons]
      tauto
  | dirty idx ch ih =>
    intro s path c fuel hon h hsep hpath hfuel hmax hlone hnew
    obtain ⟨f, rfl⟩ : ∃ f, fuel = f + 1 := ⟨fuel - 1, by simp [descentFuel] at hfuel; omega⟩
    have hrep := h
    obtain ⟨rfl, node, hnode, hdepth, hlt, hroute, hch⟩ := h
    obtain ⟨m', arena', l, n, c', t', x, y, gone, extra, hrun, ha, hr, hedit, hins, hhash, hl⟩ :=
      ih (chunk key path.length) (s := s) (f := f)
        hon (hch _) (hsep.1 _) (hpath.snoc rfl) (by simp; omega) (by simp; omega) hlone
        fun p hp hc => hnew p hp ⟨_, hc⟩
    rw [List.length_append, List.length_singleton] at hrun
    refine ⟨m', _, l, n, _, _, x, y, gone, extra, ?_, ha, hr,
      Edited.dirty hrep hsep hedit fun p hp => ?_, hins, hhash, hl⟩
    · simp [insertChild, chunkAt_run hlt, nodeAt_run hnode, hrun, onHamt]
      rfl
    · rcases (hins.claims p).mp hp with ⟨hx, -⟩ | hp
      · exact .inl hx
      · exact .inr fun i hi => hnew p hp ⟨i, hi⟩

end Hamt
end Manifestus
