import Manifestus.Index.Frame

/-! Copy-on-write edits of the index: one subtree on the way of a key gives way to another, and
the nodes of the tract above it move to the arena. -/
set_option linter.unusedSectionVars false

namespace Manifestus

variable {H : Type} [Crates H] {view : Nat → Block H} {len : Nat} {arena arena' arena₁ : List (Node H)}

/-- `t'` is `t` with the subtree `x`, found at depth `n` on the way of `key`, replaced by `x'`;
the blocks `gone` of the nodes above it are given up. -/
structure Graft (key : Key) (depth n : Nat) (t t' x x' : Tree H) (gone : List (Nat × H)) : Prop where
  claims : ∀ p, t'.Claims p ↔ (t.Claims p ∧ ¬ x.Claims p ∧ ∀ e ∈ gone, e.1 ≠ p) ∨ x'.Claims p
  within : ∀ p, x.Claims p → t.Claims p
  gone : ∀ e ∈ gone, t.Claims e.1 ∧ ¬ x.Claims e.1
  way : t.locate key depth = x.locate key n ∧ t'.locate key depth = x'.locate key n
  others : ∀ k, t'.locate k depth = t.locate k depth ∨
    t.locate k depth = x.locate k n ∧ t'.locate k depth = x'.locate k n

/-- The edit with its effect on the arena: only slots of `t` and new ones change. -/
structure Edited (view : Nat → Block H) (len : Nat) (arena arena' : List (Node H)) (key : Key)
    (path : List (Fin 32)) (n : Nat) (t t' x x' : Tree H) (c' : Option (Child H))
    (gone : List (Nat × H)) : Prop where
  rep : Rep view len arena' path c' t'
  sep : t'.Sep
  graft : Graft key path.length n t t' x x' gone
  hashes : ∀ e ∈ gone, sealedHp (view e.1) = some e.2
  grows : arena.length ≤ arena'.length
  frame : ∀ u < arena.length, ¬ t.Uses u → arena'[u]? = arena[u]?
  uses : ∀ u, t'.Uses u → t.Uses u ∨ arena.length ≤ u

/-- The edit at its own place. -/
theorem Edited.here {key : Key} {path : List (Fin 32)} {x x' : Tree H} {c' : Option (Child H)}
    (hrep : Rep view len arena' path c' x') (hsep : x'.Sep) (hgrows : arena.length ≤ arena'.length)
    (hframe : ∀ u < arena.length, ¬ x.Uses u → arena'[u]? = arena[u]?)
    (huses : ∀ u, x'.Uses u → x.Uses u ∨ arena.length ≤ u) :
    Edited view len arena arena' key path path.length x x' x x' c' [] where
  rep := hrep
  sep := hsep
  graft :=
    { claims := by intro p; simp
      within := fun p hp => hp
      gone := by simp
      way := ⟨rfl, rfl⟩
      others := fun k => .inr ⟨rfl, rfl⟩ }
  hashes := by simp
  grows := hgrows
  frame := hframe
  uses := huses

/-- A graft in the child on the way is a graft in the tree. -/
theorem Graft.up {key : Key} {depth n : Nat} {t t' x x' s' : Tree H} {ch : Fin 32 → Tree H}
    {gone : List (Nat × H)}
    (h : Graft key (depth + 1) n (ch (chunk key depth)) s' x x' gone)
    (hapart : Tree.Apart ch)
    (hcl : ∀ p, t.Claims p ↔ ∃ i, (ch i).Claims p)
    (hcl' : ∀ p, t'.Claims p ↔ ∃ i, (Function.update ch (chunk key depth) s' i).Claims p)
    (hloc : ∀ k, t.locate k depth = (ch (chunk k depth)).locate k (depth + 1))
    (hloc' : ∀ k, t'.locate k depth =
      (Function.update ch (chunk key depth) s' (chunk k depth)).locate k (depth + 1)) :
    Graft key depth n t t' x x' gone where
  claims := by
    intro p
    rw [hcl', hcl, Tree.exists_update (P := fun s => s.Claims p), h.claims]
    constructor
    · rintro ((⟨hc, hx, hg⟩ | hx') | ⟨i, hi, hp⟩)
      · exact .inl ⟨⟨_, hc⟩, hx, hg⟩
      · exact .inr hx'
      · refine .inl ⟨⟨i, hp⟩, fun hx => ?_, fun e he hep => ?_⟩
        · exact (hapart _ _ hi).1 p hp (h.within p hx)
        · exact (hapart _ _ hi).1 p hp (hep ▸ (h.gone e he).1)
    · rintro (⟨⟨i, hp⟩, hx, hg⟩ | hx')
      · by_cases hi : i = chunk key depth
        · subst hi
          exact .inl (.inl ⟨hp, hx, hg⟩)
        · exact .inr ⟨i, hi, hp⟩
      · exact .inl (.inr hx')
  within p hp := (hcl p).mpr ⟨_, h.within p hp⟩
  gone e he := ⟨(hcl e.1).mpr ⟨_, (h.gone e he).1⟩, (h.gone e he).2⟩
  way := by
    rw [hloc, hloc', Function.update_self]
    exact h.way
  others := by
    intro k
    rw [hloc, hloc']
    by_cases hk : chunk k depth = chunk key depth
    · rw [hk, Function.update_self]
      exact h.others k
    · rw [Function.update_of_ne hk]
      exact .inl rfl

/-- The children after an edit of the one on the way. -/
private theorem children_sep {key : Key} {path : List (Fin 32)} {n : Nat} {t₁ x x' : Tree H}
    {ch : Fin 32 → Tree H} {sub : Option (Child H)} {gone : List (Nat × H)}
    (hsub : Edited view len arena arena₁ key (path ++ [chunk key path.length]) n
      (ch (chunk key path.length)) t₁ x x' sub gone)
    (hsep : ∀ i, (ch i).Sep) (hapart : Tree.Apart ch) (huses : ∀ i u, (ch i).Uses u → u < arena.length)
    (hnew : ∀ p, x'.Claims p → x.Claims p ∨ ∀ i, ¬ (ch i).Claims p) :
    (∀ i, (Function.update ch (chunk key path.length) t₁ i).Sep) ∧
      Tree.Apart (Function.update ch (chunk key path.length) t₁) := by
  refine ⟨Tree.sep_update hsep hsub.sep, hapart.update ?_ ?_⟩
  · intro p hp
    rcases (hsub.graft.claims p).mp hp with ⟨hc, -, -⟩ | hx'
    · exact .inl hc
    · rcases hnew p hx' with hx | hno
      · exact .inl (hsub.graft.within p hx)
      · exact .inr fun i _ => hno i
  · intro u hu
    rcases hsub.uses u hu with hc | hge
    · exact .inl hc
    · exact .inr fun i _ hi => absurd (huses i u hi) (by omega)

/-- An edit below a node of the arena. -/
theorem Edited.dirty {key : Key} {path : List (Fin 32)} {n idx : Nat} {t₁ x x' : Tree H}
    {ch : Fin 32 → Tree H} {sub : Option (Child H)} {gone : List (Nat × H)}
    (hrep : Rep view len arena path (some (.dirty idx)) (.dirty idx ch))
    (hsep : (Tree.dirty idx ch).Sep)
    (hsub : Edited view len arena arena₁ key (path ++ [chunk key path.length]) n
      (ch (chunk key path.length)) t₁ x x' sub gone)
    (hnew : ∀ p, x'.Claims p → x.Claims p ∨ ∀ i, ¬ (ch i).Claims p) :
    Edited view len arena
      (arena₁.modify idx fun nd => { nd with
        children := Function.update nd.children (chunk key path.length) sub })
      key path n (.dirty idx ch) (.dirty idx (Function.update ch (chunk key path.length) t₁)) x x'
      (some (.dirty idx)) gone := by
  obtain ⟨-, node, hnode, hdepth, hmax, hroute, hch⟩ := hrep
  obtain ⟨hseps, hapart, hself⟩ := hsep
  have huses : ∀ i u, (ch i).Uses u → u < arena.length := fun i u hu => (hch i).uses_lt u hu
  have hidx : idx < arena.length := (List.getElem?_eq_some_iff.mp hnode).1
  obtain ⟨hseps', hapart'⟩ := children_sep hsub hseps hapart huses hnew
  have hself' : ∀ i, ¬ (Function.update ch (chunk key path.length) t₁ i).Uses idx := by
    intro i hi
    by_cases hic : i = chunk key path.length
    · subst hic
      rw [Function.update_self] at hi
      rcases hsub.uses idx hi with hc | hge
      · exact hself _ hc
      · omega
    · rw [Function.update_of_ne hic] at hi
      exact hself i hi
  have hnode₁ : arena₁[idx]? = some node := (hsub.frame idx hidx (hself _)).trans hnode
  have hothers : ∀ {u}, u ≠ idx → (arena₁.modify idx fun nd => { nd with
      children := Function.update nd.children (chunk key path.length) sub })[u]? = arena₁[u]? := by
    intro u hu
    simp [Ne.symm hu]
  have hgraft := hsub.graft
  rw [List.length_append, List.length_singleton] at hgraft
  refine
    { rep := ⟨rfl, { node with children := Function.update node.children (chunk key path.length) sub },
        by simp [hnode₁], hdepth, hmax, hroute, fun i => ?_⟩
      sep := ⟨hseps', hapart', hself'⟩
      graft := hgraft.up hapart (fun p => Iff.rfl) (fun p => Iff.rfl) (fun k => rfl) fun k => rfl
      hashes := hsub.hashes
      grows := by simpa using hsub.grows
      frame := ?_
      uses := ?_ }
  · by_cases hi : i = chunk key path.length
    · subst hi
      simp only [Function.update_self]
      refine hsub.rep.congr le_rfl (fun _ _ => rfl) fun u hu => hothers ?_
      rintro rfl
      exact hself' _ (by rw [Function.update_self]; exact hu)
    · simp only [Function.update_of_ne hi]
      refine (hch i).congr le_rfl (fun _ _ => rfl) fun u hu => ?_
      rw [hothers (by rintro rfl; exact hself i hu)]
      exact hsub.frame u (huses i u hu) ((hapart _ _ hi).2 u hu)
  · intro u hu hnot
    rw [hothers fun hui => hnot (.inl hui)]
    exact hsub.frame u hu fun hc => hnot (.inr ⟨_, hc⟩)
  · intro u hu
    rcases hu with rfl | ⟨i, hi⟩
    · exact .inl (.inl rfl)
    · by_cases hic : i = chunk key path.length
      · subst hic
        rw [Function.update_self] at hi
        rcases hsub.uses u hi with hc | hge
        · exact .inl (.inr ⟨_, hc⟩)
        · exact .inr hge
      · rw [Function.update_of_ne hic] at hi
        exact .inl (.inr ⟨i, hi⟩)

/-- A node pushed onto the arena. -/
theorem Rep.push {path : List (Fin 32)} {ch : Fin 32 → Tree H} {route : Key}
    {children : Fin 32 → Option (Child H)} (hmax : path.length < maxDepth) (hroute : OnPath path route)
    (hch : ∀ i, Rep view len arena (path ++ [i]) (children i) (ch i)) :
    Rep view len (arena ++ [⟨path.length, route, children⟩]) path (some (.dirty arena.length))
        (.dirty arena.length ch) := by
  refine ⟨rfl, ⟨path.length, route, children⟩, by simp, rfl, hmax, hroute, fun i => ?_⟩
  refine (hch i).congr le_rfl (fun _ _ => rfl) fun u hu => ?_
  exact List.getElem?_append_left ((hch i).uses_lt u hu)

/-- A node of the tract read into the arena. -/
theorem Rep.thaw {path : List (Fin 32)} {hash : H} {lba : Nat} {ch : Fin 32 → Tree H} {route : Key}
    {slots : Fin 32 → Option (H × Nat)} (hmax : path.length < maxDepth) (hroute : OnPath path route)
    (hch : ∀ i, Rep view len arena (path ++ [i]) ((slots i).map fun p => .committed p.1 p.2) (ch i))
    (hsep : (Tree.disk hash lba ch).Sep) :
    Rep view len (arena ++ [Node.ofSlots path.length route slots]) path (some (.dirty arena.length))
        (.dirty arena.length ch) ∧ (Tree.dirty arena.length ch).Sep := by
  exact ⟨Rep.push hmax hroute hch, hsep.1, hsep.2.1, fun i hi => absurd ((hch i).uses_lt _ hi) (by omega)⟩

/-- An edit below a node of the tract, which moves to the arena. -/
theorem Edited.disk {key route : Key} {path : List (Fin 32)} {n lba : Nat} {hash : H} {t₁ x x' : Tree H}
    {ch : Fin 32 → Tree H} {slots : Fin 32 → Option (H × Nat)} {sub : Option (Child H)}
    {gone : List (Nat × H)} (hmax : path.length < maxDepth) (hroute : OnPath path route)
    (hch : ∀ i, Rep view len arena (path ++ [i]) ((slots i).map fun p => .committed p.1 p.2) (ch i))
    (hsep : (Tree.disk hash lba ch).Sep) (hhash : sealedHp (view lba) = some hash)
    (hsub : Edited view len (arena ++ [Node.ofSlots path.length route slots]) arena₁ key
      (path ++ [chunk key path.length]) n (ch (chunk key path.length)) t₁ x x' sub gone)
    (hnew : ∀ p, x'.Claims p → x.Claims p ∨ p ≠ lba ∧ ∀ i, ¬ (ch i).Claims p) :
    Edited view len arena
      (arena₁.modify arena.length fun nd => { nd with
        children := Function.update nd.children (chunk key path.length) sub })
      key path n (.disk hash lba ch)
      (.dirty arena.length (Function.update ch (chunk key path.length) t₁)) x x'
      (some (.dirty arena.length)) ((lba, hash) :: gone) := by
  obtain ⟨hrep₀, hsep₀⟩ := Rep.thaw hmax hroute hch hsep
  have hedit := Edited.dirty hrep₀ hsep₀ hsub fun p hp => (hnew p hp).imp_right And.right
  have hx : ∀ p, x.Claims p → ∃ i, (ch i).Claims p := hedit.graft.within
  have hlba : ∀ i, ¬ (ch i).Claims lba := hsep.2.2
  have hxlba : ¬ x.Claims lba := fun h => by
    obtain ⟨i, hi⟩ := hx lba h
    exact hlba i hi
  refine
    { rep := hedit.rep
      sep := hedit.sep
      graft :=
        { claims := ?_
          within := fun p hp => .inr (hx p hp)
          gone := ?_
          way := hedit.graft.way
          others := hedit.graft.others }
      hashes := ?_
      grows := ?_
      frame := ?_
      uses := ?_ }
  · intro p
    rw [hedit.graft.claims p]
    constructor
    · rintro (⟨⟨i, hp⟩, hxp, hg⟩ | hx')
      · refine .inl ⟨.inr ⟨i, hp⟩, hxp, ?_⟩
        intro e he
        rcases List.mem_cons.mp he with rfl | he
        · rintro rfl
          exact hlba i hp
        · exact hg e he
      · exact .inr hx'
    · rintro (⟨hp, hxp, hg⟩ | hx')
      · refine .inl ⟨hp.resolve_left fun h => ?_, hxp, fun e he => hg e (List.mem_cons_of_mem _ he)⟩
        exact hg _ List.mem_cons_self h.symm
      · exact .inr hx'
  · intro e he
    rcases List.mem_cons.mp he with rfl | he
    · exact ⟨.inl rfl, hxlba⟩
    · exact ⟨.inr (hedit.graft.gone e he).1, (hedit.graft.gone e he).2⟩
  · intro e he
    rcases List.mem_cons.mp he with rfl | he
    · exact hhash
    · exact hedit.hashes e he
  · have := hedit.grows
    rw [List.length_append] at this
    omega
  · intro u hu hnot
    rw [hedit.frame u (by rw [List.length_append]; omega) ?_, List.getElem?_append_left hu]
    rintro (h | h)
    · omega
    · exact hnot h
  · intro u hu
    rcases hedit.uses u hu with (rfl | h) | h
    · exact .inr le_rfl
    · exact .inl h
    · rw [List.length_append] at h
      exact .inr (by omega)

end Manifestus
