import Manifestus.Index.Lost
import Manifestus.Index.Refused

/-! Reported pointers pruned one after another: each is cut and nothing else is, and a lookup that
passes none of them answers as before. -/
set_option linter.unusedSectionVars false

namespace Manifestus
open Prog Store

variable {H : Type} [Crates H] {d : Dev H} {intact : Nat → Block H} {s s' s₁ : Store H} {t t' t₁ : Tree H}

namespace Tree

variable {k k' : Key} {h : H} {l p : Nat} {x y : Tree H}

/-- A pointer leads to one subtree, by whatever way. -/
theorem seek_unique {t : Tree H} : ∀ {depth : Nat}, t.Sep → t.seek k h l depth = some x →
    t.seek k' h l depth = some y → x = y := by
  induction t with
  | empty => intro depth _ hx; cases hx
  | leaf hash lba key value furrows =>
    intro depth _ hx hy
    rw [seek] at hx hy
    exact Option.some.inj (hx.symm.trans hy)
  | disk hash lba ch ih =>
    intro depth hsep hx hy
    rw [seek] at hx hy
    split at hx
    next heq =>
      rw [if_pos heq] at hy
      exact Option.some.inj (hx.symm.trans hy)
    next hne =>
      rw [if_neg hne] at hy
      by_cases hk : chunk k depth = chunk k' depth
      · rw [← hk] at hy
        exact ih _ (hsep.1 _) hx hy
      · exact absurd (claims_of_seek hy (claims_root hy)) ((hsep.2.1 _ _ hk).1 l (claims_of_seek hx (claims_root hx)))
  | dirty idx ch ih =>
    intro depth hsep hx hy
    rw [seek] at hx hy
    by_cases hk : chunk k depth = chunk k' depth
    · rw [← hk] at hy
      exact ih _ (hsep.1 _) hx hy
    · exact absurd (claims_of_seek hy (claims_root hy)) ((hsep.2.1 _ _ hk).1 l (claims_of_seek hx (claims_root hx)))

/-- A descent that reads a block below a pointer passes the pointer. -/
theorem Way.passes {t : Tree H} : ∀ {depth : Nat}, t.Sep → t.Way k depth p → t.seek k' h l depth = some x → x.Claims p →
    t.seek k h l depth ≠ none := by
  induction t with
  | empty => intro depth _ hp; exact hp.elim
  | leaf hash lba key value furrows =>
    intro depth _ _ hx _
    rw [seek] at hx ⊢
    rw [hx]
    exact Option.some_ne_none x
  | disk hash lba ch ih =>
    intro depth hsep hp hx hxp
    rw [seek] at hx ⊢
    split at hx
    next heq =>
      rw [if_pos heq]
      exact Option.some_ne_none _
    next hne =>
      rw [if_neg hne]
      rcases hp with rfl | hp
      · exact absurd (claims_of_seek hx hxp) (hsep.2.2 _)
      · by_cases hk : chunk k' depth = chunk k depth
        · rw [hk] at hx
          exact ih _ (hsep.1 _) hp hx hxp
        · exact absurd hp.blocks.claims ((hsep.2.1 _ _ hk).1 p (claims_of_seek hx hxp))
  | dirty idx ch ih =>
    intro depth hsep hp hx hxp
    rw [seek] at hx ⊢
    rw [Way] at hp
    by_cases hk : chunk k' depth = chunk k depth
    · rw [hk] at hx
      exact ih _ (hsep.1 _) hp hx hxp
    · exact absurd hp.blocks.claims ((hsep.2.1 _ _ hk).1 p (claims_of_seek hx hxp))

end Tree

/-- The subtree that the pointer `r` leads to. -/
def Tree.under (t : Tree H) (r : StalePointer H) : Option (Tree H) := t.seek r.route r.hash r.lba 0

/-- `s'` is `s` with the pointers `rs` cut from its index `t`, which is `t'` then. -/
structure Pruned (intact : Nat → Block H) (d : Dev H) (rs : List (StalePointer H)) (s s' : Store H) (t t' : Tree H) : Prop where
  on : s'.On d
  agrees : s.mirror.Agrees s'.mirror
  tract : s'.tract = s.tract
  rep : Rep intact s.tract.len s'.hamt.arena [] s'.hamt.root t'
  sep : t'.Sep
  claims : ∀ p, t'.Claims p → t.Claims p ∧ ∀ r ∈ rs, ∀ x, t.under r = some x → ¬ x.Claims p
  blocks : ∀ p, t'.Blocks p → t.Blocks p
  kept : ∀ k h l y, t.seek k h l 0 = some y → (∀ r ∈ rs, ∀ x, t.under r = some x → ∀ p, x.Claims p → ¬ y.Claims p) →
    t'.seek k h l 0 = some y
  stop : ∀ k, (∀ r ∈ rs, t.seek k r.hash r.lba 0 = none) → t'.stop k 0 = t.stop k 0
  ended : ∀ k, (t.stop k 0 = none ∨ ∃ r ∈ rs, t.seek k r.hash r.lba 0 ≠ none) → t'.stop k 0 = none
  grows : s.hamt.arena.length ≤ s'.hamt.arena.length
  frame : ∀ u < s.hamt.arena.length, ¬ t.Uses u → s'.hamt.arena[u]? = s.hamt.arena[u]?
  uses : ∀ u, t'.Uses u → t.Uses u ∨ s.hamt.arena.length ≤ u

namespace Pruned

variable {rs : List (StalePointer H)} {r : StalePointer H} {x : Tree H}

theorem view (h : Pruned intact d rs s s' t t') : s'.view d = s.view d := by
  funext p
  rw [Store.view, Store.view, h.tract, h.agrees.view]

theorem refl (hon : s.On d) (hrep : Rep intact s.tract.len s.hamt.arena [] s.hamt.root t) (hsep : t.Sep) :
    Pruned intact d [] s s t t where
  on := hon
  agrees := .refl _
  tract := rfl
  rep := hrep
  sep := hsep
  claims p hp := ⟨hp, fun r hr => by cases hr⟩
  blocks p hp := hp
  kept k h l y hy _ := hy
  stop k _ := rfl
  ended k hk := by
    rcases hk with hk | ⟨r, hr, -⟩
    · exact hk
    · cases hr
  grows := le_rfl
  frame u _ _ := rfl
  uses u hu := .inl hu

/-- One pointer cut, then the others. -/
theorem cons (hsep : t.Sep) (hx : t.under r = some x) (h : Pruned intact d [r] s s₁ t t₁)
    (hcut : t.Cut r.route r.hash r.lba 0 t₁)
    (hapart : ∀ r' ∈ rs, ∃ x', t.under r' = some x' ∧ ∀ p, x.Claims p → ¬ x'.Claims p)
    (h' : Pruned intact d rs s₁ s' t₁ t') : Pruned intact d (r :: rs) s s' t t' := by
  -- a pointer still to cut is where it was
  have hstays : ∀ r' ∈ rs, ∀ k y, t.seek k r'.hash r'.lba 0 = some y → t₁.seek k r'.hash r'.lba 0 = some y := by
    intro r' hr' k y hy
    obtain ⟨x', hx', hno⟩ := hapart r' hr'
    have hsame : x' = y := Tree.seek_unique hsep hx' hy
    rw [hsame] at hno
    exact hcut.seek hx hy hno
  constructor
  case on => exact h'.on
  case agrees => exact h.agrees.trans h'.agrees
  case tract => exact h'.tract.trans h.tract
  case rep =>
    rw [← h.tract]
    exact h'.rep
  case sep => exact h'.sep
  case claims =>
    intro p hp
    obtain ⟨hp₁, hrest⟩ := h'.claims p hp
    obtain ⟨hpt, hfirst⟩ := h.claims p hp₁
    refine ⟨hpt, ?_⟩
    intro r' hr' x' hx'
    rcases List.mem_cons.mp hr' with rfl | hr'
    · exact hfirst _ List.mem_cons_self x' hx'
    · exact hrest r' hr' x' (hstays r' hr' _ x' hx')
  case blocks => exact fun p hp => h.blocks p (h'.blocks p hp)
  case kept =>
    intro k hash l y hy hno
    have hy₁ := hcut.seek hx hy (hno r List.mem_cons_self x hx)
    apply h'.kept k hash l y hy₁
    intro r' hr' x₁ hx₁
    obtain ⟨x', hx', -⟩ := hapart r' hr'
    have hsame : x' = x₁ := Option.some.inj ((hstays r' hr' _ x' hx').symm.trans hx₁)
    rw [← hsame]
    exact hno r' (List.mem_cons_of_mem _ hr') x' hx'
  case stop =>
    intro k hk
    simp only [List.mem_cons, forall_eq_or_imp] at hk
    rw [h'.stop k fun r' hr' => hcut.seek_none (hk.2 r' hr')]
    exact hcut.stop hk.1
  case ended =>
    intro k hk
    apply h'.ended k
    rcases hk with hk | ⟨r', hr', hpass⟩
    · exact .inl (hcut.stop_of_none hk)
    · obtain ⟨y, hy⟩ := Option.ne_none_iff_exists'.mp hpass
      rcases List.mem_cons.mp hr' with rfl | hr'
      · exact .inl (hcut.stop_none hsep hx hy)
      · refine .inr ⟨r', hr', ?_⟩
        rw [hstays r' hr' k y hy]
        exact Option.some_ne_none y
  case grows => exact h.grows.trans h'.grows
  case frame =>
    intro u hu hno
    rw [← h.frame u hu hno]
    apply h'.frame u (hu.trans_le h.grows)
    intro hu₁
    rcases h.uses u hu₁ with hu₁ | hge
    · exact hno hu₁
    · omega
  case uses =>
    intro u hu
    rcases h'.uses u hu with hu₁ | hge
    · exact h.uses u hu₁
    · exact .inr (h.grows.trans hge)

/-- The arena of a committed index is only added to. -/
theorem arena (h : Pruned intact d rs s s' t t') (hclean : ∀ u, ¬ t.Uses u) : s.hamt.arena <+: s'.hamt.arena := by
  rw [List.prefix_iff_eq_take]
  apply List.ext_getElem?
  intro u
  rw [List.getElem?_take]
  split
  next hu => exact (h.frame u hu (hclean u)).symm
  next hu => rw [List.getElem?_eq_none (Nat.le_of_not_lt hu)]

end Pruned

namespace Hamt

/-- A pointer is cut by its route, when the nodes that lead to it are sound. -/
theorem prune_run {r : StalePointer H} {x : Tree H} (hon : s.On d)
    (hrep : Rep intact s.tract.len s.hamt.arena [] s.hamt.root t) (hsep : t.Sep) (hx : t.under r = some x)
    (hway : ∀ p, t.Way r.route 0 p → ¬ x.Claims p → s.view d p = intact p) :
    ∃ s' t', (prune r.route (r.hash, r.lba)).run s = (.ok (), s') ∧ Pruned intact d [r] s s' t t' ∧
      t.Cut r.route r.hash r.lba 0 t' := by
  obtain ⟨m', arena', lost, n, c', t', gone, hrun, hagrees, hready, hedit, hcut, -⟩ :=
    pruneChild_run (f := descentFuel) (c := s.hamt.root) hon hrep hway hsep (onPath_nil r.route) rfl (Nat.zero_le _) hx
  have hgraft : Graft r.route 0 n t t' x .empty gone := hedit.graft
  refine ⟨{ s with
    mirror := m'
    hamt := (({ s.hamt with arena := arena' } : Hamt H).lose lost).setRoot c' }, t', ?_, ?_, hcut⟩
  · change (pruneChild r.route (r.hash, r.lba) descentFuel 0 s.hamt.root).run s = _ at hrun
    simp only [prune, bind_run, state_run, hrun, onHamt_run]
  constructor
  case on => exact ⟨hready, hon.fits⟩
  case agrees => exact hagrees
  case tract => rfl
  case rep => exact hedit.rep
  case sep => exact hedit.sep
  case claims =>
    intro p hp
    rcases (hgraft.claims p).mp hp with ⟨hpt, hno, -⟩ | hp
    · refine ⟨hpt, ?_⟩
      intro r' hr' x' hx'
      rw [List.mem_singleton.mp hr', hx] at hx'
      cases hx'
      exact hno
    · exact hp.elim
  case blocks => exact fun p hp => hcut.blocks hp
  case kept => exact fun k h l y hy hno => hcut.seek hx hy (hno r (List.mem_singleton_self r) x hx)
  case stop => exact fun k hk => hcut.stop (hk r (List.mem_singleton_self r))
  case ended =>
    intro k hk
    rcases hk with hk | ⟨r', hr', hpass⟩
    · exact hcut.stop_of_none hk
    · rw [List.mem_singleton.mp hr'] at hpass
      obtain ⟨y, hy⟩ := Option.ne_none_iff_exists'.mp hpass
      exact hcut.stop_none hsep hx hy
  case grows => exact hedit.grows
  case frame => exact hedit.frame
  case uses => exact hedit.uses

/-- The reported pointers are cut in turn: the route of each still leads to it. -/
theorem each_prune_run {rs : List (StalePointer H)} : ∀ {s : Store H} {t : Tree H}, s.On d →
    Rep intact s.tract.len s.hamt.arena [] s.hamt.root t → t.Sep →
    (∀ r ∈ rs, ∃ x, t.under r = some x ∧ ∀ p, t.Way r.route 0 p → ¬ x.Claims p → s.view d p = intact p) →
    (rs.Pairwise fun r r' => ∀ x x', t.under r = some x → t.under r' = some x' → ∀ p, x.Claims p → ¬ x'.Claims p) →
    ∃ s' t', (each (fun r : StalePointer H => prune r.route (r.hash, r.lba)) rs).run s = (.ok (), s') ∧
      Pruned intact d rs s s' t t' := by
  induction rs with
  | nil => exact fun {s t} hon hrep hsep _ _ => ⟨s, t, rfl, .refl hon hrep hsep⟩
  | cons r rs ih =>
    intro s t hon hrep hsep hsought hapart
    simp only [List.mem_cons, forall_eq_or_imp] at hsought
    rw [List.pairwise_cons] at hapart
    obtain ⟨⟨x, hx, hway⟩, hrest⟩ := hsought
    obtain ⟨s₁, t₁, hrun₁, h₁, hcut⟩ := prune_run hon hrep hsep hx hway
    have hstays : ∀ r' ∈ rs, ∀ x', t.under r' = some x' → t₁.under r' = some x' := by
      intro r' hr' x' hx'
      exact hcut.seek hx hx' (hapart.1 r' hr' x x' hx hx')
    have hrep₁ : Rep intact s₁.tract.len s₁.hamt.arena [] s₁.hamt.root t₁ := by
      rw [h₁.tract]
      exact h₁.rep
    obtain ⟨s', t', hrun', h'⟩ := ih h₁.on hrep₁ h₁.sep
      (by
        intro r' hr'
        obtain ⟨x', hx', hway'⟩ := hrest r' hr'
        refine ⟨x', hstays r' hr' x' hx', ?_⟩
        intro p hp hno
        rw [h₁.view]
        exact hway' p (hcut.way hp) hno)
      (by
        refine hapart.2.imp_of_mem ?_
        intro r' r'' hr' hr'' hno x' x'' hx' hx''
        obtain ⟨y', hy', -⟩ := hrest r' hr'
        obtain ⟨y'', hy'', -⟩ := hrest r'' hr''
        have hsame' : y' = x' := Option.some.inj ((hstays r' hr' y' hy').symm.trans hx')
        have hsame'' : y'' = x'' := Option.some.inj ((hstays r'' hr'' y'' hy'').symm.trans hx'')
        rw [hsame'] at hy'
        rw [hsame''] at hy''
        exact hno x' x'' hy' hy'')
    refine ⟨s', t', ?_, .cons hsep hx h₁ hcut ?_ h'⟩
    · simp only [each, bind_run, hrun₁, hrun']
    · intro r' hr'
      obtain ⟨x', hx', -⟩ := hrest r' hr'
      exact ⟨x', hx', hapart.1 r' hr' x x' hx hx'⟩

/-- What a lookup that ends at the pointer answers. -/
def answerAt (k : Key) (s : Store H) : Option (H × Nat) → Except Error (Option Bytes)
  | none => .ok none
  | some p => ((lookupFrom k 1 0 (.committed p.1 p.2)).run s).1

/-- A lookup answers what the leaf it ends at does, when the nodes that lead there are sound. -/
theorem lookupFrom_answer (hon : s.On d) {k : Key} {t : Tree H} : ∀ {s' : Store H} {path : List (Fin 32)} {c : Child H}
    {f : Nat}, s.Reads d s' → Rep intact s.tract.len s.hamt.arena path (some c) t → OnPath path k →
    f + path.length = descentFuel → path.length ≤ maxDepth → (∀ p, t.Way k path.length p → s.view d p = intact p) →
    ∃ u, s.Reads d u ∧ ((lookupFrom k f path.length c).run s').1 = answerAt k u (t.stop k path.length) := by
  induction t with
  | empty => intro s' path c fuel _ hrep; cases hrep
  | leaf hash lba key value furrows =>
    intro s' path c fuel hr hrep hpath hfuel hmax hway
    obtain ⟨f, rfl⟩ : ∃ f, fuel = f + 1 := ⟨fuel - 1, by simp [descentFuel] at hfuel; omega⟩
    obtain ⟨hc, -, hleaf⟩ := hrep
    cases hc
    obtain ⟨s₁, hread, -⟩ := readDoc_run (hr.on hon) (by rw [hr.tract]; exact hleaf.lt) hash
    rw [hr.view, hr.tract, hway lba rfl] at hread
    refine ⟨s', hr, ?_⟩
    rcases hleaf.docOf with ⟨hdoc, -⟩ | ⟨runs, hdoc, -, -⟩ | ⟨hdoc, -, -⟩
    · rw [hdoc] at hread
      simp only [answerAt, Tree.stop, lookupFrom, bind_run, hread]
    · rw [hdoc] at hread
      simp only [answerAt, Tree.stop, lookupFrom, bind_run, hread]
    · rw [hdoc] at hread
      simp only [answerAt, Tree.stop, lookupFrom, bind_run, hread]
  | disk hash lba ch ih =>
    intro s' path c fuel hr hrep hpath hfuel hmax hway
    obtain ⟨f, rfl⟩ : ∃ f, fuel = f + 1 := ⟨fuel - 1, by simp [descentFuel] at hfuel; omega⟩
    obtain ⟨hc, slots, hnode, hch⟩ := hrep
    cases hc
    obtain ⟨s₁, hread, hr₁⟩ := readDoc_run (hr.on hon) (by rw [hr.tract]; exact hnode.lt) hash
    obtain ⟨route, hroute, hdoc⟩ := hnode.docOf
    rw [hr.view, hr.tract, hway lba (.inl rfl), hdoc] at hread
    have hdepth := hnode.depth
    have hsub := hch (chunk k path.length)
    rw [Tree.stop]
    rcases hs : slots (chunk k path.length) with _ | p
    · rw [hs] at hsub
      have hempty : ch (chunk k path.length) = .empty := Rep.unique (t := .empty) rfl hsub
      refine ⟨s₁, hr.trans hr₁, ?_⟩
      simp [lookupFrom, hread, nodeAtDepth, Node.ofSlots, chunkAt_run hdepth, hs, hempty, Tree.stop, answerAt]
    · rw [hs] at hsub
      obtain ⟨u, hu, hanswer⟩ := ih (chunk k path.length) (f := f) (hr.trans hr₁) hsub (hpath.snoc rfl)
        (by rw [List.length_append, List.length_singleton]; omega)
        (by rw [List.length_append, List.length_singleton]; omega)
        (by rw [List.length_append, List.length_singleton]; exact fun p hp => hway p (.inr hp))
      rw [List.length_append, List.length_singleton] at hanswer
      refine ⟨u, hu, ?_⟩
      rw [← hanswer]
      simp [lookupFrom, hread, nodeAtDepth, Node.ofSlots, chunkAt_run hdepth, hs]
  | dirty idx ch ih =>
    intro s' path c fuel hr hrep hpath hfuel hmax hway
    obtain ⟨f, rfl⟩ : ∃ f, fuel = f + 1 := ⟨fuel - 1, by simp [descentFuel] at hfuel; omega⟩
    obtain ⟨hc, node, hnode, -, hlt, -, hch⟩ := hrep
    cases hc
    have hat : (nodeAt idx).run s' = (.ok node, s') := nodeAt_run (by rw [hr.hamt]; exact hnode)
    have hsub := hch (chunk k path.length)
    rw [Tree.stop]
    rcases hs : node.children (chunk k path.length) with _ | child
    · rw [hs] at hsub
      have hempty : ch (chunk k path.length) = .empty := Rep.unique (t := .empty) rfl hsub
      refine ⟨s', hr, ?_⟩
      simp [lookupFrom, hat, chunkAt_run hlt, hs, hempty, Tree.stop, answerAt]
    · rw [hs] at hsub
      obtain ⟨u, hu, hanswer⟩ := ih (chunk k path.length) (f := f) hr hsub (hpath.snoc rfl)
        (by rw [List.length_append, List.length_singleton]; omega)
        (by rw [List.length_append, List.length_singleton]; omega)
        (by rw [List.length_append, List.length_singleton]; exact fun p hp => hway p hp)
      rw [List.length_append, List.length_singleton] at hanswer
      refine ⟨u, hu, ?_⟩
      rw [← hanswer]
      simp [lookupFrom, hat, chunkAt_run hlt, hs]

theorem lookup_answer (hon : s.On d) (hrep : Rep intact s.tract.len s.hamt.arena [] s.hamt.root t) {k : Key}
    (hway : ∀ p, t.Way k 0 p → s.view d p = intact p) :
    ∃ u, s.Reads d u ∧ ((lookup k).run s).1 = answerAt k u (t.stop k 0) := by
  rcases hroot : s.hamt.root with _ | c
  · rw [hroot] at hrep
    have hempty : t = .empty := Rep.unique (t := .empty) rfl hrep
    exact ⟨s, hon.refl, by simp [lookup, hroot, hempty, Tree.stop, answerAt]⟩
  · rw [hroot] at hrep
    obtain ⟨u, hu, hanswer⟩ := lookupFrom_answer (f := descentFuel) hon hon.refl hrep (onPath_nil k) rfl (Nat.zero_le _) hway
    refine ⟨u, hu, ?_⟩
    simp only [lookup, bind_run, state_run, hroot]
    exact hanswer

/-- Ending at the same leaf, a lookup answers the same from either store. -/
theorem answerAt_echoes (hon : s.On d) (hon' : s'.On d) (htract : s'.tract = s.tract) (harena : s.hamt.arena <+: s'.hamt.arena)
    (hview : s'.view d = s.view d) (k : Key) (stop : Option (H × Nat)) {u u' : Store H} (hu : s.Reads d u)
    (hu' : s'.Reads d u') : answerAt k u stop = answerAt k u' stop := by
  rcases stop with _ | ⟨hash, lba⟩
  · rfl
  · have hshelter : Sheltered (fun _ => True) (s.view d) s.tract.len s.hamt.arena 1 (.committed hash lba) := by
      intro _
      exact ⟨trivial, fun _ _ _ _ _ => trivial, fun _ _ _ _ _ _ _ => trivial, fun _ _ _ _ _ _ _ _ _ => trivial⟩
    obtain ⟨r, u₁, u₁', hrun, hrun', -⟩ := echoes_lookupFrom hon hon' (by rw [htract]) harena
      (fun p _ => congrFun hview p) k 1 0 _ hshelter u u' hu hu'
    simp only [answerAt, hrun, hrun']

end Hamt
end Manifestus
