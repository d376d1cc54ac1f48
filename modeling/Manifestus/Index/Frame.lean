import Manifestus.Index.Tree
import Manifestus.Index.Runs

/-! What an index holds: its blocks lie in the tract, are sealed, and name the way to
themselves; nothing else of the devices or the arena matters to it. -/
set_option linter.unusedSectionVars false

namespace Manifestus

variable {H : Type} [Crates H] {view view' : Nat → Block H} {len len' : Nat} {arena arena' : List (Node H)}

theorem LeafAt.lt {hash : H} {lba : Nat} {key : Key} {value : Bytes} {furrows : List Nat}
    (h : LeafAt view len hash lba key value furrows) : lba < len := by
  cases h <;> assumption

theorem LeafAt.furrow_lt {hash : H} {lba : Nat} {key : Key} {value : Bytes} {furrows : List Nat}
    (h : LeafAt view len hash lba key value furrows) {p : Nat} (hp : p ∈ furrows) : p < len := by
  cases h with
  | lone => simp at hp
  | extent hlt hview hhash hruns hread => exact (expandRuns_ok hruns).2.2.2 p hp
  | direct hlt hview hhash hfits hin hread => exact hin p hp

theorem LeafAt.congr {hash : H} {lba : Nat} {key : Key} {value : Bytes} {furrows : List Nat}
    (h : LeafAt view len hash lba key value furrows) (hlen : len ≤ len')
    (hview : ∀ p, p = lba ∨ p ∈ furrows → view' p = view p) :
    LeafAt view' len' hash lba key value furrows := by
  have hleaf := hview lba (.inl rfl)
  cases h with
  | lone hlt hv hh => exact .lone (by omega) (hleaf.trans hv) hh
  | extent hlt hv hh hruns hread =>
    refine .extent (by omega) (hleaf.trans hv) hh (expandRuns_mono hlen hruns) ?_
    rw [← hread]
    congr 1
    exact List.map_congr_left fun p hp => hview p (.inr hp)
  | direct hlt hv hh hfits hin hread =>
    refine .direct (by omega) (hleaf.trans hv) hh hfits (fun p hp => (hin p hp).trans_le hlen) ?_
    rw [← hread]
    congr 1
    exact List.map_congr_left fun p hp => hview p (.inr hp)

/-- A leaf is one sealed block. -/
theorem LeafAt.hash_eq {hash : H} {lba : Nat} {key : Key} {value : Bytes} {furrows : List Nat}
    (h : LeafAt view len hash lba key value furrows) : sealedHp (view lba) = some hash := by
  cases h with
  | lone hlt hv hh => rw [hv, sealedHp, hh]
  | extent hlt hv hh hruns hread => rw [hv, sealedHp, hh]
  | direct hlt hv hh hfits hin hread => rw [hv, sealedHp, hh]

/-- The furrows of a value, as its leaf is read. -/
theorem LeafAt.reads {hash : H} {lba : Nat} {key : Key} {value : Bytes} {furrows : List Nat}
    (h : LeafAt view len hash lba key value furrows) :
    furrows = [] ∨ payloads key 0 (furrows.map view) = .ok value := by
  cases h with
  | lone => exact .inl rfl
  | extent hlt hv hh hruns hread => exact .inr hread
  | direct hlt hv hh hfits hin hread => exact .inr hread

/-- Furrow number `i` of a value is sealed with the owner's key and its index. -/
theorem LeafAt.furrow_at {hash : H} {lba : Nat} {key : Key} {value : Bytes} {furrows : List Nat}
    (h : LeafAt view len hash lba key value furrows) {i p : Nat} (hi : furrows[i]? = some p) :
    ∃ payload extra, view p = .sealed (.furrow key i payload) extra := by
  rcases h.reads with rfl | hread
  · simp at hi
  · obtain ⟨hlt, rfl⟩ := List.getElem?_eq_some_iff.mp hi
    obtain ⟨payload, extra, hb⟩ := payloads_ok hread i (by simpa using hlt)
    exact ⟨payload, extra, by simpa using hb⟩

/-- The document of a leaf. -/
def Doc.IsLeaf (key : Key) (value : Bytes) : Doc H → Prop
  | .lone k v => k = key ∧ v = value
  | .extent k size _ => k = key ∧ size = value.length
  | .direct k size _ => k = key ∧ size = value.length
  | _ => False

theorem LeafAt.doc {hash : H} {lba : Nat} {key : Key} {value : Bytes} {furrows : List Nat}
    (h : LeafAt view len hash lba key value furrows) :
    ∃ doc extra, view lba = .sealed doc extra ∧ Crates.hash doc extra = hash ∧ doc.IsLeaf key value := by
  cases h with
  | lone hlt hv hh => exact ⟨_, _, hv, hh, rfl, rfl⟩
  | extent hlt hv hh hruns hread => exact ⟨_, _, hv, hh, rfl, rfl⟩
  | direct hlt hv hh hfits hin hread => exact ⟨_, _, hv, hh, rfl, rfl⟩

theorem LeafAt.unique {hash : H} {lba : Nat} {key key' : Key} {value value' : Bytes}
    {furrows furrows' : List Nat} (h : LeafAt view len hash lba key value furrows)
    (h' : LeafAt view len hash lba key' value' furrows') :
    key' = key ∧ value' = value ∧ furrows' = furrows := by
  cases h with
  | lone hlt hv hh =>
    cases h' with
    | lone hlt' hv' hh' =>
      rw [hv] at hv'
      cases hv'
      exact ⟨rfl, rfl, rfl⟩
    | extent hlt' hv' hh' hruns' hread' => rw [hv] at hv'; cases hv'
    | direct hlt' hv' hh' hfits' hin' hread' => rw [hv] at hv'; cases hv'
  | extent hlt hv hh hruns hread =>
    cases h' with
    | lone hlt' hv' hh' => rw [hv] at hv'; cases hv'
    | extent hlt' hv' hh' hruns' hread' =>
      rw [hv] at hv'
      simp only [Block.sealed.injEq, Doc.extent.injEq] at hv'
      obtain ⟨⟨rfl, hsize, rfl⟩, rfl⟩ := hv'
      rw [hsize, hruns'] at hruns
      cases hruns
      rw [hread'] at hread
      cases hread
      exact ⟨rfl, rfl, rfl⟩
    | direct hlt' hv' hh' hfits' hin' hread' => rw [hv] at hv'; cases hv'
  | direct hlt hv hh hfits hin hread =>
    cases h' with
    | lone hlt' hv' hh' => rw [hv] at hv'; cases hv'
    | extent hlt' hv' hh' hruns' hread' => rw [hv] at hv'; cases hv'
    | direct hlt' hv' hh' hfits' hin' hread' =>
      rw [hv] at hv'
      simp only [Block.sealed.injEq, Doc.direct.injEq] at hv'
      obtain ⟨⟨rfl, -, rfl⟩, rfl⟩ := hv'
      rw [hread'] at hread
      cases hread
      exact ⟨rfl, rfl, rfl⟩

/-- A leaf and a node are different blocks. -/
theorem LeafAt.not_node {hash : H} {lba : Nat} {key : Key} {value : Bytes} {furrows : List Nat}
    (h : LeafAt view len hash lba key value furrows) {path : List (Fin 32)} {hash' : H}
    {slots : Fin 32 → Option (H × Nat)} : ¬ NodeAt view len path hash' lba slots := by
  intro hn
  obtain ⟨route, extra, hb, -, -⟩ := hn.block
  obtain ⟨doc, extra', hv, -, hleaf⟩ := h.doc
  rw [hb] at hv
  cases hv
  exact hleaf

theorem NodeAt.congr {path : List (Fin 32)} {hash : H} {lba : Nat} {slots : Fin 32 → Option (H × Nat)}
    (h : NodeAt view len path hash lba slots) (hlen : len ≤ len') (hview : view' lba = view lba) :
    NodeAt view' len' path hash lba slots where
  lt := by have := h.lt; omega
  depth := h.depth
  block := by rw [hview]; exact h.block
  inside i p hp := by have := h.inside i p hp; omega

theorem NodeAt.hash_eq {path : List (Fin 32)} {hash : H} {lba : Nat} {slots : Fin 32 → Option (H × Nat)}
    (h : NodeAt view len path hash lba slots) : sealedHp (view lba) = some hash := by
  obtain ⟨route, extra, hb, hh, -⟩ := h.block
  rw [hb, sealedHp, hh]

namespace Rep

/-- Only the blocks and the arena nodes a tree holds matter to it. -/
theorem congr {t : Tree H} : ∀ {path : List (Fin 32)} {c : Option (Child H)},
    Rep view len arena path c t → len ≤ len' → (∀ p, t.Claims p → view' p = view p) →
    (∀ x, t.Uses x → arena'[x]? = arena[x]?) → Rep view' len' arena' path c t := by
  induction t with
  | empty => intro path c h _ _ _; exact h
  | leaf hash lba key value furrows =>
    intro path c h hlen hview _
    exact ⟨h.1, h.2.1, h.2.2.congr hlen hview⟩
  | disk hash lba ch ih =>
    intro path c h hlen hview harena
    obtain ⟨hc, slots, hnode, hch⟩ := h
    refine ⟨hc, slots, hnode.congr hlen (hview lba (.inl rfl)), fun i => ?_⟩
    exact ih i (hch i) hlen (fun p hp => hview p (.inr ⟨i, hp⟩)) fun x hx => harena x ⟨i, hx⟩
  | dirty idx ch ih =>
    intro path c h hlen hview harena
    obtain ⟨hc, node, hnode, hdepth, hmax, hroute, hch⟩ := h
    refine ⟨hc, node, (harena idx (.inl rfl)).trans hnode, hdepth, hmax, hroute, fun i => ?_⟩
    exact ih i (hch i) hlen (fun p hp => hview p ⟨i, hp⟩) fun x hx => harena x (.inr ⟨i, hx⟩)

theorem uses_lt {t : Tree H} : ∀ {path : List (Fin 32)} {c : Option (Child H)},
    Rep view len arena path c t → ∀ x, t.Uses x → x < arena.length := by
  induction t with
  | empty => intro path c _ x hx; exact hx.elim
  | leaf hash lba key value furrows => intro path c _ x hx; exact hx.elim
  | disk hash lba ch ih =>
    intro path c h x hx
    obtain ⟨i, hi⟩ := hx
    obtain ⟨_, slots, _, hch⟩ := h
    exact ih i (hch i) x hi
  | dirty idx ch ih =>
    intro path c h x hx
    obtain ⟨_, node, hnode, _, _, _, hch⟩ := h
    rcases hx with rfl | ⟨i, hi⟩
    · exact (List.getElem?_eq_some_iff.mp hnode).1
    · exact ih i (hch i) x hi

/-- A pointer stands for one tree. -/
theorem unique {t : Tree H} : ∀ {path : List (Fin 32)} {c : Option (Child H)} {t' : Tree H},
    Rep view len arena path c t → Rep view len arena path c t' → t' = t := by
  induction t with
  | empty =>
    intro path c t' h h'
    cases t' with
    | empty => rfl
    | leaf | disk | dirty => rw [show c = none from h] at h'; exact absurd h'.1 (by simp)
  | leaf hash lba key value furrows =>
    intro path c t' h h'
    obtain ⟨rfl, hpath, hleaf⟩ := h
    cases t' with
    | empty => cases h'
    | leaf hash' lba' key' value' furrows' =>
      obtain ⟨hc, -, hleaf'⟩ := h'
      cases hc
      obtain ⟨rfl, rfl, rfl⟩ := hleaf.unique hleaf'
      rfl
    | disk hash' lba' ch' =>
      obtain ⟨hc, slots, hnode, -⟩ := h'
      cases hc
      exact absurd hnode hleaf.not_node
    | dirty idx' ch' => exact absurd h'.1 (by simp)
  | disk hash lba ch ih =>
    intro path c t' h h'
    obtain ⟨rfl, slots, hnode, hch⟩ := h
    cases t' with
    | empty => cases h'
    | leaf hash' lba' key' value' furrows' =>
      obtain ⟨hc, -, hleaf'⟩ := h'
      cases hc
      exact absurd hnode hleaf'.not_node
    | disk hash' lba' ch' =>
      obtain ⟨hc, slots', hnode', hch'⟩ := h'
      cases hc
      obtain ⟨route, extra, hb, -, -⟩ := hnode.block
      obtain ⟨route', extra', hb', -, -⟩ := hnode'.block
      rw [hb] at hb'
      cases hb'
      congr 1
      funext i
      exact ih i (hch i) (hch' i)
    | dirty idx' ch' => exact absurd h'.1 (by simp)
  | dirty idx ch ih =>
    intro path c t' h h'
    obtain ⟨rfl, node, hnode, -, -, -, hch⟩ := h
    cases t' with
    | empty => cases h'
    | leaf hash' lba' key' value' furrows' => exact absurd h'.1 (by simp)
    | disk hash' lba' ch' => exact absurd h'.1 (by simp)
    | dirty idx' ch' =>
      obtain ⟨hc, node', hnode', -, -, -, hch'⟩ := h'
      cases hc
      rw [hnode] at hnode'
      cases hnode'
      congr 1
      funext i
      exact ih i (hch i) (hch' i)

/-- A block of an index names the way to itself: a leaf by its key, a node by its route, a
furrow by its owner's key and its index. -/
inductive Placed (view : Nat → Block H) (path : List (Fin 32)) (t : Tree H) (p : Nat) : Prop where
  | leaf {h : H} {key : Key} {value : Bytes} {furrows : List Nat} (hpath : OnPath path key)
      (hhash : sealedHp (view p) = some h)
      (hdoc : ∃ doc extra, view p = .sealed doc extra ∧ doc.IsLeaf key value)
      (hseek : t.seek key h p path.length = some (.leaf h p key value furrows))
      (hlocate : t.locate key path.length = some (h, p, value, furrows))
  | node {h : H} {depth : Nat} {route : Key} {slots : Fin 32 → Option (H × Nat)} {extra : Nat}
      {ch : Fin 32 → Tree H} (hpath : OnPath path route) (hdepth : path.length ≤ depth)
      (hmax : depth < maxDepth) (hhash : sealedHp (view p) = some h)
      (hdoc : view p = .sealed (.node depth route slots) extra)
      (hseek : t.seek route h p path.length = some (.disk h p ch))
  | furrow {h : H} {key : Key} {l i : Nat} {value payload : Bytes} {furrows : List Nat} {extra : Nat}
      (hpath : OnPath path key) (hdoc : view p = .sealed (.furrow key i payload) extra)
      (hlocate : t.locate key path.length = some (h, l, value, furrows)) (hi : furrows[i]? = some p)

/-- A block placed in a child is placed in the tree, when the node itself is another block. -/
theorem Placed.up {path : List (Fin 32)} {i : Fin 32} {s t : Tree H} {p : Nat}
    (h : Placed view (path ++ [i]) s p)
    (hseek : ∀ k h, chunk k path.length = i → t.seek k h p path.length = s.seek k h p (path.length + 1))
    (hlocate : ∀ k, chunk k path.length = i → t.locate k path.length = s.locate k (path.length + 1)) :
    Placed view path t p := by
  have hlen : (path ++ [i]).length = path.length + 1 := by simp
  cases h with
  | leaf hpath hhash hdoc hs hl =>
    rw [hlen] at hs hl
    exact .leaf hpath.init hhash hdoc ((hseek _ _ hpath.chunk_eq).trans hs)
      ((hlocate _ hpath.chunk_eq).trans hl)
  | node hpath hdepth hmax hhash hdoc hs =>
    rw [hlen] at hs hdepth
    exact .node hpath.init (by omega) hmax hhash hdoc ((hseek _ _ hpath.chunk_eq).trans hs)
  | furrow hpath hdoc hl hi =>
    rw [hlen] at hl
    exact .furrow hpath.init hdoc ((hlocate _ hpath.chunk_eq).trans hl) hi

theorem placed {t : Tree H} : ∀ {path : List (Fin 32)} {c : Option (Child H)},
    Rep view len arena path c t → ∀ {p}, t.Claims p → Placed view path t p := by
  induction t with
  | empty => intro path c _ p hp; exact hp.elim
  | leaf hash lba key value furrows =>
    intro path c h p hp
    obtain ⟨-, hpath, hleaf⟩ := h
    by_cases hpl : p = lba
    · subst hpl
      refine .leaf hpath hleaf.hash_eq ?_ (if_pos ⟨rfl, rfl⟩) (if_pos rfl)
      obtain ⟨doc, extra, hv, -, hdoc⟩ := hleaf.doc
      exact ⟨doc, extra, hv, hdoc⟩
    · obtain ⟨i, hi⟩ := List.mem_iff_getElem?.mp (hp.resolve_left hpl)
      obtain ⟨payload, extra, hdoc⟩ := hleaf.furrow_at hi
      exact .furrow hpath hdoc (if_pos rfl) hi
  | disk hash lba ch ih =>
    intro path c h p hp
    obtain ⟨-, slots, hnode, hch⟩ := h
    by_cases hpl : p = lba
    · subst hpl
      obtain ⟨route, extra, hdoc, hh, hroute⟩ := hnode.block
      exact .node hroute le_rfl hnode.depth hnode.hash_eq hdoc (if_pos ⟨rfl, rfl⟩)
    · obtain ⟨i, hi⟩ := hp.resolve_left hpl
      refine (ih i (hch i) hi).up (fun k h' hk => ?_) fun k hk => ?_
      · rw [Tree.seek, if_neg fun hq => hpl hq.2.symm, hk]
      · rw [Tree.locate, hk]
  | dirty idx ch ih =>
    intro path c h p hp
    obtain ⟨-, node, hnode, -, -, -, hch⟩ := h
    obtain ⟨i, hi⟩ := hp
    refine (ih i (hch i) hi).up (fun k h' hk => ?_) fun k hk => ?_
    · rw [Tree.seek, hk]
    · rw [Tree.locate, hk]

theorem claims_lt {t : Tree H} : ∀ {path : List (Fin 32)} {c : Option (Child H)},
    Rep view len arena path c t → ∀ {p}, t.Claims p → p < len := by
  induction t with
  | empty => intro path c _ p hp; exact hp.elim
  | leaf hash lba key value furrows =>
    intro path c h p hp
    rcases hp with rfl | hp
    · exact h.2.2.lt
    · exact h.2.2.furrow_lt hp
  | disk hash lba ch ih =>
    intro path c h p hp
    obtain ⟨-, slots, hnode, hch⟩ := h
    rcases hp with rfl | ⟨i, hi⟩
    · exact hnode.lt
    · exact ih i (hch i) hi
  | dirty idx ch ih =>
    intro path c h p hp
    obtain ⟨-, node, hnode, -, -, -, hch⟩ := h
    obtain ⟨i, hi⟩ := hp
    exact ih i (hch i) hi

/-- Every block of an index is sealed. -/
theorem sealed {t : Tree H} {path : List (Fin 32)} {c : Option (Child H)}
    (h : Rep view len arena path c t) {p : Nat} (hp : t.Claims p) : ∃ hash, sealedHp (view p) = some hash := by
  cases h.placed hp with
  | leaf hpath hhash hdoc hs hl => exact ⟨_, hhash⟩
  | node hpath hdepth hmax hhash hdoc hs => exact ⟨_, hhash⟩
  | furrow hpath hdoc hl hi => exact ⟨_, by rw [hdoc, sealedHp]⟩

/-- The leaf a descent ends at is a leaf of the index. -/
theorem located {t : Tree H} : ∀ {path : List (Fin 32)} {c : Option (Child H)} {k : Key} {h : H} {l : Nat}
    {v : Bytes} {fs : List Nat}, Rep view len arena path c t → OnPath path k →
    t.locate k path.length = some (h, l, v, fs) →
    LeafAt view len h l k v fs ∧ t.seek k h l path.length = some (.leaf h l k v fs) ∧
      ∀ p, p = l ∨ p ∈ fs → t.Claims p := by
  induction t with
  | empty => intro path c k h l v fs _ _ hl; simp [Tree.locate] at hl
  | leaf hash lba key value furrows =>
    intro path c k h l v fs hrep _ hl
    simp only [Tree.locate] at hl
    split at hl
    next hk =>
      cases hl
      subst hk
      exact ⟨hrep.2.2, by simp [Tree.seek], fun p hp => hp⟩
    · cases hl
  | disk hash lba ch ih =>
    intro path c k h l v fs hrep hk hl
    obtain ⟨-, slots, hnode, hch⟩ := hrep
    rw [Tree.locate] at hl
    obtain ⟨hleaf, hseek, hcl⟩ := ih (chunk k path.length) (hch _) (hk.snoc rfl) (by simpa using hl)
    refine ⟨hleaf, ?_, fun p hp => .inr ⟨_, hcl p hp⟩⟩
    rw [Tree.seek, if_neg, ← hseek, List.length_append, List.length_singleton]
    rintro ⟨-, rfl⟩
    exact hleaf.not_node hnode
  | dirty idx ch ih =>
    intro path c k h l v fs hrep hk hl
    obtain ⟨-, node, hnode, -, -, -, hch⟩ := hrep
    rw [Tree.locate] at hl
    obtain ⟨hleaf, hseek, hcl⟩ := ih (chunk k path.length) (hch _) (hk.snoc rfl) (by simpa using hl)
    refine ⟨hleaf, ?_, fun p hp => ⟨_, hcl p hp⟩⟩
    rw [Tree.seek, ← hseek, List.length_append, List.length_singleton]

end Rep
end Manifestus
