import Manifestus.Index.Agree
import Manifestus.Index.Cut
import Manifestus.Index.Route

/-! The walks of an index some of whose blocks are lost: each lost pointer is reported with a route
that leads to it, and what no report covers has been found. -/
set_option linter.unusedSectionVars false

namespace Manifestus
open Prog Store

variable {H : Type} [Crates H] {intact view : Nat → Block H} {len : Nat}

/-- Any nodes and leaves of the index are zeroed, or hold something else than what was sealed there.
What a furrow holds is left open. -/
def Damaged (intact view : Nat → Block H) (t : Tree H) : Prop :=
  ∀ p, t.Blocks p → view p = intact p ∨ sealedHp (view p) ≠ sealedHp (intact p)

/-- The reported pointers lead, down sound nodes, to parts of the tree that lie apart; the rest of the
tree has been found, its nodes and leaves sound. -/
structure Reported (intact view : Nat → Block H) (path : List (Fin 32)) (t : Tree H) (rs : List (StalePointer H))
    (found : Nat → Prop) : Prop where
  onPath : ∀ r ∈ rs, OnPath path r.route
  sought : ∀ r ∈ rs, ∃ x, t.seek r.route r.hash r.lba path.length = some x ∧
    ∀ p, t.Way r.route path.length p → ¬ x.Claims p → view p = intact p
  apart : rs.Pairwise fun r r' => ∀ x x', t.seek r.route r.hash r.lba path.length = some x →
    t.seek r'.route r'.hash r'.lba path.length = some x' → ∀ p, x.Claims p → ¬ x'.Claims p
  covers : ∀ p, t.Claims p → (found p ∧ (t.Blocks p → view p = intact p)) ∨
    ∃ r ∈ rs, ∃ x, t.seek r.route r.hash r.lba path.length = some x ∧ x.Claims p

namespace Reported

variable {path : List (Fin 32)} {t : Tree H} {rs rs' : List (StalePointer H)} {found found' : Nat → Prop}

theorem empty (path : List (Fin 32)) (found : Nat → Prop) : Reported intact view path (.empty : Tree H) [] found where
  onPath r hr := by cases hr
  sought r hr := by cases hr
  apart := .nil
  covers p hp := hp.elim

theorem imp (h : Reported intact view path t rs found) (hfound : ∀ p, found p → found' p) :
    Reported intact view path t rs found' :=
  { h with covers := fun p hp => (h.covers p hp).imp_left fun hp => ⟨hfound p hp.1, hp.2⟩ }

theorem perm (h : Reported intact view path t rs found) (hperm : rs.Perm rs') : Reported intact view path t rs' found where
  onPath r hr := h.onPath r (hperm.mem_iff.mpr hr)
  sought r hr := h.sought r (hperm.mem_iff.mpr hr)
  apart := by
    refine (List.Perm.pairwise_iff ?_ hperm).mp h.apart
    intro r r' hrr x x' hx hx' p hp hp'
    exact hrr x' x hx' hx p hp' hp
  covers p hp := by
    refine (h.covers p hp).imp_right ?_
    intro ⟨r, hr, hx⟩
    exact ⟨r, hperm.mem_iff.mp hr, hx⟩

/-- Everything sound has been found. -/
theorem sound (hfound : ∀ p, t.Claims p → found p ∧ (t.Blocks p → view p = intact p)) :
    Reported intact view path t [] found where
  onPath r hr := by cases hr
  sought r hr := by cases hr
  apart := .nil
  covers p hp := .inl (hfound p hp)

/-- The pointer to the tree itself is reported. -/
theorem here {r : StalePointer H} (hroute : OnPath path r.route)
    (hseek : t.seek r.route r.hash r.lba path.length = some t) (found : Nat → Prop) :
    Reported intact view path t [r] found where
  onPath r' hr := by rwa [List.mem_singleton.mp hr]
  sought r' hr := by
    rw [List.mem_singleton.mp hr]
    exact ⟨t, hseek, fun p hp hno => absurd hp.blocks.claims hno⟩
  apart := List.pairwise_singleton _ _
  covers p hp := .inr ⟨r, List.mem_singleton_self r, t, hseek, hp⟩

/-- The reports of the children of a sound node. -/
theorem node {hash : H} {lba : Nat} {ch : Fin 32 → Tree H} {rs : Fin 32 → List (StalePointer H)}
    {found : Fin 32 → Nat → Prop} (hsep : (Tree.disk hash lba ch).Sep) (hlba : view lba = intact lba)
    (h : ∀ i, Reported intact view (path ++ [i]) (ch i) (rs i) (found i)) :
    Reported intact view path (.disk hash lba ch) ((List.finRange 32).flatMap rs) fun p => p = lba ∨ ∃ i, found i p := by
  obtain ⟨hseps, hapart, hself⟩ := hsep
  have hlen : ∀ i : Fin 32, (path ++ [i]).length = path.length + 1 := fun i => by simp
  have hdown : ∀ i, ∀ r ∈ rs i, chunk r.route path.length = i ∧
      (Tree.disk hash lba ch).seek r.route r.hash r.lba path.length =
        (ch i).seek r.route r.hash r.lba (path.length + 1) := by
    intro i r hr
    have hchunk := ((h i).onPath r hr).chunk_eq
    obtain ⟨x, hx, -⟩ := (h i).sought r hr
    rw [hlen] at hx
    have hne : ¬ (hash = r.hash ∧ lba = r.lba) := by
      intro heq
      have hclaim := Tree.claims_of_seek hx (Tree.claims_root hx)
      rw [← heq.2] at hclaim
      exact hself i hclaim
    refine ⟨hchunk, ?_⟩
    rw [Tree.seek, if_neg hne, hchunk]
  have hmem : ∀ r, r ∈ (List.finRange 32).flatMap rs → ∃ i, r ∈ rs i := by
    intro r hr
    obtain ⟨i, -, hi⟩ := List.mem_flatMap.mp hr
    exact ⟨i, hi⟩
  constructor
  case onPath =>
    intro r hr
    obtain ⟨i, hi⟩ := hmem r hr
    exact ((h i).onPath r hi).init
  case sought =>
    intro r hr
    obtain ⟨i, hi⟩ := hmem r hr
    obtain ⟨hchunk, hseek⟩ := hdown i r hi
    obtain ⟨x, hx, hway⟩ := (h i).sought r hi
    rw [hlen] at hx hway
    refine ⟨x, hseek.trans hx, ?_⟩
    intro p hp hno
    rcases hp with rfl | hp
    · exact hlba
    · rw [hchunk] at hp
      exact hway p hp hno
  case apart =>
    rw [List.pairwise_flatMap]
    constructor
    · intro i _
      refine (h i).apart.imp_of_mem ?_
      intro r r' hr hr' hrr x x' hx hx'
      rw [(hdown i r hr).2] at hx
      rw [(hdown i r' hr').2] at hx'
      rw [hlen] at hrr
      exact hrr x x' hx hx'
    · refine (List.nodup_finRange 32).imp ?_
      intro i j hij r hr r' hr' x x' hx hx' p hp hp'
      rw [(hdown i r hr).2] at hx
      rw [(hdown j r' hr').2] at hx'
      exact (hapart i j hij).1 p (Tree.claims_of_seek hx hp) (Tree.claims_of_seek hx' hp')
  case covers =>
    intro p hp
    rcases hp with rfl | ⟨i, hi⟩
    · exact .inl ⟨.inl rfl, fun _ => hlba⟩
    · rcases (h i).covers p hi with ⟨hfound, hsound⟩ | ⟨r, hr, x, hx, hxp⟩
      · refine .inl ⟨.inr ⟨i, hfound⟩, ?_⟩
        intro hblock
        rcases hblock with rfl | ⟨j, hj⟩
        · exact hlba
        · by_cases hij : i = j
          · subst hij
            exact hsound hj
          · exact absurd hj.claims ((hapart i j hij).1 p hi)
      · rw [hlen] at hx
        exact .inr ⟨r, List.mem_flatMap.mpr ⟨i, List.mem_finRange i, hr⟩, x, (hdown i r hr).2.trans hx, hxp⟩

end Reported

/-- A block that does not carry the hash of its pointer is none, or an error that a repair takes for a loss. -/
theorem docOf_lost (len : Nat) {b : Block H} (lba : Nat) {hash : H} (h : sealedHp b ≠ some hash) :
    (b = .zero ∧ docOf b lba hash len = .ok none) ∨
      b ≠ .zero ∧ (docOf b lba hash len = .error .badSeal ∨ ∃ reason, docOf b lba hash len = .error (.corrupt reason)) := by
  by_cases hzero : b = .zero
  · exact .inl ⟨hzero, by rw [docOf, if_pos hzero]⟩
  · refine .inr ⟨hzero, ?_⟩
    rw [docOf, if_neg hzero]
    rcases hs : sealedHp b with _ | hash'
    · exact .inr ⟨_, rfl⟩
    · have hne : hash' ≠ hash := fun heq => h (by rw [hs, heq])
      simp only
      rw [if_pos hne]
      exact .inl rfl

/-- A child's route is its parent's with one more chunk. -/
theorem OnPath.below {path : List (Fin 32)} {route k : Key} {i : Fin 32} (h : OnPath path route)
    (hmax : path.length < maxDepth) (hk : OnPath (path ++ [i]) k) :
    OnPath (path ++ [i]) (routeWithChunk route path.length i) := by
  have hslot : ∃ k, chunk k path.length = i := ⟨k, hk.chunk_eq⟩
  obtain ⟨hat, hothers⟩ := @chunk_routeWithChunk route _ _ hmax hslot
  refine OnPath.snoc ?_ hat
  intro j hj
  rw [hothers j (by omega) (by omega)]
  exact h j hj

/-- Where there is something, a key leads there. -/
theorem Rep.exists_onPath {arena : List (Node H)} {path : List (Fin 32)} {c : Child H} {t : Tree H}
    (h : Rep view len arena path (some c) t) : ∃ k, OnPath path k := by
  cases t with
  | empty => cases h
  | leaf hash lba key value furrows => exact ⟨key, h.2.1⟩
  | disk hash lba ch =>
    obtain ⟨-, slots, hnode, -⟩ := h
    obtain ⟨route, extra, -, -, hroute⟩ := hnode.block
    exact ⟨route, hroute⟩
  | dirty idx ch =>
    obtain ⟨-, node, -, -, -, hroute, -⟩ := h
    exact ⟨node.route, hroute⟩

section TreeWalk

variable {route : Key} {es : List (Arrival H)}

/-- Each slot of a node is toured by itself. -/
theorem toured_slots {node : Node H} {depth : Nat} : ∀ {is : List (Fin 32)} {es : List (Arrival H)}, is.Nodup →
    Toured view len (Walker.childItems node route depth is) es →
    ∃ f : Fin 32 → List (Arrival H), es = is.flatMap f ∧ ∀ i ∈ is,
      Toured view len (Walker.childItems node route depth [i]) (f i) := by
  intro is
  induction is with
  | nil =>
    intro es _ h
    cases h
    exact ⟨fun _ => [], rfl, fun i hi => by cases hi⟩
  | cons i is ih =>
    intro es hnd h
    rw [List.nodup_cons] at hnd
    rw [Walker.childItems_cons, toured_append] at h
    obtain ⟨a, b, ha, hb, rfl⟩ := h
    obtain ⟨f, rfl, hf⟩ := ih hnd.2 hb
    have hkeep : ∀ j ∈ is, Function.update f i a j = f j := by
      intro j hj
      refine Function.update_of_ne ?_ _ _
      rintro rfl
      exact hnd.1 hj
    refine ⟨Function.update f i a, ?_, ?_⟩
    · rw [List.flatMap_cons, Function.update_self, List.flatMap_congr hkeep]
    · intro j hj
      rcases List.mem_cons.mp hj with rfl | hj
      · rwa [Function.update_self]
      · rw [hkeep j hj]
        exact hf j hj

/-- What a slot of a node leads to. -/
theorem childItems_slot {slots : Fin 32 → Option (H × Nat)} {nodeRoute : Key} {depth : Nat} {i : Fin 32} :
    Walker.childItems (Node.ofSlots depth nodeRoute slots) route depth [i] =
      ((slots i).map fun p => ⟨p.2, p.1, routeWithChunk route depth i, depth + 1⟩).toList := by
  rcases hs : slots i with _ | p
  · simp [Walker.childItems, Node.ofSlots, hs]
  · simp [Walker.childItems, Node.ofSlots, hs]

/-- A sound leaf opens to itself and its furrows. -/
theorem LeafAt.opened {hash : H} {lba depth : Nat} {key : Key} {value : Bytes} {furrows : List Nat}
    (h : LeafAt intact len hash lba key value furrows) (hsame : view lba = intact lba) :
    (⟨lba, hash, route, depth⟩ : WalkItem H).opened view len =
      some (.block lba hash :: furrows.map .furrow, []) := by
  unfold WalkItem.opened
  simp only [h.lt, if_true, hsame]
  rcases h.docOf with ⟨hdoc, rfl⟩ | ⟨runs, hdoc, hruns, -⟩ | ⟨hdoc, -, -⟩
  · simp only [hdoc, TractDoc.below, Option.map_some, List.map_nil]
  · simp only [hdoc, TractDoc.below, hruns, Option.map_some]
  · simp only [hdoc, TractDoc.below, Option.map_some]

/-- A sound node opens to itself and its pointers. -/
theorem NodeAt.opened {path : List (Fin 32)} {hash : H} {lba : Nat} {slots : Fin 32 → Option (H × Nat)}
    (h : NodeAt intact len path hash lba slots) (hsame : view lba = intact lba) (route : Key) :
    ∃ nodeRoute, (⟨lba, hash, route, path.length⟩ : WalkItem H).opened view len = some ([.block lba hash],
      Walker.childItems (Node.ofSlots path.length nodeRoute slots) route path.length (List.finRange 32)) := by
  obtain ⟨nodeRoute, -, hdoc⟩ := h.docOf
  refine ⟨nodeRoute, ?_⟩
  unfold WalkItem.opened
  simp only [h.lt, if_true, hsame, hdoc, TractDoc.below, Node.ofSlots, Option.map_some]

/-- Where a block does not carry the hash of its pointer, a tour reports the pointer or gets nowhere. -/
theorem opened_lost {hash : H} {lba depth : Nat} {here : List (Arrival H)} {children : List (WalkItem H)}
    (hlost : sealedHp (view lba) ≠ some hash)
    (hopen : (⟨lba, hash, route, depth⟩ : WalkItem H).opened view len = some (here, children)) :
    here = [.stale ⟨route, hash, lba⟩] ∧ children = [] := by
  unfold WalkItem.opened at hopen
  split at hopen
  · rcases docOf_lost len lba hlost with ⟨-, hdoc⟩ | ⟨-, hdoc | ⟨reason, hdoc⟩⟩
    · simp only [hdoc, Option.some.injEq, Prod.mk.injEq] at hopen
      exact ⟨hopen.1.symm, hopen.2.symm⟩
    · simp [hdoc] at hopen
    · simp [hdoc] at hopen
  · cases hopen

/-- A position that a tour met as a block or a furrow. -/
def Met (es : List (Arrival H)) (p : Nat) : Prop := (∃ hash, Arrival.block p hash ∈ es) ∨ Arrival.furrow p ∈ es

/-- A tour of a damaged index meets the zeroed blocks that are not below others, and all that is not below one. -/
theorem reported_of_toured {arena : List (Node H)} {t : Tree H} : ∀ {path : List (Fin 32)} {hash : H} {lba : Nat}
    {route : Key} {es : List (Arrival H)}, Rep intact len arena path (some (.committed hash lba)) t → t.Sep →
    Damaged intact view t → OnPath path route → Toured view len [⟨lba, hash, route, path.length⟩] es →
    Reported intact view path t (es.filterMap Arrival.asStale) (Met es) := by
  induction t with
  | empty => intro path hash lba route es hrep; cases hrep
  | dirty idx ch => intro path hash lba route es hrep; cases hrep.1
  | leaf hash lba key value furrows =>
    intro path hash' lba' route es hrep hsep hdamaged hroute htour
    obtain ⟨hc, hpath, hleaf⟩ := hrep
    cases hc
    obtain ⟨here, children, below, hopen, hbelow, rfl⟩ := toured_singleton.mp htour
    by_cases hsame : view lba = intact lba
    · rw [hleaf.opened hsame] at hopen
      cases hopen
      cases hbelow
      have hstale : ((.block lba hash :: furrows.map Arrival.furrow : List (Arrival H)) ++ []).filterMap Arrival.asStale = [] := by
        simp [Arrival.asStale]
      rw [hstale]
      refine Reported.sound fun p hp => ⟨?_, fun hblock => ?_⟩
      · rcases hp with rfl | hp
        · exact .inl ⟨hash, by simp⟩
        · exact .inr (by simpa using hp)
      · obtain rfl : p = lba := hblock
        exact hsame
    · have hlost := (hdamaged lba rfl).resolve_left hsame
      rw [hleaf.hash_eq] at hlost
      obtain ⟨rfl, rfl⟩ := opened_lost hlost hopen
      cases hbelow
      exact .here (r := ⟨route, hash, lba⟩) hroute (by simp [Tree.seek]) _
  | disk hash lba ch ih =>
    intro path hash' lba' route es hrep hsep hdamaged hroute htour
    obtain ⟨hc, slots, hnode, hch⟩ := hrep
    cases hc
    obtain ⟨here, children, below, hopen, hbelow, rfl⟩ := toured_singleton.mp htour
    by_cases hsame : view lba = intact lba
    · obtain ⟨nodeRoute, hopened⟩ := hnode.opened hsame route
      rw [hopened] at hopen
      cases hopen
      obtain ⟨f, rfl, hf⟩ := toured_slots (List.nodup_finRange 32) hbelow
      have hslot : ∀ i, Reported intact view (path ++ [i]) (ch i) ((f i).filterMap Arrival.asStale) (Met (f i)) := by
        intro i
        have htour := hf i (List.mem_finRange i)
        rw [childItems_slot] at htour
        have hsub := hch i
        rcases hs : slots i with _ | q
        · rw [hs] at hsub htour
          rw [Rep.unique (t := .empty) rfl hsub]
          rw [htour.unique .nil]
          exact .empty _ _
        · rw [hs] at hsub htour
          obtain ⟨k, hk⟩ := hsub.exists_onPath
          have hlen : path.length + 1 = (path ++ [i]).length := by simp
          rw [Option.map_some, Option.toList_some, hlen] at htour
          exact ih i hsub (hsep.1 i) (fun p hp => hdamaged p (.inr ⟨i, hp⟩)) (hroute.below hnode.depth hk) htour
      have hmet : ∀ p, (p = lba ∨ ∃ i, Met (f i) p) → Met ([Arrival.block lba hash] ++ (List.finRange 32).flatMap f) p := by
        intro p hp
        rcases hp with rfl | ⟨i, hp⟩
        · exact .inl ⟨hash, by simp⟩
        · rcases hp with ⟨hash', hp⟩ | hp
          · exact .inl ⟨hash', List.mem_append_right _ (List.mem_flatMap.mpr ⟨i, List.mem_finRange i, hp⟩)⟩
          · exact .inr (List.mem_append_right _ (List.mem_flatMap.mpr ⟨i, List.mem_finRange i, hp⟩))
      have hreports := (Reported.node hsep hsame hslot).imp hmet
      have hstale : ([Arrival.block lba hash] ++ (List.finRange 32).flatMap f).filterMap Arrival.asStale =
          (List.finRange 32).flatMap fun i => (f i).filterMap Arrival.asStale := by
        rw [List.filterMap_append, List.filterMap_flatMap]
        rfl
      rw [hstale]
      exact hreports
    · have hlost := (hdamaged lba (.inl rfl)).resolve_left hsame
      rw [hnode.hash_eq] at hlost
      obtain ⟨rfl, rfl⟩ := opened_lost hlost hopen
      cases hbelow
      exact .here (r := ⟨route, hash, lba⟩) hroute (by simp [Tree.seek]) _

/-- The slots of a node toured one after another. -/
theorem toured_flatMap {node : Node H} {depth : Nat} {f : Fin 32 → List (Arrival H)} : ∀ {is : List (Fin 32)},
    (∀ i ∈ is, Toured view len (Walker.childItems node route depth [i]) (f i)) →
    Toured view len (Walker.childItems node route depth is) (is.flatMap f) := by
  intro is
  induction is with
  | nil => exact fun _ => .nil
  | cons i is ih =>
    intro h
    rw [Walker.childItems_cons, List.flatMap_cons]
    exact (h i List.mem_cons_self).append (ih fun j hj => h j (List.mem_cons_of_mem _ hj))

/-- An index with sound nodes and leaves can be toured: nothing is stale, and nothing is met twice. -/
theorem toured_sound {arena : List (Node H)} {t : Tree H} : ∀ {path : List (Fin 32)} {hash : H} {lba : Nat} (route : Key),
    Rep intact len arena path (some (.committed hash lba)) t → t.Sep → (∀ p, t.Blocks p → view p = intact p) →
    ∃ es, Toured view len [⟨lba, hash, route, path.length⟩] es ∧ es.filterMap Arrival.asStale = [] ∧
      (es.map Arrival.pos).Nodup ∧ ∀ p ∈ es.map Arrival.pos, t.Claims p := by
  induction t with
  | empty => intro path hash lba route hrep; cases hrep
  | dirty idx ch => intro path hash lba route hrep; cases hrep.1
  | leaf hash lba key value furrows =>
    intro path hash' lba' route hrep hsep hsound
    obtain ⟨hc, hpath, hleaf⟩ := hrep
    cases hc
    refine ⟨_, toured_singleton.mpr ⟨_, _, [], hleaf.opened (hsound lba rfl), .nil, rfl⟩, ?_, ?_, ?_⟩
    · simp [Arrival.asStale]
    · obtain ⟨hself, hnd⟩ := hsep
      simp [Function.comp_def, Arrival.pos, hself, hnd]
    · intro p hp
      simpa [Function.comp_def, Arrival.pos, Tree.Claims] using hp
  | disk hash lba ch ih =>
    intro path hash' lba' route hrep hsep hsound
    obtain ⟨hc, slots, hnode, hch⟩ := hrep
    cases hc
    obtain ⟨nodeRoute, hopened⟩ := hnode.opened (hsound lba (.inl rfl)) route
    obtain ⟨hseps, hapart, hself⟩ := hsep
    have hslot : ∀ i, ∃ es, Toured view len
        (Walker.childItems (Node.ofSlots path.length nodeRoute slots) route path.length [i]) es ∧
        es.filterMap Arrival.asStale = [] ∧ (es.map Arrival.pos).Nodup ∧ ∀ p ∈ es.map Arrival.pos, (ch i).Claims p := by
      intro i
      rw [childItems_slot]
      have hsub := hch i
      rcases hs : slots i with _ | q
      · exact ⟨[], .nil, rfl, .nil, fun p hp => by cases hp⟩
      · rw [hs] at hsub
        have hlen : path.length + 1 = (path ++ [i]).length := by simp
        rw [Option.map_some, Option.toList_some, hlen]
        exact ih i _ hsub (hseps i) fun p hp => hsound p (.inr ⟨i, hp⟩)
    choose f htour hstale hnd hclaims using hslot
    refine ⟨_, toured_singleton.mpr ⟨_, _, _, hopened, toured_flatMap fun i _ => htour i, rfl⟩, ?_, ?_, ?_⟩
    · rw [List.filterMap_append, List.filterMap_flatMap]
      simp [Arrival.asStale, hstale]
    · rw [List.map_append, List.map_flatMap, List.map_singleton, List.singleton_append, List.nodup_cons]
      constructor
      · intro hmem
        obtain ⟨i, -, hi⟩ := List.mem_flatMap.mp hmem
        exact hself i (hclaims i _ hi)
      · rw [List.nodup_flatMap]
        refine ⟨fun i _ => hnd i, (List.nodup_finRange 32).imp ?_⟩
        intro i j hij p hp hp'
        exact (hapart i j hij).1 p (hclaims i p hp) (hclaims j p hp')
    · intro p hp
      rw [List.map_append, List.map_flatMap, List.map_singleton, List.singleton_append] at hp
      rcases List.mem_cons.mp hp with rfl | hp
      · exact .inl rfl
      · obtain ⟨i, -, hi⟩ := List.mem_flatMap.mp hp
        exact .inr ⟨i, hclaims i p hi⟩

end TreeWalk

/-- What a dangling pointer names. -/
def DanglingPointer.pointer (d : DanglingPointer H) : StalePointer H := ⟨d.route, d.hash, d.lba⟩

/-- `k'` is `k` after a repair walked the tree: what it reported, and the live blocks it kept. -/
structure Mended (intact view : Nat → Block H) (path : List (Fin 32)) (t : Tree H) (k k' : Walk H)
    (stale : List (StalePointer H)) (dangling : List (DanglingPointer H)) (live : List (Nat × H)) : Prop where
  words : k'.visited.words = k.visited.words
  marks : ∀ p ∈ k'.visited.marks, p ∈ k.visited.marks ∨ t.Claims p
  noted : k'.stale = k.stale ++ stale ∧ k'.dangling = k.dangling ++ dangling ∧ k'.liveBlocks = k.liveBlocks ++ live
  zeroed : ∀ r ∈ stale, view r.lba = .zero ∧ t.Blocks r.lba
  reported : Reported intact view path t (stale ++ dangling.map DanglingPointer.pointer) fun p => p ∈ spots live

namespace Walker

variable {d : Dev H} {s : Store H}

/-- The furrows of a leaf are sound and kept, or its pointer is reported. -/
theorem repairFurrows_run (hon : s.On d) (dangle : String → DanglingPointer H) (key : Key) :
    ∀ (ps : List Nat) (index : Nat) {k : Walk H}, k.visited.words = divCeil s.tract.len (2 ^ 6) →
      (∀ p ∈ ps, p < s.tract.len) → ps.Nodup → (∀ p ∈ ps, p ∉ k.visited.marks) →
      ∃ r k', (repairFurrows dangle key index ps).run ⟨s, k⟩ = (.ok r, ⟨s, k'⟩) ∧
        k'.visited.words = k.visited.words ∧ (∀ p ∈ k'.visited.marks, p ∈ k.visited.marks ∨ p ∈ ps) ∧
        k'.stale = k.stale ∧ k'.liveBlocks = k.liveBlocks ∧
        ((∃ fs, r = some fs ∧ spots fs = ps ∧ k'.dangling = k.dangling) ∨
          r = none ∧ ∃ reason, k'.dangling = k.dangling ++ [dangle reason]) := by
  intro ps
  induction ps with
  | nil =>
    intro index k _ _ _ _
    exact ⟨some [], k, rfl, rfl, fun p hp => .inl hp, rfl, rfl, .inl ⟨[], rfl, rfl, rfl⟩⟩
  | cons p ps ih =>
    intro index k hwords hlt hnd hnew
    simp only [List.mem_cons, forall_eq_or_imp] at hlt hnew
    rw [List.nodup_cons] at hnd
    have hreach := reach_run (s := s) hwords hlt.1 hnew.1
    have hread := Tract.read_run hon hlt.1
    set k₁ : Walk H := { k with visited := { k.visited with marks := p :: k.visited.marks } } with hk₁
    have hmarks : ∀ q ∈ k₁.visited.marks, q ∈ k.visited.marks ∨ q ∈ p :: ps := by
      intro q hq
      rcases List.mem_cons.mp hq with rfl | hq
      · exact .inr List.mem_cons_self
      · exact .inl hq
    rcases hsound : soundFurrow key index (s.view d p) with _ | hash
    · refine ⟨none, { k₁ with dangling := k₁.dangling ++
          [dangle s!"furrow {index} @{p} lost (unsealed/foreign/mismatched owner)"] }, ?_, rfl, hmarks, rfl, rfl,
        .inr ⟨rfl, _, rfl⟩⟩
      simp only [repairFurrows, bind_run, attempt_run, hreach, onStore, zoom_run, hread, hsound, foundDangling, onWalk,
        update_run, pure_run]
    · obtain ⟨r, k', hrun, hwords', hmarks', hstale, hlive, hend⟩ := ih (index + 1) (k := k₁) hwords hlt.2 hnd.2 (by
        intro q hq hmark
        rcases List.mem_cons.mp hmark with rfl | hmark
        · exact hnd.1 hq
        · exact hnew.2 q hq hmark)
      refine ⟨r.map ((p, hash) :: ·), k', ?_, hwords', ?_, hstale, hlive, ?_⟩
      · simp only [repairFurrows, bind_run, attempt_run, hreach, onStore, zoom_run, hread, hsound, hrun, pure_run]
      · intro q hq
        rcases hmarks' q hq with hq | hq
        · exact hmarks q hq
        · exact .inr (List.mem_cons_of_mem _ hq)
      · rcases hend with ⟨fs, rfl, hfs, hdangling⟩ | ⟨rfl, hdangling⟩
        · exact .inl ⟨(p, hash) :: fs, rfl, by rw [spots_cons, hfs], hdangling⟩
        · exact .inr ⟨rfl, hdangling⟩

/-- The pointers of a node one after another, each walked by `walk`. -/
theorem each_mended_run {path : List (Fin 32)} {slots : Fin 32 → Option (H × Nat)}
    {walk : Child H → Fin 32 → Prog Error (Walker H) Unit} {ch : Fin 32 → Tree H} (hapart : Tree.Apart ch)
    (hempty : ∀ i, slots i = none → ch i = .empty)
    (hwalk : ∀ i q, slots i = some q → ∀ (s' : Store H) (k : Walk H), s.Reads d s' →
      k.visited.words = divCeil s.tract.len (2 ^ 6) → (∀ p, (ch i).Claims p → p ∉ k.visited.marks) →
      ∃ s'' k' stale dangling live, (walk (.committed q.1 q.2) i).run ⟨s', k⟩ = (.ok (), ⟨s'', k'⟩) ∧ s.Reads d s'' ∧
        Mended intact (s.view d) (path ++ [i]) (ch i) k k' stale dangling live) :
    ∀ {is : List (Fin 32)} {s' : Store H} {k : Walk H}, is.Nodup → s.Reads d s' →
      k.visited.words = divCeil s.tract.len (2 ^ 6) → (∀ i ∈ is, ∀ p, (ch i).Claims p → p ∉ k.visited.marks) →
      ∃ (s'' : Store H) (k' : Walk H) (stale : Fin 32 → List (StalePointer H)) (dangling : Fin 32 → List (DanglingPointer H))
        (live : Fin 32 → List (Nat × H)), (each (fun i =>
          match (slots i).map fun p : H × Nat => Child.committed p.1 p.2 with
          | some child => walk child i
          | none => pure ()) is).run ⟨s', k⟩ = (.ok (), ⟨s'', k'⟩) ∧ s.Reads d s'' ∧
        k'.visited.words = k.visited.words ∧
        (∀ p ∈ k'.visited.marks, p ∈ k.visited.marks ∨ ∃ i ∈ is, (ch i).Claims p) ∧
        (k'.stale = k.stale ++ is.flatMap stale ∧ k'.dangling = k.dangling ++ is.flatMap dangling ∧
          k'.liveBlocks = k.liveBlocks ++ is.flatMap live) ∧
        ∀ i ∈ is, (∀ r ∈ stale i, s.view d r.lba = .zero ∧ (ch i).Blocks r.lba) ∧
          Reported intact (s.view d) (path ++ [i]) (ch i) (stale i ++ (dangling i).map DanglingPointer.pointer)
            fun p => p ∈ spots (live i) := by
  intro is
  induction is with
  | nil =>
    intro s' k _ hr _ _
    exact ⟨s', k, fun _ => [], fun _ => [], fun _ => [], rfl, hr, rfl, fun p hp => .inl hp, by simp, by simp⟩
  | cons i is ih =>
    intro s' k hnd hr hwords hnew
    simp only [List.mem_cons, forall_eq_or_imp] at hnew
    rw [List.nodup_cons] at hnd
    obtain ⟨s₁, k₁, st, dg, lv, hrun, hr₁, h₁⟩ : ∃ s₁ k₁ st dg lv,
        (match (slots i).map fun p : H × Nat => Child.committed p.1 p.2 with
          | some child => walk child i
          | none => pure ()).run ⟨s', k⟩ = (.ok (), ⟨s₁, k₁⟩) ∧ s.Reads d s₁ ∧
        Mended intact (s.view d) (path ++ [i]) (ch i) k k₁ st dg lv := by
      rcases hs : slots i with _ | q
      · refine ⟨s', k, [], [], [], rfl, hr, rfl, fun p hp => .inl hp, by simp, by simp, ?_⟩
        rw [hempty i hs]
        exact .empty _ _
      · exact hwalk i q hs s' k hr hwords hnew.1
    obtain ⟨s₂, k₂, stale, dangling, live, hrun₂, hr₂, hwords₂, hmarks₂, ⟨hst, hdg, hlv⟩, hall⟩ :=
      ih hnd.2 hr₁ (h₁.words.trans hwords) (by
        intro j hj p hp hm
        rcases h₁.marks p hm with hm | hm
        · exact hnew.2 j hj p hp hm
        · have hij : i ≠ j := by
            rintro rfl
            exact hnd.1 hj
          exact (hapart i j hij).1 p hm hp)
    have hkeep : ∀ {α : Type} (f : Fin 32 → List α) (a : List α), ∀ j ∈ is, Function.update f i a j = f j := by
      intro α f a j hj
      refine Function.update_of_ne ?_ _ _
      rintro rfl
      exact hnd.1 hj
    have hflat : ∀ {α : Type} (f : Fin 32 → List α) (a : List α),
        (i :: is).flatMap (Function.update f i a) = a ++ is.flatMap f := by
      intro α f a
      rw [List.flatMap_cons, Function.update_self, List.flatMap_congr (hkeep f a)]
    obtain ⟨hst₁, hdg₁, hlv₁⟩ := h₁.noted
    refine ⟨s₂, k₂, Function.update stale i st, Function.update dangling i dg, Function.update live i lv, ?_, hr₂,
      hwords₂.trans h₁.words, ?_, ?_, ?_⟩
    · simp only [each, bind_run, hrun, hrun₂]
    · intro p hp
      rcases hmarks₂ p hp with hp | ⟨j, hj, hp⟩
      · rcases h₁.marks p hp with hp | hp
        · exact .inl hp
        · exact .inr ⟨i, List.mem_cons_self, hp⟩
      · exact .inr ⟨j, List.mem_cons_of_mem _ hj, hp⟩
    · rw [hflat, hflat, hflat, hst, hdg, hlv, hst₁, hdg₁, hlv₁]
      simp only [List.append_assoc, true_and]
    · intro j hj
      rcases List.mem_cons.mp hj with rfl | hj
      · rw [Function.update_self, Function.update_self, Function.update_self]
        exact ⟨h₁.zeroed, h₁.reported⟩
      · rw [hkeep stale st j hj, hkeep dangling dg j hj, hkeep live lv j hj]
        exact hall j hj

/-- A lost block is reported with the pointer to it. -/
theorem repair_lost (hon : s.On d) {t : Tree H} {s' : Store H} (k : Walk H) {path : List (Fin 32)} {hash : H} {lba f : Nat}
    {r : Key} (hr : s.Reads d s') (hlt : lba < s.tract.len) (hlost : sealedHp (s.view d lba) ≠ some hash)
    (hblock : t.Blocks lba) (hroute : OnPath path r) (hseek : t.seek r hash lba path.length = some t) :
    ∃ s'' k' stale dangling live, (walkChildRepair (f + 1) path.length (.committed hash lba) r).run ⟨s', k⟩ =
        (.ok (), ⟨s'', k'⟩) ∧ s.Reads d s'' ∧ Mended intact (s.view d) path t k k' stale dangling live := by
  obtain ⟨s₁, hread, hr₁⟩ := readDoc_run (hr.on hon) (by rw [hr.tract]; exact hlt) hash
  rw [hr.view, hr.tract] at hread
  have hhere : Reported intact (s.view d) path t [⟨r, hash, lba⟩] fun p => p ∈ spots ([] : List (Nat × H)) :=
    .here (r := ⟨r, hash, lba⟩) hroute hseek _
  have hdangling : ∀ reason, Mended intact (s.view d) path t k
      { k with dangling := k.dangling ++ [⟨r, hash, lba, none, reason⟩] } [] [⟨r, hash, lba, none, reason⟩] [] := by
    intro reason
    constructor
    case words => rfl
    case marks => exact fun p hp => .inl hp
    case noted => simp
    case zeroed => exact fun x hx => by cases hx
    case reported => exact hhere
  rcases docOf_lost s.tract.len lba hlost with ⟨hzero, hdoc⟩ | ⟨-, hdoc | ⟨reason, hdoc⟩⟩
  · refine ⟨s₁, { k with stale := k.stale ++ [⟨r, hash, lba⟩] }, [⟨r, hash, lba⟩], [], [], ?_, hr.trans hr₁, ?_⟩
    · simp only [walkChildRepair, bind_run, attempt_run, onStore, zoom_run, hread, hdoc, foundStale, onWalk, update_run]
    · constructor
      case words => rfl
      case marks => exact fun p hp => .inl hp
      case noted => simp
      case zeroed =>
        intro x hx
        rw [List.mem_singleton.mp hx]
        exact ⟨hzero, hblock⟩
      case reported => exact hhere
  · refine ⟨s₁, _, [], _, [], ?_, hr.trans hr₁,
      hdangling "target reused: sealed block does not match the pointer hash"⟩
    simp only [walkChildRepair, bind_run, attempt_run, onStore, zoom_run, hread, hdoc, foundDangling, onWalk, update_run]
  · refine ⟨s₁, _, [], _, [], ?_, hr.trans hr₁, hdangling reason⟩
    simp only [walkChildRepair, bind_run, attempt_run, onStore, zoom_run, hread, hdoc, foundDangling, onWalk, update_run]

/-- A leaf with the furrows at `ps` is kept with them, or its pointer is reported. -/
theorem repairCheckFurrows_run (hon : s.On d) {path : List (Fin 32)} {hash : H} {lba : Nat} {key : Key} (r : Key)
    {value : Bytes} {ps : List Nat} {k₀ k : Walk H} (hwords : k.visited.words = divCeil s.tract.len (2 ^ 6))
    (hsep : (Tree.leaf hash lba key value ps : Tree H).Sep) (hlt : ∀ p ∈ ps, p < s.tract.len)
    (hnew : ∀ p ∈ ps, p ∉ k.visited.marks) (hroute : OnPath path r) (hsame : s.view d lba = intact lba)
    (hk : k = { k₀ with visited := { k₀.visited with marks := lba :: k₀.visited.marks } }) :
    ∃ k' dangling live, (repairCheckFurrows lba hash r key ps).run ⟨s, k⟩ = (.ok (), ⟨s, k'⟩) ∧
      Mended intact (s.view d) path (.leaf hash lba key value ps) k₀ k' [] dangling live := by
  obtain ⟨res, k', hrun, hwords', hmarks, hstale, hlive, hend⟩ := repairFurrows_run hon
    (fun reason => ⟨r, hash, lba, some key, reason⟩) key ps 0 hwords hlt hsep.2 hnew
  have hmarks' : ∀ p ∈ k'.visited.marks, p ∈ k₀.visited.marks ∨ (Tree.leaf hash lba key value ps : Tree H).Claims p := by
    intro p hp
    rcases hmarks p hp with hp | hp
    · rw [hk] at hp
      rcases List.mem_cons.mp hp with rfl | hp
      · exact .inr (.inl rfl)
      · exact .inl hp
    · exact .inr (.inr hp)
  subst hk
  rcases hend with ⟨fs, rfl, hfs, hdangling⟩ | ⟨rfl, reason, hdangling⟩
  · refine ⟨{ k' with liveBlocks := k'.liveBlocks ++ (lba, hash) :: fs }, [], (lba, hash) :: fs, ?_, ?_⟩
    · simp only [repairCheckFurrows, bind_run, hrun, onWalk, update_run]
    · constructor
      case words => exact hwords'
      case marks => exact hmarks'
      case noted => simp [hstale, hdangling, hlive]
      case zeroed => exact fun x hx => by cases hx
      case reported =>
        refine Reported.sound fun p hp => ⟨?_, ?_⟩
        · rw [spots_cons, hfs]
          exact List.mem_cons.mpr hp
        · rintro rfl
          exact hsame
  · refine ⟨k', [⟨r, hash, lba, some key, reason⟩], [], ?_, ?_⟩
    · simp only [repairCheckFurrows, bind_run, hrun, pure_run]
    · constructor
      case words => exact hwords'
      case marks => exact hmarks'
      case noted => exact ⟨by rw [hstale, List.append_nil], hdangling, by rw [hlive, List.append_nil]⟩
      case zeroed => exact fun x hx => by cases hx
      case reported => exact .here (r := ⟨r, hash, lba⟩) hroute (by simp [Tree.seek]) _

/-- The repair walk of a damaged index. -/
theorem walkChildRepair_run (hon : s.On d) {t : Tree H} : ∀ {s' : Store H} {k : Walk H} {path : List (Fin 32)} {c : Child H}
    {f : Nat} {r : Key}, s.Reads d s' → Rep intact s.tract.len [] path (some c) t → t.Sep →
    Damaged intact (s.view d) t → OnPath path r → path.length ≤ maxDepth → f + path.length = maxDepth + 1 →
    k.visited.words = divCeil s.tract.len (2 ^ 6) → (∀ p, t.Claims p → p ∉ k.visited.marks) →
    ∃ s'' k' stale dangling live, (walkChildRepair f path.length c r).run ⟨s', k⟩ = (.ok (), ⟨s'', k'⟩) ∧ s.Reads d s'' ∧
      Mended intact (s.view d) path t k k' stale dangling live := by
  induction t with
  | empty => intro s' k path c f r _ hrep; cases hrep
  | dirty idx ch =>
    intro s' k path c f r _ hrep
    obtain ⟨-, node, hnode, -⟩ := hrep
    simp at hnode
  | leaf hash lba key value furrows =>
    intro s' k path c f r hr hrep hsep hdamaged hroute hdepth hfuel hwords hnew
    obtain ⟨hc, -, hleaf⟩ := hrep
    cases hc
    obtain ⟨f, rfl⟩ : ∃ n, f = n + 1 := ⟨f - 1, by omega⟩
    by_cases hsame : s.view d lba = intact lba
    · obtain ⟨s₁, hread, hr₁⟩ := readDoc_run (hr.on hon) (by rw [hr.tract]; exact hleaf.lt) hash
      rw [hr.view, hr.tract, hsame] at hread
      have hr₂ := hr.trans hr₁
      have hreach := reach_run (s := s₁) hwords hleaf.lt (hnew lba (.inl rfl))
      set k₁ : Walk H := { k with visited := { k.visited with marks := lba :: k.visited.marks } } with hk₁
      have hwords₁ : k₁.visited.words = divCeil s₁.tract.len (2 ^ 6) := by
        rw [hr₂.tract]
        exact hwords
      have hfurrow : ∀ p ∈ furrows, p < s₁.tract.len ∧ p ∉ k₁.visited.marks := by
        intro p hp
        rw [hr₂.tract]
        refine ⟨hleaf.furrow_lt hp, ?_⟩
        intro hm
        rcases List.mem_cons.mp hm with rfl | hm
        · exact hsep.1 hp
        · exact hnew p (.inr hp) hm
      have hsame₁ : s₁.view d lba = intact lba := by rw [hr₂.view, hsame]
      obtain ⟨k', dangling, live, hcheck, hmended⟩ := @repairCheckFurrows_run H _ intact d s₁ (hr₂.on hon) path hash lba
        key r value furrows k k₁ hwords₁ hsep (fun p hp => (hfurrow p hp).1) (fun p hp => (hfurrow p hp).2) hroute hsame₁ hk₁
      rw [hr₂.view] at hmended
      have hlength : (Walker.tractLen : Prog Error (Walker H) Nat).run ⟨s₁, k₁⟩ = (.ok s.tract.len, ⟨s₁, k₁⟩) := by
        rw [← hr₂.tract]
        rfl
      rcases hleaf.docOf with ⟨hdoc, rfl⟩ | ⟨runs, hdoc, hruns, -⟩ | ⟨hdoc, -, -⟩
      · refine ⟨s₁, { k₁ with liveBlocks := k₁.liveBlocks ++ [(lba, hash)] }, [], [], [(lba, hash)], ?_, hr₂, ?_⟩
        · simp only [walkChildRepair, bind_run, attempt_run, onStore, zoom_run, hread, hdoc, hreach, found, onWalk,
            update_run]
        · constructor
          case words => rfl
          case marks =>
            intro p hp
            rcases List.mem_cons.mp hp with rfl | hp
            · exact .inr (.inl rfl)
            · exact .inl hp
          case noted => simp [hk₁]
          case zeroed => exact fun x hx => by cases hx
          case reported =>
            refine Reported.sound fun p hp => ⟨?_, ?_⟩
            · simpa [Tree.Claims] using hp
            · rintro rfl
              exact hsame
      · refine ⟨s₁, k', [], dangling, live, ?_, hr₂, hmended⟩
        simp only [walkChildRepair, bind_run, attempt_run, onStore, zoom_run, hread, hdoc, hreach, hlength, hruns]
        exact hcheck
      · refine ⟨s₁, k', [], dangling, live, ?_, hr₂, hmended⟩
        simp only [walkChildRepair, bind_run, attempt_run, onStore, zoom_run, hread, hdoc, hreach]
        exact hcheck
    · have hlost := (hdamaged lba rfl).resolve_left hsame
      rw [hleaf.hash_eq] at hlost
      exact repair_lost hon k hr hleaf.lt hlost rfl hroute (by simp [Tree.seek])
  | disk hash lba ch ih =>
    intro s' k path c f r hr hrep hsep hdamaged hroute hdepth hfuel hwords hnew
    obtain ⟨hc, slots, hnode, hch⟩ := hrep
    cases hc
    obtain ⟨f, rfl⟩ : ∃ n, f = n + 1 := ⟨f - 1, by omega⟩
    by_cases hsame : s.view d lba = intact lba
    · obtain ⟨s₁, hread, hr₁⟩ := readDoc_run (hr.on hon) (by rw [hr.tract]; exact hnode.lt) hash
      obtain ⟨nodeRoute, -, hdoc⟩ := hnode.docOf
      rw [hr.view, hr.tract, hsame, hdoc] at hread
      have hreach := reach_run (s := s₁) hwords hnode.lt (hnew lba (.inl rfl))
      have hfresh : ∀ i ∈ List.finRange 32, ∀ p, (ch i).Claims p → p ∉ lba :: k.visited.marks := by
        intro i _ p hp hm
        rcases List.mem_cons.mp hm with rfl | hm
        · exact hsep.2.2 i hp
        · exact hnew p (.inr ⟨i, hp⟩) hm
      obtain ⟨s₂, k₂, stale, dangling, live, heach, hr₂, hwords₂, hmarks₂, ⟨hst, hdg, hlv⟩, hall⟩ :=
        @each_mended_run H _ intact d s path slots
          (fun child i => routeAt r path.length i >>= walkChildRepair f (path.length + 1) child) ch hsep.2.1
          (fun i hi => by
            have hsub := hch i
            rw [hi] at hsub
            exact Rep.unique (t := .empty) rfl hsub)
          (fun i q hq s' k hr hwords hnew => by
            have hsub := hch i
            rw [hq] at hsub
            have hlen : (path ++ [i]).length = path.length + 1 := by simp
            obtain ⟨key, hkey⟩ := hsub.exists_onPath
            have hrun := ih i (f := f) hr hsub (hsep.1 i) (fun p hp => hdamaged p (.inr ⟨i, hp⟩))
              (hroute.below hnode.depth hkey) (by rw [hlen]; exact hnode.depth) (by rw [hlen]; omega) hwords hnew
            rw [hlen] at hrun
            rw [bind_run, routeAt_run hnode.depth]
            exact hrun)
          (List.finRange 32) s₁ { k with
            visited := { k.visited with marks := lba :: k.visited.marks }
            liveBlocks := k.liveBlocks ++ [(lba, hash)] } (List.nodup_finRange 32) (hr.trans hr₁) hwords hfresh
      have hat : ∀ w : Walker H, (nodeAtDepth (Node.ofSlots path.length nodeRoute slots) lba path.length).run w =
          (.ok (), w) := nodeAtDepth_run rfl
      refine ⟨s₂, k₂, (List.finRange 32).flatMap stale, (List.finRange 32).flatMap dangling,
        (lba, hash) :: (List.finRange 32).flatMap live, ?_, hr₂, ?_⟩
      · simp only [walkChildRepair, bind_run, attempt_run, onStore, zoom_run, hread, hreach, hat, found, onWalk, update_run]
        exact heach
      · constructor
        case words => exact hwords₂
        case marks =>
          intro p hp
          rcases hmarks₂ p hp with hp | ⟨i, -, hp⟩
          · rcases List.mem_cons.mp hp with rfl | hp
            · exact .inr (.inl rfl)
            · exact .inl hp
          · exact .inr (.inr ⟨i, hp⟩)
        case noted => exact ⟨hst, hdg, by rw [hlv, List.append_assoc]; rfl⟩
        case zeroed =>
          intro x hx
          obtain ⟨i, hi, hx⟩ := List.mem_flatMap.mp hx
          obtain ⟨hzero, hblock⟩ := (hall i hi).1 x hx
          exact ⟨hzero, .inr ⟨i, hblock⟩⟩
        case reported =>
          have hslots := Reported.node hsep hsame fun i => (hall i (List.mem_finRange i)).2
          have hperm : ((List.finRange 32).flatMap fun i => stale i ++ (dangling i).map DanglingPointer.pointer).Perm
              ((List.finRange 32).flatMap stale ++ ((List.finRange 32).flatMap dangling).map DanglingPointer.pointer) := by
            rw [List.map_flatMap]
            exact (List.flatMap_append_perm _ _ _).symm
          refine (hslots.perm hperm).imp ?_
          intro p hp
          rw [spots_cons]
          rcases hp with rfl | ⟨i, hp⟩
          · exact List.mem_cons_self
          · obtain ⟨e, he, rfl⟩ := mem_spots.mp hp
            exact List.mem_cons_of_mem _ (mem_spots.mpr ⟨e, List.mem_flatMap.mpr ⟨i, List.mem_finRange i, he⟩, rfl⟩)
    · have hlost := (hdamaged lba (.inl rfl)).resolve_left hsame
      rw [hnode.hash_eq] at hlost
      exact repair_lost hon k hr hnode.lt hlost (.inl rfl) hroute (by simp [Tree.seek])

end Walker

end Manifestus
