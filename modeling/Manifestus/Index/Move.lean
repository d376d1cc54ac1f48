import Manifestus.Index.Delete
import Manifestus.Index.Flush

/-! Moving the survivors of a window: each is appended again, and its pointer, or the run list of
its owner, is replaced. -/
set_option linter.unusedSectionVars false

namespace Manifestus
open Prog Store

variable {H : Type} [Crates H] {d : Dev H} {live : LiveSet H} {s s' s₁ s₂ : Store H} {t t' t₁ t₂ : Tree H}
  {P : Block H → Prop}

/-- Blocks have moved: the index finds what it found, in blocks it held or in new ones. -/
structure Moved (P : Block H → Prop) (live : LiveSet H) (d : Dev H) (s s' : Store H) (t t' : Tree H) : Prop
    extends Gained P live d s s' t t' where
  find : ∀ k, t'.find k 0 = t.find k 0

theorem Moved.trans (h : Moved P live d s s₁ t t₁) (hacc : Accounted P live d s t) (h' : Moved P live d s₁ s₂ t₁ t₂) :
    Moved P live d s s₂ t t₂ :=
  ⟨h.toGained.trans hacc h'.toGained, fun k => (h'.find k).trans (h.find k)⟩

theorem Moved.indexed (h : Moved (fun _ => False) live d s s' t t') : Indexed live d s' t' := indexed_iff.mpr h.accounted

/-- Reads and appends that leave the index move nothing. -/
theorem Accounted.moved (h : Accounted P live d s t) (hs : Steps live d s s') (hh : s'.hamt = s.hamt) :
    Moved P live d s s' t t :=
  ⟨h.gained hs hh, fun _ => rfl⟩

/-- A copy of a leaf's block is that leaf. -/
theorem LeafAt.copy {view : Nat → Block H} {len : Nat} {hash : H} {p q : Nat} {key : Key} {value : Bytes}
    {furrows : List Nat} (h : LeafAt view len hash p key value furrows) (hq : q < len) (hv : view q = view p) :
    LeafAt view len hash q key value furrows := by
  cases h with
  | lone hlt hview hhash => exact .lone hq (hv.trans hview) hhash
  | extent hlt hview hhash hruns hread => exact .extent hq (hv.trans hview) hhash hruns hread
  | direct hlt hview hhash hfits hin hread => exact .direct hq (hv.trans hview) hhash hfits hin hread

/-- A copy of a node's block is that node. -/
theorem NodeAt.copy {view : Nat → Block H} {len : Nat} {path : List (Fin 32)} {hash : H} {p q : Nat}
    {slots : Fin 32 → Option (H × Nat)} (h : NodeAt view len path hash p slots) (hq : q < len)
    (hv : view q = view p) : NodeAt view len path hash q slots where
  lt := hq
  depth := h.depth
  block := by rw [hv]; exact h.block
  inside := h.inside

/-- Not a furrow. -/
def Block.NotFurrow (b : Block H) : Prop := ∀ k i payload x, b ≠ .sealed (.furrow k i payload) x

namespace Hamt

/-- The pointer `(h, l)` is replaced by `(h', l')` and the subtree `x` by `y`, which holds the
blocks of `x` less `gone` and the new blocks `news`. -/
theorem repointRoot_run (targetDepth : Option Nat) (news gone : List (Nat × H)) {key : Key} {h h' : H} {l l' : Nat}
    {x y : Tree H} (hidx : Accounted P live d s t) (hs : Steps live d s s₁) (hh : s₁.hamt = s.hamt)
    (hseek : t.seek key h l 0 = some x) (hsep : y.Sep) (huses : ∀ u, ¬ y.Uses u)
    (htarget : ∀ depth ∈ targetDepth, ∃ route slots extra, s₁.view d l = .sealed (.node depth route slots) extra)
    (hy : ∀ path arena, OnPath path key → Rep (s₁.view d) s₁.tract.len arena path (some (.committed h l)) x →
      Rep (s₁.view d) s₁.tract.len arena path (some (.committed h' l')) y)
    (hclaims : ∀ p, y.Claims p ↔ (x.Claims p ∧ p ∉ spots gone) ∨ p ∈ spots news)
    (hgone : ∀ e ∈ gone, x.Claims e.1 ∧ sealedHp (s₁.view d e.1) = some e.2) (hsome : gone ≠ [])
    (hnews : ∀ e ∈ news, ¬ (live.Refers e.1 ∨ s.tract.Behind e.1) ∧ s₁.tract.Behind e.1 ∧
      sealedHp (s₁.view d e.1) = some e.2) (honce : (spots news).Nodup)
    (hfind : ∀ k n, y.find k n = x.find k n) (miss : String) :
    ∃ s₂ t' n, (repointRoot key targetDepth (h, l) (h', l') miss).run s₁ = (.ok (), s₂) ∧
      s₁.Reads d { s₂ with hamt := s₁.hamt } ∧
      Moved P live d s { s₂ with hamt := (s₂.hamt.gain news).lose gone } t t' ∧
      ∀ k, t'.locate k 0 = t.locate k 0 ∨ t.locate k 0 = x.locate k n ∧ t'.locate k 0 = y.locate k n := by
  have hfresh : ∀ p ∈ spots news, ¬ t.Claims p := by
    intro p hp
    obtain ⟨e, he, rfl⟩ := mem_spots.mp hp
    exact (hidx.unrecorded (hnews e he).1).1
  have hholds : s₁.Holds d [] s₁.hamt.root t := by
    rw [show s₁.hamt.root = s.hamt.root by rw [hh]]
    exact hidx.holds hs (by rw [hh])
  obtain ⟨m', arena', lost, n, c', t', cut, hrun, ha, hr, hedit, hl⟩ :=
    repoint_run hsep huses hs.on hholds hidx.sep
      (onPath_nil key) rfl (Nat.zero_le _) hseek htarget hy (by
        intro p hp
        rcases (hclaims p).mp hp with ⟨hp, -⟩ | hp
        · exact .inl hp
        · exact .inr (hfresh p hp))
  have hgraft : Graft key 0 n t t' x y cut := hedit.graft
  set s₂ : Store H := { s₁ with
    mirror := m'
    hamt := (({ s₁.hamt with
      arena := arena', repointHits := s₁.hamt.repointHits + 1 } : Hamt H).lose lost).setRoot c' } with hs₂
  have hreads : s₁.Reads d { s₂ with hamt := s₁.hamt } := ⟨m', rfl, ha, hr⟩
  have hsteps : Steps live d s { s₂ with hamt := (s₂.hamt.gain news).lose gone } :=
    (hs.trans (hreads.steps hs.on hs.cursors)).of_hamt _
  have hview : Store.view { s₂ with hamt := (s₂.hamt.gain news).lose gone } d = s₁.view d := hreads.view
  have hcut : ∀ p, p ∈ spots lost ↔ ∃ e ∈ cut, e.1 = p := by
    intro p
    rw [mem_spots]
    constructor
    · rintro ⟨e, he, hep⟩
      exact ⟨e, (hl e).mp he, hep⟩
    · rintro ⟨e, he, hep⟩
      exact ⟨e, (hl e).mpr he, hep⟩
  have hgoneX : ∀ p ∈ spots gone, x.Claims p := by
    intro p hp
    obtain ⟨e, he, rfl⟩ := mem_spots.mp hp
    exact (hgone e he).1
  have hindexed : Accounted P live d { s₂ with hamt := (s₂.hamt.gain news).lose gone } t' := by
    refine hidx.account hsteps news (lost ++ gone) ?_ hedit.sep ?_ ?_ ?_ ?_ ?_
    · rw [Store.Holds, hview]
      exact hedit.rep
    · simp [hs₂, gain, lose, setRoot, hh]
    · simp [hs₂, gain, lose, setRoot, hh]
    · rw [hview]
      exact hnews
    · intro e he
      rw [hview]
      rcases List.mem_append.mp he with he | he
      · have he' := (hl e).mp he
        exact ⟨.inl (hgraft.gone e he').1, hedit.hashes e he'⟩
      · exact ⟨.inl (hgraft.within _ (hgone e he).1), (hgone e he).2⟩
    · intro p
      rw [hgraft.claims, hclaims, spots_append, List.mem_append, hcut]
      constructor
      · rintro (⟨hp, hx, hg⟩ | ⟨hx, hg⟩ | hp)
        · refine ⟨.inl hp, ?_⟩
          rintro (⟨e, he, rfl⟩ | hg')
          · exact hg e he rfl
          · exact hx (hgoneX p hg')
        · refine ⟨.inl (hgraft.within p hx), ?_⟩
          rintro (⟨e, he, rfl⟩ | hg')
          · exact (hgraft.gone e he).2 hx
          · exact hg hg'
        · refine ⟨.inr hp, ?_⟩
          rintro (⟨e, he, rfl⟩ | hg')
          · exact hfresh _ hp (hgraft.gone e he).1
          · exact hfresh p hp (hgraft.within p (hgoneX p hg'))
      · rintro ⟨hp | hp, hno⟩
        · rw [not_or] at hno
          by_cases hx : x.Claims p
          · exact .inr (.inl ⟨hx, hno.2⟩)
          · exact .inl ⟨hp, hx, fun e he hep => hno.1 ⟨e, he, hep⟩⟩
        · exact .inr (.inr hp)
  refine ⟨s₂, t', n, ?_, hreads, ⟨⟨hsteps, ?_, hindexed, news, lost ++ gone, ?_, ?_, honce, fun e he => (hnews e he).1,
    fun e he => ?_⟩, ?_⟩, hgraft.others⟩
  · have hrun' : (repoint key targetDepth (h, l) (h', l') descentFuel 0 s₁.hamt.root).run s₁ = _ := hrun
    simp [repointRoot, hrun', onHamt, hs₂, setRoot, lose]
  · apply fate_of_removed
    simp [lose, hsome]
  · simp [hs₂, gain, lose, setRoot, hh]
  · simp [hs₂, gain, lose, setRoot, hh]
  · rcases List.mem_append.mp he with he | he
    · exact .inl (hgraft.gone e ((hl e).mp he)).1
    · exact .inl (hgraft.within _ (hgone e he).1)
  · intro k
    rcases hgraft.others k with hk | ⟨hk₁, hk₂⟩
    · rw [Tree.find, Tree.find, hk]
    · have := hfind k n
      rw [Tree.find, Tree.find] at this
      rw [Tree.find, Tree.find, hk₁, hk₂, this]

/-- A survivor that is no furrow is moved: its copy takes its place in the index. -/
theorem repairReloc_run {pos target : Nat} {hp : H} (hidx : Accounted P live d s t)
    (happ : Tract.Appended live.liveness d (fun _ => s.view d pos) [target] s s₁)
    (hhash : sealedHp (s.view d pos) = some hp) (hno : (s.view d pos).NotFurrow) (hclaim : t.Claims pos) :
    ∃ s₂ t', (repairReloc ⟨hp, pos, target⟩).run s₁ = (.ok (), s₂) ∧
      Moved P live d s { s₂ with hamt := (s₂.hamt.gain [(target, hp)]).lose [(pos, hp)] } t t' := by
  have hsteps : Steps live d s s₁ := by
    refine happ.steps fun _ _ _ e x he => ?_
    cases hidx.rep.placed hclaim with
    | leaf _ _ hdoc _ _ =>
      obtain ⟨doc, _, hdoc, hleaf⟩ := hdoc
      rw [hdoc] at he
      cases he
      exact hleaf.elim
    | node _ _ _ _ hdoc _ => rw [hdoc] at he; cases he
    | furrow _ hdoc _ _ => exact hno _ _ _ _ hdoc
  obtain ⟨hlt, href, hbehind⟩ := happ.fresh target (by simp)
  have hview : s₁.view d target = s.view d pos := happ.placed 0 target rfl
  have hpos : s₁.view d pos = s.view d pos := hsteps.frame pos (hidx.kept hclaim)
  have hread : (Tract.read target).run s₁ = (.ok (s.view d pos), s₁) := by
    rw [Tract.read_run hsteps.on (by rw [hsteps.len]; exact hlt), hview]
  have hlt₁ : target < s₁.tract.len := by rw [hsteps.len]; exact hlt
  have hnews : ∀ e ∈ [(target, hp)], ¬ (live.Refers e.1 ∨ s.tract.Behind e.1) ∧ s₁.tract.Behind e.1 ∧
      sealedHp (s₁.view d e.1) = some e.2 := by
    intro e he
    rw [List.mem_singleton.mp he]
    refine ⟨by simp [LiveSet.Refers, href, hbehind], (happ.behind target).mpr (.inr (by simp)), ?_⟩
    rw [hview]
    exact hhash
  have hfresh : ¬ t.Claims target := (hidx.unrecorded (hnews (target, hp) (by simp)).1).1
  have hne : target ≠ pos := fun h => hfresh (h ▸ hclaim)
  cases hidx.rep.placed hclaim with
  | @leaf h key value furrows hpath hh hdoc hseek hlocate =>
    obtain rfl : h = hp := Option.some.inj (hh.symm.trans hhash)
    have hnotin : target ∉ furrows := fun hm => hfresh (Tree.claims_of_seek hseek (.inr hm))
    have hsepx : pos ∉ furrows ∧ furrows.Nodup := hidx.sep.sought hseek
    obtain ⟨s₂, t', n, hrun, -, hmoved, -⟩ := repointRoot_run none [(target, h)] [(pos, h)]
      (y := .leaf h target key value furrows) hidx hsteps happ.hamt hseek
      ⟨hnotin, hsepx.2⟩ (fun u hu => hu) (by simp)
      (fun path arena hk hrep => ⟨rfl, hk, hrep.2.2.copy hlt₁ (hview.trans hpos.symm)⟩)
      (by
        intro p
        simp only [Tree.Claims, spots_cons, spots_nil, List.mem_cons, List.not_mem_nil, or_false]
        constructor
        · rintro (rfl | hp)
          · exact .inr rfl
          · exact .inl ⟨.inr hp, fun h => hsepx.1 (h ▸ hp)⟩
        · rintro (⟨rfl | hp, hne'⟩ | rfl)
          · exact absurd rfl hne'
          · exact .inr hp
          · exact .inl rfl)
      (by simpa [Tree.Claims, hpos] using hhash) (by simp) hnews (by simp)
      (fun k n => by rw [Tree.find_leaf, Tree.find_leaf])
      s!"relocation repointed nothing for block at {pos} — refusing to orphan a live block"
    refine ⟨s₂, t', ?_, hmoved⟩
    obtain ⟨doc, extra, hdoc, hleaf⟩ := hdoc
    rw [hdoc] at hread
    -- the copy decodes to a leaf of `key`, whichever of the three it is
    cases doc with
    | lone => obtain ⟨rfl, -⟩ := hleaf; simp [repairReloc, hread, sealedHp, decodeDoc]; exact hrun
    | extent => obtain ⟨rfl, -⟩ := hleaf; simp [repairReloc, hread, sealedHp, decodeDoc]; exact hrun
    | direct => obtain ⟨rfl, -⟩ := hleaf; simp [repairReloc, hread, sealedHp, decodeDoc]; exact hrun
    | _ => exact hleaf.elim
  | @node h depth route slots extra ch hpath hdepth hmax hh hdoc hseek =>
    obtain rfl : h = hp := Option.some.inj (hh.symm.trans hhash)
    have hnotin : ∀ i, ¬ (ch i).Claims target := fun i hc =>
      hfresh (Tree.claims_of_seek hseek (.inr ⟨i, hc⟩))
    have hsepx : (Tree.disk h pos ch).Sep := hidx.sep.sought hseek
    obtain ⟨path', -, -, hrepx⟩ := hidx.rep.sought (onPath_nil route) hseek
    have hnouses := hrepx.no_uses (by simp)
    obtain ⟨s₂, t', n, hrun, -, hmoved, -⟩ := repointRoot_run (some depth) [(target, h)] [(pos, h)]
      (y := .disk h target ch) hidx hsteps happ.hamt hseek
      ⟨hsepx.1, hsepx.2.1, hnotin⟩ (fun u hu => hnouses u hu)
      (by
        intro depth' hd
        obtain rfl : depth' = depth := by simpa using hd.symm
        exact ⟨route, slots, extra, hpos.trans hdoc⟩)
      (fun path arena hk hrep => by
        obtain ⟨-, slots', hnode, hch⟩ := hrep
        exact ⟨rfl, slots', hnode.copy hlt₁ (hview.trans hpos.symm), hch⟩)
      (by
        intro p
        simp only [Tree.Claims, spots_cons, spots_nil, List.mem_cons, List.not_mem_nil, or_false]
        constructor
        · rintro (rfl | ⟨i, hp⟩)
          · exact .inr rfl
          · exact .inl ⟨.inr ⟨i, hp⟩, fun h => hsepx.2.2 i (h ▸ hp)⟩
        · rintro (⟨rfl | hp, hne'⟩ | rfl)
          · exact absurd rfl hne'
          · exact .inr hp
          · exact .inl rfl)
      (by simpa [Tree.Claims, hpos] using hhash) (by simp) hnews (by simp) (fun k n => rfl)
      s!"relocation repointed nothing for block at {pos} — refusing to orphan a live block"
    refine ⟨s₂, t', ?_, hmoved⟩
    rw [hdoc] at hread
    simp [repairReloc, hread, sealedHp, decodeDoc, hmax, Node.ofSlots]
    exact hrun
  | furrow hpath hdoc hlocate hi => exact absurd hdoc (hno _ _ _ _)

/-- What the reap knows of a survivor that is no furrow. -/
structure Survivor (live : LiveSet H) (d : Dev H) (s : Store H) (e : Nat × H) : Prop where
  lt : e.1 < s.tract.len
  live : live.Refers e.1
  hash : sealedHp (s.view d e.1) = some e.2
  notFurrow : (s.view d e.1).NotFurrow

theorem Survivor.steps {e : Nat × H} (h : Survivor live d s e) (hs : Steps live d s s') :
    Survivor live d s' e where
  lt := by rw [hs.len]; exact h.lt
  live := h.live
  hash := by rw [hs.frame _ (.inl h.live)]; exact h.hash
  notFurrow := by rw [hs.frame _ (.inl h.live)]; exact h.notFurrow

theorem moveBlock_sat (hP : ∀ b, P b → sealedHp b = none) (hidx : Accounted P live d s t) {e : Nat × H}
    (he : Survivor live d s e) :
    Sat (moveBlock live.liveness e) s
      (fun _ s' => e.1 ∈ spots s'.hamt.delta.removed ∧ ∃ t', Moved P live d s s' t t')
      (fun err s' => err.Refused ∧ ∃ t', Moved P live d s s' t t') := by
  unfold moveBlock
  refine sat_state ?_
  by_cases hmem : s.hamt.delta.removed.contains e = true
  · rw [if_pos hmem]
    refine sat_pure ⟨mem_spots.mpr ⟨e, by simpa using hmem, rfl⟩, t, ?_⟩
    exact hidx.moved (.refl hidx.on hidx.cursors) rfl
  · rw [if_neg hmem]
    have hclaim : t.Claims e.1 := by
      refine (hidx.claims e.1).mpr ⟨.inl he.live, fun hm => hmem ?_⟩
      obtain ⟨e', he', heq⟩ := mem_spots.mp hm
      have hhash := (hidx.removed e' he').2.resolve_right fun hgone => by
        have := hP _ hgone.2
        rw [heq, he.hash] at this
        cases this
      rw [heq, he.hash] at hhash
      rw [List.contains_iff_mem, show e = e' from Prod.ext heq.symm (Option.some.inj hhash)]
      exact he'
    refine sat_run (Tract.read_run hidx.on he.lt) ?_
    rw [if_neg (by simp [he.hash])]
    refine sat_bind ((Tract.appendOne_sat hidx.on hidx.cursors _).mono (fun _ _ h => h) fun err s' h => ?_)
      fun target s₁ happ => ?_
    · exact ⟨h.1, t, hidx.moved (h.2.steps hidx.cursors) h.2.hamt⟩
    · obtain ⟨s₂, t', hrun, hmoved⟩ := repairReloc_run hidx happ he.hash he.notFurrow hclaim
      refine sat_run hrun (sat_run (onHamt_run _ _) ?_)
      refine ⟨?_, t', hmoved⟩
      simp [pushRemoved]

end Hamt
end Manifestus
