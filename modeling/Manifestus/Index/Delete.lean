import Manifestus.Index.Repoint

/-! A delete records the key's blocks as removed and cuts the pointer to its leaf; where zero is
erase it zeroes the blocks first. -/
set_option linter.unusedSectionVars false

namespace Manifestus
open Prog Store

variable {H : Type} [Crates H] {d d' : Dev H} {live : LiveSet H} {s s' : Store H} {t : Tree H}

/-- The index is accounted for wherever its blocks can be read. -/
theorem Accounted.relocate {P : Block H → Prop} (h : Accounted P live d s t) (hon : s'.On d')
    (hcur : s'.tract.Cursors) (hlen : s'.tract.len = s.tract.len) (hhamt : s'.hamt = s.hamt)
    (hbehind : ∀ p, s.tract.Behind p → s'.tract.Behind p)
    (hview : ∀ p, live.Refers p ∨ s.tract.Behind p →
      s'.view d' p = s.view d p ∨ p ∈ spots s.hamt.delta.removed ∧ P (s'.view d' p)) :
    Accounted P live d' s' t := by
  have hshows : ∀ e, live.Refers e.1 ∨ s.tract.Behind e.1 → Stands P d s e → Stands P d' s' e := by
    intro e hk hsh
    rw [Stands, hhamt]
    rcases hview e.1 hk with heq | hgone
    · rw [heq]
      exact hsh
    · exact .inr hgone
  refine
    { on := hon
      cursors := hcur
      rep := ?_
      sep := h.sep
      claims := by rw [hhamt]; exact h.claims
      added := ?_
      removed := ?_
      known := fun e he => hshows e (.inl (LiveSet.refers_of_mem he)) (h.known e he)
      record := by rw [hhamt]; exact h.record }
  · rw [hhamt, Store.Holds]
    refine h.rep.congr hlen.ge (fun p hp => ?_) fun x _ => by rw [hhamt]
    exact (hview p (h.kept hp)).resolve_right fun hgone => ((h.claims p).mp hp).2 hgone.1
  · rw [hhamt]
    intro e he
    obtain ⟨hb, hsh⟩ := h.added e he
    exact ⟨hbehind _ hb, hshows e (.inr hb) hsh⟩
  · rw [hhamt]
    intro e he
    obtain ⟨hr, hsh⟩ := h.removed e he
    exact ⟨hr, hshows e (h.kept_record (List.mem_append_right _ he)) hsh⟩

/-- A block is zeroed, everything staged written out before. -/
theorem Tract.zeroDelete_run (hon : s.On d) {p : Nat} (hp : p < s.tract.len) :
    ∃ m' d', (zeroDelete p).run s = (.ok (), { s with mirror := m' }) ∧ Store.On { s with mirror := m' } d' ∧
      ∀ q, Store.view { s with mirror := m' } d' q = if q = p then .zero else s.view d q := by
  have hl : s.tract.base + p < d.count := (Nat.add_lt_add_left hp _).trans_le hon.fits
  obtain ⟨m', hrun, hready, hpend⟩ := Mirror.writeVerified_run hon.ready hl .zero
  refine ⟨m', _, ?_, ⟨hready, by simpa using hon.fits⟩, fun q => ?_⟩
  · simp [zeroDelete, inBounds, hp, onMirror, hrun]
  · rw [Store.view, Mirror.view_of_pending_nil hpend, Dev.flushed_data, Dev.landed_data, Mirror.drained_data,
      Function.update_apply]
    by_cases hq : q = p
    · rw [if_pos hq, hq, if_pos rfl]
    · rw [if_neg hq, if_neg fun heq => hq (Nat.add_left_cancel heq)]
      rfl

theorem Tract.each_zeroDelete_run {ps : List Nat} : ∀ {s : Store H} {d : Dev H}, s.On d → (∀ p ∈ ps, p < s.tract.len) →
    ∃ m' d', (each zeroDelete ps).run s = (.ok (), { s with mirror := m' }) ∧ Store.On { s with mirror := m' } d' ∧
      ∀ q, Store.view { s with mirror := m' } d' q = if q ∈ ps then .zero else s.view d q := by
  induction ps with
  | nil => exact fun {s d} hon _ => ⟨s.mirror, d, by simp [each], hon, by simp⟩
  | cons p ps ih =>
    intro s d hon hin
    simp only [List.mem_cons, forall_eq_or_imp] at hin
    obtain ⟨m₁, d₁, hrun₁, hon₁, hview₁⟩ := zeroDelete_run hon hin.1
    obtain ⟨m₂, d₂, hrun₂, hon₂, hview₂⟩ := ih hon₁ hin.2
    refine ⟨m₂, d₂, by simp [each, hrun₁, hrun₂], hon₂, fun q => ?_⟩
    rw [hview₂, hview₁]
    by_cases hq : q = p
    · simp [hq]
    · simp [hq]

namespace Hamt

/-- The blocks of a leaf are zeroed. -/
theorem eraseLeaf_run (hon : s.On d) {hash : H} {lba : Nat} {key : Key} {value : Bytes} {furrows : List Nat}
    (hleaf : LeafAt (s.view d) s.tract.len hash lba key value furrows) :
    ∃ m' d', (eraseLeaf lba hash).run s = (.ok (), { s with mirror := m' }) ∧ Store.On { s with mirror := m' } d' ∧
      ∀ q, Store.view { s with mirror := m' } d' q = if q = lba ∨ q ∈ furrows then .zero else s.view d q := by
  obtain ⟨s₁, hrun, m₁, rfl, ha, hr⟩ := readDoc_run hon hleaf.lt hash
  have hon₁ : Store.On { s with mirror := m₁ } d := ⟨hr, hon.fits⟩
  have hview₁ : Store.view { s with mirror := m₁ } d = s.view d := by
    funext p
    exact congrFun (ha.view d) _
  obtain ⟨m₂, d₂, hrun₂, hon₂, hview₂⟩ := Tract.each_zeroDelete_run hon₁ (show ∀ p ∈ furrows, _ from fun p hp => hleaf.furrow_lt hp)
  obtain ⟨m₃, d₃, hrun₃, hon₃, hview₃⟩ := Tract.zeroDelete_run hon₂ (p := lba) hleaf.lt
  have hall : ∀ q, Store.view { s with mirror := m₃ } d₃ q = if q = lba ∨ q ∈ furrows then .zero else s.view d q := by
    intro q
    rw [hview₃, hview₂, hview₁]
    by_cases hq : q = lba
    · simp [hq]
    · simp [hq]
  rcases hleaf.docOf with ⟨hdoc, rfl⟩ | ⟨runs, hdoc, hruns, -⟩ | ⟨hdoc, -, -⟩
  · rw [hdoc] at hrun
    obtain ⟨m, d', hlone, hon', hview'⟩ := Tract.zeroDelete_run hon₁ (p := lba) hleaf.lt
    refine ⟨m, d', by simp [eraseLeaf, hrun, hlone], hon', fun q => ?_⟩
    rw [hview', hview₁]
    simp
  · rw [hdoc] at hrun
    exact ⟨m₃, d₃, by simp [eraseLeaf, hrun, hruns, hrun₂, hrun₃], hon₃, hall⟩
  · rw [hdoc] at hrun
    exact ⟨m₃, d₃, by simp [eraseLeaf, hrun, hrun₂, hrun₃], hon₃, hall⟩

/-- A delete under either policy: the blocks it records as removed may be zero afterwards. -/
theorem delete_accounted {P : Block H → Prop} (h : Accounted P live d s t) (key : Key) (policy : DeletePolicy)
    (hzero : policy = .zeroIsErase → P .zero) :
    ∃ s' d' t', (delete key policy).run s = (.ok (t.find key 0).isSome, s') ∧ Accounted P live d' s' t' ∧
      s'.tract = s.tract ∧ s'.hamt.delta.added = s.hamt.delta.added ∧ s.hamt.Fate s'.hamt ∧ t.Within s t' ∧
      (∀ k, t'.find k 0 = if k = key then none else t.find k 0) ∧
      (policy = .unlinkOnly → d' = d ∧ s.mirror.Agrees s'.mirror) := by
  obtain ⟨s₁, hfind, hreads⟩ := findLeaf_run h.on h.rep key
  have hsteps₁ : Steps live d s s₁ := hreads.steps h.on h.cursors
  rcases hl : t.locate key 0 with _ | ⟨hash, lba, value, furrows⟩
  · have hnone : t.find key 0 = none := by rw [Tree.find, hl]; rfl
    rw [hl] at hfind
    refine ⟨s₁, d, t, by simp [delete, hfind, hnone], ?_, hreads.tract, by rw [hreads.hamt], ?_, .refl s t,
      fun k => ?_, fun _ => ⟨rfl, ?_⟩⟩
    · exact h.steps hsteps₁ (by rw [hreads.hamt]) (by rw [hreads.hamt]) (by rw [hreads.hamt])
    · rw [hreads.hamt]
      exact .refl _
    · split
      next hk => rw [hk, hnone]
      · rfl
    · obtain ⟨m', rfl, ha, -⟩ := hreads
      exact ha
  · have hsome : t.find key 0 = some value := by rw [Tree.find, hl]; rfl
    rw [hl] at hfind
    obtain ⟨hleaf, hseek, hclaims⟩ := Rep.located h.rep (onPath_nil key) hl
    obtain ⟨m₀, rfl, ha₀, hr₀⟩ := hreads
    have hview₀ : ({ s with mirror := m₀ } : Store H).view d = s.view d := by
      funext p
      exact congrFun (ha₀.view d) _
    obtain ⟨m₁, lost₁, hrem, ha₁, hr₁, hspots, hhash₁⟩ :=
      removeLeafBlocks_run (s := { s with mirror := m₀ }) ⟨hr₀, h.on.fits⟩ (by rw [hview₀]; exact hleaf)
    rw [hview₀] at hhash₁
    set s₂ : Store H := { s with mirror := m₁, hamt := s.hamt.lose lost₁ } with hs₂
    have hview₂ : s₂.view d = s.view d := by
      funext p
      exact congrFun ((ha₀.trans ha₁).view d) _
    -- what is left of the leaf after an erase, if there is one
    obtain ⟨m₃, d', herase, hon₃, hview₃, hkeep⟩ : ∃ m₃ d', (if policy = .zeroIsErase then eraseLeaf lba hash else pure
        () : Prog Error (Store H) Unit).run s₂ = (.ok (), { s₂ with mirror := m₃ }) ∧
        Store.On { s₂ with mirror := m₃ } d' ∧ (∀ q, Store.view { s₂ with mirror := m₃ } d' q = s.view d q ∨
          (q = lba ∨ q ∈ furrows) ∧ P (Store.view { s₂ with mirror := m₃ } d' q)) ∧
        (policy = .unlinkOnly → d' = d ∧ m₃ = m₁) := by
      cases policy with
      | unlinkOnly => exact ⟨m₁, d, rfl, ⟨hr₁, h.on.fits⟩, fun q => .inl (congrFun hview₂ q), fun _ => ⟨rfl, rfl⟩⟩
      | zeroIsErase =>
        obtain ⟨m₃, d', hrun, hon₃, hview₃⟩ := eraseLeaf_run (s := s₂) ⟨hr₁, h.on.fits⟩ (by rw [hview₂]; exact hleaf)
        refine ⟨m₃, d', hrun, hon₃, fun q => ?_, fun hc => by cases hc⟩
        rw [hview₃]
        split
        next hq => exact .inr ⟨hq, hzero rfl⟩
        · exact .inl (congrFun hview₂ q)
    obtain ⟨m₄, arena', lost₂, n, c', t', gone, hprune, ha₄, hr₄, hedit, -, hl₂⟩ :=
      pruneChild_run (s := { s₂ with mirror := m₃ }) (f := descentFuel) (c := s.hamt.root) hon₃ h.rep
        (fun p _ (hx : ¬ (Tree.leaf hash lba key value furrows).Claims p) =>
          (hview₃ p).resolve_right fun hq => hx hq.1) h.sep (onPath_nil key) rfl (Nat.zero_le _) hseek
    have hgraft : Graft key 0 n t t' (.leaf hash lba key value furrows) .empty gone := hedit.graft
    set final : Hamt H := (({ s.hamt.lose lost₁ with arena := arena' } : Hamt H).lose lost₂).setRoot c' with hfinal
    -- the index accounts for the delete before anything is erased
    have hreads₂ : s.Reads d { s with mirror := m₁ } := ⟨m₁, rfl, ha₀.trans ha₁, hr₁⟩
    have hsteps : Steps live d s { s with mirror := m₁, hamt := final } := (hreads₂.steps h.on h.cursors).of_hamt _
    have hlost₁ : ∀ e ∈ lost₁, t.Claims e.1 ∧ (Tree.leaf hash lba key value furrows).Claims e.1 := by
      intro e he
      have hmem : e.1 ∈ lba :: furrows := hspots ▸ mem_spots.mpr ⟨e, he, rfl⟩
      have hor : e.1 = lba ∨ e.1 ∈ furrows := by simpa using hmem
      exact ⟨hclaims _ hor, hor⟩
    have hacc : Accounted P live d { s with mirror := m₁, hamt := final } t' := by
      refine h.account hsteps [] (lost₁ ++ lost₂) ?_ hedit.sep (by simp [hfinal, setRoot, lose])
        (by simp [hfinal, setRoot, lose]) (by simp) ?_ ?_
      · have hview : Store.view { s with mirror := m₁, hamt := final } d = s.view d := hview₂
        rw [Store.Holds, hview]
        exact hedit.rep
      · intro e he
        have hview : Store.view { s with mirror := m₁, hamt := final } d = s.view d := hview₂
        rw [hview]
        rcases List.mem_append.mp he with he | he
        · exact ⟨.inl (hlost₁ e he).1, hhash₁ e he⟩
        · rw [hl₂] at he
          exact ⟨.inl (hgraft.gone e he).1, hedit.hashes e he⟩
      · intro p
        rw [hgraft.claims, spots_append, List.mem_append, hspots]
        simp only [spots_nil, List.not_mem_nil, or_false, Tree.Claims, List.mem_cons]
        have hgone : (∀ e ∈ gone, e.1 ≠ p) ↔ p ∉ spots lost₂ := by
          rw [mem_spots]
          constructor
          · rintro hg ⟨e, he, hep⟩
            exact hg e ((hl₂ e).mp he) hep
          · intro hg e he hep
            exact hg ⟨e, (hl₂ e).mpr he, hep⟩
        rw [hgone]
        tauto
    set s₅ : Store H := { s with mirror := m₄, hamt := final } with hs₅
    have hview₅ : s₅.view d' = Store.view { s₂ with mirror := m₃ } d' := by
      funext p
      exact congrFun (ha₄.view d') _
    refine ⟨s₅, d', t', ?_, ?_, rfl, by simp [hs₅, hfinal, setRoot, lose], ?_,
      fun p hp => .inl (((hgraft.claims p).mp hp).elim And.left False.elim), fun k => ?_, fun hu => ?_⟩
    · have hcut : (prune key (hash, lba)).run { s₂ with mirror := m₃ } = (.ok (), s₅) := by
        simp only [prune, bind_run, state_run, onHamt_run]
        rw [show (pruneChild key (hash, lba) descentFuel 0 (s.hamt.lose lost₁).root).run { s₂ with mirror := m₃ } = _
          from hprune]
      simp only [delete, bind_run, hfind, Option.map_some, hrem, hsome]
      by_cases hz : policy = .zeroIsErase
      · rw [if_pos hz] at herase ⊢
        simp [herase, hcut]
      · rw [if_neg hz] at herase ⊢
        rw [show s₂ = { s₂ with mirror := m₃ } from (Prod.mk.inj herase).2]
        simp [hcut]
    · refine hacc.relocate ⟨hr₄, hon₃.fits⟩ h.cursors rfl rfl (fun _ hb => hb) fun p _ => ?_
      have hold : Store.view { s with mirror := m₁, hamt := final } d p = s.view d p := congrFun hview₂ p
      rw [hview₅, hold]
      refine (hview₃ p).imp_right fun hq => ⟨?_, hq.2⟩
      simp only [hfinal, setRoot, lose, spots_append, hspots, List.mem_append, List.mem_cons]
      exact .inl (.inr hq.1)
    · apply fate_of_removed
      have : lost₁ ≠ [] := by
        rintro rfl
        cases hspots
      simp [hs₅, hfinal, setRoot, lose, this]
    · by_cases hk : k = key
      · subst hk
        rw [if_pos rfl, Tree.find, hgraft.way.2]
        rfl
      · rw [if_neg hk, Tree.find, Tree.find]
        rcases hgraft.others k with h' | ⟨h₁, h₂⟩
        · rw [h']
        · have hempty : t.locate k 0 = none := by
            rw [h₁, Tree.locate_leaf, if_neg (Ne.symm hk)]
          rw [h₂, hempty]
          rfl
    · obtain ⟨rfl, rfl⟩ := hkeep hu
      exact ⟨rfl, (ha₀.trans ha₁).trans ha₄⟩

theorem delete_run (h : Indexed live d s t) (key : Key) :
    ∃ s', (delete key .unlinkOnly).run s = (.ok (t.find key 0).isSome, s') ∧ Steps live d s s' ∧
      s.hamt.Fate s'.hamt ∧ ∃ t', Indexed live d s' t' ∧ t.Within s t' ∧
        ∀ k, t'.find k 0 = if k = key then none else t.find k 0 := by
  obtain ⟨s', d', t', hrun, h', htract, -, hfate, hin, hfind, hkeep⟩ :=
    delete_accounted (indexed_iff.mp h) key .unlinkOnly (by simp)
  obtain ⟨rfl, ha⟩ := hkeep rfl
  have hreads : s.Reads d' { s with mirror := s'.mirror } := ⟨s'.mirror, rfl, ha, h'.on.ready⟩
  have hsteps : Steps live d' s { s with mirror := s'.mirror, hamt := s'.hamt } :=
    (hreads.steps h.on h.cursors).of_hamt _
  have hs' : ({ s with mirror := s'.mirror, hamt := s'.hamt } : Store H) = s' := by
    rw [← htract]
  rw [hs'] at hsteps
  exact ⟨s', hrun, hsteps, hfate, t', indexed_iff.mpr h', hin, hfind⟩

end Hamt
end Manifestus
