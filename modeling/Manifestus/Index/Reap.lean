import Manifestus.Index.Move
import Manifestus.Index.Put

/-! The reap: the survivors of a window are sorted by what they are, the furrows of a value move
together with a rebuilt leaf, the rest move one by one. -/
set_option linter.unusedSectionVars false

namespace Manifestus
open Prog Store

variable {H : Type} [Crates H] {d : Dev H} {live : LiveSet H} {s s' s₁ s₂ s₃ : Store H} {t t' : Tree H}
  {P : Block H → Prop}

/-- The hash of a sealed block. -/
def hashOf (b : Block H) : H := (sealedHp b).getD Crates.zeros

theorem hashOf_eq {b : Block H} {h : H} (hb : sealedHp b = some h) : hashOf b = h := by
  simp [hashOf, hb]

namespace Hamt

/-- Moved furrows patched into a position list: each takes its index's place. -/
theorem patchPositions_ok {g : List ((Nat × Nat) × Nat)} : ∀ {fs : List Nat}, fs.Nodup →
    (∀ x ∈ g, fs[x.1.2]? = some x.1.1) → (g.map fun x => x.1.1).Nodup → (g.map Prod.snd).Nodup →
    (∀ x ∈ g, x.2 ∉ fs) →
    ∃ fs', patchPositions g fs = .ok fs' ∧ fs'.length = fs.length ∧ fs'.Nodup ∧
      (∀ q, q ∈ fs' ↔ (q ∈ fs ∧ q ∉ g.map fun x => x.1.1) ∨ q ∈ g.map Prod.snd) ∧
      ∀ view : Nat → Block H, (∀ x ∈ g, view x.2 = view x.1.1) → fs'.map view = fs.map view := by
  induction g with
  | nil => intro fs hnd _ _ _ _; exact ⟨fs, rfl, rfl, hnd, by simp, fun _ _ => rfl⟩
  | cons x g ih =>
    obtain ⟨⟨p, i⟩, q⟩ := x
    intro fs hnd hat hsrc htgt hfresh
    simp only [List.mem_cons, forall_eq_or_imp] at hat hfresh
    simp only [List.map_cons, List.nodup_cons] at hsrc htgt
    obtain ⟨hi, hip⟩ := List.getElem?_eq_some_iff.mp hat.1
    have hother : ∀ y ∈ g, y.1.2 ≠ i := by
      intro y hy heq
      have hy' := hat.2 y hy
      rw [heq, hat.1] at hy'
      exact hsrc.1 (List.mem_map.mpr ⟨y, hy, (Option.some.inj hy').symm⟩)
    have hmem : ∀ r, r ∈ fs.set i q ↔ (r ∈ fs ∧ r ≠ p) ∨ r = q := by
      intro r
      simp only [List.mem_iff_getElem?, List.getElem?_set]
      constructor
      · rintro ⟨j, hj⟩
        split at hj
        next hij =>
          subst hij
          simp only [Option.some.injEq] at hj
          exact .inr hj.symm
        next hij =>
          refine .inl ⟨⟨j, hj⟩, ?_⟩
          rintro rfl
          obtain ⟨hjlt, hjr⟩ := List.getElem?_eq_some_iff.mp hj
          exact hij ((List.Nodup.getElem_inj_iff hnd).mp (hip.trans hjr.symm))
      · rintro (⟨⟨j, hj⟩, hr⟩ | rfl)
        · refine ⟨j, ?_⟩
          rw [if_neg, hj]
          rintro rfl
          rw [hat.1] at hj
          exact hr (Option.some.inj hj).symm
        · exact ⟨i, by simp [hi]⟩
    obtain ⟨fs', hrun, hlen, hnd', hmem', hmap⟩ := ih (List.Nodup.set hnd hfresh.1)
      (fun y hy => by rw [List.getElem?_set_ne (Ne.symm (hother y hy))]; exact hat.2 y hy) hsrc.2 htgt.2
      (fun y hy hc => by
        rcases (hmem _).mp hc with ⟨hc, -⟩ | hc
        · exact hfresh.2 y hy hc
        · exact htgt.1 (List.mem_map.mpr ⟨y, hy, hc⟩))
    refine ⟨fs', ?_, by simpa using hlen, hnd', fun r => ?_, fun view hview => ?_⟩
    · rw [patchPositions, if_neg (by omega)]
      exact hrun
    · rw [hmem', hmem]
      simp only [List.map_cons, List.mem_cons, not_or]
      constructor
      · rintro (⟨⟨hr, hrp⟩ | rfl, hno⟩ | hr)
        · exact .inl ⟨hr, hrp, hno⟩
        · exact .inr (.inl rfl)
        · exact .inr (.inr hr)
      · rintro (⟨hr, hrp, hno⟩ | rfl | hr)
        · exact .inl ⟨.inl ⟨hr, hrp⟩, hno⟩
        · refine .inl ⟨.inr rfl, fun hc => ?_⟩
          obtain ⟨y, hy, hyr⟩ := List.mem_map.mp hc
          exact hfresh.1 (hyr ▸ List.mem_of_getElem? (hat.2 y hy))
        · exact .inr hr
    · simp only [List.mem_cons, forall_eq_or_imp] at hview
      rw [hmap view hview.2, List.map_set, hview.1, ← hip, ← List.getElem_map view (h := by simpa using hi)]
      exact List.set_getElem_self _

theorem hpOf_run {b : Block H} {h : H} (hb : sealedHp b = some h) (s : Store H) :
    (hpOf b).run s = (.ok (hashOf b), s) := by
  simp [hpOf, hb, hashOf]

/-- Every element's block is sealed: its position and hash are pushed onto the additions. -/
theorem each_gain_run {α : Type} {block : α → Block H} {pos : α → Nat} {l : List α} :
    ∀ {s : Store H}, (∀ a ∈ l, ∃ h, sealedHp (block a) = some h) →
    (each (fun a => do
        let h ← hpOf (block a)
        onHamt (pushAdded (pos a) h)) l).run s =
      (.ok (), { s with hamt := s.hamt.gain (l.map fun a => (pos a, hashOf (block a))) }) := by
  induction l with
  | nil => intro s _; simp [each]
  | cons a l ih =>
    intro s h
    simp only [List.mem_cons, forall_eq_or_imp] at h
    obtain ⟨⟨hash, hhash⟩, hrest⟩ := h
    simp only [each, bind_run, hpOf_run hhash, onHamt_run, pushAdded_eq, ih hrest, gain_gain,
      List.map_cons, List.singleton_append]

/-- The same for the removals. -/
theorem each_lose_run {α : Type} {block : α → Block H} {pos : α → Nat} {l : List α} :
    ∀ {s : Store H}, (∀ a ∈ l, ∃ h, sealedHp (block a) = some h) →
    (each (fun a => do
        let h ← hpOf (block a)
        onHamt (pushRemoved (pos a) h)) l).run s =
      (.ok (), { s with hamt := s.hamt.lose (l.map fun a => (pos a, hashOf (block a))) }) := by
  induction l with
  | nil => intro s _; simp [each]
  | cons a l ih =>
    intro s h
    simp only [List.mem_cons, forall_eq_or_imp] at h
    obtain ⟨⟨hash, hhash⟩, hrest⟩ := h
    simp only [each, bind_run, hpOf_run hhash, onHamt_run, pushRemoved_eq, ih hrest, lose_lose,
      List.map_cons, List.singleton_append]

/-- What the reap knows of a group of furrows of one value. -/
structure Group (t : Tree H) (key : Key) (group : List (Nat × Nat)) : Prop where
  located : ∀ x ∈ group, ∃ h l v fs, t.locate key 0 = some (h, l, v, fs) ∧ fs[x.2]? = some x.1
  nodup : (group.map Prod.fst).Nodup

theorem Group.perm {key : Key} {g g' : List (Nat × Nat)} (h : Group t key g) (hp : g'.Perm g) :
    Group t key g' where
  located x hx := h.located x (hp.mem_iff.mp hx)
  nodup := (hp.map Prod.fst).nodup_iff.mpr h.nodup

/-- The copies of the furrows `g` at `ps`. -/
def copies (view : Nat → Block H) (g : List (Nat × Nat)) (ps : List Nat) : List (Nat × H) :=
  (((g.map Prod.fst).map view).zip ps).map fun a => (a.2, hashOf a.1)

/-- The furrows `g` where they were. -/
def sources (view : Nat → Block H) (g : List (Nat × Nat)) : List (Nat × H) :=
  (g.zip ((g.map Prod.fst).map view)).map fun a => (a.1.1, hashOf a.2)

theorem spots_copies (view : Nat → Block H) {g : List (Nat × Nat)} {ps : List Nat} (h : ps.length = g.length) :
    spots (copies view g ps) = ps := by
  rw [spots, copies, List.map_map, show Prod.fst ∘ (fun a : Block H × Nat => (a.2, hashOf a.1)) = Prod.snd from rfl,
    List.map_snd_zip (by simp [h])]

theorem spots_sources (view : Nat → Block H) (g : List (Nat × Nat)) :
    spots (sources view g) = g.map Prod.fst := by
  rw [spots, sources, List.map_map, show Prod.fst ∘ (fun a : (Nat × Nat) × Block H => (a.1.1, hashOf a.2)) =
    Prod.fst ∘ Prod.fst from rfl, ← List.map_map, List.map_fst_zip (by simp)]

theorem mem_copies {view : Nat → Block H} {g : List (Nat × Nat)} {ps : List Nat} {e : Nat × H}
    (h : e ∈ copies view g ps) : ∃ (i : Nat) (x : Nat × Nat), g[i]? = some x ∧ ps[i]? = some e.1 ∧
      e.2 = hashOf (view x.1) := by
  obtain ⟨a, ha, rfl⟩ := List.mem_map.mp h
  obtain ⟨i, hi⟩ := List.mem_iff_getElem?.mp ha
  obtain ⟨h₁, h₂⟩ := List.getElem?_zip_eq_some.mp hi
  simp only [List.map_map, List.getElem?_map, Option.map_eq_some_iff] at h₁
  obtain ⟨x, hx, hxa⟩ := h₁
  exact ⟨i, x, hx, h₂, by rw [← hxa]; rfl⟩

theorem mem_sources {view : Nat → Block H} {g : List (Nat × Nat)} {e : Nat × H} (h : e ∈ sources view g) :
    ∃ x ∈ g, e = (x.1, hashOf (view x.1)) := by
  obtain ⟨a, ha, rfl⟩ := List.mem_map.mp h
  obtain ⟨i, hi⟩ := List.mem_iff_getElem?.mp ha
  obtain ⟨h₁, h₂⟩ := List.getElem?_zip_eq_some.mp hi
  simp only [List.map_map, List.getElem?_map, h₁, Option.map_some, Option.some.injEq] at h₂
  exact ⟨a.1, List.mem_of_getElem? h₁, by rw [← h₂]; rfl⟩

theorem Group.mem {key : Key} {h : H} {l : Nat} {v : Bytes} {fs : List Nat} {g : List (Nat × Nat)}
    (hg : Group t key g) (hloc : t.locate key 0 = some (h, l, v, fs)) {x : Nat × Nat} (hx : x ∈ g) :
    fs[x.2]? = some x.1 := by
  obtain ⟨h', l', v', fs', hloc', hi⟩ := hg.located x hx
  rw [hloc] at hloc'
  cases hloc'
  exact hi

/-- Copying furrows is an append like any other. -/
private theorem copied_steps {key : Key} {h : H} {l : Nat} {v : Bytes} {fs ps : List Nat} {g : List (Nat × Nat)}
    (hidx : Accounted P live d s t) (hloc : t.locate key 0 = some (h, l, v, fs)) (hg : Group t key g)
    (hlen : ps.length = g.length)
    (happ : Tract.Appended live.liveness d (fun i => ((g.map Prod.fst).map (s.view d)).getD i .zero) ps s s₁) :
    Steps live d s s₁ := by
  obtain ⟨hleaf, -, -⟩ := hidx.rep.located (onPath_nil key) hloc
  refine happ.steps fun i p hi e x he => ?_
  have hlt : i < g.length := by
    have := (List.getElem?_eq_some_iff.mp hi).1
    omega
  obtain ⟨payload, extra, hv⟩ := hleaf.furrow_at (hg.mem hloc (List.getElem_mem hlt))
  simp [hlt, hv] at he

/-- The position list of a value once the furrows `g` are at `ps`. -/
private theorem patched {key : Key} {h : H} {l : Nat} {v : Bytes} {fs ps : List Nat} {g : List (Nat × Nat)}
    (hidx : Accounted P live d s t) (hloc : t.locate key 0 = some (h, l, v, fs)) (hg : Group t key g)
    (hlen : ps.length = g.length) (hnd : ps.Nodup)
    (hnew : ∀ p ∈ ps, ¬ (live.Refers p ∨ s.tract.Behind p)) :
    ∃ fs', patchPositions (g.zip ps) fs = .ok fs' ∧ fs'.length = fs.length ∧ fs'.Nodup ∧
      (∀ q, q ∈ fs' ↔ (q ∈ fs ∧ q ∉ g.map Prod.fst) ∨ q ∈ ps) ∧
      ∀ view : Nat → Block H, (∀ x ∈ g.zip ps, view x.2 = view x.1.1) → fs'.map view = fs.map view := by
  obtain ⟨-, hseek, hclaims⟩ := hidx.rep.located (onPath_nil key) hloc
  have hsepx : l ∉ fs ∧ fs.Nodup := hidx.sep.sought hseek
  have hzip : ∀ x ∈ g.zip ps, x.1 ∈ g ∧ x.2 ∈ ps := fun x hx => List.of_mem_zip hx
  have hsrc : (g.zip ps).map (fun x => x.1.1) = g.map Prod.fst := by
    rw [show (fun x : (Nat × Nat) × Nat => x.1.1) = Prod.fst ∘ Prod.fst from rfl, ← List.map_map,
      List.map_fst_zip (by omega)]
  have htgt : (g.zip ps).map Prod.snd = ps := List.map_snd_zip (by omega)
  have h := patchPositions_ok (H := H) (g := g.zip ps) hsepx.2 (fun x hx => hg.mem hloc (hzip x hx).1)
    (by rw [hsrc]; exact hg.nodup) (by rw [htgt]; exact hnd)
    (fun x hx hc => (hidx.unrecorded (hnew x.2 (hzip x hx).2)).1 (hclaims _ (.inr hc)))
  rwa [hsrc, htgt] at h

private theorem appended_new {make : Nat → Block H} {ps : List Nat}
    (happ : Tract.Appended live.liveness d make ps s s₁) : ∀ p ∈ ps, ¬ (live.Refers p ∨ s.tract.Behind p) := by
  intro p hp
  obtain ⟨-, href, hb⟩ := happ.fresh p hp
  simp [LiveSet.Refers, href, hb]

/-- The furrows of `g` copied to `ps`, the leaf rebuilt at `nl`, and the rebuilt leaf put in the place
of the old one. -/
private theorem rebuild_run {key : Key} {h : H} {l nl : Nat} {v : Bytes} {fs fs' ps : List Nat}
    {g : List (Nat × Nat)} (hidx : Accounted P live d s t) (hloc : t.locate key 0 = some (h, l, v, fs))
    (hcount : fs.length = divCeil v.length (furrowCapacity H)) (hle : fs.length ≤ s.tract.len)
    (hval : payloads key 0 (fs.map (s.view d)) = .ok v)
    (hg : Group t key g) (hlen : ps.length = g.length)
    (happ : Tract.Appended live.liveness d (fun i => ((g.map Prod.fst).map (s.view d)).getD i .zero) ps s s₁)
    (hpatch : patchPositions (g.zip ps) fs = .ok fs')
    (happ' : Tract.Appended live.liveness d (fun _ => sealBlock (.extent key v.length (compressRuns fs')))
      [nl] s₁ s₂) :
    ∃ s₃ t', (replaceLeaf key (h, l) (Crates.hash (.extent key v.length (compressRuns fs')) 0, nl)).run s₂ =
        (.ok (), s₃) ∧
      Moved P live d s
        { s₃ with
          hamt := (s₃.hamt.gain (copies (s.view d) g ps ++
            [(nl, Crates.hash (.extent key v.length (compressRuns fs')) 0)])).lose
              (sources (s.view d) g ++ [(l, h)]) } t t' ∧
      ∀ k ≠ key, t'.locate k 0 = t.locate k 0 := by
  obtain ⟨hleaf, hseek, hclaims⟩ := hidx.rep.located (onPath_nil key) hloc
  have hsepx : l ∉ fs ∧ fs.Nodup := hidx.sep.sought hseek
  have hat : ∀ x ∈ g, fs[x.2]? = some x.1 := fun x hx => hg.mem hloc hx
  have hmemfs : ∀ x ∈ g, x.1 ∈ fs := fun x hx => List.mem_of_getElem? (hat x hx)
  have hfurrow : ∀ p ∈ fs, ∃ i payload extra, s.view d p = .sealed (.furrow key i payload) extra := by
    intro p hp
    obtain ⟨i, hi⟩ := List.mem_iff_getElem?.mp hp
    exact ⟨i, hleaf.furrow_at hi⟩
  have hsteps : Steps live d s s₁ := copied_steps hidx hloc hg hlen happ
  have hsteps' : Steps live d s₁ s₂ := happ'.steps fun _ _ _ e x he => by simp [sealBlock] at he
  have hst := hsteps.trans hsteps'
  -- the copies and the rebuilt leaf are where nothing was
  have hnew := appended_new happ
  have hbehind : ∀ p ∈ ps, s₁.tract.Behind p := fun p hp => (happ.behind p).mpr (.inr hp)
  obtain ⟨hnllt, hnlref, hnlb⟩ := happ'.fresh nl (by simp)
  have hnlps : nl ∉ ps := fun hm => hnlb (hbehind nl hm)
  have hnlnew : ¬ (live.Refers nl ∨ s.tract.Behind nl) := by
    rintro (hr | hb)
    · rw [LiveSet.Refers, hnlref] at hr
      cases hr
    · exact hnlb (hsteps.behind nl hb)
  have hnlt : ¬ t.Claims nl := (hidx.unrecorded hnlnew).1
  have hnlview : s₂.view d nl = sealBlock (.extent key v.length (compressRuns fs')) := happ'.placed 0 nl rfl
  have hkeep : ∀ p, t.Claims p → s₂.view d p = s.view d p := fun p hp => hst.frame p (hidx.kept hp)
  have hplaced : ∀ (i p : Nat), ps[i]? = some p → ∀ x : Nat × Nat, g[i]? = some x → s₂.view d p = s.view d x.1 := by
    intro i p hi x hx
    rw [hsteps'.frame p (.inr (hbehind p (List.mem_of_getElem? hi))), happ.placed i p hi]
    simp [hx]
  have hzip : ∀ x ∈ g.zip ps, x.1 ∈ g ∧ x.2 ∈ ps ∧ s₂.view d x.2 = s.view d x.1.1 := by
    intro x hx
    obtain ⟨i, hi⟩ := List.mem_iff_getElem?.mp hx
    obtain ⟨h₁, h₂⟩ := List.getElem?_zip_eq_some.mp hi
    exact ⟨List.mem_of_getElem? h₁, List.mem_of_getElem? h₂, hplaced i _ h₂ _ h₁⟩
  obtain ⟨fs₁, hpatch₁, hlen₁, hnd₁, hmem₁, hmap₁⟩ := patched hidx hloc hg hlen happ.nodup hnew
  obtain rfl : fs₁ = fs' := by
    rw [hpatch] at hpatch₁
    cases hpatch₁
    rfl
  have hltfs : ∀ p ∈ fs₁, p < s.tract.len := by
    intro p hp
    rcases (hmem₁ p).mp hp with ⟨hp, -⟩ | hp
    · exact hleaf.furrow_lt hp
    · exact (happ.fresh p hp).1
  have hread : payloads key 0 (fs₁.map (s₂.view d)) = .ok v := by
    rw [hmap₁ (s₂.view d) fun x hx => ?_]
    · rw [List.map_congr_left fun p hp => hkeep p (hclaims p (.inr hp))]
      exact hval
    · rw [(hzip x hx).2.2, hkeep _ (hclaims _ (.inr (hmemfs _ (hzip x hx).1)))]
  have hnlfs : nl ∉ fs₁ := by
    intro hm
    rcases (hmem₁ nl).mp hm with ⟨hm, -⟩ | hm
    · exact hnlt (hclaims nl (.inr hm))
    · exact hnlps hm
  have hlens : s₂.tract.len = s.tract.len := hst.len
  have hlone : LeafAt (s₂.view d) s₂.tract.len (Crates.hash (.extent key v.length (compressRuns fs₁)) 0) nl
      key v fs₁ := by
    refine .extent ?_ hnlview rfl ?_ hread
    · rw [hsteps'.len]
      exact hnllt
    · refine expandRuns_compressRuns ?_ ?_ (hlen₁.trans hcount)
      · rwa [hlens]
      · rw [hlens]
        omega
  have hhash : ∀ x ∈ g, sealedHp (s.view d x.1) = some (hashOf (s.view d x.1)) := by
    intro x hx
    obtain ⟨i, payload, extra, hv⟩ := hfurrow x.1 (hmemfs x hx)
    rw [hv]
    rfl
  have hcopies : ∀ e ∈ copies (s.view d) g ps ++ [(nl, Crates.hash (.extent key v.length (compressRuns fs₁)) 0)],
      ¬ (live.Refers e.1 ∨ s.tract.Behind e.1) ∧ s₂.tract.Behind e.1 ∧ sealedHp (s₂.view d e.1) = some e.2 := by
    intro e he
    rcases List.mem_append.mp he with he | he
    · obtain ⟨i, x, hx, hi, heq⟩ := mem_copies he
      refine ⟨hnew _ (List.mem_of_getElem? hi), hsteps'.behind _ (hbehind _ (List.mem_of_getElem? hi)), ?_⟩
      rw [hplaced i _ hi x hx, heq]
      exact hhash x (List.mem_of_getElem? hx)
    · rw [List.mem_singleton.mp he]
      refine ⟨hnlnew, (happ'.behind nl).mpr (.inr (by simp)), ?_⟩
      rw [hnlview]
      rfl
  have hsources : ∀ e ∈ sources (s.view d) g ++ [(l, h)],
      (Tree.leaf h l key v fs).Claims e.1 ∧ sealedHp (s₂.view d e.1) = some e.2 := by
    intro e he
    rcases List.mem_append.mp he with he | he
    · obtain ⟨x, hx, rfl⟩ := mem_sources he
      refine ⟨.inr (hmemfs x hx), ?_⟩
      rw [hkeep _ (hclaims _ (.inr (hmemfs x hx)))]
      exact hhash x hx
    · rw [List.mem_singleton.mp he]
      refine ⟨.inl rfl, ?_⟩
      rw [hkeep _ (hclaims _ (.inl rfl))]
      exact hleaf.hash_eq
  obtain ⟨s₃, t', n, hrun, -, hmoved, hothers⟩ := repointRoot_run none
    (copies (s.view d) g ps ++ [(nl, _)]) (sources (s.view d) g ++ [(l, h)])
    (y := .leaf (Crates.hash (.extent key v.length (compressRuns fs₁)) 0) nl key v fs₁) hidx hst
    (by rw [happ'.hamt, happ.hamt]) hseek ⟨hnlfs, hnd₁⟩ (fun u hu => hu) (by simp)
    (fun path arena hk _ => ⟨rfl, hk, hlone⟩)
    (by
      intro p
      simp only [Tree.Claims, spots_append, spots_copies _ hlen, spots_sources, List.mem_append, hmem₁,
        spots_cons, spots_nil, List.mem_cons, List.not_mem_nil, or_false, not_or]
      constructor
      · rintro (rfl | ⟨hp, hno⟩ | hp)
        · exact .inr (.inr rfl)
        · exact .inl ⟨.inr hp, hno, fun h => hsepx.1 (h ▸ hp)⟩
        · exact .inr (.inl hp)
      · rintro (⟨rfl | hp, hno, hne⟩ | hp | rfl)
        · exact absurd rfl hne
        · exact .inr (.inl ⟨hp, hno⟩)
        · exact .inr (.inr hp)
        · exact .inl rfl)
    hsources (by simp) hcopies (by
      rw [spots_append, spots_copies _ hlen, List.nodup_append']
      exact ⟨happ.nodup, by simp, by simpa using hnlps⟩) (fun k n => by rw [Tree.find_leaf, Tree.find_leaf])
    "leaf replacement repointed nothing — refusing to orphan the rebuilt extent"
  refine ⟨s₃, t', hrun, hmoved, fun k hk => ?_⟩
  rcases hothers k with hk' | ⟨h₁, h₂⟩
  · exact hk'
  · rw [h₁, h₂, Tree.locate_leaf, Tree.locate_leaf, if_neg (Ne.symm hk), if_neg (Ne.symm hk)]

private theorem collect_map {α β γ ε σ : Type} (f : β → Prog ε σ γ) (g : α → β) (l : List α) :
    collect (fun a => f (g a)) l = collect f (l.map g) := by
  induction l with
  | nil => rfl
  | cons a l ih => simp [collect, ih]

private theorem moveGroup_sat {key : Key} {g : List (Nat × Nat)} {h : H} {l : Nat} {v : Bytes} {fs : List Nat}
    {runs : List (Nat × Nat)} (hidx : Accounted P live d s t) (hg : Group t key g)
    (hloc : t.locate key 0 = some (h, l, v, fs)) (hruns : expandRuns H runs v.length s.tract.len = .ok fs)
    (hval : payloads key 0 (fs.map (s.view d)) = .ok v) :
    Sat (moveGroup live.liveness key (l, h) v.length runs g) s
      (fun _ s' => (∀ x ∈ g, x.1 ∈ spots s'.hamt.delta.removed) ∧ ∃ t', Moved P live d s s' t t' ∧
        ∀ k ≠ key, t'.locate k 0 = t.locate k 0)
      (fun e s' => e.Excused ∧ ∃ t', Moved P live d s s' t t') := by
  obtain ⟨hleaf, hseek, hclaims⟩ := hidx.rep.located (onPath_nil key) hloc
  obtain ⟨-, hcount, hle, -⟩ := expandRuns_ok hruns
  have hmemfs : ∀ x ∈ g, x.1 ∈ fs := fun x hx => List.mem_of_getElem? (hg.mem hloc hx)
  have hsealed : ∀ x ∈ g, ∃ hash, sealedHp (s.view d x.1) = some hash := fun x hx =>
    hidx.rep.sealed (hclaims x.1 (.inr (hmemfs x hx)))
  unfold moveGroup
  have hcollect : (collect (fun p => Tract.read (H := H) p.1) g).run s =
      (.ok ((g.map Prod.fst).map (s.view d)), s) := by
    rw [collect_map Tract.read Prod.fst]
    refine Tract.collect_read_run hidx.on fun p hp => ?_
    obtain ⟨x, hx, rfl⟩ := List.mem_map.mp hp
    exact hleaf.furrow_lt (hmemfs x hx)
  refine sat_run hcollect (sat_bind ((Tract.appendWith_sat hidx.on hidx.cursors _ _).mono (fun _ _ h => h)
    fun e s' h => ?_) fun ps s₁ happ => ?_)
  · exact ⟨h.1.excused, t, hidx.moved (h.2.steps hidx.cursors) h.2.hamt⟩
  obtain ⟨hlen, happ⟩ := happ
  have hlen : ps.length = g.length := by simpa using hlen
  have hsteps := copied_steps hidx hloc hg hlen happ
  refine sat_state (sat_run (a := fs) (t := s₁) (by rw [lift_run, hsteps.len, hruns]) ?_)
  obtain ⟨fs', hpatch, -⟩ := patched hidx hloc hg hlen happ.nodup (appended_new happ)
  refine sat_run (a := fs') (t := s₁) (by rw [lift_run, hpatch]) ?_
  by_cases hmax : maxRuns H < (compressRuns fs').length
  · simp only [Sat, bind_run, lift_run, encodeExtent, if_pos hmax]
    exact ⟨trivial, t, hidx.moved hsteps happ.hamt⟩
  refine sat_run (a := sealBlock (.extent key v.length (compressRuns fs'))) (t := s₁)
    (by rw [lift_run, encodeExtent, if_neg hmax]) ?_
  refine sat_bind ((Tract.appendOne_sat hsteps.on hsteps.cursors _).mono (fun _ _ h => h) fun e s' h => ?_)
    fun nl s₂ happ' => ?_
  · exact ⟨h.1.excused, t, hidx.moved (hsteps.trans (h.2.steps hsteps.cursors))
      (h.2.hamt.trans happ.hamt)⟩
  obtain ⟨s₃, t', hrun, hmoved, hothers⟩ := rebuild_run hidx hloc hcount hle hval hg hlen happ hpatch happ'
  refine sat_run hrun (sat_run (each_gain_run fun a ha => ?_) (sat_run (each_lose_run fun a ha => ?_) ?_))
  · obtain ⟨x, hx, hxa⟩ := List.mem_map.mp (List.of_mem_zip ha).1
    obtain ⟨y, hy, rfl⟩ := List.mem_map.mp hx
    rw [← hxa]
    exact hsealed y hy
  · obtain ⟨x, hx, hxa⟩ := List.mem_map.mp (List.of_mem_zip ha).2
    obtain ⟨y, hy, rfl⟩ := List.mem_map.mp hx
    rw [← hxa]
    exact hsealed y hy
  refine sat_run (onHamt_run _ _) ?_
  have hfinal : ((((s₃.hamt.gain (copies (s.view d) g ps)).lose (sources (s.view d) g)).pushAdded nl
      (Crates.hash (.extent key v.length (compressRuns fs')) 0)).pushRemoved l h) =
      (s₃.hamt.gain (copies (s.view d) g ps ++
        [(nl, Crates.hash (.extent key v.length (compressRuns fs')) 0)])).lose
          (sources (s.view d) g ++ [(l, h)]) := by
    simp [gain, lose]
  rw [← hfinal] at hmoved
  refine ⟨fun x hx => ?_, t', hmoved, hothers⟩
  have hx' : x.1 ∈ spots (sources (s.view d) g) := by
    rw [spots_sources]
    exact List.mem_map.mpr ⟨x, hx, rfl⟩
  simp only [pushRemoved, pushAdded, lose, spots_append, List.mem_append]
  exact .inl (.inr hx')

theorem moveFurrows_sat {key : Key} {group : List (Nat × Nat)} {h : H} {l : Nat} {v : Bytes} {fs : List Nat}
    (hidx : Accounted P live d s t) (hg : Group t key group) (hloc : t.locate key 0 = some (h, l, v, fs)) :
    Sat (moveFurrows live.liveness (key, group)) s
      (fun _ s' => (∀ x ∈ group, x.1 ∈ spots s'.hamt.delta.removed) ∧ ∃ t', Moved P live d s s' t t' ∧
        ∀ k ≠ key, t'.locate k 0 = t.locate k 0)
      (fun e s' => e.Excused ∧ ∃ t', Moved P live d s s' t t') := by
  obtain ⟨s₁, hfind, hreads₁⟩ := findLeaf_run hidx.on hidx.rep key
  rw [hloc] at hfind
  have hmoved₁ := hidx.moved (hreads₁.steps hidx.on hidx.cursors) hreads₁.hamt
  have hidx₁ := hmoved₁.accounted
  obtain ⟨hleaf, -, -⟩ := hidx₁.rep.located (onPath_nil key) hloc
  obtain ⟨s₂, hdoc, hreads₂⟩ := readDoc_run hidx₁.on hleaf.lt h
  have hmoved₂ := hidx₁.moved (hreads₂.steps hidx₁.on hidx₁.cursors) hreads₂.hamt
  have hmoved := hmoved₁.trans hidx hmoved₂
  refine sat_run (x := findLeaf key) hfind ?_
  rcases hleaf.docOf with ⟨hd, rfl⟩ | ⟨runs, hd, hruns, hval⟩ | ⟨hd, hfits, hval⟩
  · rw [hd] at hdoc
    refine sat_run (x := readDoc l h) hdoc (sat_pure ⟨fun x hx => ?_, t, hmoved, fun _ _ => rfl⟩)
    have hi := hg.mem hloc hx
    simp at hi
  · rw [hd] at hdoc
    refine sat_run (x := readDoc l h) hdoc ?_
    simp only [ne_eq, not_true_eq_false, if_false]
    have hperm := List.perm_insertionSort (fun x y : Nat × Nat => x.2 ≤ y.2) group
    refine (moveGroup_sat hmoved₂.accounted (hg.perm hperm) hloc (by rw [hreads₂.tract]; exact hruns)
      (by rw [hreads₂.view]; exact hval)).mono ?_ ?_
    · rintro _ s' ⟨hrem, t', hm, hk⟩
      exact ⟨fun x hx => hrem x (hperm.mem_iff.mpr hx), t', hmoved.trans hidx hm, hk⟩
    · rintro e s' ⟨he, t', hm⟩
      exact ⟨he, t', hmoved.trans hidx hm⟩
  -- a value of the old kind is put again whole
  · rw [hd] at hdoc
    refine sat_run (x := readDoc l h) hdoc ?_
    simp only [ne_eq, not_true_eq_false, if_false]
    have hidx₂ := hmoved₂.accounted
    obtain ⟨hleaf₂, -, -⟩ := hidx₂.rep.located (onPath_nil key) hloc
    have hread : (readFurrows key v.length fs).run s₂ = (.ok v, s₂) :=
      readFurrows_run hidx₂.on hfits (fun p hp => hleaf₂.furrow_lt hp) (by rw [hreads₂.view]; exact hval)
    have hfind₀ : t.find key 0 = some v := by rw [Tree.find, hloc]; rfl
    refine sat_run hread ((put_accounted hidx₂ key v).mono ?_ ?_)
    · rintro _ s' ⟨t', hs⟩
      have hm : Moved P live d s₂ s' t t' := by
        refine ⟨hs.toGained, fun k => (hs.find k).trans ?_⟩
        split
        next hk => rw [hk, hfind₀]
        · rfl
      refine ⟨fun x hx => hs.replaced hidx₂ hloc (.inr (List.mem_of_getElem? (hg.mem hloc hx))), t',
        hmoved.trans hidx hm, fun k hk => ?_⟩
      obtain ⟨hash, lba, furrows, hlocate, -⟩ := hs.leaf
      exact (hlocate k).trans (if_neg hk)
    · rintro e s' ⟨he, hs, hh⟩
      exact ⟨he, t, hmoved.trans hidx (hidx₂.moved hs hh)⟩

/-- `x` is in the group of `k`. -/
def Owns (l : List (Key × List (Nat × Nat))) (k : Key) (x : Nat × Nat) : Prop := ∃ g, (k, g) ∈ l ∧ x ∈ g

theorem owns_addFurrow {key : Key} {x : Nat × Nat} {l : List (Key × List (Nat × Nat))} {k : Key}
    {y : Nat × Nat} : Owns (addFurrow key x l) k y ↔ Owns l k y ∨ k = key ∧ y = x := by
  induction l with
  | nil => simp [addFurrow, Owns]
  | cons e l ih =>
    obtain ⟨k', g⟩ := e
    unfold addFurrow
    split
    next heq =>
      subst heq
      simp only [Owns, List.mem_cons, Prod.mk.injEq]
      constructor
      · rintro ⟨g', ⟨rfl, rfl⟩ | hg, hy⟩
        · rcases List.mem_append.mp hy with hy | hy
          · exact .inl ⟨g, .inl ⟨rfl, rfl⟩, hy⟩
          · exact .inr ⟨rfl, List.mem_singleton.mp hy⟩
        · exact .inl ⟨g', .inr hg, hy⟩
      · rintro (⟨g', ⟨rfl, rfl⟩ | hg, hy⟩ | ⟨rfl, rfl⟩)
        · exact ⟨_, .inl ⟨rfl, rfl⟩, List.mem_append_left _ hy⟩
        · exact ⟨g', .inr hg, hy⟩
        · exact ⟨_, .inl ⟨rfl, rfl⟩, by simp⟩
    next hne =>
      simp only [Owns, List.mem_cons, Prod.mk.injEq] at ih ⊢
      constructor
      · rintro ⟨g', ⟨rfl, rfl⟩ | hg, hy⟩
        · exact .inl ⟨g', .inl ⟨rfl, rfl⟩, hy⟩
        · rcases ih.mp ⟨g', hg, hy⟩ with ⟨g'', hg', hy'⟩ | hk
          · exact .inl ⟨g'', .inr hg', hy'⟩
          · exact .inr hk
      · rintro (⟨g', ⟨rfl, rfl⟩ | hg, hy⟩ | hk)
        · exact ⟨g', .inl ⟨rfl, rfl⟩, hy⟩
        · obtain ⟨g'', hg', hy'⟩ := ih.mpr (.inl ⟨g', hg, hy⟩)
          exact ⟨g'', .inr hg', hy'⟩
        · obtain ⟨g'', hg', hy'⟩ := ih.mpr (.inr hk)
          exact ⟨g'', .inr hg', hy'⟩

theorem keys_addFurrow {key : Key} {x : Nat × Nat} {l : List (Key × List (Nat × Nat))} (k : Key) :
    k ∈ (addFurrow key x l).map Prod.fst ↔ k ∈ l.map Prod.fst ∨ k = key := by
  induction l with
  | nil => simp [addFurrow]
  | cons e l ih =>
    obtain ⟨k', g⟩ := e
    unfold addFurrow
    split
    next heq =>
      subst heq
      simp only [List.map_cons, List.mem_cons]
      tauto
    next hne =>
      simp only [List.map_cons, List.mem_cons, ih]
      tauto

/-- Groups of distinct keys, each of distinct positions. -/
structure Grouped (l : List (Key × List (Nat × Nat))) : Prop where
  keys : (l.map Prod.fst).Nodup
  groups : ∀ e ∈ l, e.2 ≠ [] ∧ (e.2.map Prod.fst).Nodup

theorem Grouped.addFurrow {key : Key} {x : Nat × Nat} {l : List (Key × List (Nat × Nat))} (h : Grouped l)
    (hx : ∀ k y, Owns l k y → y.1 ≠ x.1) : Grouped (addFurrow key x l) := by
  induction l with
  | nil => exact ⟨by simp [Hamt.addFurrow], by simp [Hamt.addFurrow]⟩
  | cons e l ih =>
    obtain ⟨k', g⟩ := e
    obtain ⟨hkeys, hgroups⟩ := h
    rw [List.map_cons, List.nodup_cons] at hkeys
    simp only [List.mem_cons, forall_eq_or_imp] at hgroups
    unfold Hamt.addFurrow
    split
    next heq =>
      subst heq
      refine ⟨by simpa using hkeys, ?_⟩
      simp only [List.mem_cons, forall_eq_or_imp]
      refine ⟨⟨by simp, ?_⟩, hgroups.2⟩
      rw [List.map_append, List.nodup_append]
      refine ⟨hgroups.1.2, by simp, ?_⟩
      intro p hp q hq
      obtain ⟨y, hy, rfl⟩ := List.mem_map.mp hp
      rw [List.map_singleton, List.mem_singleton] at hq
      rw [hq]
      exact hx k' y ⟨g, by simp, hy⟩
    next hne =>
      have ih' := ih ⟨hkeys.2, hgroups.2⟩ fun k y ⟨g', hg', hy⟩ => hx k y ⟨g', List.mem_cons_of_mem _ hg', hy⟩
      refine ⟨?_, ?_⟩
      · rw [List.map_cons, List.nodup_cons, keys_addFurrow]
        exact ⟨fun h => h.elim hkeys.1 hne, ih'.keys⟩
      · simp only [List.mem_cons, forall_eq_or_imp]
        exact ⟨hgroups.1, ih'.groups⟩

/-- The survivors of the positions `done`, sorted. -/
structure Sorted (live : LiveSet H) (d : Dev H) (s : Store H) (t : Tree H) (done : List Nat) (w : Window H) :
    Prop where
  blocks : ∀ e ∈ w.lones ++ w.leaves ++ w.nodes, Survivor live d s e
  grouped : Grouped w.furrowOwners
  furrows : ∀ k x, Owns w.furrowOwners k x → x.1 ∈ done ∧
    ∃ h l v fs, t.locate k 0 = some (h, l, v, fs) ∧ fs[x.2]? = some x.1
  covered : ∀ p ∈ done, live.Refers p → p ∈ spots s.hamt.delta.removed ∨
    p ∈ spots (w.lones ++ w.leaves ++ w.nodes) ∨ ∃ k x, Owns w.furrowOwners k x ∧ x.1 = p

/-- Garbage adds nothing. -/
theorem Sorted.skip {done : List Nat} {w : Window H} {p : Nat} (h : Sorted live d s t done w)
    (hp : live.Refers p → p ∈ spots s.hamt.delta.removed) : Sorted live d s t (p :: done) w where
  blocks := h.blocks
  grouped := h.grouped
  furrows k x hx := (h.furrows k x hx).imp_left (List.mem_cons_of_mem p)
  covered q hq hlive := by
    rcases List.mem_cons.mp hq with rfl | hq
    · exact .inl (hp hlive)
    · exact h.covered q hq hlive

/-- A survivor that is no furrow joins one of the three lists. -/
theorem Sorted.block {done : List Nat} {w w' : Window H} {p : Nat} {hp : H} (h : Sorted live d s t done w)
    (hsurv : Survivor live d s (p, hp)) (howners : w'.furrowOwners = w.furrowOwners)
    (hmem : ∀ e, e ∈ w'.lones ++ w'.leaves ++ w'.nodes ↔ e ∈ w.lones ++ w.leaves ++ w.nodes ∨ e = (p, hp)) :
    Sorted live d s t (p :: done) w' where
  blocks e he := by
    rcases (hmem e).mp he with he | rfl
    · exact h.blocks e he
    · exact hsurv
  grouped := by rw [howners]; exact h.grouped
  furrows k x hx := by
    rw [howners] at hx
    exact (h.furrows k x hx).imp_left (List.mem_cons_of_mem p)
  covered q hq hlive := by
    rw [howners]
    rcases List.mem_cons.mp hq with rfl | hq
    · exact .inr (.inl (mem_spots.mpr ⟨_, (hmem _).mpr (.inr rfl), rfl⟩))
    · refine (h.covered q hq hlive).imp_right (Or.imp_left fun hq => ?_)
      obtain ⟨e, he, heq⟩ := mem_spots.mp hq
      exact mem_spots.mpr ⟨e, (hmem e).mpr (.inl he), heq⟩

/-- A furrow joins its owner's group. -/
theorem Sorted.furrow {done : List Nat} {w : Window H} {p i : Nat} {key : Key} (h : Sorted live d s t done w)
    (hnew : p ∉ done) (hloc : ∃ h l v fs, t.locate key 0 = some (h, l, v, fs) ∧ fs[i]? = some p) :
    Sorted live d s t (p :: done) { w with furrowOwners := addFurrow key (p, i) w.furrowOwners } where
  blocks := h.blocks
  grouped := h.grouped.addFurrow fun k y hy heq => by
    have hmem := (h.furrows k y hy).1
    rw [heq] at hmem
    exact hnew hmem
  furrows k x hx := by
    rcases owns_addFurrow.mp hx with hx | ⟨rfl, rfl⟩
    · exact (h.furrows k x hx).imp_left (List.mem_cons_of_mem p)
    · exact ⟨List.mem_cons_self, hloc⟩
  covered q hq hlive := by
    rcases List.mem_cons.mp hq with rfl | hq
    · exact .inr (.inr ⟨key, (q, i), owns_addFurrow.mpr (.inr ⟨rfl, rfl⟩), rfl⟩)
    · refine (h.covered q hq hlive).imp_right (Or.imp_right ?_)
      rintro ⟨k, x, hx, heq⟩
      exact ⟨k, x, owns_addFurrow.mpr (.inl hx), heq⟩

theorem classifyBlock_run (hP : ∀ b, P b → sealedHp b = none) (hidx : Accounted P live d s t) {done : List Nat} {w : Window H} {p : Nat}
    (h : Sorted live d s t done w) (hlt : p < s.tract.len) (hnew : p ∉ done) :
    ∃ w', (classifyBlock live.liveness s.hamt.delta.removed p w).run s = (.ok w', s) ∧
      Sorted live d s t (p :: done) w' := by
  have hread := Tract.read_run hidx.on hlt
  rcases hhash : sealedHp (s.view d p) with _ | hp
  · refine ⟨w, by simp [classifyBlock, hread, hhash], h.skip fun hlive => ?_⟩
    by_contra hno
    obtain ⟨hash, hsealed⟩ := hidx.rep.sealed ((hidx.claims p).mpr ⟨.inl hlive, hno⟩)
    rw [hhash] at hsealed
    cases hsealed
  by_cases hcond : (!live.liveness.isLive p hp || s.hamt.delta.removed.contains (p, hp)) = true
  · refine ⟨w, by simp only [classifyBlock, bind_run, hread, hhash, if_pos hcond, pure_run], h.skip fun hlive => ?_⟩
    rcases Bool.or_eq_true_iff.mp hcond with hdead | hgone
    · by_contra hno
      have hisLive : live.liveness.isLive p hp = true := by
        simp only [LiveSet.Refers, LiveSet.liveness, Bool.or_eq_true] at hlive
        simp only [LiveSet.liveness, Bool.or_eq_true, decide_eq_true_eq]
        refine hlive.imp_left fun hsome => ?_
        obtain ⟨h', hget⟩ := Option.isSome_iff_exists.mp hsome
        obtain ⟨e, he, rfl⟩ := Option.map_eq_some_iff.mp hget
        have hep : e.1 = p := by simpa using List.find?_some he
        have hknown := (hidx.known e (List.mem_of_find?_eq_some he)).resolve_right fun hgone => hno (hep ▸ hgone.1)
        rw [hep, hhash] at hknown
        rw [hget, ← Option.some.inj hknown]
      rw [hisLive] at hdead
      cases hdead
    · exact mem_spots.mpr ⟨(p, hp), by simpa using hgone, rfl⟩
  · have hlive : live.Refers p := by
      have hisLive : live.liveness.isLive p hp = true := by
        simp only [Bool.or_eq_true, not_or, Bool.not_eq_true', Bool.not_eq_false] at hcond
        exact hcond.1
      simp only [LiveSet.liveness, Bool.or_eq_true, decide_eq_true_eq] at hisLive
      simp only [LiveSet.Refers, LiveSet.liveness, Bool.or_eq_true]
      exact hisLive.imp_left fun hget => by rw [hget]; rfl
    have hclaim : t.Claims p := by
      refine (hidx.claims p).mpr ⟨.inl hlive, fun hmem => hcond ?_⟩
      obtain ⟨e, he, rfl⟩ := mem_spots.mp hmem
      have hh := (hidx.removed e he).2.resolve_right fun hgone => by
        have hnone := hP _ hgone.2
        rw [hhash] at hnone
        cases hnone
      rw [hhash] at hh
      rw [Option.some.inj hh]
      simp [he]
    have hrun : ∀ doc, decodeDoc (s.view d p) = .ok doc →
        (classifyBlock live.liveness s.hamt.delta.removed p w).run s = (.ok (Window.sort w p hp doc), s) := by
      intro doc hdoc
      simp only [classifyBlock, bind_run, hread, hhash, if_neg hcond, hdoc, lift_run, pure_run]
    cases hidx.rep.placed hclaim with
    | leaf hpath hh hdoc hseek hlocate =>
      have hsurv : Survivor live d s (p, hp) := by
        refine ⟨hlt, hlive, hhash, fun k i payload x hx => ?_⟩
        obtain ⟨doc, _, hdoc, hleaf⟩ := hdoc
        rw [hdoc] at hx
        cases hx
        exact hleaf
      obtain ⟨doc, extra, hdoc, hleaf⟩ := hdoc
      cases doc with
      | lone | extent | direct =>
        refine ⟨_, hrun _ (by rw [hdoc]; rfl), h.block hsurv rfl fun e => ?_⟩
        simp only [Window.sort, List.mem_append, List.mem_singleton]
        tauto
      | _ => exact hleaf.elim
    | node hpath hdepth hmax hh hdoc hseek =>
      have hsurv : Survivor live d s (p, hp) :=
        ⟨hlt, hlive, hhash, fun k i payload x hx => by rw [hdoc] at hx; cases hx⟩
      refine ⟨_, hrun _ (by rw [hdoc]; exact if_pos hmax), h.block hsurv rfl fun e => ?_⟩
      simp only [Window.sort, List.mem_append, List.mem_singleton]
      tauto
    | furrow hpath hdoc hlocate hi =>
      refine ⟨_, hrun _ (by rw [hdoc]; rfl), ?_⟩
      exact h.furrow hnew ⟨_, _, _, _, hlocate, hi⟩

theorem classifyWindow_run (hP : ∀ b, P b → sealedHp b = none) (hidx : Accounted P live d s t) {positions : List Nat} :
    ∀ {done : List Nat} {w : Window H}, Sorted live d s t done w → (∀ p ∈ positions, p < s.tract.len) →
      positions.Nodup → (∀ p ∈ positions, p ∉ done) →
      ∃ w' done', (classifyWindow live.liveness s.hamt.delta.removed positions w).run s = (.ok w', s) ∧
        Sorted live d s t done' w' ∧ ∀ p, p ∈ done' ↔ p ∈ positions ∨ p ∈ done := by
  induction positions with
  | nil => intro done w h _ _ _; exact ⟨w, done, rfl, h, by simp⟩
  | cons p positions ih =>
    intro done w h hlt hnd hnew
    simp only [List.mem_cons, forall_eq_or_imp] at hlt hnew
    rw [List.nodup_cons] at hnd
    obtain ⟨w₁, hrun, hsorted⟩ := classifyBlock_run hP hidx h hlt.1 hnew.1
    obtain ⟨w₂, done', hrun', hsorted', hmem⟩ := ih hsorted hlt.2 hnd.2 fun q hq hc => by
      rcases List.mem_cons.mp hc with rfl | hc
      · exact hnd.1 hq
      · exact hnew.2 q hq hc
    refine ⟨w₂, done', by simp only [classifyWindow, bind_run, hrun, hrun'], hsorted', fun q => ?_⟩
    rw [hmem, List.mem_cons, List.mem_cons]
    tauto

theorem each_moveFurrows_sat {owners : List (Key × List (Nat × Nat))} : ∀ {s : Store H} {t : Tree H},
    Accounted P live d s t → Grouped owners →
    (∀ e ∈ owners, ∀ x ∈ e.2, ∃ h l v fs, t.locate e.1 0 = some (h, l, v, fs) ∧ fs[x.2]? = some x.1) →
    Sat (each (moveFurrows live.liveness) owners) s
      (fun _ s' => (∀ e ∈ owners, ∀ x ∈ e.2, x.1 ∈ spots s'.hamt.delta.removed) ∧ ∃ t', Moved P live d s s' t t')
      (fun e s' => e.Excused ∧ ∃ t', Moved P live d s s' t t') := by
  induction owners with
  | nil =>
    intro s t hidx _ _
    exact ⟨by simp, t, hidx.moved (.refl hidx.on hidx.cursors) rfl⟩
  | cons e owners ih =>
    obtain ⟨key, group⟩ := e
    intro s t hidx hgr hat
    obtain ⟨hkeys, hgroups⟩ := hgr
    rw [List.map_cons, List.nodup_cons] at hkeys
    simp only [List.mem_cons, forall_eq_or_imp] at hgroups hat ⊢
    obtain ⟨x₀, hx₀⟩ := List.exists_mem_of_ne_nil group hgroups.1.1
    obtain ⟨h, l, v, fs, hloc, -⟩ := hat.1 x₀ hx₀
    refine sat_bind ((moveFurrows_sat hidx ⟨hat.1, hgroups.1.2⟩ hloc).mono (fun _ _ h => h) fun e s' h => h)
      fun _ s₁ hs₁ => ?_
    obtain ⟨hrem, t₁, hm₁, hothers⟩ := hs₁
    refine (ih hm₁.accounted ⟨hkeys.2, hgroups.2⟩ fun e he x hx => ?_).mono ?_ ?_
    · have hne : e.1 ≠ key := fun heq => hkeys.1 (heq ▸ List.mem_map.mpr ⟨e, he, rfl⟩)
      rw [hothers e.1 hne]
      exact hat.2 e he x hx
    · rintro _ s₂ ⟨hrem₂, t₂, hm₂⟩
      exact ⟨⟨fun x hx => hm₂.removed (hrem x hx), hrem₂⟩, t₂, hm₁.trans hidx hm₂⟩
    · rintro e s₂ ⟨he, t₂, hm₂⟩
      exact ⟨he, t₂, hm₁.trans hidx hm₂⟩

theorem each_moveBlock_sat (hP : ∀ b, P b → sealedHp b = none) {es : List (Nat × H)} : ∀ {s : Store H} {t : Tree H}, Accounted P live d s t →
    (∀ e ∈ es, Survivor live d s e) →
    Sat (each (moveBlock live.liveness) es) s
      (fun _ s' => (∀ e ∈ es, e.1 ∈ spots s'.hamt.delta.removed) ∧ ∃ t', Moved P live d s s' t t')
      (fun e s' => e.Excused ∧ ∃ t', Moved P live d s s' t t') := by
  induction es with
  | nil =>
    intro s t hidx _
    exact ⟨by simp, t, hidx.moved (.refl hidx.on hidx.cursors) rfl⟩
  | cons e es ih =>
    intro s t hidx hes
    simp only [List.mem_cons, forall_eq_or_imp] at hes ⊢
    refine sat_bind ((moveBlock_sat hP hidx hes.1).mono (fun _ _ h => h) fun e s' h => ⟨h.1.excused, h.2⟩)
      fun _ s₁ hs₁ => ?_
    obtain ⟨hrem, t₁, hm₁⟩ := hs₁
    refine (ih hm₁.accounted fun e he => (hes.2 e he).steps hm₁.steps).mono ?_ ?_
    · rintro _ s₂ ⟨hrem₂, t₂, hm₂⟩
      exact ⟨⟨hm₂.removed hrem, hrem₂⟩, t₂, hm₁.trans hidx hm₂⟩
    · rintro e s₂ ⟨he, t₂, hm₂⟩
      exact ⟨he, t₂, hm₁.trans hidx hm₂⟩

/-- The blocks a reap window of `window` blocks covers. -/
def windowSize (s : Store H) (window : Nat) : Nat := min window (s.tract.plow - s.tract.reap)

/-- A reap of a window moves what the live set holds there; the reap itself moves on last. -/
theorem reapWindow_sat (hP : ∀ b, P b → sealedHp b = none) (hidx : Accounted P live d s t) (window : Nat) :
    Sat (reapWindow live.liveness window) s
      (fun _ s' => ∃ s₁ t', Moved P live d s s₁ t t' ∧
        s' = { s₁ with tract := { s₁.tract with reap := s.tract.reap + windowSize s window } } ∧
        ∀ q, s.tract.reap ≤ q → q < s.tract.reap + windowSize s window → live.Refers (q % s.tract.len) →
          q % s.tract.len ∈ spots s₁.hamt.delta.removed)
      (fun e s' => e.Excused ∧ ∃ t', Moved P live d s s' t t') := by
  obtain ⟨hpos, horder, hlap⟩ := hidx.cursors
  unfold reapWindow
  refine sat_state ?_
  show Sat (if windowSize s window = 0 then pure () else _) s _ _
  have hw : windowSize s window ≤ s.tract.plow - s.tract.reap := Nat.min_le_right _ _
  by_cases hzero : windowSize s window = 0
  · rw [if_pos hzero]
    refine sat_pure ⟨s, t, hidx.moved (.refl hidx.on hidx.cursors) rfl, by rw [hzero]; rfl, fun q h₁ h₂ => ?_⟩
    omega
  rw [if_neg hzero]
  set positions := (List.range (windowSize s window)).map fun i => (s.tract.reap + i) % s.tract.len with hpositions
  have hnd : positions.Nodup := by
    rw [hpositions, List.nodup_map_iff_inj_on List.nodup_range]
    intro i hi j hj hij
    rw [List.mem_range] at hi hj
    rcases lt_trichotomy i j with h | h | h
    · exact absurd hij (Tract.lap_distinct (by omega) (by omega))
    · exact h
    · exact absurd hij.symm (Tract.lap_distinct (by omega) (by omega))
  have hstart : Sorted live d s t [] ⟨[], [], [], []⟩ := ⟨by simp, ⟨by simp, by simp⟩, by simp [Owns], by simp⟩
  obtain ⟨w, done, hrun, hsorted, hdone⟩ := classifyWindow_run hP hidx hstart
    (fun p hp => by
      obtain ⟨i, -, rfl⟩ := List.mem_map.mp hp
      exact Nat.mod_lt _ hpos)
    hnd (by simp)
  refine sat_run hrun ?_
  have hperm := Crates.order_perm (H := H) w.furrowOwners
  have hgrouped : Grouped (Crates.order (H := H) w.furrowOwners) :=
    ⟨(hperm.map Prod.fst).nodup_iff.mpr hsorted.grouped.keys, fun e he =>
      hsorted.grouped.groups e (hperm.mem_iff.mp he)⟩
  refine sat_bind ((each_moveFurrows_sat hidx hgrouped fun e he x hx =>
    (hsorted.furrows e.1 x ⟨e.2, hperm.mem_iff.mp he, hx⟩).2).mono (fun _ _ h => h) fun e s' h => h)
    fun _ s₁ hs₁ => ?_
  obtain ⟨hrem₁, t₁, hm₁⟩ := hs₁
  refine sat_bind ((each_moveBlock_sat hP hm₁.accounted fun e he => (hsorted.blocks e he).steps hm₁.steps).mono
    (fun _ _ h => h) fun e s' h => ?_) fun _ s₂ hs₂ => ?_
  · obtain ⟨he, t', hm⟩ := h
    exact ⟨he, t', hm₁.trans hidx hm⟩
  obtain ⟨hrem₂, t₂, hm₂⟩ := hs₂
  refine ⟨s₂, t₂, hm₁.trans hidx hm₂, rfl, fun q hq₁ hq₂ hlive => ?_⟩
  have hmem : q % s.tract.len ∈ positions :=
    List.mem_map.mpr ⟨q - s.tract.reap, List.mem_range.mpr (by omega), by congr 1; omega⟩
  rcases hsorted.covered _ ((hdone _).mpr (.inl hmem)) hlive with hr | hb | ⟨k, x, ⟨g, hg, hx⟩, heq⟩
  · exact hm₂.removed (hm₁.removed hr)
  · obtain ⟨e, he, heq⟩ := mem_spots.mp hb
    rw [← heq]
    exact hrem₂ e he
  · rw [← heq]
    exact hm₂.removed (hrem₁ (k, g) (hperm.mem_iff.mpr hg) x hx)

end Hamt
end Manifestus
