import Manifestus.Index.Edit
import Manifestus.Flat.Mirror

/-! Reading a sound index: every block read is there, and a descent finds what the tree holds. -/
set_option linter.unusedSectionVars false

namespace Manifestus
open Prog

variable {H : Type} [Crates H]

namespace Store

/-- The tract block at a position as every read shows it. -/
def view (s : Store H) (d : Dev H) (p : Nat) : Block H := s.mirror.view d (s.tract.base + p)

/-- `d` is the primary and the tract lies on it. -/
structure On (s : Store H) (d : Dev H) : Prop where
  ready : s.mirror.Ready d
  fits : s.tract.base + s.tract.len ≤ d.count

/-- `s'` is `s` after reads: only the index cache differs. -/
def Reads (d : Dev H) (s s' : Store H) : Prop :=
  ∃ m', s' = { s with mirror := m' } ∧ s.mirror.Agrees m' ∧ m'.Ready d

/-- The current index of the store is the tree. -/
def Holds (s : Store H) (d : Dev H) (path : List (Fin 32)) (c : Option (Child H)) (t : Tree H) : Prop :=
  Rep (s.view d) s.tract.len s.hamt.arena path c t

variable {s s' s'' : Store H} {d : Dev H}

theorem On.refl (h : s.On d) : s.Reads d s := ⟨s.mirror, rfl, .refl _, h.ready⟩

theorem Reads.trans (h : s.Reads d s') (h' : s'.Reads d s'') : s.Reads d s'' := by
  obtain ⟨m₁, rfl, ha₁, -⟩ := h
  obtain ⟨m₂, rfl, ha₂, hr₂⟩ := h'
  exact ⟨m₂, rfl, ha₁.trans ha₂, hr₂⟩

theorem Reads.tract (h : s.Reads d s') : s'.tract = s.tract := by
  obtain ⟨m', rfl, -, -⟩ := h
  rfl

theorem Reads.hamt (h : s.Reads d s') : s'.hamt = s.hamt := by
  obtain ⟨m', rfl, -, -⟩ := h
  rfl

theorem Reads.view (h : s.Reads d s') : s'.view d = s.view d := by
  obtain ⟨m', rfl, ha, -⟩ := h
  funext p
  rw [Store.view, Store.view, ha.view]

theorem Reads.on (h : s.Reads d s') (ho : s.On d) : s'.On d := by
  obtain ⟨m', rfl, -, hr⟩ := h
  exact ⟨hr, ho.fits⟩

end Store
open Store

variable {s : Store H} {d : Dev H}

namespace Tract

theorem inBounds_run {lba : Nat} (h : lba < s.tract.len) : (inBounds lba).run s = (.ok (), s) := by
  simp [inBounds, h]

theorem read_run (h : s.On d) {lba : Nat} (hl : lba < s.tract.len) :
    (read lba).run s = (.ok (s.view d lba), s) := by
  have := h.fits
  simp [read, inBounds_run hl, onMirror,
    Mirror.read_run h.ready (show s.tract.base + lba < d.count by omega), Store.view]

theorem readCached_run (h : s.On d) {lba : Nat} (hl : lba < s.tract.len) :
    ∃ s', (readCached lba).run s = (.ok (s.view d lba), s') ∧ s.Reads d s' := by
  have := h.fits
  obtain ⟨m', hrun, ha, hr⟩ :=
    Mirror.readCached_run h.ready (show s.tract.base + lba < d.count by omega)
  exact ⟨{ s with mirror := m' }, by simp [readCached, inBounds_run hl, onMirror, hrun, Store.view],
    m', rfl, ha, hr⟩

theorem readRun_run (h : s.On d) {lba n : Nat} (hl : lba + n ≤ s.tract.len) (hn : 0 < n) :
    (readRun lba n).run s = (.ok ((List.range n).map fun i => s.view d (lba + i)), s) := by
  have := h.fits
  have hcond : ¬ (s.tract.len ≤ lba ∨ s.tract.len - lba < n) := by omega
  simp [readRun, hcond, onMirror, Store.view,
    Mirror.readRun_run h.ready (show s.tract.base + lba + n ≤ d.count by omega), Nat.add_assoc]

theorem collect_read_run (h : s.On d) {lbas : List Nat} (hl : ∀ l ∈ lbas, l < s.tract.len) :
    (collect read lbas).run s = (.ok (lbas.map (s.view d)), s) := by
  induction lbas with
  | nil => simp [collect]
  | cons l lbas ih =>
    simp only [List.mem_cons, forall_eq_or_imp] at hl
    simp [collect, read_run h hl.1, ih hl.2]

theorem each_inBounds_run {lbas : List Nat} (hl : ∀ l ∈ lbas, l < s.tract.len) :
    (each inBounds lbas).run s = (.ok (), s) := by
  induction lbas with
  | nil => rfl
  | cons l lbas ih =>
    simp only [List.mem_cons, forall_eq_or_imp] at hl
    simp [each, inBounds_run hl.1, ih hl.2]

/-- A list with a position past the tract is refused at the first of them. -/
theorem each_inBounds_past {lbas : List Nat} (h : ¬ ∀ l ∈ lbas, l < s.tract.len) :
    ∃ l, (each inBounds lbas).run s = (.error (.bounds l), s) := by
  induction lbas with
  | nil => exact absurd (by simp) h
  | cons l lbas ih =>
    by_cases hl : l < s.tract.len
    · obtain ⟨p, hp⟩ := ih fun hall => h (by simpa using ⟨hl, hall⟩)
      exact ⟨p, by simp [each, inBounds_run hl, hp]⟩
    · exact ⟨l, by simp [each, inBounds, hl]⟩

theorem readMany_run (h : s.On d) {lbas : List Nat} (hl : ∀ l ∈ lbas, l < s.tract.len) :
    (readMany lbas).run s = (.ok (lbas.map (s.view d)), s) := by
  have hmany : ∀ l ∈ lbas.map (s.tract.base + ·), l < d.count := by
    intro l hmem
    obtain ⟨p, hp, rfl⟩ := List.mem_map.mp hmem
    have := hl p hp
    have := h.fits
    omega
  simp [readMany, each_inBounds_run hl, onMirror, Mirror.readMany_run h.ready hmany, Function.comp_def,
    Store.view]

/-! Whatever a read answers, nothing but the index cache has changed. -/

theorem read_reads (h : s.On d) (lba : Nat) : s.Reads d ((read lba).run s).2 := by
  by_cases hlt : lba < s.tract.len
  · rw [read_run h hlt]
    exact h.refl
  · simp only [read, inBounds, bind_run, state_run, if_neg hlt, fail_run]
    exact h.refl

theorem readCached_reads (h : s.On d) (lba : Nat) : s.Reads d ((readCached lba).run s).2 := by
  by_cases hlt : lba < s.tract.len
  · obtain ⟨s', hrun, hr⟩ := readCached_run h hlt
    rw [hrun]
    exact hr
  · simp only [readCached, inBounds, bind_run, state_run, if_neg hlt, fail_run]
    exact h.refl

theorem readRun_reads (h : s.On d) (lba n : Nat) : s.Reads d ((readRun lba n).run s).2 := by
  by_cases hpast : s.tract.len ≤ lba ∨ s.tract.len - lba < n
  · simp only [readRun, bind_run, state_run, if_pos hpast, fail_run]
    exact h.refl
  · have hfits := h.fits
    simp only [readRun, bind_run, state_run, if_neg hpast, onMirror, zoom_run,
      Mirror.readRun_run h.ready (show s.tract.base + lba + n ≤ d.count by omega)]
    exact h.refl

theorem readMany_reads (h : s.On d) (lbas : List Nat) : s.Reads d ((readMany lbas).run s).2 := by
  by_cases hall : ∀ l ∈ lbas, l < s.tract.len
  · rw [readMany_run h hall]
    exact h.refl
  · obtain ⟨l, hrun⟩ := each_inBounds_past hall
    simp only [readMany, bind_run, hrun]
    exact h.refl

end Tract

theorem routeAt_run {σ : Type} {base : Key} {depth : Nat} (h : depth < maxDepth) (slot : Fin 32) (x : σ) :
    (routeAt base depth slot).run x = (.ok (routeWithChunk base depth slot), x) := by
  simp [routeAt, h]

theorem chunkAt_run {σ : Type} {k : Key} {depth : Nat} (h : depth < maxDepth) (x : σ) :
    (chunkAt k depth).run x = (.ok (chunk k depth), x) := by
  simp [chunkAt, h]

theorem nodeAtDepth_run {σ : Type} {node : Node H} {lba depth : Nat} (h : node.depth = depth) (x : σ) :
    (nodeAtDepth node lba depth).run x = (.ok (), x) := by
  simp [nodeAtDepth, h]

theorem readDoc_run (h : s.On d) {lba : Nat} (hl : lba < s.tract.len) (hash : H) :
    ∃ s', (readDoc lba hash).run s = (docOf (s.view d lba) lba hash s.tract.len, s') ∧ s.Reads d s' := by
  obtain ⟨s', hrun, hreads⟩ := Tract.readCached_run h hl
  refine ⟨s', ?_, hreads⟩
  simp [readDoc, hrun, hreads.tract]

variable {view : Nat → Block H} {len : Nat}

/-- A leaf is read as the document it is. -/
theorem LeafAt.docOf {hash : H} {lba : Nat} {key : Key} {value : Bytes} {furrows : List Nat}
    (h : LeafAt view len hash lba key value furrows) :
    (docOf (view lba) lba hash len = .ok (some (.lone key value)) ∧ furrows = []) ∨
      (∃ runs, docOf (view lba) lba hash len = .ok (some (.extent key value.length runs)) ∧
        expandRuns H runs value.length len = .ok furrows ∧
        payloads key 0 (furrows.map view) = .ok value) ∨
      docOf (view lba) lba hash len = .ok (some (.direct key value.length furrows)) ∧
        value.length ≤ furrows.length * furrowCapacity H ∧ payloads key 0 (furrows.map view) = .ok value := by
  cases h with
  | lone hlt hv hh =>
    exact .inl ⟨by simp [Manifestus.docOf, hv, sealedHp, hh, decodeDoc, TractDoc.past], rfl⟩
  | extent hlt hv hh hruns hread =>
    exact .inr (.inl ⟨_, by simp [Manifestus.docOf, hv, sealedHp, hh, decodeDoc, TractDoc.past], hruns, hread⟩)
  | direct hlt hv hh hfits hin hread =>
    have hpast : (TractDoc.direct key value.length furrows : TractDoc H).past len = none := by
      simpa [TractDoc.past] using hin
    exact .inr (.inr ⟨by simp [Manifestus.docOf, hv, sealedHp, hh, decodeDoc, hpast], hfits, hread⟩)

/-- A node is read as the node it is. -/
theorem NodeAt.docOf {path : List (Fin 32)} {hash : H} {lba : Nat} {slots : Fin 32 → Option (H × Nat)}
    (h : NodeAt view len path hash lba slots) :
    ∃ route, OnPath path route ∧
      docOf (view lba) lba hash len = .ok (some (.node (Node.ofSlots path.length route slots))) := by
  obtain ⟨route, extra, hv, hh, hroute⟩ := h.block
  have hpast : TractDoc.past len (.node (Node.ofSlots path.length route slots)) = none := by
    simp only [TractDoc.past, List.findSome?_eq_none_iff, Node.ofSlots]
    intro i _
    rcases hs : slots i with _ | p
    · rfl
    · have := h.inside i p hs
      simp only [Option.map_some]
      rw [if_neg (by omega)]
  exact ⟨route, hroute, by simp [Manifestus.docOf, hv, sealedHp, hh, decodeDoc, h.depth, hpast]⟩

/-- A value is reassembled from its furrows. -/
theorem readRuns_run (h : s.On d) {key : Key} {runs : List (List Nat)} :
    ∀ {start : Nat} {value : Bytes}, (∀ r ∈ runs, IsRun r) → (∀ p ∈ runs.flatten, p < s.tract.len) →
      payloads key start (runs.flatten.map (s.view d)) = .ok value →
      (readRuns key start runs).run s = (.ok value, s) := by
  induction runs with
  | nil =>
    intro start value _ _ hp
    simp only [List.flatten_nil, List.map_nil, payloads, Except.ok.injEq] at hp
    simp [readRuns, ← hp]
  | cons run runs ih =>
    intro start value hruns hlt hp
    simp only [List.mem_cons, forall_eq_or_imp] at hruns
    rw [List.flatten_cons, List.map_append] at hp
    obtain ⟨a, b, ha, hb, rfl⟩ := payloads_append_ok hp
    have hne : 0 < run.length := List.length_pos_iff.mpr hruns.1.1
    have hmem : run.headD 0 + (run.length - 1) ∈ run := by
      rw [hruns.1.2]
      refine List.mem_map.mpr ⟨run.length - 1, List.mem_range.mpr ?_, ?_⟩
      · omega
      · rw [← hruns.1.2]
    have hlast := hlt _ (by rw [List.flatten_cons]; exact List.mem_append_left _ hmem)
    have hread : (Tract.readRun (run.headD 0) run.length).run s = (.ok (run.map (s.view d)), s) := by
      rw [Tract.readRun_run h (by omega) hne]
      congr 2
      conv_rhs => rw [hruns.1.2]
      rw [List.map_map]
      rfl
    rw [List.length_map] at hb
    have hrest := ih hruns.2 (fun p hp => hlt p (by rw [List.flatten_cons]; exact List.mem_append_right _ hp)) hb
    simp only [readRuns, bind_run, hread, lift_run, ha, hrest, pure_run]

theorem readFurrows_run (h : s.On d) {key : Key} {furrows : List Nat} {value : Bytes}
    (hfits : value.length ≤ furrows.length * furrowCapacity H) (hlt : ∀ p ∈ furrows, p < s.tract.len)
    (hread : payloads key 0 (furrows.map (s.view d)) = .ok value) :
    (readFurrows key value.length furrows).run s = (.ok value, s) := by
  obtain ⟨hflat, hall⟩ := cutRuns_spec runStep furrows
  have hrun := readRuns_run h hall (by rwa [hflat]) (by rwa [hflat])
  simp [readFurrows, Nat.not_lt.mpr hfits, hrun]

/-- An extent names as many furrows as its value needs. -/
theorem expandRuns_fits {size tractLen : Nat} {runs : List (Nat × Nat)} {furrows : List Nat}
    (h : expandRuns H runs size tractLen = .ok furrows) : size ≤ furrows.length * furrowCapacity H := by
  rw [(expandRuns_ok h).2.1]
  exact le_mul_divCeil furrowCapacity_pos

namespace Hamt

theorem nodeAt_run {idx : Nat} {node : Node H} (h : s.hamt.arena[idx]? = some node) :
    (nodeAt idx).run s = (.ok node, s) := by
  simp [nodeAt, h]

theorem lookupFrom_run {key : Key} {t : Tree H} : ∀ {s : Store H} {path : List (Fin 32)} {c : Child H} {f : Nat},
    s.On d → s.Holds d path (some c) t → OnPath path key → f + path.length = descentFuel →
    path.length ≤ maxDepth →
    ∃ s', (lookupFrom key f path.length c).run s = (.ok (t.find key path.length), s') ∧ s.Reads d s' := by
  induction t with
  | empty => intro s path c fuel _ h; cases h
  | leaf hash lba k value furrows =>
    intro s path c fuel hon h hpath hfuel hmax
    obtain ⟨hc, hk, hleaf⟩ := h
    cases hc
    obtain ⟨f, rfl⟩ : ∃ f, fuel = f + 1 := ⟨fuel - 1, by simp [descentFuel] at hfuel; omega⟩
    obtain ⟨s', hrun, hreads⟩ := readDoc_run hon hleaf.lt hash
    refine ⟨s', ?_, hreads⟩
    rw [Tree.find_leaf]
    have hlt : ∀ p ∈ furrows, p < s'.tract.len := fun p hp => by
      rw [hreads.tract]
      exact hleaf.furrow_lt hp
    rcases hleaf.docOf with ⟨hdoc, -⟩ | ⟨runs, hdoc, hruns, hread⟩ | ⟨hdoc, hfits, hread⟩
    · rw [hdoc] at hrun
      simp [lookupFrom, hrun]
    · rw [hdoc] at hrun
      by_cases hkk : k = key
      · subst hkk
        rw [← hreads.view] at hread
        rw [← hreads.tract] at hruns
        have hval := readFurrows_run (hreads.on hon) (expandRuns_fits hruns) hlt hread
        simp [lookupFrom, hrun, hruns, hval]
      · simp [lookupFrom, hrun, hkk]
    · rw [hdoc] at hrun
      by_cases hkk : k = key
      · subst hkk
        rw [← hreads.view] at hread
        have hval := readFurrows_run (hreads.on hon) hfits hlt hread
        simp [lookupFrom, hrun, hval]
      · simp [lookupFrom, hrun, hkk]
  | disk hash lba ch ih =>
    intro s path c fuel hon h hpath hfuel hmax
    obtain ⟨hc, slots, hnode, hch⟩ := h
    cases hc
    obtain ⟨f, rfl⟩ : ∃ f, fuel = f + 1 := ⟨fuel - 1, by simp [descentFuel] at hfuel; omega⟩
    obtain ⟨s₁, hrun, hreads⟩ := readDoc_run hon hnode.lt hash
    obtain ⟨route, hroute, hdoc⟩ := hnode.docOf
    rw [hdoc] at hrun
    have hdepth := hnode.depth
    rw [Tree.find_disk]
    have hsub := hch (chunk key path.length)
    rcases hs : slots (chunk key path.length) with _ | p
    · rw [hs] at hsub
      have hempty : ch (chunk key path.length) = .empty := Rep.unique (t := .empty) rfl hsub
      refine ⟨s₁, ?_, hreads⟩
      simp [lookupFrom, hrun, nodeAtDepth, Node.ofSlots, chunkAt_run hdepth, hs, hempty]
    · rw [hs] at hsub
      have hsub₁ : s₁.Holds d (path ++ [chunk key path.length]) (some (.committed p.1 p.2))
          (ch (chunk key path.length)) := by
        rw [Store.Holds, hreads.view, hreads.tract, hreads.hamt]
        exact hsub
      obtain ⟨s', hrec, hreads'⟩ := ih (chunk key path.length) (f := f) (hreads.on hon) hsub₁
        (hpath.snoc rfl) (by rw [List.length_append, List.length_singleton]; omega)
        (by rw [List.length_append, List.length_singleton]; omega)
      refine ⟨s', ?_, hreads.trans hreads'⟩
      rw [List.length_append, List.length_singleton] at hrec
      simp [lookupFrom, hrun, nodeAtDepth, Node.ofSlots, chunkAt_run hdepth, hs, hrec]
  | dirty idx ch ih =>
    intro s path c fuel hon h hpath hfuel hmax
    obtain ⟨hc, node, hnode, hdepth, hlt, hroute, hch⟩ := h
    cases hc
    obtain ⟨f, rfl⟩ : ∃ f, fuel = f + 1 := ⟨fuel - 1, by simp [descentFuel] at hfuel; omega⟩
    rw [Tree.find_dirty]
    have hsub := hch (chunk key path.length)
    rcases hs : node.children (chunk key path.length) with _ | child
    · rw [hs] at hsub
      have hempty : ch (chunk key path.length) = .empty := Rep.unique (t := .empty) rfl hsub
      refine ⟨s, ?_, hon.refl⟩
      simp [lookupFrom, nodeAt_run hnode, chunkAt_run hlt, hs, hempty]
    · rw [hs] at hsub
      obtain ⟨s', hrec, hreads'⟩ := ih (chunk key path.length) (f := f) hon hsub (hpath.snoc rfl)
        (by rw [List.length_append, List.length_singleton]; omega)
        (by rw [List.length_append, List.length_singleton]; omega)
      refine ⟨s', ?_, hreads'⟩
      rw [List.length_append, List.length_singleton] at hrec
      simp [lookupFrom, nodeAt_run hnode, chunkAt_run hlt, hs, hrec]

/-- A lookup in a sound index reads the value the tree holds. -/
theorem lookup_run {t : Tree H} (hon : s.On d) (h : s.Holds d [] s.hamt.root t) (key : Key) :
    ∃ s', (lookup key).run s = (.ok (t.find key 0), s') ∧ s.Reads d s' := by
  rcases hr : s.hamt.root with _ | c
  · rw [hr] at h
    have hempty : t = .empty := Rep.unique (t := .empty) rfl h
    exact ⟨s, by simp [lookup, hr, hempty], hon.refl⟩
  · rw [hr] at h
    obtain ⟨s', hrun, hreads⟩ := lookupFrom_run (f := descentFuel) hon h (onPath_nil key) rfl (Nat.zero_le _)
    exact ⟨s', by simpa [lookup, hr] using hrun, hreads⟩

theorem findLeafFrom_run {key : Key} {t : Tree H} : ∀ {s : Store H} {path : List (Fin 32)} {c : Child H} {f : Nat},
    s.On d → s.Holds d path (some c) t → OnPath path key → f + path.length = descentFuel →
    path.length ≤ maxDepth →
    ∃ s', (findLeafFrom key f path.length c).run s =
      (.ok ((t.locate key path.length).map fun x => (x.2.1, x.1)), s') ∧ s.Reads d s' := by
  induction t with
  | empty => intro s path c fuel _ h; cases h
  | leaf hash lba k value furrows =>
    intro s path c fuel hon h hpath hfuel hmax
    obtain ⟨hc, hk, hleaf⟩ := h
    cases hc
    obtain ⟨f, rfl⟩ : ∃ f, fuel = f + 1 := ⟨fuel - 1, by simp [descentFuel] at hfuel; omega⟩
    obtain ⟨s', hrun, hreads⟩ := readDoc_run hon hleaf.lt hash
    refine ⟨s', ?_, hreads⟩
    rcases hleaf.docOf with ⟨hdoc, -⟩ | ⟨runs, hdoc, -, -⟩ | ⟨hdoc, -, -⟩ <;> rw [hdoc] at hrun <;>
      by_cases hkk : k = key <;> simp [findLeafFrom, hrun, Tree.locate, hkk]
  | disk hash lba ch ih =>
    intro s path c fuel hon h hpath hfuel hmax
    obtain ⟨hc, slots, hnode, hch⟩ := h
    cases hc
    obtain ⟨f, rfl⟩ : ∃ f, fuel = f + 1 := ⟨fuel - 1, by simp [descentFuel] at hfuel; omega⟩
    obtain ⟨s₁, hrun, hreads⟩ := readDoc_run hon hnode.lt hash
    obtain ⟨route, hroute, hdoc⟩ := hnode.docOf
    rw [hdoc] at hrun
    have hdepth := hnode.depth
    rw [Tree.locate]
    have hsub := hch (chunk key path.length)
    rcases hs : slots (chunk key path.length) with _ | p
    · rw [hs] at hsub
      have hempty : ch (chunk key path.length) = .empty := Rep.unique (t := .empty) rfl hsub
      refine ⟨s₁, ?_, hreads⟩
      simp [findLeafFrom, hrun, nodeAtDepth, Node.ofSlots, chunkAt_run hdepth, hs, hempty]
    · rw [hs] at hsub
      have hsub₁ : s₁.Holds d (path ++ [chunk key path.length]) (some (.committed p.1 p.2))
          (ch (chunk key path.length)) := by
        rw [Store.Holds, hreads.view, hreads.tract, hreads.hamt]
        exact hsub
      obtain ⟨s', hrec, hreads'⟩ := ih (chunk key path.length) (f := f) (hreads.on hon) hsub₁
        (hpath.snoc rfl) (by rw [List.length_append, List.length_singleton]; omega)
        (by rw [List.length_append, List.length_singleton]; omega)
      refine ⟨s', ?_, hreads.trans hreads'⟩
      rw [List.length_append, List.length_singleton] at hrec
      simp [findLeafFrom, hrun, nodeAtDepth, Node.ofSlots, chunkAt_run hdepth, hs, hrec]
  | dirty idx ch ih =>
    intro s path c fuel hon h hpath hfuel hmax
    obtain ⟨hc, node, hnode, hdepth, hlt, hroute, hch⟩ := h
    cases hc
    obtain ⟨f, rfl⟩ : ∃ f, fuel = f + 1 := ⟨fuel - 1, by simp [descentFuel] at hfuel; omega⟩
    rw [Tree.locate]
    have hsub := hch (chunk key path.length)
    rcases hs : node.children (chunk key path.length) with _ | child
    · rw [hs] at hsub
      have hempty : ch (chunk key path.length) = .empty := Rep.unique (t := .empty) rfl hsub
      refine ⟨s, ?_, hon.refl⟩
      simp [findLeafFrom, nodeAt_run hnode, chunkAt_run hlt, hs, hempty]
    · rw [hs] at hsub
      obtain ⟨s', hrec, hreads'⟩ := ih (chunk key path.length) (f := f) hon hsub (hpath.snoc rfl)
        (by rw [List.length_append, List.length_singleton]; omega)
        (by rw [List.length_append, List.length_singleton]; omega)
      refine ⟨s', ?_, hreads'⟩
      rw [List.length_append, List.length_singleton] at hrec
      simp [findLeafFrom, nodeAt_run hnode, chunkAt_run hlt, hs, hrec]

theorem findLeaf_run {t : Tree H} (hon : s.On d) (h : s.Holds d [] s.hamt.root t) (key : Key) :
    ∃ s', (findLeaf key).run s = (.ok ((t.locate key 0).map fun x => (x.2.1, x.1)), s') ∧ s.Reads d s' := by
  rcases hr : s.hamt.root with _ | c
  · rw [hr] at h
    have hempty : t = .empty := Rep.unique (t := .empty) rfl h
    exact ⟨s, by simp [findLeaf, hr, hempty], hon.refl⟩
  · rw [hr] at h
    obtain ⟨s', hrun, hreads⟩ :=
      findLeafFrom_run (f := descentFuel) hon h (onPath_nil key) rfl (Nat.zero_le _)
    exact ⟨s', by simpa [findLeaf, hr] using hrun, hreads⟩

end Hamt
end Manifestus
