import Manifestus.Vault.Reached
import Manifestus.Index.Collect

/-! The live set of a committed vault and the positions its root leads to. -/
set_option linter.unusedSectionVars false

namespace Manifestus
open Prog

variable {H : Type} [Crates H]

/-- The positions a pointer to `lba` leads to in a tract of `len` blocks at `base`: itself, what a node
there points to, and the furrows of a leaf there. -/
inductive Leads (data : Nat → Block H) (base len : Nat) : Nat → Nat → Prop where
  | self (lba : Nat) : Leads data base len lba lba
  | node {lba depth extra l p : Nat} {route : Key} {slots : Fin 32 → Option (H × Nat)} {slot : Fin 32} {hash : H}
      (hblock : data (base + lba) = .sealed (.node depth route slots) extra) (hslot : slots slot = some (hash, l))
      (h : Leads data base len l p) : Leads data base len lba p
  | extent {lba size extra p : Nat} {key : Key} {runs : List (Nat × Nat)} {furrows : List Nat}
      (hblock : data (base + lba) = .sealed (.extent key size runs) extra)
      (hruns : expandRuns H runs size len = .ok furrows) (hp : p ∈ furrows) : Leads data base len lba p
  | direct {lba size extra p : Nat} {key : Key} {furrows : List Nat}
      (hblock : data (base + lba) = .sealed (.direct key size furrows) extra) (hp : p ∈ furrows) :
      Leads data base len lba p

/-- The positions the root of a generation leads to; the all-zero hash leads nowhere. -/
def SpineEntry.Reaches (e : SpineEntry H) (data : Nat → Block H) (base p : Nat) : Prop :=
  e.hamtHash ≠ Crates.zeros ∧ Leads data base e.tractBlocks e.hamtLba p

/-- A sound pointer leads to what its tree holds. -/
theorem Rep.leads_iff {data : Nat → Block H} {base len p : Nat} {t : Tree H} :
    ∀ {path : List (Fin 32)} {hash : H} {lba : Nat},
      Rep (fun p => data (base + p)) len [] path (some (.committed hash lba)) t →
      (Leads data base len lba p ↔ t.Claims p) := by
  induction t with
  | empty => intro path hash lba h; cases h
  | dirty idx ch => intro path hash lba h; cases h.1
  | leaf hash' lba' key value furrows =>
    intro path hash lba h
    obtain ⟨hc, -, hleaf⟩ := h
    cases hc
    cases hleaf with
    | lone hlt hview hhash =>
      constructor
      · intro hl
        cases hl with
        | self => exact .inl rfl
        | node hblock _ _ => cases hview.symm.trans hblock
        | extent hblock _ _ => cases hview.symm.trans hblock
        | direct hblock _ => cases hview.symm.trans hblock
      · rintro (rfl | hp)
        · exact .self _
        · cases hp
    | extent hlt hview hhash hruns hread =>
      constructor
      · intro hl
        cases hl with
        | self => exact .inl rfl
        | node hblock _ _ => cases hview.symm.trans hblock
        | extent hblock hruns' hp =>
          cases hview.symm.trans hblock
          rw [hruns] at hruns'
          cases hruns'
          exact .inr hp
        | direct hblock _ => cases hview.symm.trans hblock
      · rintro (rfl | hp)
        · exact .self _
        · exact .extent hview hruns hp
    | direct hlt hview hhash hfits hin hread =>
      constructor
      · intro hl
        cases hl with
        | self => exact .inl rfl
        | node hblock _ _ => cases hview.symm.trans hblock
        | extent hblock _ _ => cases hview.symm.trans hblock
        | direct hblock hp =>
          cases hview.symm.trans hblock
          exact .inr hp
      · rintro (rfl | hp)
        · exact .self _
        · exact .direct hview hp
  | disk hash' lba' ch ih =>
    intro path hash lba h
    obtain ⟨hc, slots, hnode, hch⟩ := h
    cases hc
    obtain ⟨route, extra, hview, -, -⟩ := hnode.block
    constructor
    · intro hl
      cases hl with
      | self => exact .inl rfl
      | @node _ _ _ l _ _ _ slot hash'' hblock hslot hl =>
        cases hview.symm.trans hblock
        have hrep := hch slot
        rw [hslot] at hrep
        exact .inr ⟨slot, (ih slot hrep).mp hl⟩
      | extent hblock _ _ => cases hview.symm.trans hblock
      | direct hblock _ => cases hview.symm.trans hblock
    · rintro (rfl | ⟨i, hi⟩)
      · exact .self _
      · have hrep := hch i
        rcases hs : slots i with _ | q
        · rw [hs] at hrep
          rw [Rep.unique (t := .empty) rfl hrep] at hi
          exact hi.elim
        · rw [hs] at hrep
          exact .node hview hs ((ih i hrep).mpr hi)

/-- The root of a sound image leads to what its tree holds. -/
theorem Sound.reaches_iff {r : Nat} {i : Image H} {e : SpineEntry H} {T : Tree H} (h : Sound r i e T) {p : Nat} :
    e.Reaches i.data (2 ^ r) p ↔ T.Claims p := by
  have hrep := h.rep
  unfold SpineEntry.rootChild Hamt.fromRoot at hrep
  unfold SpineEntry.Reaches
  by_cases hz : e.hamtHash = Crates.zeros
  · rw [if_pos hz] at hrep
    rw [Rep.unique (t := .empty) rfl hrep]
    exact ⟨fun hx => absurd hz hx.1, fun hx => hx.elim⟩
  · rw [if_neg hz] at hrep
    rw [← Rep.leads_iff hrep]
    exact and_iff_right hz

variable {m m₀ : Mirror H} {k r : Nat} {v v' : Vault H} {allowed : Map → Prop} {d : Dev H} {e : SpineEntry H}
  {T : Tree H}

/-- A position with a known hash is recorded with it, when the set has no positions alone. -/
theorem LiveSet.get?_eq (hashes : Nat → Option H) {l : LiveSet H} (hk : l.Known hashes) {p : Nat} {hash : H}
    (hp : p ∈ spots l.map) (hh : hashes p = some hash) : l.get? p = some hash := by
  obtain ⟨x, hx⟩ := Option.isSome_iff_exists.mp (LiveSet.get?_isSome.mpr hp)
  rw [hx, ← hh, hk.get? hx]

/-- The hashed blocks of a walk as a set. -/
private theorem foldl_insert (hashes : Nat → Option H) {blocks : List (Nat × H)}
    (h : ∀ x ∈ blocks, hashes x.1 = some x.2) :
    (blocks.foldl LiveSet.insert LiveSet.empty).Known hashes ∧
      (blocks.foldl LiveSet.insert LiveSet.empty).referenced = [] ∧
      ∀ p, p ∈ spots (blocks.foldl LiveSet.insert LiveSet.empty).map ↔ p ∈ spots blocks := by
  have hof := LiveSet.ofWalk_spec hashes [] h
  have href : ∀ (blocks : List (Nat × H)) (l : LiveSet H), (blocks.foldl LiveSet.insert l).referenced = l.referenced := by
    intro blocks
    induction blocks with
    | nil => intro l; rfl
    | cons x blocks ih => intro l; exact ih (l.insert x)
  refine ⟨hof.1, href _ _, fun p => ?_⟩
  have hp := hof.2 p
  rw [LiveSet.refers_iff] at hp
  rw [show (LiveSet.ofWalk blocks []).referenced = [] from href _ _] at hp
  simpa [LiveSet.ofWalk] using hp

/-- In a vault whose index in memory is the committed one the live set and the index do not diverge. -/
theorem InUse.divergence_run (h : InUse m₀ k allowed r v d e T T) :
    ∃ w, Vault.liveMapDivergence.run v = (.ok ([], []), w) := by
  have hroot : ∀ i, v.store.hamt.root ≠ some (.dirty i) := by
    intro i hi
    have hrep := h.indexed.rep
    rw [hi] at hrep
    cases T with
    | empty => cases hrep
    | leaf => cases hrep.1
    | disk => cases hrep.1
    | dirty idx ch => exact e.rootChild_ne_dirty _ h.sound.rep.1
  obtain ⟨s', w, hwalk, hreads, hspots, hhash⟩ :=
    Walker.walkLiveCollect_run h.indexed.on h.indexed.rep h.indexed.sep hroot
  obtain ⟨hknown, href, hmem⟩ := foldl_insert (fun p => sealedHp (v.store.view d p)) hhash
  obtain ⟨index, hindex⟩ : ∃ index, index = w.liveBlocks.foldl LiveSet.insert LiveSet.empty := ⟨_, rfl⟩
  rw [← hindex] at hknown href hmem
  have hclaims : ∀ p, p ∈ spots index.map ↔ v.live.Refers p := by
    intro p
    rw [hmem, hspots, h.live]
  -- what the live set has the index has, with the same hash
  have hrouted : v.live.map.filter (fun x => index.get? x.1 ≠ some x.2) = [] := by
    rw [List.filter_eq_nil_iff]
    intro x hx
    have hp : x.1 ∈ spots index.map :=
      (hclaims x.1).mpr (LiveSet.refers_iff.mpr (.inl (mem_spots.mpr ⟨x, hx, rfl⟩)))
    simp [LiveSet.get?_eq _ hknown hp (h.indexed.known x hx)]
  have hreferenced : v.live.referenced.filter (fun lba => (index.get? lba).isNone) = [] := by
    rw [List.filter_eq_nil_iff]
    intro p hp
    have hp' := LiveSet.get?_isSome.mpr ((hclaims p).mpr (LiveSet.refers_iff.mpr (.inr hp)))
    obtain ⟨x, hx⟩ := Option.isSome_iff_exists.mp hp'
    simp [hx]
  -- and the other way round
  have hfound : index.map.filter (fun x => v.live.get? x.1 ≠ some x.2 && !v.live.referenced.contains x.1) = [] := by
    rw [List.filter_eq_nil_iff]
    intro x hx
    have hrefers := (hclaims x.1).mp (mem_spots.mpr ⟨x, hx, rfl⟩)
    rcases LiveSet.refers_iff.mp hrefers with hp | hp
    · have hget : v.live.get? x.1 = some x.2 := LiveSet.get?_eq (fun p => sealedHp (v.store.view d p)) h.indexed.known hp (hknown x hx)
      simp [hget]
    · simp [hp]
  refine ⟨v.withStore s', ?_⟩
  rw [Vault.liveMapDivergence, bind_run, settle_run h.settling]
  show Vault.liveMapDivergenceNow.run v = _
  unfold Vault.liveMapDivergenceNow
  have hwalk' : Walker.walkLiveCollect.run ⟨v.store, Walk.start v.tract.len []⟩ = (.ok (), ⟨s', w⟩) := hwalk
  simp only [hwalk', ← hindex]
  rw [hrouted, hreferenced, hfound]
  rfl

end Manifestus
