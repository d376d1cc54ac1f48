import Manifestus.Index.AnyKey
import Manifestus.Index.Put

/-! A put on an index of any content that the open's walk let through: exactly when it runs past the
key. -/
set_option linter.unusedSectionVars false

namespace Manifestus
open Prog Store

variable {H : Type} [Crates H]

/-- The bitset of a walk covers whatever the root leads to. -/
theorem Descends.arrivals {view : Nat → Block H} {len depth l : Nat} {hash : H} (h : Vetted view len depth hash l) :
    depth ≤ maxDepth → ∀ {path : List (Fin 32)} {l' : Nat}, Descends view path l l' →
      l' ∈ arrivals view (maxDepth + 1 - depth) l := by
  induction h with
  | @mk depth hash lba doc hlt hdoc hdepth hbelow ih =>
    intro hle path l' hdesc
    obtain ⟨fuel, hfuel⟩ : ∃ n, n + 1 = maxDepth + 1 - depth := ⟨maxDepth - depth, by omega⟩
    rw [← hfuel]
    cases path with
    | nil =>
      obtain rfl : lba = l' := hdesc
      rw [Manifestus.arrivals]
      exact List.mem_cons_self
    | cons i path =>
      obtain ⟨own, route, slots, extra, h', next, hview, hslot, hrest⟩ := hdesc
      rw [hview] at hdoc
      obtain ⟨rfl, hlevel⟩ := docOf_sealed_node hdoc
      obtain rfl : own = depth := hdepth _ rfl
      have hbelow := ih _ rfl i h' next (by simp [Node.ofSlots, hslot]) (by omega) hrest
      rw [show maxDepth + 1 - (own + 1) = fuel by omega] at hbelow
      rw [Manifestus.arrivals, hview]
      refine List.mem_cons_of_mem _ (List.mem_flatMap.mpr ⟨i, List.mem_finRange i, ?_⟩)
      rw [hslot]
      exact hbelow

/-- The key a leaf block names. -/
def Block.leafKey : Block H → Option Key
  | .sealed (.lone key _) _ => some key
  | .sealed (.extent key _ _) _ => some key
  | .sealed (.direct key _ _) _ => some key
  | _ => none

/-- Following `key` from `l`, which is met at `depth`, one comes to a leaf of another key that agrees
with `key` in every chunk still to come. -/
def Stuck (view : Nat → Block H) (key : Key) (depth l : Nat) : Prop :=
  ∃ path l' k, Descends view path l l' ∧ (∀ i (hi : i < path.length), chunk key (depth + i) = path[i]) ∧
    (view l').leafKey = some k ∧ k ≠ key ∧
    ∀ j, depth + path.length ≤ j → j < maxDepth → chunk k j = chunk key j

theorem Descends.snoc {view : Nat → Block H} {path : List (Fin 32)} {l l' own extra next : Nat} {route : Key}
    {slots : Fin 32 → Option (H × Nat)} {i : Fin 32} {hash : H} (h : Descends view path l l')
    (hl' : view l' = .sealed (.node own route slots) extra) (hslot : slots i = some (hash, next)) :
    Descends view (path ++ [i]) l next := by
  induction path generalizing l with
  | nil =>
    obtain rfl : l = l' := h
    exact ⟨own, route, slots, extra, hash, next, hl', hslot, rfl⟩
  | cons j path ih =>
    obtain ⟨d, r, sl, x, h', n, hview, hj, hrest⟩ := h
    exact ⟨d, r, sl, x, h', n, hview, hj, ih hrest⟩

section Stuck

variable {view : Nat → Block H} {key k : Key} {depth l own extra : Nat} {route : Key}
  {slots : Fin 32 → Option (H × Nat)}

theorem stuck_leaf (h : (view l).leafKey = some k) :
    Stuck view key depth l ↔ k ≠ key ∧ ∀ j, depth ≤ j → j < maxDepth → chunk k j = chunk key j := by
  constructor
  · rintro ⟨path, l', k', hdesc, -, hk', hne, hagree⟩
    cases path with
    | nil =>
      obtain rfl : l = l' := hdesc
      obtain rfl : k = k' := Option.some.inj (h.symm.trans hk')
      exact ⟨hne, hagree⟩
    | cons i path =>
      obtain ⟨_, _, _, _, _, _, hview, -, -⟩ := hdesc
      rw [hview] at h
      cases h
  · rintro ⟨hne, hagree⟩
    exact ⟨[], l, k, rfl, by simp, h, hne, hagree⟩

theorem stuck_node (h : view l = .sealed (.node own route slots) extra) :
    Stuck view key depth l ↔
      ∃ hash next, slots (chunk key depth) = some (hash, next) ∧ Stuck view key (depth + 1) next := by
  constructor
  · rintro ⟨path, l', k, hdesc, hpath, hk, hne, hagree⟩
    cases path with
    | nil =>
      obtain rfl : l = l' := hdesc
      rw [h] at hk
      cases hk
    | cons i path =>
      obtain ⟨_, _, _, _, hash, next, hview, hslot, hrest⟩ := hdesc
      rw [h] at hview
      cases hview
      have hi : chunk key depth = i := hpath 0 (by simp)
      refine ⟨hash, next, by rw [hi]; exact hslot, path, l', k, hrest, fun j hj => ?_, hk, hne, fun j hj => ?_⟩
      · have := hpath (j + 1) (by simpa using hj)
        rwa [show depth + (j + 1) = depth + 1 + j by omega] at this
      · rw [List.length_cons] at hagree
        exact hagree j (by omega)
  · rintro ⟨hash, next, hslot, path, l', k, hrest, hpath, hk, hne, hagree⟩
    refine ⟨chunk key depth :: path, l', k, ⟨own, route, slots, extra, hash, next, h, hslot, hrest⟩, ?_, hk, hne,
      fun j hj => ?_⟩
    · intro j hj
      cases j with
      | zero => rfl
      | succ j =>
        have := hpath j (by simpa using hj)
        rwa [show depth + 1 + j = depth + (j + 1) by omega] at this
    · rw [List.length_cons] at hj
      exact hagree j (by omega)

/-- A block that is neither a leaf nor a node leads nowhere. -/
theorem not_stuck (h : (view l).leafKey = none)
    (hno : ∀ own route slots extra, view l ≠ .sealed (.node own route slots) extra) : ¬ Stuck view key depth l := by
  rintro ⟨path, l', k, hdesc, -, hk, -, -⟩
  cases path with
  | nil =>
    obtain rfl : l = l' := hdesc
    rw [h] at hk
    cases hk
  | cons i path =>
    obtain ⟨_, _, _, _, _, _, hview, -, -⟩ := hdesc
    exact hno _ _ _ _ hview

end Stuck

/-- A block that a put of `key` writes. -/
def Block.Own (key : Key) (b : Block H) : Prop :=
  (∀ k, b.leafKey = some k → k = key) ∧ ∀ own route slots extra, b ≠ .sealed (.node own route slots) extra

/-- The block a document was decoded from. -/
theorem docOf_leafKey {buf : Block H} {lba len : Nat} {hash : H} {doc : TractDoc H}
    (h : docOf buf lba hash len = .ok (some doc)) :
    match doc with
    | .node n => ∃ own route slots extra, buf = .sealed (.node own route slots) extra ∧ n = Node.ofSlots own route slots
    | .lone k _ => buf.leafKey = some k
    | .extent k _ _ => buf.leafKey = some k
    | .direct k _ _ => buf.leafKey = some k
    | .furrow .. => buf.leafKey = none ∧ ∀ own route slots extra, buf ≠ .sealed (.node own route slots) extra := by
  unfold docOf at h
  split at h
  · cases h
  split at h
  · cases h
  split at h
  · cases h
  split at h
  · cases h
  next decoded hdecode =>
  split at h
  · cases h
  cases h
  unfold decodeDoc at hdecode
  split at hdecode
  · cases hdecode; rfl
  · cases hdecode; rfl
  · cases hdecode; rfl
  · cases hdecode; exact ⟨rfl, by simp⟩
  · split at hdecode <;> cases hdecode
    exact ⟨_, _, _, _, rfl, rfl⟩
  · cases hdecode
  · cases hdecode

namespace Hamt

variable {d : Dev H} {key : Key} {s : Store H}

/-- Two keys are separated when a chunk of theirs differs from `depth` on. -/
theorem split_any {a b : Key × Child H} : ∀ (fuel depth : Nat) (s : Store H), maxDepth ≤ depth + fuel →
    Sat (split fuel depth a b) s (fun _ _ => ∃ j, depth ≤ j ∧ j < maxDepth ∧ chunk a.1 j ≠ chunk b.1 j)
      fun e _ => (∃ reason, e = .panic reason) ∧ ∀ j, depth ≤ j → j < maxDepth → chunk a.1 j = chunk b.1 j := by
  intro fuel
  induction fuel with
  | zero => exact fun depth s hfuel => ⟨⟨_, rfl⟩, fun j hj hlt => by omega⟩
  | succ fuel ih =>
    intro depth s hfuel
    rw [split]
    by_cases hlt : depth < maxDepth
    · refine sat_run (chunkAt_run hlt s) (sat_run (chunkAt_run hlt s) ?_)
      dsimp only
      split
      next heq =>
        refine sat_bind ((ih (depth + 1) s (by omega)).mono (fun _ _ h => h) ?_) ?_
        · rintro e _ ⟨he, hagree⟩
          refine ⟨he, fun j hj hj' => ?_⟩
          rcases Nat.lt_or_ge depth j with h | h
          · exact hagree j h hj'
          · obtain rfl : j = depth := by omega
            exact heq
        · rintro sub s₁ ⟨j, hj, hj', hne⟩
          exact sat_run (pushNode_run s₁ _) (sat_pure ⟨j, by omega, hj', hne⟩)
      next hne => exact sat_run (pushNode_run s _) (sat_pure ⟨depth, le_rfl, hlt, hne⟩)
    · unfold Sat
      simp only [chunkAt, if_neg hlt, bind_run, fail_run]
      exact ⟨⟨_, rfl⟩, fun j hj hj' => by omega⟩

/-- The device shows `v` wherever the index of `v` leads, but for blocks of the put itself where
`v` has none. -/
structure Shows (v : Nat → Block H) (root : Nat) (key : Key) (d : Dev H) (s : Store H) : Prop where
  on : s.On d
  shown : ∀ p, (∃ path, Descends v path root p) → s.view d p = v p ∨ v p = .zero ∧ (s.view d p).Own key

/-- How an insert ends: in a panic where it is stuck, and nowhere else. -/
def Ends (stuck : Prop) (x : Prog Error (Store H) (Child H)) (s : Store H) : Prop :=
  Sat x s (fun _ _ => ¬ stuck) fun e _ => (∃ reason, e = .panic reason) ∧ stuck ∨ e.Calm ∧ ¬ stuck

theorem ends_of_calm {stuck : Prop} {x : Prog Error (Store H) (Child H)} {Q : Child H → Store H → Prop}
    (hx : Sat x s Q fun e _ => e.Calm) (h : ¬ stuck) : Ends stuck x s :=
  hx.mono (fun _ _ _ => h) fun _ _ he => .inr ⟨he, h⟩

/-- A new leaf over one of its own key. -/
theorem overwrite_calm (leaf : Child H) (s : Store H) (lba : Nat) (hash : H) :
    Sat (do removeLeafBlocks lba hash; pure leaf) s (fun _ _ => True) fun e _ => e.Calm :=
  sat_bind (removeLeafBlocks_calm s lba hash) fun _ _ _ => sat_pure trivial

theorem insertChild_any {v : Nat → Block H} {root : Nat} (leaf : Child H) : ∀ (fuel depth : Nat) (hash : H) (lba : Nat)
    (s : Store H), depth + fuel = maxDepth + 1 → depth ≤ maxDepth → Shows v root key d s →
    (∃ path, Descends v path root lba) → Vetted v s.tract.len depth hash lba →
    Ends (Stuck v key depth lba) (insertChild key leaf fuel depth (some (.committed hash lba))) s := by
  intro fuel
  induction fuel with
  | zero => intro depth hash lba s hfuel hdepth; omega
  | succ fuel ih =>
    intro depth hash lba s hfuel hdepth hs hreach hvet
    obtain @⟨_, _, _, doc, hlt, hdocv, hnode, hbelow⟩ := hvet
    rw [insertChild]
    have hread := readDoc_any s lba hash
    rcases hs.shown lba hreach with hv | ⟨hz, hown⟩
    · obtain ⟨s₁, hrun, hreads⟩ := readDoc_run hs.on hlt hash
      rw [hv, hdocv] at hrun
      refine sat_run hrun ?_
      rcases doc with _ | doc
      · have hz := docOf_none hdocv
        exact sat_pure (not_stuck (by rw [hz]; rfl) (by simp [hz]))
      have hkey := docOf_leafKey hdocv
      have hleaf : ∀ k, (v lba).leafKey = some k → Ends (Stuck v key depth lba) (if k = key then do
          removeLeafBlocks lba hash
          pure leaf
        else split descentFuel depth (k, .committed hash lba) (key, leaf)) s₁ := by
        intro k hk
        have hstuck : Stuck v key depth lba ↔ k ≠ key ∧ ∀ j, depth ≤ j → j < maxDepth → chunk k j = chunk key j :=
          stuck_leaf hk
        split
        next heq => exact ends_of_calm (overwrite_calm leaf s₁ lba hash) fun h => (hstuck.mp h).1 heq
        next hne =>
          refine (split_any descentFuel depth s₁ ?_).mono (fun _ _ h hst => ?_) fun e _ he => ?_
          · simp only [descentFuel]
            omega
          · obtain ⟨j, hj, hj', hne'⟩ := h
            exact hne' ((hstuck.mp hst).2 j hj hj')
          · exact .inl ⟨he.1, hstuck.mpr ⟨hne, he.2⟩⟩
      cases doc with
      | node n =>
        obtain ⟨own, route, slots, extra, hvl, rfl⟩ := hkey
        have hdepth := hnode _ rfl
        have hlevel : depth < maxDepth := by
          rw [hvl] at hdocv
          exact hdepth ▸ (docOf_sealed_node hdocv).2
        refine sat_run (nodeAtDepth_run hdepth s₁) (sat_run (pushNode_run s₁ _) (sat_run (chunkAt_run hlevel _) ?_))
        have hsub : Ends (Stuck v key depth lba) (insertChild key leaf fuel (depth + 1)
            ((Node.ofSlots own route slots).children (chunk key depth)))
            { s₁ with hamt := { s₁.hamt with arena := s₁.hamt.arena ++ [Node.ofSlots own route slots] } } := by
          rcases hslot : slots (chunk key depth) with _ | ⟨h', next⟩
          · obtain ⟨fuel, rfl⟩ : ∃ n, fuel = n + 1 := ⟨fuel - 1, by omega⟩
            rw [show (Node.ofSlots own route slots).children (chunk key depth) = none by simp [Node.ofSlots, hslot]]
            refine sat_pure fun hst => ?_
            obtain ⟨_, _, hsome, -⟩ := (stuck_node hvl).mp hst
            rw [hslot] at hsome
            cases hsome
          · have hchild : (Node.ofSlots own route slots).children (chunk key depth) = some (.committed h' next) := by
              simp [Node.ofSlots, hslot]
            have hiff : Stuck v key depth lba ↔ Stuck v key (depth + 1) next := by
              rw [stuck_node hvl, hslot]
              simp
            rw [hchild, hiff]
            refine ih (depth + 1) h' next _ (by omega) (by omega) ?_ ?_ ?_
            · exact ⟨⟨(hreads.on hs.on).ready, (hreads.on hs.on).fits⟩, fun p hp => by
                have := hs.shown p hp
                rwa [← hreads.view] at this⟩
            · obtain ⟨path, hpath⟩ := hreach
              exact ⟨_, hpath.snoc hvl hslot⟩
            · show Vetted v s₁.tract.len (depth + 1) h' next
              rw [hreads.tract]
              exact hbelow _ rfl _ h' next hchild
        exact sat_bind hsub fun sub s₂ h₂ => sat_run (onHamt_run _ s₂) (sat_run (onHamt_run _ _) (sat_pure h₂))
      | lone k value => exact hleaf k hkey
      | extent k size runs => exact hleaf k hkey
      | direct k size furrows => exact hleaf k hkey
      | furrow k index payload => exact sat_fail (.inr ⟨trivial, not_stuck hkey.1 hkey.2⟩)
    · -- a block of the put where the index has a stale pointer
      have hns : ¬ Stuck v key depth lba := not_stuck (by rw [hz]; rfl) (by simp [hz])
      refine ends_of_calm (Q := fun _ _ => True) ?_ hns
      refine sat_bind (hread.mono (fun _ _ h => h) fun _ _ h => h.1) ?_
      rintro doc s₁ ⟨-, -, -, hdoc⟩
      rcases doc with _ | doc
      · exact sat_pure trivial
      have hkey := docOf_leafKey (hdoc d hs.on)
      cases doc with
      | node n =>
        obtain ⟨_, _, _, _, hbuf, -⟩ := hkey
        exact absurd hbuf (hown.2 _ _ _ _)
      | lone k value =>
        dsimp only
        rw [if_pos (hown.1 k hkey)]
        exact overwrite_calm leaf s₁ lba hash
      | extent k size runs =>
        dsimp only
        rw [if_pos (hown.1 k hkey)]
        exact overwrite_calm leaf s₁ lba hash
      | direct k size furrows =>
        dsimp only
        rw [if_pos (hown.1 k hkey)]
        exact overwrite_calm leaf s₁ lba hash
      | furrow k index payload => exact sat_fail trivial

end Hamt

namespace Tract

/-- The next `n` blocks can be appended: clean, before the fence, and over nothing referenced. -/
def Admits (t : Tract) (live : Liveness H) (n : Nat) : Prop :=
  n ≤ t.cleanBlocks ∧ (∀ limit ∈ t.fenceLimit, t.plow + n ≤ limit) ∧
    ∀ i < n, live.isReferenced ((t.plow + i) % t.len) = false

variable {live : Liveness H} {s : Store H} {d : Dev H}

theorem appendWith_isOk (live : Liveness H) (n : Nat) (make : Nat → Block H) (s : Store H) :
    ((appendWith live n make).run s).1.isOk = true ↔ s.tract.Admits live n := by
  simp only [appendWith, bind_run, state_run, Admits]
  by_cases hclean : s.tract.cleanBlocks < n
  · rw [if_pos hclean]
    simp only [fail_run, Except.isOk, Except.toBool, Bool.false_eq_true, false_iff]
    exact fun h => absurd h.1 (by omega)
  rw [if_neg hclean]
  by_cases hfence : (s.tract.fenceLimit.any fun limit => decide (limit < s.tract.plow + n)) = true
  · rw [if_pos hfence]
    simp only [fail_run, Except.isOk, Except.toBool, Bool.false_eq_true, false_iff]
    intro h
    rcases hlimit : s.tract.fenceLimit with _ | limit <;> rw [hlimit] at hfence
    · cases hfence
    · have hle := h.2.1 limit hlimit
      simp only [Option.any_some, decide_eq_true_eq] at hfence
      omega
  rw [if_neg hfence]
  have hfence' : ∀ limit ∈ s.tract.fenceLimit, s.tract.plow + n ≤ limit := by
    intro limit hlimit
    rw [Option.mem_def.mp hlimit] at hfence
    simpa using hfence
  rcases hfind : (List.range n).find? fun i => live.isReferenced ((s.tract.plow + i) % s.tract.len) with _ | i
  · simp only [bind_run, update_run, pure_run, Except.isOk, Except.toBool, true_iff]
    refine ⟨by omega, hfence', fun i hi => ?_⟩
    simpa using List.find?_eq_none.mp hfind i (List.mem_range.mpr hi)
  · simp only [onMirror, Mirror.emit, bind_run, zoom_run, update_run, fail_run, Except.isOk, Except.toBool,
      Bool.false_eq_true, false_iff]
    intro h
    have hi := List.mem_range.mp (List.mem_of_find?_eq_some hfind)
    have hlive := List.find?_some hfind
    rw [h.2.2 i hi] at hlive
    cases hlive

theorem appendWith_admits (n : Nat) (make : Nat → Block H) :
    Sat (appendWith live n make) s (fun _ _ => s.tract.Admits live n) fun _ _ => ¬ s.tract.Admits live n := by
  have hiff := appendWith_isOk live n make s
  unfold Sat
  rcases hr : (appendWith live n make).run s with ⟨e | ps, s'⟩ <;> rw [hr] at hiff
  · exact fun h => absurd (hiff.mpr h) (by simp [Except.isOk, Except.toBool])
  · exact hiff.mp rfl

theorem appendOne_admits (hon : s.On d) (hcur : s.tract.Cursors) (b : Block H) :
    Sat (appendOne live b) s (fun _ _ => s.tract.Admits live 1) fun _ _ => ¬ s.tract.Admits live 1 := by
  unfold appendOne append
  refine sat_bind ((appendWith_sat hon hcur 1 _).and (appendWith_admits 1 _) |>.mono (fun _ _ h => h) fun _ _ h => h.2) ?_
  rintro ps s' ⟨⟨hlen, -⟩, hadmits⟩
  obtain ⟨p, rfl⟩ := List.length_eq_one_iff.mp hlen
  exact sat_pure hadmits

/-- Room for some blocks and one more is room for them and then for one. -/
theorem admits_succ {t : Tract} (hcur : t.Cursors) (n : Nat) :
    t.Admits live (n + 1) ↔ t.Admits live n ∧ ({ t with plow := t.plow + n } : Tract).Admits live 1 := by
  obtain ⟨-, horder, -⟩ := hcur
  simp only [Admits, cleanBlocks]
  constructor
  · rintro ⟨hclean, hfence, hfree⟩
    refine ⟨⟨by omega, fun limit hl => ?_, fun i hi => hfree i (by omega)⟩, by omega, fun limit hl => ?_, fun i hi => ?_⟩
    · have := hfence limit hl
      omega
    · have := hfence limit hl
      omega
    · obtain rfl : i = 0 := by omega
      exact hfree n (by omega)
  · rintro ⟨⟨hclean, hfence, hfree⟩, hclean', hfence', hfree'⟩
    refine ⟨by omega, fun limit hl => ?_, fun i hi => ?_⟩
    · have := hfence' limit hl
      omega
    · rcases Nat.lt_or_ge i n with h | h
      · exact hfree i h
      · obtain rfl : i = n := by omega
        exact hfree' 0 (by omega)

end Tract

theorem Error.Refused.calm {e : Error} (h : e.Refused) : e.Calm := by
  cases e <;> first | exact h.elim | trivial

variable (H) in
/-- The blocks of a value: its leaf, and its furrows where it has any. -/
def leafBlocks (value : Bytes) : Nat :=
  if value.length ≤ loneCapacity H then 1 else divCeil value.length (furrowCapacity H) + 1

theorem own_lone (key : Key) (value : Bytes) : (encodeLone (H := H) key value).Own key :=
  ⟨fun _ h => (Option.some.inj h).symm, by simp [encodeLone, sealBlock]⟩

theorem own_furrow (key : Key) (i : Nat) (payload : Bytes) : (encodeFurrow (H := H) key i payload).Own key :=
  ⟨fun _ h => (Option.some_ne_none _ h.symm).elim, by simp [encodeFurrow, sealBlock]⟩

theorem own_extent (key : Key) (size : Nat) (runs : List (Nat × Nat)) :
    (sealBlock (H := H) (.extent key size runs)).Own key :=
  ⟨fun _ h => (Option.some.inj h).symm, by simp [sealBlock]⟩

namespace Hamt

variable {live : Liveness H} {d : Dev H} {key : Key} {value : Bytes} {s : Store H}

/-- What the blocks of a value change for the index. -/
structure Laid (live : Liveness H) (d : Dev H) (key : Key) (s s' : Store H) : Prop where
  on : s'.On d
  len : s'.tract.len = s.tract.len
  root : s'.hamt.root = s.hamt.root
  view : ∀ p, s'.view d p = s.view d p ∨ live.isReferenced p = false ∧ (s'.view d p).Own key

theorem Laid.of_appended {make : Nat → Block H} {ps : List Nat} {s' : Store H}
    (h : Tract.Appended live d make ps s s') (hown : ∀ i, (make i).Own key) : Laid live d key s s' where
  on := h.on
  len := by rw [h.tract]
  root := by rw [h.hamt]
  view p := by
    by_cases hp : p ∈ ps
    · obtain ⟨i, hi⟩ := List.mem_iff_getElem?.mp hp
      exact .inr ⟨(h.fresh p hp).2.1, h.placed i p hi ▸ hown i⟩
    · exact .inl (h.frame p hp)

theorem Laid.of_hamt {s' : Store H} (h : Laid live d key s s') {hamt : Hamt H} (hroot : hamt.root = s'.hamt.root) :
    Laid live d key s { s' with hamt := hamt } :=
  ⟨⟨h.on.ready, h.on.fits⟩, h.len, hroot.trans h.root, h.view⟩

theorem Laid.trans {s' s'' : Store H} (h : Laid live d key s s') (h' : Laid live d key s' s'') :
    Laid live d key s s'' where
  on := h'.on
  len := h'.len.trans h.len
  root := h'.root.trans h.root
  view p := by
    rcases h'.view p with hp | hp
    · rw [hp]
      exact h.view p
    · exact .inr hp

/-- The blocks of a value are laid exactly when there is room for them. -/
theorem putLeaf_any (hon : s.On d) (hcur : s.tract.Cursors) :
    Sat (putLeaf live key value) s (fun _ s' => Laid live d key s s' ∧ s.tract.Admits live (leafBlocks H value))
      fun e _ => e.Calm ∧ ¬ s.tract.Admits live (leafBlocks H value) := by
  unfold putLeaf leafBlocks
  split
  · refine sat_bind ((Tract.appendOne_sat hon hcur _).and (Tract.appendOne_admits hon hcur _) |>.mono
      (fun _ _ h => h) fun _ _ h => ⟨h.1.1.calm, h.2⟩) ?_
    rintro p s₁ ⟨happ, hadmits⟩
    exact sat_run (onHamt_run _ s₁) (sat_pure ⟨(Laid.of_appended happ fun _ => own_lone key value).of_hamt rfl, hadmits⟩)
  · refine sat_bind ((Tract.appendWith_sat hon hcur _ _).and (Tract.appendWith_admits _ _) |>.mono
      (fun _ _ h => h) fun e _ h => ⟨h.1.1.calm, fun ha => h.2 ((Tract.admits_succ hcur _).mp ha).1⟩) ?_
    rintro ps s₁ ⟨⟨hlen, happ⟩, hadmits⟩
    have hlaid := Laid.of_appended happ fun i => own_furrow key i _
    have hpushed := each_pushAdded_run (H := H)
      (fun p : Nat × Nat => (p.1, Crates.hash (.furrow key p.2 (furrowBytes (H := H) value p.2)) 0))
      (ps.zip (List.range (divCeil value.length (furrowCapacity H)))) s₁
    refine sat_run hpushed ?_
    have hruns : ¬ maxRuns H < (compressRuns ps).length := by
      have hps : ps = (List.range ps.length).map fun i => (s.tract.plow + i) % s.tract.len := by
        refine List.ext_getElem (by simp) fun i hi _ => ?_
        rw [List.getElem_map, List.getElem_range]
        exact happ.inside i _ (List.getElem?_eq_getElem hi)
      have hle : ps.length ≤ s.tract.len := by
        rw [hlen]
        have := hadmits.1
        unfold Tract.cleanBlocks at this
        omega
      have htwo := length_compressRuns_lap (a := s.tract.plow) hcur.pos hle
      rw [← hps] at htwo
      have hhp := Crates.hpLen_le (H := H)
      unfold maxRuns bodyStart blockSize
      omega
    have hencode : encodeExtent (H := H) key value.length (compressRuns ps) =
        .ok (sealBlock (.extent key value.length (compressRuns ps))) := by
      rw [encodeExtent, if_neg hruns]
    dsimp only
    rw [hencode]
    refine sat_run (lift_run _ _) ?_
    obtain ⟨s₂, hs₂⟩ : ∃ s₂ : Store H, s₂ = { s₁ with hamt := s₁.hamt.gain ((ps.zip (List.range (divCeil value.length
      (furrowCapacity H)))).map fun p => (p.1, Crates.hash (.furrow key p.2 (furrowBytes (H := H) value p.2)) 0)) } :=
      ⟨_, rfl⟩
    rw [← hs₂]
    have hlaid₂ : Laid live d key s s₂ := by
      rw [hs₂]
      exact hlaid.of_hamt rfl
    have htract₂ : s₂.tract = { s.tract with plow := s.tract.plow + divCeil value.length (furrowCapacity H) } := by
      rw [hs₂, ← hlen]
      exact happ.tract
    have hcur₂ : s₂.tract.Cursors := by
      rw [hs₂]
      exact happ.cursors
    have hiff : s.tract.Admits live (divCeil value.length (furrowCapacity H) + 1) ↔ s₂.tract.Admits live 1 := by
      rw [Tract.admits_succ hcur, htract₂]
      exact and_iff_right hadmits
    refine sat_bind ((Tract.appendOne_sat hlaid₂.on hcur₂ _).and (Tract.appendOne_admits hlaid₂.on hcur₂ _) |>.mono
      (fun _ _ h => h) fun _ _ h => ⟨h.1.1.calm, fun ha => h.2 (hiff.mp ha)⟩) ?_
    rintro p s₃ ⟨happ', hadmits'⟩
    have hlaid' := hlaid₂.trans (.of_appended happ' fun _ => own_extent key value.length (compressRuns ps))
    exact sat_run (onHamt_run _ s₃) (sat_pure ⟨hlaid'.of_hamt rfl, hiff.mpr hadmits'⟩)

variable (live key value) in
/-- A put into an empty index. -/
theorem put_none_calm (hon : s.On d) (hcur : s.tract.Cursors) (h : s.hamt.root = none) :
    Sat (put live key value) s (fun _ _ => True) fun e _ => e.Calm := by
  have hinner : Sat (putInner live key value) s (fun _ _ => True) fun e _ => e.Calm := by
    refine sat_bind ((putLeaf_any hon hcur).mono (fun _ _ h => h) fun _ _ h => h.1) ?_
    rintro ⟨lba, hash⟩ s₁ ⟨hlaid, -⟩
    refine sat_state ?_
    rw [hlaid.root, h]
    exact trivial
  refine sat_state (sat_try hinner (fun _ _ _ => sat_pure trivial) fun e s₁ h => ?_)
  exact sat_run (onHamt_run _ s₁) (sat_fail h)

variable (key value) in
/-- A put panics exactly when its blocks can be laid and the key's descent is stuck. -/
theorem put_any {hash : H} {lba : Nat} (hon : s.On d) (hcur : s.tract.Cursors)
    (hroot : s.hamt.root = some (.committed hash lba)) (hvet : Vetted (s.view d) s.tract.len 0 hash lba)
    (hcov : ∀ p, (∃ path, Descends (s.view d) path lba p) → live.isReferenced p = true ∨ s.view d p = .zero) :
    Sat (put live key value) s
      (fun _ _ => ¬ (s.tract.Admits live (leafBlocks H value) ∧ Stuck (s.view d) key 0 lba))
      fun e _ => (∃ reason, e = .panic reason) ∧
          (s.tract.Admits live (leafBlocks H value) ∧ Stuck (s.view d) key 0 lba) ∨
        e.Calm ∧ ¬ (s.tract.Admits live (leafBlocks H value) ∧ Stuck (s.view d) key 0 lba) := by
  have hinner : Sat (putInner live key value) s
      (fun _ _ => ¬ (s.tract.Admits live (leafBlocks H value) ∧ Stuck (s.view d) key 0 lba))
      fun e _ => (∃ reason, e = .panic reason) ∧
          (s.tract.Admits live (leafBlocks H value) ∧ Stuck (s.view d) key 0 lba) ∨
        e.Calm ∧ ¬ (s.tract.Admits live (leafBlocks H value) ∧ Stuck (s.view d) key 0 lba) := by
    refine sat_bind ((putLeaf_any hon hcur).mono (fun _ _ h => h) fun e _ h => .inr ⟨h.1, fun hb => h.2 hb.1⟩) ?_
    rintro ⟨leafLba, leafHash⟩ s₁ ⟨hlaid, hadmits⟩
    refine sat_state ?_
    rw [hlaid.root, hroot]
    have hshows : Shows (s.view d) lba key d s₁ := by
      refine ⟨hlaid.on, fun p hp => ?_⟩
      rcases hlaid.view p with h | ⟨hfree, hown⟩
      · exact .inl h
      · rcases hcov p hp with href | hz
        · rw [hfree] at href
          cases href
        · exact .inr ⟨hz, hown⟩
    have hends := insertChild_any (.committed leafHash leafLba) descentFuel 0 hash lba s₁ (Nat.zero_add _)
      (Nat.zero_le _) hshows ⟨[], rfl⟩ (by rw [hlaid.len]; exact hvet)
    refine sat_bind (hends.mono (fun _ _ h => h) fun e _ h => ?_) fun root s₂ h => ?_
    · exact h.imp (fun h => ⟨h.1, hadmits, h.2⟩) fun h => ⟨h.1, fun hb => h.2 hb.2⟩
    · exact fun hb => h hb.2
  refine sat_state (sat_try hinner (fun _ s₁ h => sat_pure h) fun e s₁ h => ?_)
  exact sat_run (onHamt_run _ s₁) (sat_fail h)

end Hamt

/-- On an index that the open's walk let through, lookup, put and delete do not panic, exactly unless
the put has room for its blocks and its key leads to a leaf of another key with the same chunks from
there on. -/
theorem point_operations_total {w w' : Walker H} {d : Dev H} {hash : H} {lba : Nat}
    (hroot : w.store.hamt = Hamt.fromRoot hash lba) (hlba : lba < w.store.tract.len) (hon : w.store.On d)
    (hcur : w.store.tract.Cursors) (hwalk : Walker.walkTreeCollect.run w = (.ok (), w')) (key : Key) (value : Bytes)
    (policy : DeletePolicy) :
    (∀ reason, ((Hamt.lookup key).run w'.store).1 ≠ .error (.panic reason) ∧
      ((Hamt.put (LiveSet.ofWalk w'.walk.liveBlocks w'.walk.referenced).liveness key value).run w'.store).1 ≠
        .error (.panic reason) ∧
      ((Hamt.delete key policy).run w'.store).1 ≠ .error (.panic reason)) ↔
    ¬ (hash ≠ Crates.zeros ∧
      w.store.tract.Admits (LiveSet.ofWalk w'.walk.liveBlocks w'.walk.referenced).liveness (leafBlocks H value) ∧
      Stuck (w.store.view d) key 0 lba) := by
  have hcases := Hamt.fromRoot_cases hroot
  have htold := Walker.walkTreeCollect_any hcases hlba
  unfold Sat at htold
  rw [hwalk] at htold
  obtain ⟨hmoved, htold⟩ := htold
  have hroot' : w'.store.hamt.root = w.store.hamt.root := congrArg Hamt.root hmoved.hamt
  have hclean : Hamt.OnTract w'.store.hamt.root := by
    intro idx
    rw [hroot']
    rcases hcases with h | h <;> rw [h] <;> simp
  have hlookup := Error.Calm.of_sat (Hamt.lookup_calm key hclean)
  have hdelete := Error.Calm.of_sat (Hamt.delete_calm key policy hclean)
  by_cases hzero : hash = Crates.zeros
  · have hnone : w'.store.hamt.root = none := hroot'.trans (Hamt.fromRoot_none hroot hzero)
    have hput := Error.Calm.of_sat (Hamt.put_none_calm
      (LiveSet.ofWalk w'.walk.liveBlocks w'.walk.referenced).liveness key value (hmoved.on d hon)
      (by rw [hmoved.tract]; exact hcur) hnone)
    exact ⟨fun _ h => h.1 hzero, fun _ reason => ⟨hlookup reason, hput reason, hdelete reason⟩⟩
  · have hsome := Hamt.fromRoot_some hroot hzero
    obtain ⟨htold, hcovered⟩ := htold hsome
    have hvet := htold.vetted d hon
    have hcov : ∀ p, (∃ path, Descends (w'.store.view d) path lba p) →
        (LiveSet.ofWalk w'.walk.liveBlocks w'.walk.referenced).liveness.isReferenced p = true ∨
          w'.store.view d p = .zero := by
      rintro p ⟨path, hdesc⟩
      rw [hmoved.view d hon] at hdesc ⊢
      have hmark : p ∈ w'.marks := (htold.perm d hon).mem_iff.mpr (hdesc.arrivals hvet (Nat.zero_le _))
      rcases hcovered p hmark with h | h | h
      · exact .inl ((LiveSet.refers_ofWalk _ _ p).mpr (.inl h))
      · exact .inl ((LiveSet.refers_ofWalk _ _ p).mpr (.inr h))
      · exact .inr (h d hon)
    have hput := Hamt.put_any key value (hmoved.on d hon) (by rw [hmoved.tract]; exact hcur)
      (hroot'.trans hsome) (by rw [hmoved.view d hon, hmoved.tract]; exact hvet) hcov
    rw [hmoved.tract, hmoved.view d hon] at hput
    unfold Sat at hput
    constructor
    · rintro h ⟨-, hstuck⟩
      rcases hr : (Hamt.put (LiveSet.ofWalk w'.walk.liveBlocks w'.walk.referenced).liveness key value).run w'.store with
        ⟨e | _, s'⟩ <;> rw [hr] at hput
      · rcases hput with ⟨⟨reason, rfl⟩, -⟩ | ⟨-, hno⟩
        · exact (h reason).2.1 (by rw [hr])
        · exact hno hstuck
      · exact hput hstuck
    · intro hno reason
      refine ⟨hlookup reason, fun hpanic => ?_, hdelete reason⟩
      rcases hr : (Hamt.put (LiveSet.ofWalk w'.walk.liveBlocks w'.walk.referenced).liveness key value).run w'.store with
        ⟨e | _, s'⟩ <;> rw [hr] at hput hpanic
      · rcases hput with ⟨-, hstuck⟩ | ⟨hcalm, -⟩
        · exact hno ⟨hzero, hstuck⟩
        · cases hpanic
          exact hcalm
      · cases hpanic

namespace Digest

/-- The primary of a walk of four blocks. -/
def devOf (blocks : List (Block Digest)) : Dev Digest := ⟨4, fun p => blocks.getD p .zero, none, [], []⟩

theorem walkerOf_on (root : Block Digest) (rest : List (Block Digest)) :
    (walkerOf root rest).store.On (devOf (root :: rest)) where
  ready := ⟨rfl, rfl, by simp [walkerOf, Mirror.staged], by simp [walkerOf]⟩
  fits := le_rfl

/-- A leaf whose key routes to slot 2. -/
def routed : Block Digest := encodeLone (BitVec.ofNat 256 (2 * 2 ^ 251)) [1]

end Digest

/-- A key that parts from a leaf's in the last chunk only. -/
theorem point_operations_total_routed : ¬ ∃ reason,
    ((Hamt.put (LiveSet.ofWalk
        (Walker.walkTreeCollect.run (Digest.walkerOf (Digest.nodeTo Digest.routed [2]) [Digest.routed])).2.walk.liveBlocks
        (Walker.walkTreeCollect.run (Digest.walkerOf (Digest.nodeTo Digest.routed [2]) [Digest.routed])).2.walk.referenced).liveness
        (BitVec.ofNat 256 (2 * 2 ^ 251 + 1)) [1]).run
      (Walker.walkTreeCollect.run (Digest.walkerOf (Digest.nodeTo Digest.routed [2]) [Digest.routed])).2.store).1 =
      .error (.panic reason) := by
  obtain ⟨w, hw⟩ : ∃ w, w = Digest.walkerOf (Digest.nodeTo Digest.routed [2]) [Digest.routed] := ⟨_, rfl⟩
  rw [← hw]
  have hok : (Walker.walkTreeCollect.run w).1 = .ok () := by
    rw [hw]
    decide +kernel
  have hrun : Walker.walkTreeCollect.run w = (.ok (), (Walker.walkTreeCollect.run w).2) := by rw [← hok]
  have hon : w.store.On (Digest.devOf [Digest.nodeTo Digest.routed [2], Digest.routed]) := hw ▸ Digest.walkerOf_on _ _
  have htotal := point_operations_total (w := w) (d := Digest.devOf [Digest.nodeTo Digest.routed [2], Digest.routed])
    (by rw [hw]; rfl) (by rw [hw]; decide) hon (by rw [hw]; exact ⟨by decide, by decide, by decide⟩) hrun
    (BitVec.ofNat 256 (2 * 2 ^ 251 + 1)) [1] .unlinkOnly
  rintro ⟨reason, hpanic⟩
  refine (htotal.mpr ?_ reason).2.1 hpanic
  rintro ⟨-, -, hstuck⟩
  have hview : w.store.view (Digest.devOf [Digest.nodeTo Digest.routed [2], Digest.routed]) =
      fun p => [Digest.nodeTo Digest.routed [2], Digest.routed].getD p .zero := by
    rw [hw]
    funext p
    simp [Store.view, Mirror.view, Digest.walkerOf, Mirror.stagedAt, Mirror.staged, Digest.devOf]
  obtain ⟨view, hv⟩ : ∃ view, view = fun p => [Digest.nodeTo Digest.routed [2], Digest.routed].getD p .zero := ⟨_, rfl⟩
  rw [hview, ← hv] at hstuck
  have hroot : view 0 = .sealed (.node 0 0 fun i =>
      if i ∈ [2] then (sealedHp Digest.routed).map (·, 1) else none) 0 := by rw [hv]; rfl
  have hleaf : (view 1).leafKey = some (BitVec.ofNat 256 (2 * 2 ^ 251)) := by rw [hv]; rfl
  obtain ⟨hash, next, hslot, hbelow⟩ := (stuck_node hroot).mp hstuck
  have hchunk : chunk (BitVec.ofNat 256 (2 * 2 ^ 251 + 1)) 0 = 2 := by decide +kernel
  rw [hchunk] at hslot
  obtain rfl : next = 1 := by simpa [Digest.routed, encodeLone] using (congrArg (Option.map Prod.snd) hslot).symm
  have hagree := ((stuck_leaf hleaf).mp hbelow).2 51 (by decide) (by decide)
  revert hagree
  decide +kernel

/-- A root node points with slot 2 to a leaf whose key routes to slot 0. The walk lets it through; a put
of the key that leads there and agrees with the leaf's in all other chunks panics. -/
theorem point_operations_misrouted :
    let w := Walker.walkTreeCollect.run (Digest.walkerOf (Digest.nodeTo (encodeLone 5 [1]) [2]) [encodeLone 5 [1]])
    w.1 = .ok () ∧
      ((Hamt.put (LiveSet.ofWalk w.2.walk.liveBlocks w.2.walk.referenced).liveness (5 + BitVec.ofNat 256 (2 * 2 ^ 251)) [1]).run
        w.2.store).1 = .error (.panic "key index out of bounds") := by
  decide +kernel

end Manifestus
