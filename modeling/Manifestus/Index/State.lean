import Manifestus.Index.Append
import Manifestus.Engine.LiveSet

/-! The store between commits: the index and its delta account for every live position. -/
set_option linter.unusedSectionVars false

namespace Manifestus
open Prog Store

variable {H : Type} [Crates H] {d : Dev H} {live : LiveSet H} {s s' s'' : Store H} {t t' : Tree H}

/-- Whether the live set holds a position. -/
def LiveSet.Refers (l : LiveSet H) (p : Nat) : Prop := l.liveness.isReferenced p = true

/-- The positions of a delta list. -/
def spots (l : List (Nat × H)) : List Nat := l.map Prod.fst

@[simp] theorem spots_nil : spots ([] : List (Nat × H)) = [] := rfl

@[simp] theorem spots_cons (e : Nat × H) (l : List (Nat × H)) : spots (e :: l) = e.1 :: spots l := rfl

@[simp] theorem spots_append (l l' : List (Nat × H)) : spots (l ++ l') = spots l ++ spots l' := by
  simp [spots]

theorem mem_spots {l : List (Nat × H)} {p : Nat} : p ∈ spots l ↔ ∃ e ∈ l, e.1 = p := by
  simp [spots]

/-- No root entry. -/
def Block.NotRoot (b : Block H) : Prop := ∀ e x, b ≠ .sealed (.root e) x

/-- Reads and appends: what is referenced, and what was appended since the reap, stays. -/
structure Steps (live : LiveSet H) (d : Dev H) (s s' : Store H) : Prop where
  on : s'.On d
  cursors : s'.tract.Cursors
  untouched : s.mirror.Untouched s'.mirror
  tract : s'.tract = { s.tract with plow := s'.tract.plow }
  behind : ∀ p, s.tract.Behind p → s'.tract.Behind p
  frame : ∀ p, live.Refers p ∨ s.tract.Behind p → s'.view d p = s.view d p
  staged : ∀ x ∈ s'.mirror.staged, x ∈ s.mirror.staged ∨
    ∃ q, s.tract.plow ≤ q ∧ q < s'.tract.plow ∧ x.1 = s.tract.base + q % s.tract.len ∧
      ¬ live.Refers (q % s.tract.len) ∧ x.2.NotRoot
  onward : s.tract.plow ≤ s'.tract.plow
  fenced : s'.tract.plow = s.tract.plow ∨ ∀ limit ∈ s.tract.fenceLimit, s'.tract.plow ≤ limit
  quiet : s'.mirror.events = s.mirror.events ∨ ∃ p, live.Refers p ∧ ¬ s.tract.Behind p

theorem Steps.fenceLimit (h : Steps live d s s') : s'.tract.fenceLimit = s.tract.fenceLimit := by
  rw [h.tract]

theorem Steps.reap (h : Steps live d s s') : s'.tract.reap = s.tract.reap := by
  rw [h.tract]

theorem Steps.len (h : Steps live d s s') : s'.tract.len = s.tract.len := by
  rw [h.tract]

theorem Steps.base (h : Steps live d s s') : s'.tract.base = s.tract.base := by
  rw [h.tract]

theorem Steps.trans (h : Steps live d s s') (h' : Steps live d s' s'') : Steps live d s s'' where
  on := h'.on
  cursors := h'.cursors
  untouched := h.untouched.trans h'.untouched
  tract := by rw [h'.tract, h.tract]
  behind p hp := h'.behind p (h.behind p hp)
  frame p hp := (h'.frame p (hp.imp_right (h.behind p))).trans (h.frame p hp)
  staged x hx := by
    rcases h'.staged x hx with hx | ⟨q, hq, hq', hp⟩
    · rcases h.staged x hx with hx | ⟨q, hq, hq', hp⟩
      · exact .inl hx
      · exact .inr ⟨q, hq, hq'.trans_le h'.onward, hp⟩
    · rw [h.base, h.len] at hp
      exact .inr ⟨q, h.onward.trans hq, hq', hp⟩
  onward := h.onward.trans h'.onward
  fenced := by
    rcases h'.fenced with heq | hle
    · rw [heq]
      exact h.fenced
    · rw [h.fenceLimit] at hle
      exact .inr hle
  quiet := by
    rcases h'.quiet with heq | ⟨p, hp, hb⟩
    · rw [heq]
      exact h.quiet
    · exact .inr ⟨p, hp, fun hs => hb (h.behind p hs)⟩

theorem Steps.of_hamt (h : Steps live d s s') (f : Hamt H) : Steps live d s { s' with hamt := f } where
  on := ⟨h.on.ready, h.on.fits⟩
  cursors := h.cursors
  untouched := h.untouched
  tract := h.tract
  behind := h.behind
  frame := h.frame
  staged := h.staged
  onward := h.onward
  fenced := h.fenced
  quiet := h.quiet

theorem Store.Reads.steps (h : s.Reads d s') (hon : s.On d) (hcur : s.tract.Cursors) :
    Steps live d s s' where
  on := h.on hon
  cursors := by rw [h.tract]; exact hcur
  untouched := by
    obtain ⟨m', rfl, ha, -⟩ := h
    exact ha.untouched
  tract := by rw [h.tract]
  behind p hp := by rw [h.tract]; exact hp
  frame p _ := by rw [h.view]
  staged x hx := by
    obtain ⟨m', rfl, ha, -⟩ := h
    rw [ha.staged] at hx
    exact .inl hx
  onward := by rw [h.tract]
  fenced := by rw [h.tract]; exact .inl rfl
  quiet := by
    obtain ⟨m', rfl, ha, -⟩ := h
    rw [ha]
    exact .inl rfl

/-- The clean space is not behind. -/
theorem Tract.not_behind {t : Tract} {q : Nat} (hq : t.plow ≤ q) (hlt : q < t.reap + t.len) :
    ¬ t.Behind (q % t.len) := by
  rintro ⟨q', h₁, h₂, heq⟩
  exact lap_distinct (by omega) (by omega) heq.symm

theorem Tract.Balked.steps (h : Balked live.liveness d s s') (hcur : s.tract.Cursors) :
    Steps live d s s' where
  on := h.on
  cursors := by rw [h.tract]; exact hcur
  untouched := h.untouched
  tract := by rw [h.tract]
  behind p hp := by rw [h.tract]; exact hp
  frame p _ := by rw [h.view]
  staged x hx := by
    rw [h.staged] at hx
    exact .inl hx
  onward := by rw [h.tract]
  fenced := by rw [h.tract]; exact .inl rfl
  quiet := by
    rcases h.quiet with heq | ⟨q, hq, hlt, hlive⟩
    · exact .inl heq
    · have h₁ := hcur.order
      have h₂ := hcur.lap
      unfold Tract.cleanBlocks at hlt
      exact .inr ⟨q % s.tract.len, hlive, Tract.not_behind hq (by omega)⟩

theorem Steps.refl (hon : s.On d) (hcur : s.tract.Cursors) : Steps live d s s := hon.refl.steps hon hcur

theorem Tract.Appended.steps {make : Nat → Block H} {ps : List Nat}
    (h : Appended live.liveness d make ps s s') (hroot : ∀ i p, ps[i]? = some p → (make i).NotRoot) :
    Steps live d s s' where
  on := h.on
  cursors := h.cursors
  untouched := h.untouched
  tract := by rw [h.tract]
  behind p hp := (h.behind p).mpr (.inl hp)
  frame p hp := by
    apply h.frame
    intro hmem
    obtain ⟨-, href, hbehind⟩ := h.fresh p hmem
    rcases hp with hp | hp
    · rw [LiveSet.Refers, href] at hp
      cases hp
    · exact hbehind hp
  staged x hx := by
    rcases h.staged x hx with hx | ⟨i, p, hi, rfl⟩
    · exact .inl hx
    · obtain ⟨hlt, href, -⟩ := h.fresh p (List.mem_of_getElem? hi)
      have hlen : i < ps.length := (List.getElem?_eq_some_iff.mp hi).1
      have hp := h.inside i p hi
      refine .inr ⟨s.tract.plow + i, by omega, by rw [h.tract]; simpa using hlen, by rw [hp], ?_, hroot i p hi⟩
      rw [← hp]
      simp [LiveSet.Refers, href]
  onward := by rw [h.tract]; simp
  fenced := .inr fun limit hlimit => by rw [h.tract]; exact h.fenced limit hlimit
  quiet := .inl h.events

/-- Between commits: what the index holds is what was live and what was added, less what was
removed; every position on record is sealed with the hash it is recorded with. -/
structure Indexed (live : LiveSet H) (d : Dev H) (s : Store H) (t : Tree H) : Prop where
  on : s.On d
  cursors : s.tract.Cursors
  rep : s.Holds d [] s.hamt.root t
  sep : t.Sep
  claims : ∀ p, t.Claims p ↔
    (live.Refers p ∨ p ∈ spots s.hamt.delta.added) ∧ p ∉ spots s.hamt.delta.removed
  added : ∀ e ∈ s.hamt.delta.added, s.tract.Behind e.1 ∧ sealedHp (s.view d e.1) = some e.2
  removed : ∀ e ∈ s.hamt.delta.removed, (live.Refers e.1 ∨ e.1 ∈ spots s.hamt.delta.added) ∧
    sealedHp (s.view d e.1) = some e.2
  known : ∀ e ∈ live.map, sealedHp (s.view d e.1) = some e.2

/-- Every position of `t'` is one of `t`, or was not appended before `s`. -/
def Tree.Within (s : Store H) (t t' : Tree H) : Prop := ∀ p, t'.Claims p → t.Claims p ∨ ¬ s.tract.Behind p

theorem Tree.Within.refl (s : Store H) (t : Tree H) : t.Within s t := fun _ hp => .inl hp

theorem Tree.Within.trans (hs : Steps live d s s') (h : t.Within s t') {t'' : Tree H} (h' : t'.Within s' t'') :
    t.Within s t'' := by
  intro p hp
  rcases h' p hp with hp | hp
  · exact h p hp
  · exact .inr fun hb => hp (hs.behind p hb)

/-- An index that holds what it held and what was appended. -/
theorem Tree.within_of_added {added removed : List (Nat × H)} {P : Nat × H → Prop}
    (hnew : ∀ e ∈ added, ¬ (live.Refers e.1 ∨ s.tract.Behind e.1) ∧ P e)
    (hclaims : ∀ p, t'.Claims p ↔ (t.Claims p ∨ p ∈ spots added) ∧ p ∉ spots removed) : t.Within s t' := by
  intro p hp
  rcases ((hclaims p).mp hp).1 with hp | hp
  · exact .inl hp
  · obtain ⟨e, he, rfl⟩ := mem_spots.mp hp
    exact .inr fun hb => (hnew e he).1 (.inr hb)

/-- No position was added twice. -/
def Hamt.Once (h : Hamt H) : Prop := (spots h.delta.added).Nodup

/-- The block on record is there, or it was removed since and what is left of it is a `P`. -/
def Stands (P : Block H → Prop) (d : Dev H) (s : Store H) (e : Nat × H) : Prop :=
  sealedHp (s.view d e.1) = some e.2 ∨ e.1 ∈ spots s.hamt.delta.removed ∧ P (s.view d e.1)

/-- `Indexed`, where blocks that were removed may have become a `P`. -/
structure Accounted (P : Block H → Prop) (live : LiveSet H) (d : Dev H) (s : Store H) (t : Tree H) : Prop where
  on : s.On d
  cursors : s.tract.Cursors
  rep : s.Holds d [] s.hamt.root t
  sep : t.Sep
  claims : ∀ p, t.Claims p ↔
    (live.Refers p ∨ p ∈ spots s.hamt.delta.added) ∧ p ∉ spots s.hamt.delta.removed
  added : ∀ e ∈ s.hamt.delta.added, s.tract.Behind e.1 ∧ Stands P d s e
  removed : ∀ e ∈ s.hamt.delta.removed, (live.Refers e.1 ∨ e.1 ∈ spots s.hamt.delta.added) ∧ Stands P d s e
  known : ∀ e ∈ live.map, Stands P d s e
  record : ∀ e ∈ live.map ++ s.hamt.delta.added ++ s.hamt.delta.removed,
    ∀ e' ∈ live.map ++ s.hamt.delta.added ++ s.hamt.delta.removed, e.1 = e'.1 → e.2 = e'.2

theorem stands_false {e : Nat × H} : Stands (fun _ => False) d s e ↔ sealedHp (s.view d e.1) = some e.2 :=
  or_iff_left fun h => h.2

/-- Nothing becomes anything else: every block on record is still there. -/
theorem indexed_iff : Indexed live d s t ↔ Accounted (fun _ => False) live d s t := by
  constructor
  · intro h
    have hshows : ∀ e ∈ live.map ++ s.hamt.delta.added ++ s.hamt.delta.removed, sealedHp (s.view d e.1) = some e.2 := by
      intro e he
      rcases List.mem_append.mp he with he | he
      · exact (List.mem_append.mp he).elim (h.known e) fun he => (h.added e he).2
      · exact (h.removed e he).2
    refine ⟨h.on, h.cursors, h.rep, h.sep, h.claims, ?_, ?_, ?_, ?_⟩
    · exact fun e he => ⟨(h.added e he).1, .inl (h.added e he).2⟩
    · exact fun e he => ⟨(h.removed e he).1, .inl (h.removed e he).2⟩
    · exact fun e he => .inl (h.known e he)
    · intro e he e' he' heq
      have hsame := hshows e he
      rw [heq, hshows e' he'] at hsame
      exact (Option.some.inj hsame).symm
  · intro h
    exact ⟨h.on, h.cursors, h.rep, h.sep, h.claims, fun e he => ⟨(h.added e he).1, stands_false.mp (h.added e he).2⟩,
      fun e he => ⟨(h.removed e he).1, stands_false.mp (h.removed e he).2⟩, fun e he => stands_false.mp (h.known e he)⟩

theorem LiveSet.refers_of_mem {e : Nat × H} (he : e ∈ live.map) : live.Refers e.1 := by
  simpa [LiveSet.Refers, LiveSet.liveness, LiveSet.get?] using .inl ⟨e.2, he⟩

namespace Accounted

variable {P : Block H → Prop}

/-- What the index holds is not written over. -/
theorem kept (h : Accounted P live d s t) {p : Nat} (hp : t.Claims p) : live.Refers p ∨ s.tract.Behind p := by
  rcases ((h.claims p).mp hp).1 with hl | ha
  · exact .inl hl
  · obtain ⟨e, he, rfl⟩ := mem_spots.mp ha
    exact .inr (h.added e he).1

/-- What is on record is not written over. -/
theorem kept_record (h : Accounted P live d s t) {e : Nat × H}
    (he : e ∈ live.map ++ s.hamt.delta.added ++ s.hamt.delta.removed) : live.Refers e.1 ∨ s.tract.Behind e.1 := by
  have hadded : ∀ p ∈ spots s.hamt.delta.added, s.tract.Behind p := by
    intro p hp
    obtain ⟨e, he, rfl⟩ := mem_spots.mp hp
    exact (h.added e he).1
  rcases List.mem_append.mp he with he | he
  · rcases List.mem_append.mp he with he | he
    · exact .inl (LiveSet.refers_of_mem he)
    · exact .inr (h.added e he).1
  · exact (h.removed e he).1.imp_right (hadded e.1)

/-- A position neither referenced nor appended is on no record. -/
theorem unrecorded (h : Accounted P live d s t) {p : Nat} (hp : ¬ (live.Refers p ∨ s.tract.Behind p)) :
    ¬ t.Claims p ∧ p ∉ spots s.hamt.delta.added ∧ p ∉ spots s.hamt.delta.removed := by
  refine ⟨fun hc => hp (h.kept hc), fun hmem => ?_, fun hmem => ?_⟩
  · obtain ⟨e, he, rfl⟩ := mem_spots.mp hmem
    exact hp (h.kept_record (List.mem_append_left _ (List.mem_append_right _ he)))
  · obtain ⟨e, he, rfl⟩ := mem_spots.mp hmem
    exact hp (h.kept_record (List.mem_append_right _ he))

/-- The tree is still there after reads and appends. -/
theorem holds (h : Accounted P live d s t) (hs : Steps live d s s') (harena : s'.hamt.arena = s.hamt.arena) :
    s'.Holds d [] s.hamt.root t := by
  rw [Store.Holds, harena]
  exact Rep.congr h.rep (le_of_eq hs.len.symm) (fun p hp => hs.frame p (h.kept hp)) fun _ _ => rfl

/-- What the index holds shows the hash on record. -/
theorem shown (h : Accounted P live d s t) {e : Nat × H}
    (he : e ∈ live.map ++ s.hamt.delta.added ++ s.hamt.delta.removed) (hc : t.Claims e.1) :
    sealedHp (s.view d e.1) = some e.2 := by
  have hnr := ((h.claims e.1).mp hc).2
  have hshows : Stands P d s e := by
    rcases List.mem_append.mp he with he | he
    · exact (List.mem_append.mp he).elim (h.known e) fun he => (h.added e he).2
    · exact (h.removed e he).2
  exact hshows.resolve_right fun hr => hnr hr.1

/-- An edit of the index that records what it adds and what it removes. -/
theorem account (h : Accounted P live d s t) (hs : Steps live d s s') (added removed : List (Nat × H))
    (hrep : s'.Holds d [] s'.hamt.root t') (hsep : t'.Sep)
    (hadd : s'.hamt.delta.added = s.hamt.delta.added ++ added)
    (hrem : s'.hamt.delta.removed = s.hamt.delta.removed ++ removed)
    (hnew : ∀ e ∈ added, ¬ (live.Refers e.1 ∨ s.tract.Behind e.1) ∧ s'.tract.Behind e.1 ∧
      sealedHp (s'.view d e.1) = some e.2)
    (hold : ∀ e ∈ removed, (t.Claims e.1 ∨ e.1 ∈ spots added) ∧ sealedHp (s'.view d e.1) = some e.2)
    (hclaims : ∀ p, t'.Claims p ↔ (t.Claims p ∨ p ∈ spots added) ∧ p ∉ spots removed) :
    Accounted P live d s' t' := by
  have hshows : ∀ e, live.Refers e.1 ∨ s.tract.Behind e.1 → Stands P d s e → Stands P d s' e := by
    intro e hk hsh
    rw [Stands, hs.frame _ hk, hrem, spots_append]
    exact hsh.imp id fun hx => ⟨List.mem_append_left _ hx.1, hx.2⟩
  -- a block on record before is not one of those added, and shows its hash if it is removed now
  have hrecord : ∀ e ∈ live.map ++ s'.hamt.delta.added ++ s'.hamt.delta.removed,
      (e ∈ live.map ++ s.hamt.delta.added ++ s.hamt.delta.removed ∧ (live.Refers e.1 ∨ s.tract.Behind e.1)) ∨
        (t.Claims e.1 ∨ ¬ (live.Refers e.1 ∨ s.tract.Behind e.1)) ∧ sealedHp (s'.view d e.1) = some e.2 := by
    have hnone : ∀ p ∈ spots added, ¬ (live.Refers p ∨ s.tract.Behind p) := by
      intro p hp
      obtain ⟨x, hx, rfl⟩ := mem_spots.mp hp
      exact (hnew x hx).1
    intro e he
    rw [hadd, hrem] at he
    simp only [List.mem_append] at he
    have hbefore : e ∈ live.map ++ s.hamt.delta.added ++ s.hamt.delta.removed →
        e ∈ live.map ++ s.hamt.delta.added ++ s.hamt.delta.removed ∧ (live.Refers e.1 ∨ s.tract.Behind e.1) :=
      fun hm => ⟨hm, h.kept_record hm⟩
    rcases he with (he | he | he) | he | he
    · exact .inl (hbefore (by simp [he]))
    · exact .inl (hbefore (by simp [he]))
    · exact .inr ⟨.inr (hnew e he).1, (hnew e he).2.2⟩
    · exact .inl (hbefore (by simp [he]))
    · exact .inr ⟨(hold e he).1.imp_right (hnone e.1), (hold e he).2⟩
  refine ⟨hs.on, hs.cursors, hrep, hsep, ?_, ?_, ?_, ?_, ?_⟩
  · intro p
    rw [hclaims, h.claims, hadd, hrem, spots_append, spots_append, List.mem_append, List.mem_append]
    constructor
    · rintro ⟨(⟨hp, hnr⟩ | hp), hnr'⟩
      · exact ⟨hp.imp_right .inl, not_or.mpr ⟨hnr, hnr'⟩⟩
      · obtain ⟨e, he, rfl⟩ := mem_spots.mp hp
        exact ⟨.inr (.inr hp), not_or.mpr ⟨(h.unrecorded (hnew e he).1).2.2, hnr'⟩⟩
    · rintro ⟨hp, hnr⟩
      rw [not_or] at hnr
      refine ⟨?_, hnr.2⟩
      rcases hp with hp | hp | hp
      · exact .inl ⟨.inl hp, hnr.1⟩
      · exact .inl ⟨.inr hp, hnr.1⟩
      · exact .inr hp
  · intro e he
    rw [hadd, List.mem_append] at he
    rcases he with he | he
    · obtain ⟨hb, hh⟩ := h.added e he
      exact ⟨hs.behind _ hb, hshows e (.inr hb) hh⟩
    · exact ⟨(hnew e he).2.1, .inl (hnew e he).2.2⟩
  · intro e he
    rw [hrem, List.mem_append] at he
    rw [hadd, spots_append, List.mem_append]
    rcases he with he | he
    · obtain ⟨hr, hh⟩ := h.removed e he
      exact ⟨hr.imp_right .inl, hshows e (h.kept_record (List.mem_append_right _ he)) hh⟩
    · obtain ⟨hr, hh⟩ := hold e he
      refine ⟨?_, .inl hh⟩
      rcases hr with hr | hr
      · exact ((h.claims _).mp hr).1.imp_right .inl
      · exact .inr (.inr hr)
  · exact fun e he => hshows e (.inl (LiveSet.refers_of_mem he)) (h.known e he)
  · intro e he e' he' heq
    rcases hrecord e he with ⟨hm, hk⟩ | ⟨hc, hh⟩
    · rcases hrecord e' he' with ⟨hm', -⟩ | ⟨hc', hh'⟩
      · exact h.record e hm e' hm' heq
      · rw [← heq] at hc' hh'
        have hshown := h.shown hm (hc'.resolve_right fun hno => hno hk)
        rw [hs.frame _ hk, hshown] at hh'
        exact Option.some.inj hh'
    · rcases hrecord e' he' with ⟨hm', hk'⟩ | ⟨hc', hh'⟩
      · rw [heq] at hc hh
        have hshown := h.shown hm' (hc.resolve_right fun hno => hno hk')
        rw [hs.frame _ hk', hshown] at hh
        exact (Option.some.inj hh).symm
      · rw [heq, hh'] at hh
        exact (Option.some.inj hh).symm

/-- Reads and appends alone keep the index. -/
theorem steps (h : Accounted P live d s t) (hs : Steps live d s s') (hroot : s'.hamt.root = s.hamt.root)
    (harena : s'.hamt.arena = s.hamt.arena) (hdelta : s'.hamt.delta = s.hamt.delta) :
    Accounted P live d s' t := by
  refine h.account hs [] [] ?_ h.sep (by simp [hdelta]) (by simp [hdelta])
    (by simp) (by simp) (by simp)
  rw [hroot]
  exact h.holds hs harena

end Accounted

namespace Indexed

/-- What the index holds is not written over. -/
theorem kept (h : Indexed live d s t) {p : Nat} (hp : t.Claims p) : live.Refers p ∨ s.tract.Behind p :=
  (indexed_iff.mp h).kept hp

/-- A position neither referenced nor appended is on no record. -/
theorem unrecorded (h : Indexed live d s t) {p : Nat} (hp : ¬ (live.Refers p ∨ s.tract.Behind p)) :
    ¬ t.Claims p ∧ p ∉ spots s.hamt.delta.added ∧ p ∉ spots s.hamt.delta.removed :=
  (indexed_iff.mp h).unrecorded hp

/-- The tree is still there after reads and appends. -/
theorem holds (h : Indexed live d s t) (hs : Steps live d s s') (harena : s'.hamt.arena = s.hamt.arena) :
    s'.Holds d [] s.hamt.root t :=
  (indexed_iff.mp h).holds hs harena

/-- An edit of the index that records what it adds and what it removes. -/
theorem account (h : Indexed live d s t) (hs : Steps live d s s') (added removed : List (Nat × H))
    (hrep : s'.Holds d [] s'.hamt.root t') (hsep : t'.Sep)
    (hadd : s'.hamt.delta.added = s.hamt.delta.added ++ added)
    (hrem : s'.hamt.delta.removed = s.hamt.delta.removed ++ removed)
    (hnew : ∀ e ∈ added, ¬ (live.Refers e.1 ∨ s.tract.Behind e.1) ∧ s'.tract.Behind e.1 ∧
      sealedHp (s'.view d e.1) = some e.2)
    (hold : ∀ e ∈ removed, (t.Claims e.1 ∨ e.1 ∈ spots added) ∧ sealedHp (s'.view d e.1) = some e.2)
    (hclaims : ∀ p, t'.Claims p ↔ (t.Claims p ∨ p ∈ spots added) ∧ p ∉ spots removed) :
    Indexed live d s' t' :=
  indexed_iff.mpr ((indexed_iff.mp h).account hs added removed hrep hsep hadd hrem hnew hold hclaims)

/-- Reads and appends alone keep the index. -/
theorem steps (h : Indexed live d s t) (hs : Steps live d s s') (hroot : s'.hamt.root = s.hamt.root)
    (harena : s'.hamt.arena = s.hamt.arena) (hdelta : s'.hamt.delta = s.hamt.delta) :
    Indexed live d s' t :=
  indexed_iff.mpr ((indexed_iff.mp h).steps hs hroot harena hdelta)

end Indexed

/-- What an operation leaves of the index: uncommitted work, or the index it found. -/
def Hamt.Fate (h h' : Hamt H) : Prop :=
  h'.hasUncommitted = true ∨ h'.root = h.root ∧ h'.delta = h.delta

theorem Hamt.Fate.trans {h h' h'' : Hamt H} (h₁ : h.Fate h') (h₂ : h'.Fate h'') : h.Fate h'' := by
  rcases h₂ with h₂ | ⟨hr, hd⟩
  · exact .inl h₂
  · rcases h₁ with h₁ | ⟨hr', hd'⟩
    · left
      rw [← h₁]
      simp [Hamt.hasUncommitted, Hamt.isDirty, hr, hd]
    · exact .inr ⟨hr.trans hr', hd.trans hd'⟩

theorem Hamt.Fate.refl (h : Hamt H) : h.Fate h := .inr ⟨rfl, rfl⟩

theorem Hamt.fate_of_added {h h' : Hamt H} (ha : h'.delta.added ≠ []) : h.Fate h' := by
  left
  simp [Hamt.hasUncommitted, ha]

theorem Hamt.fate_of_removed {h h' : Hamt H} (ha : h'.delta.removed ≠ []) : h.Fate h' := by
  left
  simp [Hamt.hasUncommitted, ha]

/-- Appends and edits of the index: the delta has gained new blocks, each once, and blocks the index held
or was given. -/
structure Gained (P : Block H → Prop) (live : LiveSet H) (d : Dev H) (s s' : Store H) (t t' : Tree H) : Prop where
  steps : Steps live d s s'
  fate : s.hamt.Fate s'.hamt
  accounted : Accounted P live d s' t'
  delta : ∃ added removed, s'.hamt.delta.added = s.hamt.delta.added ++ added ∧
    s'.hamt.delta.removed = s.hamt.delta.removed ++ removed ∧ (spots added).Nodup ∧
    (∀ e ∈ added, ¬ (live.Refers e.1 ∨ s.tract.Behind e.1)) ∧
    (∀ e ∈ removed, t.Claims e.1 ∨ e.1 ∈ spots added)

/-- What was held or has been gained, and has not been lost, is held now. -/
theorem Accounted.claims_of_delta {P : Block H → Prop} (h : Accounted P live d s t) (h' : Accounted P live d s' t')
    {added removed : List (Nat × H)} (hadd : s'.hamt.delta.added = s.hamt.delta.added ++ added)
    (hrem : s'.hamt.delta.removed = s.hamt.delta.removed ++ removed)
    (hnew : ∀ e ∈ added, ¬ (live.Refers e.1 ∨ s.tract.Behind e.1)) (p : Nat) :
    t'.Claims p ↔ (t.Claims p ∨ p ∈ spots added) ∧ p ∉ spots removed := by
  have hunrecorded : p ∈ spots added → p ∉ spots s.hamt.delta.removed := by
    intro hp
    obtain ⟨e, he, rfl⟩ := mem_spots.mp hp
    exact (h.unrecorded (hnew e he)).2.2
  rw [h'.claims, h.claims, hadd, hrem, spots_append, spots_append, List.mem_append, List.mem_append]
  tauto

namespace Gained

variable {P : Block H → Prop} {t₁ t'' : Tree H}

theorem refl (h : Accounted P live d s t) : Gained P live d s s t t :=
  ⟨.refl h.on h.cursors, .refl _, h, [], [], by simp, by simp, by simp, by simp, by simp⟩

theorem trans (h : Gained P live d s s' t t₁) (hacc : Accounted P live d s t) (h' : Gained P live d s' s'' t₁ t'') :
    Gained P live d s s'' t t'' where
  steps := h.steps.trans h'.steps
  fate := h.fate.trans h'.fate
  accounted := h'.accounted
  delta := by
    obtain ⟨added, removed, hadd, hrem, hnd, hnew, hold⟩ := h.delta
    obtain ⟨added', removed', hadd', hrem', hnd', hnew', hold'⟩ := h'.delta
    refine ⟨added ++ added', removed ++ removed', by rw [hadd', hadd, List.append_assoc],
      by rw [hrem', hrem, List.append_assoc], ?_, fun e he => ?_, fun e he => ?_⟩
    · rw [spots_append, List.nodup_append']
      refine ⟨hnd, hnd', fun p hp hp' => ?_⟩
      obtain ⟨e, he, rfl⟩ := mem_spots.mp hp
      obtain ⟨e', he', heq⟩ := mem_spots.mp hp'
      have hmem : e ∈ s'.hamt.delta.added := by rw [hadd]; exact List.mem_append_right _ he
      exact hnew' e' he' (heq ▸ .inr (h.accounted.added e hmem).1)
    · rcases List.mem_append.mp he with he | he
      · exact hnew e he
      · exact fun hk => hnew' e he (hk.imp_right (h.steps.behind _))
    · rw [spots_append, List.mem_append]
      rcases List.mem_append.mp he with he | he
      · exact (hold e he).imp_right .inl
      · rcases hold' e he with hc | hp
        · exact ((hacc.claims_of_delta h.accounted hadd hrem hnew e.1).mp hc).1.imp_right .inl
        · exact .inr (.inr hp)

theorem within (h : Gained P live d s s' t t') (hacc : Accounted P live d s t) : t.Within s t' := by
  obtain ⟨added, removed, hadd, hrem, -, hnew, -⟩ := h.delta
  exact Tree.within_of_added (fun e he => ⟨hnew e he, trivial⟩) (hacc.claims_of_delta h.accounted hadd hrem hnew)

/-- What is recorded as removed stays so. -/
theorem removed (h : Gained P live d s s' t t') {p : Nat} (hp : p ∈ spots s.hamt.delta.removed) :
    p ∈ spots s'.hamt.delta.removed := by
  obtain ⟨added, removed, -, hrem, -⟩ := h.delta
  rw [hrem, spots_append, List.mem_append]
  exact .inl hp

theorem once (h : Gained P live d s s' t t') (hacc : Accounted P live d s t) (ho : s.hamt.Once) : s'.hamt.Once := by
  obtain ⟨added, removed, hadd, -, hnd, hnew, -⟩ := h.delta
  rw [Hamt.Once, hadd, spots_append, List.nodup_append']
  refine ⟨ho, hnd, fun p hp hp' => ?_⟩
  obtain ⟨e, he, rfl⟩ := mem_spots.mp hp'
  exact (hacc.unrecorded (hnew e he)).2.1 hp

end Gained

/-- Reads and appends that leave the index. -/
theorem Accounted.gained {P : Block H → Prop} (h : Accounted P live d s t) (hs : Steps live d s s')
    (hh : s'.hamt = s.hamt) : Gained P live d s s' t t :=
  ⟨hs, by rw [hh]; exact .refl _, h.steps hs (by rw [hh]) (by rw [hh]) (by rw [hh]),
    [], [], by simp [hh], by simp [hh], by simp, by simp, by simp⟩

end Manifestus
