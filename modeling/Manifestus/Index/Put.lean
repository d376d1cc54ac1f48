import Manifestus.Index.Insert

/-! A put appends the blocks of its value and grafts their leaf into the index; when the
blocks cannot be appended the index stays as it was. -/
set_option linter.unusedSectionVars false

namespace Manifestus
open Prog Store

variable {H : Type} [Crates H] {d : Dev H} {live : LiveSet H} {s s' : Store H} {t : Tree H}

/-- The errors a put on a sound index may give: no room, or a value in too many runs. -/
def Error.Excused : Error → Prop
  | .tractFull => True
  | .fenced _ => True
  | .corrupt _ => True
  | _ => False

theorem Error.Refused.excused {e : Error} (h : e.Refused) : e.Excused := by
  cases e <;> simp_all [Error.Refused, Error.Excused]

variable (H) in
private theorem pieces_take (value : Bytes) (n : Nat) :
    ((List.range n).map (Hamt.furrowBytes (H := H) value)).flatten = value.take (n * furrowCapacity H) := by
  induction n with
  | zero => simp
  | succ n ih =>
    rw [List.range_succ, List.map_append, List.flatten_append, ih, Nat.succ_mul, List.take_add]
    simp [Hamt.furrowBytes]

/-- The furrows of a value, appended in order, read back as the value. -/
theorem payloads_appended {view : Nat → Block H} {key : Key} {value : Bytes} {ps : List Nat}
    (hlen : ps.length = divCeil value.length (furrowCapacity H))
    (hview : ∀ i p, ps[i]? = some p →
      view p = encodeFurrow key i (Hamt.furrowBytes (H := H) value i)) :
    payloads key 0 (ps.map view) = .ok value := by
  have hblocks : ps.map view = (((List.range ps.length).map (Hamt.furrowBytes (H := H) value)).zipIdx).map
      fun x => encodeFurrow (H := H) key (0 + x.2) x.1 := by
    apply List.ext_getElem
    · simp
    · intro i h₁ h₂
      have hi : i < ps.length := by simpa using h₁
      simp [hview i ps[i] (List.getElem?_eq_getElem hi)]
  rw [hblocks, payloads_furrows, pieces_take, hlen, List.take_of_length_le]
  exact le_mul_divCeil furrowCapacity_pos

namespace Hamt

theorem each_pushAdded_run {α : Type} (f : α → Nat × H) (l : List α) : ∀ s : Store H,
    (each (fun p => onHamt (pushAdded (f p).1 (f p).2)) l).run s =
      (.ok (), { s with hamt := s.hamt.gain (l.map f) }) := by
  induction l with
  | nil => intro s; simp [each]
  | cons p l ih =>
    intro s
    simp only [each, bind_run, onHamt_run, ih, pushAdded_eq, gain_gain]
    rfl

/-- The blocks of a value, its leaf at `lba`, all new. -/
structure Leafed (live : LiveSet H) (d : Dev H) (key : Key) (value : Bytes) (lba : Nat) (hash : H)
    (s s' : Store H) : Prop where
  steps : Steps live d s s'
  leaf : ∃ l furrows, s'.hamt = s.hamt.gain l ∧ (∀ p, p ∈ spots l ↔ p = lba ∨ p ∈ furrows) ∧
    Lone (s'.view d) s'.tract.len hash lba key value furrows ∧
    (∀ e ∈ l, ¬ (live.Refers e.1 ∨ s.tract.Behind e.1) ∧ s'.tract.Behind e.1 ∧
      sealedHp (s'.view d e.1) = some e.2) ∧ (spots l).Nodup

private theorem not_kept {p : Nat} (h : live.liveness.isReferenced p = false) (hb : ¬ s.tract.Behind p) :
    ¬ (live.Refers p ∨ s.tract.Behind p) := by
  simp [LiveSet.Refers, h, hb]

theorem notRoot_sealBlock {doc : Doc H} (h : ∀ e, doc ≠ .root e) : (sealBlock doc).NotRoot := by
  intro e x he
  simp only [sealBlock, Block.sealed.injEq] at he
  exact h e he.1

/-- Appending one block that becomes a recorded leaf. -/
private theorem appended_leaf {b : Block H} {p : Nat} (happ : Tract.Appended live.liveness d (fun _ => b) [p] s s') :
    (p < s.tract.len ∧ ¬ (live.Refers p ∨ s.tract.Behind p)) ∧ s'.tract.Behind p ∧ s'.view d p = b := by
  obtain ⟨hlt, href, hbehind⟩ := happ.fresh p (by simp)
  exact ⟨⟨hlt, not_kept href hbehind⟩, (happ.behind p).mpr (.inr (by simp)), happ.placed 0 p rfl⟩

theorem putLeaf_sat (hon : s.On d) (hcur : s.tract.Cursors) (key : Key) (value : Bytes) :
    Sat (putLeaf live.liveness key value) s (fun r s' => Leafed live d key value r.1 r.2 s s')
      (fun e s' => e.Excused ∧ Steps live d s s' ∧ ∃ l, s'.hamt = s.hamt.gain l) := by
  unfold putLeaf
  split
  · refine sat_bind ((Tract.appendOne_sat hon hcur _).mono (fun _ _ h => h) fun e s' h => ?_) fun p s₁ happ => ?_
    · exact ⟨h.1.excused, h.2.steps hcur, [], by rw [h.2.hamt, gain_nil]⟩
    · obtain ⟨⟨hlt, hnot⟩, hbehind, hview⟩ := appended_leaf happ
      have hsteps := happ.steps fun _ _ _ => notRoot_sealBlock (by simp)
      refine ⟨hsteps.of_hamt _, [(p, Crates.hash (.lone key value) 0)], [], ?_, by simp, ?_, ?_, by simp⟩
      · simp [happ.hamt]
      · refine ⟨.lone ?_ hview rfl, by simp, by simp⟩
        simpa [happ.tract] using hlt
      · intro e he
        rw [List.mem_singleton.mp he]
        refine ⟨hnot, hbehind, ?_⟩
        show sealedHp (s₁.view d p) = _
        rw [hview]
        rfl
  · refine sat_bind ((Tract.appendWith_sat hon hcur _ _).mono (fun _ _ h => h) fun e s' h => ?_) fun ps s₁ h => ?_
    · exact ⟨h.1.excused, h.2.steps hcur, [], by rw [h.2.hamt, gain_nil]⟩
    obtain ⟨hlen, happ⟩ := h
    have hsteps := happ.steps fun _ _ _ => notRoot_sealBlock (by simp)
    set f : Nat × Nat → Nat × H := fun p =>
      (p.1, Crates.hash (.furrow key p.2 (furrowBytes (H := H) value p.2)) 0) with hf
    set l := (ps.zip (List.range (divCeil value.length (furrowCapacity H)))).map f with hl
    have hspots : spots l = ps := by
      rw [spots, hl, List.map_map, show Prod.fst ∘ f = Prod.fst from rfl, List.map_fst_zip]
      simp [hlen]
    have hpushed := each_pushAdded_run (H := H) f
      (ps.zip (List.range (divCeil value.length (furrowCapacity H)))) s₁
    refine sat_bind (R := fun _ s₂ => s₂ = { s₁ with hamt := s₁.hamt.gain l }) ?_ ?_
    · rw [Sat, hpushed]
    rintro _ s₂ rfl
    refine sat_bind (R := fun b s₂ => b = sealBlock (.extent key value.length (compressRuns ps)) ∧
      s₂ = { s₁ with hamt := s₁.hamt.gain l }) ?_ ?_
    · simp only [Sat, lift_run, encodeExtent]
      split
      next heq =>
        split at heq <;> simp_all
      next heq =>
        split at heq
        · cases heq
          exact ⟨trivial, hsteps.of_hamt _, l, by rw [happ.hamt]⟩
        · cases heq
    rintro b s₂ ⟨rfl, rfl⟩
    have hon₂ : Store.On { s₁ with hamt := s₁.hamt.gain l } d := ⟨hsteps.on.ready, hsteps.on.fits⟩
    refine sat_bind ((Tract.appendOne_sat hon₂ hsteps.cursors _).mono (fun _ _ h => h) fun e s' h => ?_)
      fun p s₃ happ' => ?_
    · refine ⟨h.1.excused, (hsteps.of_hamt _).trans (h.2.steps hsteps.cursors), l, ?_⟩
      rw [h.2.hamt, happ.hamt]
    obtain ⟨⟨hlt, hnot⟩, hbehind, hview⟩ := appended_leaf happ'
    have hsteps' := happ'.steps fun _ _ _ => notRoot_sealBlock (by simp)
    have hkept : ∀ q ∈ ps, s₁.tract.Behind q := fun q hq => (happ.behind q).mpr (.inr hq)
    have hviews : ∀ q ∈ ps, s₃.view d q = s₁.view d q := fun q hq => hsteps'.frame q (.inr (hkept q hq))
    have hp : p ∉ ps := fun hmem => hnot (.inr (hkept p hmem))
    have hlen₃ : s₃.tract.len = s.tract.len := by rw [hsteps'.len, hsteps.len]
    have hnot₀ : ¬ (live.Refers p ∨ s.tract.Behind p) := fun hk => hnot (hk.imp_right (hsteps.behind p))
    refine ⟨((hsteps.of_hamt _).trans hsteps').of_hamt _,
      l ++ [(p, Crates.hash (.extent key value.length (compressRuns ps)) 0)], ps, ?_, ?_, ?_, ?_, ?_⟩
    · simp [happ'.hamt, happ.hamt]
    · intro q
      simp [hspots, or_comm]
    · refine ⟨.extent ?_ hview rfl ?_ ?_, hp, happ.nodup⟩
      · show p < s₃.tract.len
        rw [hsteps'.len]
        exact hlt
      · have hps : ∀ q ∈ ps, q < s.tract.len := fun q hq => (happ.fresh q hq).1
        have hcard : ps.length ≤ s.tract.len := by
          have := List.Nodup.length_le_card (α := Fin s.tract.len)
            (l := ps.attach.map fun q => ⟨q.1, hps q.1 q.2⟩)
            (happ.nodup.attach.map fun a b hab => Subtype.ext (by simpa using hab))
          simpa using this
        refine expandRuns_compressRuns ?_ ?_ hlen
        · show ∀ q ∈ ps, q < s₃.tract.len
          rwa [hlen₃]
        · show ps.length ≤ s₃.tract.len
          rwa [hlen₃]
      · refine payloads_appended hlen fun i q hi => ?_
        exact (hviews q (List.mem_of_getElem? hi)).trans (happ.placed i q hi)
    · intro e he
      rcases List.mem_append.mp he with he | he
      · obtain ⟨x, hx, rfl⟩ := List.mem_map.mp he
        obtain ⟨i, hi⟩ := List.mem_iff_getElem?.mp hx
        obtain ⟨h₁, h₂⟩ := List.getElem?_zip_eq_some.mp hi
        have hmem := List.mem_of_getElem? h₁
        obtain ⟨hlt', href, hb⟩ := happ.fresh x.1 hmem
        refine ⟨not_kept href hb, hsteps'.behind _ (hkept _ hmem), ?_⟩
        show sealedHp (s₃.view d x.1) = _
        obtain ⟨hir, hix⟩ := List.getElem?_eq_some_iff.mp h₂
        rw [List.getElem_range] at hix
        rw [hviews _ hmem, happ.placed i _ h₁]
        simp [hf, ← hix, encodeFurrow]
      · rw [List.mem_singleton.mp he]
        refine ⟨hnot₀, hbehind, ?_⟩
        show sealedHp (s₃.view d p) = _
        rw [hview]
        rfl
    · rw [spots_append, hspots, List.nodup_append']
      exact ⟨happ.nodup, by simp, by simpa using hp⟩

/-- What a put that went through has done: every other key leads where it led, `key` to a leaf of its own
in new blocks. -/
structure Stored (P : Block H → Prop) (live : LiveSet H) (d : Dev H) (key : Key) (value : Bytes) (s s' : Store H)
    (t t' : Tree H) : Prop extends Gained P live d s s' t t' where
  leaf : ∃ hash lba furrows, (∀ k, t'.locate k 0 = if k = key then some (hash, lba, value, furrows) else t.locate k 0) ∧
    ∀ p, p = lba ∨ p ∈ furrows → ¬ (live.Refers p ∨ s.tract.Behind p)

theorem Stored.find {P : Block H → Prop} {t' : Tree H} {key : Key} {value : Bytes}
    (h : Stored P live d key value s s' t t') (k : Key) :
    t'.find k 0 = if k = key then some value else t.find k 0 := by
  obtain ⟨hash, lba, furrows, hlocate, -⟩ := h.leaf
  rw [Tree.find, hlocate]
  split <;> rfl

/-- No block of the value it replaces is left in the index. -/
theorem Stored.replaced {P : Block H → Prop} {t' : Tree H} {key : Key} {value v : Bytes} {h₀ : H} {l : Nat} {fs : List Nat}
    (h : Stored P live d key value s s' t t') (hacc : Accounted P live d s t)
    (hloc : t.locate key 0 = some (h₀, l, v, fs)) {p : Nat} (hp : p = l ∨ p ∈ fs) : p ∈ spots s'.hamt.delta.removed := by
  obtain ⟨hash, lba, furrows, hlocate, hnew⟩ := h.leaf
  obtain ⟨hleaf, -, hclaims⟩ := hacc.rep.located (onPath_nil key) hloc
  have hkey := (hlocate key).trans (if_pos rfl)
  have hkept := hacc.kept (hclaims p hp)
  have hview : s'.view d p = s.view d p := h.steps.frame p hkept
  -- a block left in the index would lead to the new leaf, which is elsewhere
  have hgone : ¬ t'.Claims p := by
    intro hc
    have hplaced := h.accounted.rep.placed hc
    rcases hp with rfl | hp
    · obtain ⟨doc, extra, hdoc, -, hisleaf⟩ := hleaf.doc
      rw [← hview] at hdoc
      cases hplaced with
      | @leaf _ k _ _ hpath hhash hdoc' hseek hlocate' =>
        obtain ⟨doc', extra', hdoc', hisleaf'⟩ := hdoc'
        rw [hdoc] at hdoc'
        cases hdoc'
        have hk : k = key := by
          cases doc <;> first | exact hisleaf'.1.symm.trans hisleaf.1 | exact hisleaf.elim
        subst hk
        rw [List.length_nil, hkey] at hlocate'
        cases hlocate'
        exact hnew _ (.inl rfl) hkept
      | node hpath hdepth hmax hhash hdoc' hseek =>
        rw [hdoc] at hdoc'
        cases hdoc'
        exact hisleaf
      | furrow hpath hdoc' hlocate' hi =>
        rw [hdoc] at hdoc'
        cases hdoc'
        exact hisleaf
    · obtain ⟨i, hi⟩ := List.mem_iff_getElem?.mp hp
      obtain ⟨payload, extra, hdoc⟩ := hleaf.furrow_at hi
      rw [← hview] at hdoc
      cases hplaced with
      | leaf hpath hhash hdoc' hseek hlocate' =>
        obtain ⟨doc', extra', hdoc', hisleaf'⟩ := hdoc'
        rw [hdoc] at hdoc'
        cases hdoc'
        exact hisleaf'
      | node hpath hdepth hmax hhash hdoc' hseek => rw [hdoc] at hdoc'; cases hdoc'
      | furrow hpath hdoc' hlocate' hi' =>
        rw [hdoc] at hdoc'
        cases hdoc'
        rw [List.length_nil, hkey] at hlocate'
        cases hlocate'
        exact hnew p (.inr (List.mem_of_getElem? hi')) hkept
  have hheld := (hacc.claims p).mp (hclaims p hp)
  obtain ⟨added, removed, hadd, -⟩ := h.delta
  by_contra hno
  refine hgone ((h.accounted.claims p).mpr ⟨hheld.1.imp_right fun hm => ?_, hno⟩)
  rw [hadd, spots_append]
  exact List.mem_append_left _ hm

private theorem putInner_sat {P : Block H → Prop} (h : Accounted P live d s t) (key : Key) (value : Bytes) :
    Sat (putInner live.liveness key value) s
      (fun _ s' => ∃ t', Stored P live d key value s s' t t')
      (fun e s' => e.Excused ∧ Steps live d s s' ∧ ∃ l, s'.hamt = s.hamt.gain l) := by
  unfold putInner
  refine sat_bind (putLeaf_sat h.on h.cursors key value) fun r s₁ hleafed => ?_
  obtain ⟨lba, hash⟩ := r
  obtain ⟨hsteps, l, furrows, hhamt, hspots, hlone, hadded, hnodup⟩ := hleafed
  have hfresh : ∀ p, p = lba ∨ p ∈ furrows → ¬ t.Claims p := by
    intro p hp
    obtain ⟨e, he, rfl⟩ := mem_spots.mp ((hspots p).mpr hp)
    exact (h.unrecorded (hadded e he).1).1
  have harena : s₁.hamt.arena = s.hamt.arena := by rw [hhamt]; rfl
  have hroot : s₁.hamt.root = s.hamt.root := by rw [hhamt]; rfl
  obtain ⟨m', arena', lost, n, c', t', x, y, gone, extra, hrun, ha, hr, hedit, hins, hhash, hl⟩ :=
    insertChild_run (f := descentFuel) hsteps.on (h.holds hsteps harena) h.sep (onPath_nil key) rfl
      (Nat.zero_le _) hlone hfresh
  obtain ⟨hclaims, hlost, hlocate⟩ := hedit.graft.inserted hins hfresh hl
  simp only [Sat, bind_run, state_run, hroot]
  rw [show (insertChild key (.committed hash lba) descentFuel 0 s.hamt.root).run s₁ = _ from hrun]
  have hreads : s₁.Reads d { s₁ with mirror := m' } := ⟨m', rfl, ha, hr⟩
  have hsteps' := (hsteps.trans (hreads.steps hsteps.on hsteps.cursors)).of_hamt
    (({ s₁.hamt with arena := arena' } : Hamt H).lose lost |>.setRoot (some c'))
  have hview : Store.view { s₁ with
      mirror := m', hamt := ({ s₁.hamt with arena := arena' } : Hamt H).lose lost |>.setRoot (some c') } d =
      s₁.view d := hreads.view
  have hclaims' : ∀ p, t'.Claims p ↔ (t.Claims p ∨ p ∈ spots l) ∧ p ∉ spots lost := by
    intro p
    rw [hclaims, hspots]
  refine ⟨t', ⟨hsteps', ?_, h.account hsteps' l lost ?_ hedit.sep ?_ ?_ ?_ ?_ hclaims', l, lost, ?_, ?_, hnodup,
    fun e he => (hadded e he).1, fun e he => .inl (hlost e he)⟩, hash, lba, furrows, hlocate, fun p hp => ?_⟩
  · apply fate_of_added
    have : l ≠ [] := by
      rintro rfl
      exact absurd ((hspots lba).mpr (.inl rfl)) (by simp)
    simp [setRoot, lose, hhamt, gain, this]
  · rw [Store.Holds, hview]
    exact hedit.rep
  · simp [setRoot, lose, hhamt, gain]
  · simp [setRoot, lose, hhamt, gain]
  · rw [hview]
    exact hadded
  · intro e he
    refine ⟨.inl (hlost e he), ?_⟩
    rw [hview]
    rcases (hl e).mp he with he | he
    · exact hedit.hashes e he
    · exact hhash e he
  · simp [setRoot, lose, hhamt, gain]
  · simp [setRoot, lose, hhamt, gain]
  · obtain ⟨e, he, rfl⟩ := mem_spots.mp ((hspots p).mpr hp)
    exact (hadded e he).1

/-- A put adds the key's value to the index, or leaves the index as it was. -/
theorem put_accounted {P : Block H → Prop} (h : Accounted P live d s t) (key : Key) (value : Bytes) :
    Sat (put live.liveness key value) s
      (fun _ s' => ∃ t', Stored P live d key value s s' t t')
      (fun e s' => e.Excused ∧ Steps live d s s' ∧ s'.hamt = s.hamt) := by
  unfold put
  refine sat_state (sat_try (putInner_sat h key value) (fun _ s' h' => h') fun e s' h' => ?_)
  obtain ⟨hexc, hsteps, l, hl⟩ := h'
  refine ⟨hexc, hsteps.of_hamt _, ?_⟩
  simp [hl, gain]

theorem put_sat (h : Indexed live d s t) (key : Key) (value : Bytes) :
    Sat (put live.liveness key value) s
      (fun _ s' => Steps live d s s' ∧ s.hamt.Fate s'.hamt ∧ ∃ t', Indexed live d s' t' ∧ t.Within s t' ∧
        ∀ k, t'.find k 0 = if k = key then some value else t.find k 0)
      (fun e s' => e.Excused ∧ Steps live d s s' ∧ s'.hamt = s.hamt) := by
  refine (put_accounted (indexed_iff.mp h) key value).mono ?_ fun _ _ h => h
  rintro _ s' ⟨t', hs⟩
  exact ⟨hs.steps, hs.fate, t', indexed_iff.mpr hs.accounted, hs.within (indexed_iff.mp h), hs.find⟩

end Hamt
end Manifestus
