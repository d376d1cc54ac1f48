import Manifestus.Index.Runs
import Manifestus.Index.Access

/-! Reading a tract of any content from devices with any faults: a block decodes, or the code returns
an error. -/
set_option linter.unusedSectionVars false

namespace Manifestus
open Prog Store

variable {H : Type} [Crates H]

/-- An error the code returns, not a panic. -/
def Error.Calm : Error → Prop
  | .panic _ => False
  | _ => True

theorem Error.Calm.of_sat {σ α : Type} {x : Prog Error σ α} {s : σ} {Q : α → σ → Prop}
    (h : Sat x s Q fun e _ => e.Calm) (reason : String) : (x.run s).1 ≠ .error (.panic reason) := by
  intro hr
  unfold Sat at h
  rcases hx : x.run s with ⟨e | a, s'⟩ <;> rw [hx] at h hr
  · cases hr
    exact h
  · cases hr

/-- Whatever the state, `x` does not panic. -/
def Calm {σ α : Type} (x : Prog Error σ α) : Prop := Always (fun _ => True) Error.Calm x

section Reading

namespace Dev

theorem inBounds_calm (lba : Nat) : Calm (inBounds (H := H) lba) := by
  refine always_state fun d => ?_
  split
  · exact always_pure trivial
  · exact always_fail trivial

theorem nextFault_calm : Calm (nextFault (H := H)) := by
  intro d
  unfold Sat
  rcases hs : d.script with _ | ⟨f, rest⟩ <;> simp [nextFault, hs]

theorem read_calm (lba : Nat) : Calm (read (H := H) lba) := by
  refine always_bind (inBounds_calm lba) fun _ _ => always_bind nextFault_calm fun f _ => ?_
  split
  · exact always_fail trivial
  · exact always_state fun d => always_pure trivial

theorem readRun_calm : ∀ (n lba : Nat), Always (fun bs => bs.length = n) Error.Calm (readRun (H := H) lba n) := by
  intro n
  induction n with
  | zero => exact fun lba => always_pure rfl
  | succ n ih =>
    intro lba
    refine always_bind (read_calm lba) fun b _ => always_bind (ih (lba + 1)) fun bs hlen => always_pure ?_
    rw [List.length_cons, hlen]

theorem land_calm (lba : Nat) (b : Block H) : Calm (land lba b) := always_update _

theorem write_calm (lba : Nat) (b : Block H) : Calm (write lba b) := by
  refine always_bind (inBounds_calm lba) fun _ _ => always_bind nextFault_calm fun f _ => ?_
  split
  · exact land_calm lba b
  · exact always_fail trivial
  · exact always_bind (land_calm lba b) fun _ _ => always_fail trivial
  · exact always_bind (land_calm lba _) fun _ _ => always_fail trivial

theorem flush_calm : Calm (flush (H := H)) := by
  refine always_bind nextFault_calm fun f _ => ?_
  split
  · exact always_update _
  · exact always_bind (always_update _) fun _ _ => always_fail trivial
  · exact always_fail trivial

theorem writeRun_calm : ∀ (bs : List (Block H)) (lba : Nat), Calm (writeRun lba bs) := by
  intro bs
  induction bs with
  | nil => exact fun lba => always_pure trivial
  | cons b bs ih => exact fun lba => always_bind (write_calm lba b) fun _ _ => ih (lba + 1)

end Dev

theorem writeOne_calm (lba : Nat) (buf : Block H) : Calm (writeOne lba buf) := by
  have hgo : ∀ n, Calm (writeOne.go lba buf n) := by
    intro n
    induction n with
    | zero => exact always_fail trivial
    | succ n ih =>
      refine always_bind (Dev.write_calm lba buf) fun _ _ => always_bind Dev.flush_calm fun _ _ => ?_
      refine always_bind (Dev.read_calm lba) fun back _ => ?_
      split
      · exact always_pure trivial
      · exact ih
  exact hgo 2

theorem writeRuns_calm (runs : List (List (Nat × Block H))) : Calm (writeRuns runs) := by
  induction runs with
  | nil => exact always_pure trivial
  | cons run runs ih =>
    cases run with
    | nil => exact ih
    | cons x run => exact always_bind (Dev.writeRun_calm _ x.1) fun _ _ => ih

theorem checkBack_calm (xs : List ((Nat × Block H) × Block H)) : Calm (checkBack xs) := by
  induction xs with
  | nil => exact always_pure trivial
  | cons x xs ih =>
    obtain ⟨⟨lba, buf⟩, got⟩ := x
    rw [checkBack]
    split
    · exact always_bind (writeOne_calm lba buf) fun _ _ => ih
    · exact ih

theorem verifyRuns_calm (runs : List (List (Nat × Block H))) : Calm (verifyRuns runs) := by
  induction runs with
  | nil => exact always_pure trivial
  | cons run runs ih =>
    cases run with
    | nil => exact ih
    | cons x run =>
      exact always_bind (Dev.readRun_calm _ x.1) fun back _ => always_bind (checkBack_calm _) fun _ _ => ih

theorem writeEach_calm (blocks : List (Nat × Block H)) : Calm (writeEach blocks) :=
  always_bind (writeRuns_calm _) fun _ _ => always_bind Dev.flush_calm fun _ _ => verifyRuns_calm _

namespace Mirror

/-- A phase on one device reports what the device reports. -/
theorem onA_calm {x : Prog Error (Dev H) Unit} (hx : Calm x) : Calm (onA x) := by
  refine always_of_fst (fun _ _ _ => trivial) fun m e he => ?_
  rcases ha : m.a with _ | d <;> simp only [onA, ha] at he
  · cases he
    trivial
  · exact hx.error he

theorem onB_calm {x : Prog Error (Dev H) Unit} (hx : Calm x) : Calm (onB x) := by
  refine always_of_fst (fun _ _ _ => trivial) fun m e he => ?_
  rcases hb : m.b with _ | d <;> simp only [onB, hb] at he
  · cases he
    trivial
  · exact hx.error he

theorem onBoth_calm {x : Prog Error (Dev H) Unit} (hx : Calm x) :
    Always (fun r => ∀ e, r.1 = .error e → e.Calm) Error.Calm (onBoth x) := by
  refine always_of_fst (fun m r hr e he => ?_) fun m e he => ?_
  · rcases ha : m.a with _ | d <;> rcases hb : m.b with _ | d₂ <;> simp only [onBoth, ha, hb] at hr <;> cases hr
    exact hx.error he
  · rcases ha : m.a with _ | d <;> rcases hb : m.b with _ | d₂ <;> simp only [onBoth, ha, hb] at he <;> cases he <;> trivial

theorem onSecondary_calm (x : Prog Error (Dev H) Unit) : Calm (onSecondary x) := by
  refine always_state fun m => ?_
  split
  · exact always_pure trivial
  · refine always_attempt fun r => ?_
    split
    · exact always_pure trivial
    · exact always_update _

theorem everywhere_calm {x : Prog Error (Dev H) Unit} (hx : Calm x) : Calm (everywhere x) := by
  refine always_state fun m => ?_
  split
  · exact always_bind (onA_calm hx) fun _ _ => onSecondary_calm x
  · exact onB_calm hx
  · exact always_fail trivial

theorem writeVerifiedBatchNow_calm (blocks : List (Nat × Block H)) : Calm (writeVerifiedBatchNow blocks) := by
  refine always_bind (always_update _) fun _ _ => always_state fun m => ?_
  split
  · refine always_bind (onBoth_calm (writeEach_calm blocks)) fun r hr => ?_
    refine always_bind (always_lift (fun _ _ => trivial) hr) fun _ _ => ?_
    split
    · exact always_pure trivial
    · exact always_update _
  · exact everywhere_calm (writeEach_calm blocks)

theorem drain_calm : Calm (drain (H := H)) := by
  refine always_state fun m => ?_
  split
  · exact always_pure trivial
  · exact always_bind (always_update _) fun _ _ => writeVerifiedBatchNow_calm _

theorem writeVerified_calm (lba : Nat) (buf : Block H) : Calm (writeVerified lba buf) :=
  always_bind drain_calm fun _ _ => always_bind (always_update _) fun _ _ => everywhere_calm (writeOne_calm lba buf)

theorem onFirst_calm {α : Type} {x : Prog Error (Dev H) α} {P : α → Prop} (hx : Always P Error.Calm x) :
    Always P Error.Calm (onFirst x) := by
  refine always_of_fst (fun m a hr => ?_) fun m e he => ?_
  · rcases ha : m.a with _ | d <;> rcases hb : m.b with _ | d₂ <;> simp only [onFirst, ha, hb] at hr <;>
      first | exact hx.ok hr | cases hr
  · rcases ha : m.a with _ | d <;> rcases hb : m.b with _ | d₂ <;> simp only [onFirst, ha, hb] at he <;>
      first | exact hx.error he | (cases he; trivial)

theorem read_calm (lba : Nat) : Calm (read (H := H) lba) := by
  refine always_state fun m => ?_
  split
  · exact always_pure trivial
  · exact onFirst_calm (Dev.read_calm lba)

theorem readCached_calm (lba : Nat) : Calm (readCached (H := H) lba) := by
  refine always_state fun m => ?_
  split
  · exact always_pure trivial
  · refine always_bind (always_update _) fun _ _ => ?_
    split
    · exact always_bind (always_update _) fun _ _ => always_pure trivial
    · exact always_bind (read_calm lba) fun b _ => always_bind (always_update _) fun _ _ => always_pure trivial

theorem readRun_calm (lba n : Nat) : Calm (readRun (H := H) lba n) := by
  refine always_state fun m => ?_
  split
  · exact (always_collect read_calm _).mono (fun _ _ => trivial) fun _ he => he
  · exact onFirst_calm ((Dev.readRun_calm n lba).mono (fun _ _ => trivial) fun _ he => he)

theorem readMany_calm (lbas : List Nat) :
    Always (fun bs => bs.length = lbas.length) Error.Calm (readMany (H := H) lbas) := by
  refine always_state fun m => ?_
  split
  · exact onFirst_calm (always_collect Dev.read_calm lbas)
  · exact always_collect read_calm lbas

end Mirror

variable {s s' s'' : Store H}

/-- `s'` is `s` after reads, failed ones included. -/
structure Store.Unmoved (s s' : Store H) : Prop where
  tract : s'.tract = s.tract
  hamt : s'.hamt = s.hamt
  on : ∀ d, s.On d → s'.On d
  view : ∀ d, s.On d → s'.view d = s.view d

theorem Store.Unmoved.refl (s : Store H) : s.Unmoved s := ⟨rfl, rfl, fun _ h => h, fun _ _ => rfl⟩

theorem Store.Unmoved.trans (h : s.Unmoved s') (h' : s'.Unmoved s'') : s.Unmoved s'' where
  tract := h'.tract.trans h.tract
  hamt := h'.hamt.trans h.hamt
  on d hd := h'.on d (h.on d hd)
  view d hd := (h'.view d (h.on d hd)).trans (h.view d hd)

/-- A read that fails on no device in order leaves what it read. -/
theorem Store.Unmoved.of_mirror {α : Type} {x : Prog Error (Mirror H) α} {P : α → Prop}
    (hx : Sat x s.mirror (fun a _ => P a) fun e _ => e.Calm)
    (hon : ∀ d, s.On d → ∃ m' a, x.run s.mirror = (.ok a, m') ∧ s.Reads d { s with mirror := m' }) :
    Sat (onMirror x) s (fun a s' => P a ∧ s.Unmoved s') fun e s' => e.Calm ∧ s.Unmoved s' := by
  have hmoved : s.Unmoved { s with mirror := (x.run s.mirror).2 } := by
    refine ⟨rfl, rfl, fun d hd => ?_, fun d hd => ?_⟩ <;> obtain ⟨m', a, hrun, hreads⟩ := hon d hd <;> rw [hrun]
    · exact hreads.on hd
    · exact hreads.view
  unfold Sat at hx ⊢
  simp only [onMirror, zoom_run]
  rcases hr : x.run s.mirror with ⟨_ | a, m'⟩ <;> rw [hr] at hx hmoved <;> exact ⟨hx, hmoved⟩

/-- What is checked of the positions a document names. -/
def TractDoc.Within (len : Nat) : TractDoc H → Prop
  | .node n => n.depth < maxDepth ∧ (∀ i hash lba, n.children i = some (.committed hash lba) → lba < len) ∧
    ∀ i idx, n.children i ≠ some (.dirty idx)
  | .direct _ _ furrows => ∀ f ∈ furrows, f < len
  | _ => True

theorem docOf_within {buf : Block H} {lba len : Nat} {hash : H} {doc : TractDoc H}
    (h : docOf buf lba hash len = .ok (some doc)) : doc.Within len := by
  unfold docOf at h
  split at h
  · cases h
  split at h
  · cases h
  split at h
  · cases h
  split at h
  · cases h
  next decoded hdecoded =>
  split at h
  · cases h
  next hpast =>
  cases h
  cases doc with
  | node n =>
    have hslots : ∃ depth route slots, depth < maxDepth ∧ n = Node.ofSlots depth route slots := by
      unfold decodeDoc at hdecoded
      split at hdecoded <;> try cases hdecoded
      split at hdecoded
      next hlt =>
        cases hdecoded
        exact ⟨_, _, _, hlt, rfl⟩
      · cases hdecoded
    obtain ⟨depth, route, slots, hdepth, rfl⟩ := hslots
    refine ⟨hdepth, fun i h' l' hc => ?_, fun i idx hc => ?_⟩
    swap
    · rcases hs : slots i with _ | x <;> simp [Node.ofSlots, hs] at hc
    simp only [TractDoc.past, List.findSome?_eq_none_iff] at hpast
    have hi := hpast i (List.mem_finRange i)
    rw [hc] at hi
    by_contra hle
    simp [Nat.le_of_not_lt hle] at hi
  | direct key size furrows =>
    intro f hf
    simp only [TractDoc.past, List.find?_eq_none] at hpast
    simpa using hpast f hf
  | _ => trivial

theorem docOf_none {buf : Block H} {lba len : Nat} {hash : H} (h : docOf buf lba hash len = .ok none) : buf = .zero := by
  unfold docOf at h
  split at h
  next hzero => exact hzero
  split at h
  · cases h
  split at h
  · cases h
  split at h
  · cases h
  split at h <;> cases h

theorem decodeDoc_error {buf : Block H} {e : Error} (h : decodeDoc buf = .error e) : e.Calm := by
  unfold decodeDoc at h
  split at h <;> try (cases h; done)
  · split at h <;> cases h
    trivial
  · cases h
    trivial
  · cases h
    trivial

theorem docOf_error {buf : Block H} {lba len : Nat} {hash : H} {e : Error} (h : docOf buf lba hash len = .error e) :
    e.Calm := by
  unfold docOf at h
  split at h
  · cases h
  split at h
  · cases h
    trivial
  split at h
  · cases h
    trivial
  split at h
  next e' hdecode =>
    cases h
    exact decodeDoc_error hdecode
  · split at h <;> cases h
    trivial

/-- What `docOf` makes of a block that holds a node. -/
theorem docOf_sealed_node {lba len depth extra : Nat} {hash : H} {route : Key} {slots : Fin 32 → Option (H × Nat)}
    {doc : Option (TractDoc H)} (h : docOf (.sealed (.node depth route slots) extra) lba hash len = .ok doc) :
    doc = some (.node (Node.ofSlots depth route slots)) ∧ depth < maxDepth := by
  unfold docOf at h
  rw [if_neg (by simp)] at h
  split at h
  · cases h
  split at h
  · cases h
  simp only [decodeDoc] at h
  by_cases hlt : depth < maxDepth
  · simp only [if_pos hlt] at h
    split at h
    · cases h
    · cases h
      exact ⟨rfl, hlt⟩
  · simp only [if_neg hlt] at h
    cases h

/-- A document is read, or an error returned; on a device in order it is that of the block there. -/
theorem readDoc_any (s : Store H) (lba : Nat) (hash : H) :
    Sat (readDoc lba hash) s
      (fun doc s' => s.Unmoved s' ∧ lba < s.tract.len ∧ (∀ x, doc = some x → x.Within s.tract.len) ∧
        ∀ d, s.On d → docOf (s.view d lba) lba hash s.tract.len = .ok doc)
      fun e s' => e.Calm ∧ s.Unmoved s' := by
  by_cases hlt : lba < s.tract.len
  · have hcalm : Sat (Tract.readCached lba) s (fun _ s' => s.Unmoved s') fun e s' => e.Calm ∧ s.Unmoved s' := by
      refine sat_run (Tract.inBounds_run hlt) (sat_state ?_)
      refine (Store.Unmoved.of_mirror (P := fun _ => True) (Mirror.readCached_calm _ _) fun d hd => ?_).mono
        (fun _ _ h => h.2) fun _ _ h => h
      obtain ⟨m', hrun, ha, hr⟩ := Mirror.readCached_run hd.ready
        (show s.tract.base + lba < d.count by have := hd.fits; omega)
      exact ⟨m', _, hrun, m', rfl, ha, hr⟩
    have hdoc : ∀ (buf : Block H) (s₁ : Store H), (Tract.readCached lba).run s = (.ok buf, s₁) → s.Unmoved s₁ →
        (readDoc lba hash).run s = (docOf buf lba hash s.tract.len, s₁) := by
      intro buf s₁ hrun h₁
      simp only [readDoc, bind_run, hrun, state_run, lift_run, h₁.tract]
    unfold Sat at hcalm ⊢
    rcases hr : (Tract.readCached lba).run s with ⟨e | buf, s₁⟩ <;> rw [hr] at hcalm
    · simpa only [readDoc, bind_run, hr] using hcalm
    · rw [hdoc buf s₁ hr hcalm]
      rcases hx : docOf buf lba hash s.tract.len with e | doc
      · exact ⟨docOf_error hx, hcalm⟩
      · refine ⟨hcalm, hlt, fun x hx' => docOf_within (hx' ▸ hx), fun d hd => ?_⟩
        obtain ⟨s₂, hrun, -⟩ := Tract.readCached_run hd hlt
        rw [hr] at hrun
        cases hrun
        exact hx
  · have hrun : (Tract.inBounds lba).run s = (.error (.bounds lba), s) := by simp [Tract.inBounds, hlt]
    have : (readDoc lba hash).run s = (.error (.bounds lba), s) := by
      simp only [readDoc, Tract.readCached, bind_run, hrun]
    unfold Sat
    rw [this]
    exact ⟨trivial, .refl s⟩

/-- Scattered blocks, as many as were asked for. -/
theorem readMany_any (s : Store H) (lbas : List Nat) :
    Sat (Tract.readMany lbas) s
      (fun bs s' => s.Unmoved s' ∧ bs.length = lbas.length ∧ ∀ d, s.On d → bs = lbas.map (s.view d))
      fun e s' => e.Calm ∧ s.Unmoved s' := by
  by_cases hall : ∀ l ∈ lbas, l < s.tract.len
  · have hsat : Sat (Tract.readMany lbas) s (fun bs s' => bs.length = lbas.length ∧ s.Unmoved s')
        fun e s' => e.Calm ∧ s.Unmoved s' := by
      refine sat_run (Tract.each_inBounds_run hall) (sat_state ?_)
      refine Store.Unmoved.of_mirror (P := fun bs : List (Block H) => bs.length = lbas.length)
        (by simpa using Mirror.readMany_calm (lbas.map (s.tract.base + ·)) s.mirror) fun d hd => ?_
      have hmany : ∀ l ∈ lbas.map (s.tract.base + ·), l < d.count := by
        intro l hmem
        obtain ⟨p, hp, rfl⟩ := List.mem_map.mp hmem
        have := hall p hp
        have := hd.fits
        omega
      exact ⟨s.mirror, _, Mirror.readMany_run hd.ready hmany, hd.refl⟩
    unfold Sat at hsat ⊢
    rcases hr : (Tract.readMany lbas).run s with ⟨e | bs, s₁⟩ <;> rw [hr] at hsat
    · exact hsat
    · refine ⟨hsat.2, hsat.1, fun d hd => ?_⟩
      rw [Tract.readMany_run hd hall] at hr
      cases hr
      rfl
  · obtain ⟨l, hl⟩ := Tract.each_inBounds_past hall
    unfold Sat
    simp only [Tract.readMany, bind_run, hl]
    exact ⟨trivial, .refl s⟩

/-- A block read, or an error. -/
theorem read_any (s : Store H) (lba : Nat) :
    Sat (Tract.read lba) s (fun _ s' => s.Unmoved s') fun e s' => e.Calm ∧ s.Unmoved s' := by
  by_cases hlt : lba < s.tract.len
  · refine sat_run (Tract.inBounds_run hlt) (sat_state ?_)
    refine (Store.Unmoved.of_mirror (P := fun _ => True) (Mirror.read_calm _ _) fun d hd => ?_).mono
      (fun _ _ h => h.2) fun _ _ h => h
    have := hd.fits
    exact ⟨s.mirror, _, Mirror.read_run hd.ready (show s.tract.base + lba < d.count by omega), hd.refl⟩
  · unfold Sat
    simp only [Tract.read, Tract.inBounds, bind_run, state_run, if_neg hlt]
    exact ⟨trivial, .refl s⟩

end Reading

end Manifestus
