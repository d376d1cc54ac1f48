import Manifestus.Flat.Mirror

/-! Two devices of one mirror that hold the same. A write reaches both or neither, so what the mirror does
leaves them alike. -/
set_option linter.unusedSectionVars false

namespace Manifestus
open Prog

variable {H : Type} [Crates H] {a b d : Dev H} {c : Nat} {m m' : Mirror H}

/-- The same blocks and the same capacity, and no fault to come on either. -/
structure Dev.Like (a b : Dev H) : Prop where
  count : a.count = b.count
  data : a.data = b.data
  limit : a.limit = b.limit
  first : a.script = []
  second : b.script = []

namespace Dev.Like

theorem landed (h : a.Like b) (x : Nat × Block H) : (a.landed x).Like (b.landed x) where
  count := h.count
  data := by rw [Dev.landed_data, Dev.landed_data, h.data]
  limit := h.limit
  first := h.first
  second := h.second

theorem landedAll (h : a.Like b) (blocks : List (Nat × Block H)) : (a.landedAll blocks).Like (b.landedAll blocks) := by
  induction blocks generalizing a b with
  | nil => exact h
  | cons x blocks ih => exact ih (h.landed x)

theorem flushed (h : a.Like b) : a.flushed.Like b.flushed := ⟨h.count, h.data, h.limit, h.first, h.second⟩

theorem grown (h : a.Like b) (n : Nat) : (a.grown n).Like (b.grown n) where
  count := rfl
  data := by
    funext l
    show (if l < a.count then a.data l else Block.zero) = if l < b.count then b.data l else .zero
    rw [h.count, h.data]
  limit := h.limit
  first := h.first
  second := h.second

theorem accepts (h : a.Like b) {n : Nat} (ha : a.Accepts n) : b.Accepts n := by
  obtain ⟨limit, hlimit, hn⟩ := ha
  exact ⟨limit, h.limit ▸ hlimit, h.count ▸ hn⟩

/-- Reading changes nothing that the other device would have to follow. -/
theorem read (b : Dev H) (lba : Nat) : Steady (fun a => c ≤ a.count ∧ a.Like b) (Dev.read lba) := by
  intro a ⟨hc, h⟩
  unfold Sat
  by_cases hlt : lba < a.count
  · rw [Dev.read_run h.first hlt]
    exact ⟨hc, h⟩
  · rw [Dev.read_run_of_le (Nat.not_lt.mp hlt)]
    exact ⟨hc, h⟩

end Dev.Like

/-- A write out of bounds writes nothing. -/
theorem writeOne_refused {lba : Nat} (hl : d.count ≤ lba) (block : Block H) :
    (writeOne lba block).run d = (.error (.bounds lba), d) := by
  have hlt : ¬ lba < d.count := Nat.not_lt.mpr hl
  simp [writeOne, writeOne.go, Dev.write, Dev.inBounds, hlt]

/-- Both devices are there and alike, with room for what is staged, and neither was ever given up. -/
structure Mirror.Twins (c : Nat) (m : Mirror H) : Prop where
  pair : ∃ a b, m.a = some a ∧ m.b = some b ∧ c ≤ a.count ∧ a.Like b
  staged : ∀ x ∈ m.staged, x.1 < c
  whole : m.dropped = none ∧ m.degraded = false ∧ .mirrorDegraded ∉ m.events

namespace Mirror.Twins

/-- What a twin leaves alone beside the devices. -/
theorem same (h : m.Twins c) (ha : m'.a = m.a) (hb : m'.b = m.b) (hp : m'.pending = m.pending)
    (hw : m'.dropped = m.dropped ∧ m'.degraded = m.degraded ∧ m'.events = m.events) : m'.Twins c where
  pair := by
    rw [ha, hb]
    exact h.pair
  staged := by
    rw [Mirror.staged, hp]
    exact h.staged
  whole := by
    rw [hw.1, hw.2.1, hw.2.2]
    exact h.whole

/-- Where nothing is staged there is room for all. -/
theorem fill (h : m.Twins 0) (ha : m.a = some a) (hc : c ≤ a.count) : m.Twins c := by
  obtain ⟨a', b, ha', hb, -, hlike⟩ := h.pair
  obtain rfl : a = a' := Option.some.inj (ha.symm.trans ha')
  exact ⟨⟨a, b, ha, hb, hc, hlike⟩, fun x hx => absurd (h.staged x hx) (Nat.not_lt_zero _), h.whole⟩

/-- The two devices with new contents. -/
theorem anew (h : m.Twins c) {c' : Nat} (ha : m'.a = some a) (hb : m'.b = some b) (hc : c' ≤ a.count) (hlike : a.Like b)
    (hs : ∀ x ∈ m'.staged, x.1 < c') (hw : m'.dropped = m.dropped ∧ m'.degraded = m.degraded ∧ m'.events = m.events) :
    m'.Twins c' := by
  refine ⟨⟨a, b, ha, hb, hc, hlike⟩, hs, ?_⟩
  rw [hw.1, hw.2.1, hw.2.2]
  exact h.whole

/-- A phase that goes through on both devices. -/
theorem everywhere_run {x : Prog Error (Dev H) Unit} {f : Dev H → Dev H} (ha : m.a = some a) (hb : m.b = some b)
    (hxa : x.run a = (.ok (), f a)) (hxb : x.run b = (.ok (), f b)) :
    ∃ ms, (everywhere x).run m = (.ok (), { m with a := some (f a), b := some (f b), marks := ms }) := by
  have hfirst : (onA x).run m = (.ok (), { m with a := some (f a) }.mark) := onA_run ha hxa
  have hsecond : (onB x).run { m with a := some (f a) }.mark =
      (.ok (), { { m with a := some (f a) }.mark with b := some (f b) }.mark) := onB_run hb hxb
  exists ({ { m with a := some (f a) }.mark with b := some (f b) }.mark).marks
  simp only [everywhere, bind_run, state_run, ha]
  rw [hfirst]
  simp only [onSecondary, bind_run, state_run, show ({ m with a := some (f a) }.mark).b = some b from hb, attempt_run]
  rw [hsecond]
  simp [mark]

/-- A phase the first device refuses, unchanged. -/
theorem everywhere_refused {x : Prog Error (Dev H) Unit} {err : Error} (ha : m.a = some a) (hxa : x.run a = (.error err, a)) :
    ∃ ms, (everywhere x).run m = (.error err, { m with marks := ms }) := by
  have hfirst : (onA x).run m = (.error err, { m with a := some a }.mark) := onA_run ha hxa
  exists ({ m with a := some a }.mark).marks
  simp only [everywhere, bind_run, state_run, ha]
  rw [hfirst]
  simp [mark, ← ha]

theorem onFirst {α : Type} {x : Prog Error (Dev H) α} (hx : ∀ b, Steady (fun a => c ≤ a.count ∧ a.Like b) x) :
    Steady (Mirror.Twins c) (Mirror.onFirst x) := by
  intro m h
  obtain ⟨a, b, ha, hb, hc, hlike⟩ := h.pair
  obtain ⟨hc', hlike'⟩ := (hx b).after ⟨hc, hlike⟩
  have hrun : (Mirror.onFirst x).run m = ((x.run a).1, { m with a := some (x.run a).2 }) := by simp [Mirror.onFirst, ha]
  have hend : ({ m with a := some (x.run a).2 } : Mirror H).Twins c := h.anew rfl hb hc' hlike' h.staged ⟨rfl, rfl, rfl⟩
  unfold Sat
  rw [hrun]
  rcases (x.run a).1 with _ | _ <;> exact hend

theorem read (lba : Nat) : Steady (Mirror.Twins c) (Mirror.read (H := H) lba) := by
  apply steady_state
  intro m
  split
  · exact steady_pure _
  · exact onFirst fun b => Dev.Like.read b lba

theorem readCached (lba : Nat) : Steady (Mirror.Twins c) (Mirror.readCached (H := H) lba) := by
  have hthen : ∀ {f : Mirror H → Mirror H} {g : Unit → Prog Error (Mirror H) (Block H)}, (∀ u, Steady (Mirror.Twins c) (g u)) →
      (∀ m, (f m).a = m.a ∧ (f m).b = m.b ∧ (f m).pending = m.pending ∧
        (f m).dropped = m.dropped ∧ (f m).degraded = m.degraded ∧ (f m).events = m.events) →
      Steady (Mirror.Twins c) (update f >>= g) := by
    intro f g hg hf
    apply Steady.bind
    · apply steady_update
      intro m h
      obtain ⟨ha, hb, hp, hw⟩ := hf m
      exact h.same ha hb hp hw
    · exact hg
  apply steady_state
  intro m
  split
  · exact steady_pure _
  · refine hthen (fun _ => ?_) fun _ => ⟨rfl, rfl, rfl, rfl, rfl, rfl⟩
    split
    · exact hthen (fun _ => steady_pure _) fun _ => ⟨rfl, rfl, rfl, rfl, rfl, rfl⟩
    · apply (read lba).bind
      intro block
      exact hthen (fun _ => steady_pure _) fun _ => ⟨rfl, rfl, rfl, rfl, rfl, rfl⟩

theorem readRun (lba len : Nat) : Steady (Mirror.Twins c) (Mirror.readRun (H := H) lba len) := by
  have hrun : ∀ b : Dev H, ∀ len lba, Steady (fun a => c ≤ a.count ∧ a.Like b) (Dev.readRun (H := H) lba len) := by
    intro b len
    induction len with
    | zero => exact fun _ => steady_pure _
    | succ len ih => exact fun lba => (Dev.Like.read b lba).bind fun _ => (ih _).bind fun _ => steady_pure _
  exact steady_state fun _ => steady_ite (steady_collect read _) (onFirst fun b => hrun b len lba)

theorem readMany (lbas : List Nat) : Steady (Mirror.Twins c) (Mirror.readMany (H := H) lbas) :=
  steady_state fun _ => steady_ite (onFirst fun b => steady_collect (Dev.Like.read b) lbas) (steady_collect read lbas)

/-- A batch within bounds lands on both devices, at once or one after the other. -/
theorem writeVerifiedBatchNow {blocks : List (Nat × Block H)} (hnd : (blocks.map Prod.fst).Nodup)
    (hb : ∀ x ∈ blocks, x.1 < c) (h : m.Twins c) :
    ∃ m', (Mirror.writeVerifiedBatchNow blocks).run m = (.ok (), m') ∧ m'.Twins c ∧ m'.pending = m.pending := by
  obtain ⟨a, b, ha, hbd, hc, hlike⟩ := h.pair
  have hxa := writeEach_run (d := a) hlike.first hnd fun x hx => (hb x hx).trans_le hc
  have hxb := writeEach_run (d := b) hlike.second hnd fun x hx => (hb x hx).trans_le (hlike.count ▸ hc)
  have hafter : ((a.landedAll blocks).flushed).Like ((b.landedAll blocks).flushed) := (hlike.landedAll blocks).flushed
  have hroom : c ≤ ((a.landedAll blocks).flushed).count := by simpa using hc
  obtain ⟨hfa, hfb, hfp, -⟩ := foldl_forget_fields blocks m
  set u := blocks.foldl (fun m x => m.forget x.1) m with hu
  have hforget : u.dropped = m.dropped ∧ u.degraded = m.degraded ∧ u.events = m.events := by
    rw [hu]
    have hall : ∀ (xs : List (Nat × Block H)) (m : Mirror H), (xs.foldl (fun m x => m.forget x.1) m).dropped = m.dropped ∧
        (xs.foldl (fun m x => m.forget x.1) m).degraded = m.degraded ∧
        (xs.foldl (fun m x => m.forget x.1) m).events = m.events := by
      intro xs
      induction xs with
      | nil => exact fun _ => ⟨rfl, rfl, rfl⟩
      | cons x xs ih => exact fun m => ih (m.forget x.1)
    exact hall blocks m
  simp only [Mirror.writeVerifiedBatchNow, bind_run, update_run, ← hu, state_run]
  have hstaged : ∀ x ∈ u.staged, x.1 < c := by
    rw [Mirror.staged, hfp]
    exact h.staged
  by_cases hboth : u.a.isSome ∧ u.b.isSome ∧ parBatchThreshold ≤ blocks.length
  · have hpar := onBoth_run (hfa.trans ha) (hfb.trans hbd) hxa hxb
    exists ({ u with a := some (a.landedAll blocks).flushed, b := some (b.landedAll blocks).flushed } : Mirror H).mark
    constructor
    · rw [if_pos hboth, bind_run, hpar]
      simp
    · exact ⟨h.anew rfl rfl hroom hafter hstaged hforget, hfp⟩
  · obtain ⟨ms, hrun⟩ := everywhere_run (f := fun y => (y.landedAll blocks).flushed) (hfa.trans ha) (hfb.trans hbd) hxa hxb
    rw [if_neg hboth, hrun]
    exact ⟨_, rfl, h.anew rfl rfl hroom hafter hstaged hforget, hfp⟩

theorem drain (h : m.Twins c) : ∃ m', Mirror.drain.run m = (.ok (), m') ∧ m'.Twins c ∧ m'.Twins 0 := by
  have hempty : ∀ {u : Mirror H}, u.Twins c → u.staged = [] → u.Twins 0 := by
    intro u hu hs
    obtain ⟨a, b, ha, hb, -, hlike⟩ := hu.pair
    exact ⟨⟨a, b, ha, hb, Nat.zero_le _, hlike⟩, by simp [hs], hu.whole⟩
  by_cases hp : m.pending.isEmpty
  · have hnone : m.pending = [] := List.isEmpty_iff.mp hp
    exact ⟨m, by simp [Mirror.drain, hnone], h, hempty h (by simp [Mirror.staged, hnone])⟩
  · obtain ⟨a, b, ha, hb, hc, hlike⟩ := h.pair
    have hbounds : ∀ x ∈ m.refs, x.1 < c := fun x hx => h.staged _ (Mirror.mem_staged_of_stagedAt (Mirror.mem_refs.mp hx))
    have hstart : ({ m with pending := [] } : Mirror H).Twins c :=
      ⟨⟨a, b, ha, hb, hc, hlike⟩, by simp [Mirror.staged], h.whole⟩
    obtain ⟨m', hrun, h', hp'⟩ := hstart.writeVerifiedBatchNow m.refs_nodup hbounds
    refine ⟨m', ?_, h', hempty h' ?_⟩
    · simp only [Mirror.drain, bind_run, state_run, hp, Bool.false_eq_true, if_false, update_run]
      exact hrun
    · rw [Mirror.staged, hp']
      rfl

theorem writeVerified (lba : Nat) (block : Block H) : Steady (Mirror.Twins c) (Mirror.writeVerified lba block) := by
  intro m h
  obtain ⟨m₁, hdrain, h₁, -⟩ := h.drain
  apply sat_run hdrain
  apply sat_update
  have h₂ : (m₁.forget lba).Twins c := h₁.same rfl rfl rfl ⟨rfl, rfl, rfl⟩
  obtain ⟨a, b, ha, hb, hc, hlike⟩ := h₂.pair
  unfold Sat
  by_cases hlt : lba < a.count
  · obtain ⟨ms, hrun⟩ := everywhere_run (f := fun y => (y.landed (lba, block)).flushed) ha hb (writeOne_run hlike.first hlt block)
      (writeOne_run hlike.second (hlike.count ▸ hlt) block)
    rw [hrun]
    exact h₂.anew rfl rfl hc (hlike.landed _).flushed h₂.staged ⟨rfl, rfl, rfl⟩
  · obtain ⟨ms, hrun⟩ := everywhere_refused ha (writeOne_refused (Nat.not_lt.mp hlt) block)
    rw [hrun]
    exact h₂.same rfl rfl rfl ⟨rfl, rfl, rfl⟩

theorem grow (n : Nat) (h : m.Twins c) :
    Sat (Mirror.grow n) m (fun _ m' => m'.Twins (max c n)) fun _ m' => m'.Twins c := by
  obtain ⟨m₁, hdrain, h₁, hidle⟩ := h.drain
  apply sat_run hdrain
  obtain ⟨a, b, ha, hb, hc, hlike⟩ := h₁.pair
  unfold Sat
  by_cases hacc : a.Accepts n
  · have hxa := Dev.grow_run hlike.first hacc
    have hxb := Dev.grow_run hlike.second (hlike.accepts hacc)
    obtain ⟨ms, hrun⟩ := everywhere_run (f := fun y => if n ≤ y.count then y else y.grown n) ha hb hxa hxb
    rw [hrun]
    have hstaged : ∀ x ∈ m₁.staged, x.1 < max c n := fun x hx => absurd (hidle.staged x hx) (Nat.not_lt_zero _)
    by_cases hn : n ≤ a.count
    · have hnb : n ≤ b.count := hlike.count ▸ hn
      rw [if_pos hn, if_pos hnb]
      exact h₁.anew rfl rfl (max_le hc hn) hlike hstaged ⟨rfl, rfl, rfl⟩
    · have hnb : ¬ n ≤ b.count := hlike.count ▸ hn
      rw [if_neg hn, if_neg hnb]
      refine h₁.anew rfl rfl ?_ (hlike.grown n) hstaged ⟨rfl, rfl, rfl⟩
      exact max_le (hc.trans (Nat.le_of_lt (Nat.not_le.mp hn))) le_rfl
  · obtain ⟨err, hxa⟩ := Dev.grow_run_of_not hacc
    obtain ⟨ms, hrun⟩ := everywhere_refused ha hxa
    rw [hrun]
    exact h₁.same rfl rfl rfl ⟨rfl, rfl, rfl⟩

theorem stageOne (h : m.Twins c) {lba : Nat} (block : Block H) (hlt : lba < c) : (m.stageOne lba block).Twins c := by
  have hfields : (m.stageOne lba block).a = m.a ∧ (m.stageOne lba block).b = m.b ∧ (m.stageOne lba block).dropped = m.dropped ∧
      (m.stageOne lba block).degraded = m.degraded ∧ (m.stageOne lba block).events = m.events := by
    unfold Mirror.stageOne
    split
    · split <;> exact ⟨rfl, rfl, rfl, rfl, rfl⟩
    · exact ⟨rfl, rfl, rfl, rfl, rfl⟩
  obtain ⟨a, b, ha, hb, hc, hlike⟩ := h.pair
  refine h.anew (hfields.1.trans ha) (hfields.2.1.trans hb) hc hlike ?_ hfields.2.2
  intro x hx
  rw [Mirror.staged_stageOne, List.mem_append] at hx
  cases hx with
  | inl hx => exact h.staged x hx
  | inr hx =>
    rw [List.mem_singleton.mp hx]
    exact hlt

theorem reserveStaged (h : m.Twins c) (n : Nat) : (m.reserveStaged n).Twins c := by
  have hfields : (m.reserveStaged n).a = m.a ∧ (m.reserveStaged n).b = m.b ∧ (m.reserveStaged n).dropped = m.dropped ∧
      (m.reserveStaged n).degraded = m.degraded ∧ (m.reserveStaged n).events = m.events := by
    unfold Mirror.reserveStaged
    split <;> exact ⟨rfl, rfl, rfl, rfl, rfl⟩
  obtain ⟨a, b, ha, hb, hc, hlike⟩ := h.pair
  refine h.anew (hfields.1.trans ha) (hfields.2.1.trans hb) hc hlike ?_ hfields.2.2
  rw [Mirror.staged_reserveStaged]
  exact h.staged

/-- Taken off and attached again. -/
theorem reattach (h : m.Twins c) : m.reattach.Twins 0 := by
  obtain ⟨a, b, ha, hb, -, hlike⟩ := h.pair
  refine ⟨⟨a.image.dev a.limit, b.image.dev b.limit, ?_, ?_, Nat.zero_le _, ?_⟩, ?_, rfl, ?_, ?_⟩
  · simp [Mirror.reattach, ha]
  · simp [Mirror.reattach, hb]
  · exact ⟨hlike.count, hlike.data, hlike.limit, rfl, rfl⟩
  · simp [Mirror.reattach, Mirror.staged]
  · simp [Mirror.reattach, ha, hb]
  · simp [Mirror.reattach]

end Mirror.Twins

end Manifestus
