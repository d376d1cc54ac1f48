import Manifestus.Flat.Phase

/-! The write phases of a mirror in a session. Each is a phase of every device; what a power loss
inside it leaves is the primary with some of the blocks of the phase written, whole or torn. -/
set_option linter.unusedSectionVars false

namespace Manifestus
open Prog

variable {H : Type} [Crates H] {m₀ m m' : Mirror H} {d : Dev H} {n k : Nat} {Q : Nat → Image H → Prop}

namespace Mirror

/-- `x` is the phase `f` on every device of the mirror, which only adds to its log. -/
def Does (m : Mirror H) (x : Prog Error (Dev H) Unit) (f : Dev H → Dev H) : Prop :=
  ∀ y, m.a = some y ∨ m.b = some y → x.run y = (.ok (), f y) ∧ y.log.length ≤ (f y).log.length

theorem mark_marks (m : Mirror H) : m.mark.marks = m.marks ++ [(m.logA.length, m.logB.length)] := by
  have hlen : ∀ o : Option (Dev H), (o.map fun d => d.log.length).getD 0 = ((o.map Dev.log).getD []).length := by
    intro o
    rcases o with _ | d <;> rfl
  simp only [mark, logA, logB, hlen]

theorem everywhere_through {x : Prog Error (Dev H) Unit} {f : Dev H → Dev H} (hp : m.primary = some d)
    (hd : m.dropped = none) (hx : m.Does x f) :
    ∃ m', (everywhere x).run m = (.ok (), m') ∧ Through f m m' := by
  rcases ha : m.a with _ | a
  · rcases hb : m.b with _ | b
    · simp [primary, ha, hb] at hp
    · obtain ⟨hrun, hlog⟩ := hx b (.inr hb)
      refine ⟨{ m with b := some (f b) }.mark, by simp [everywhere, ha, hb, onB_run hb hrun], ?_⟩
      refine ⟨by simp [mark, ha], by simp [mark, hb], rfl, rfl, ?_⟩
      refine ⟨_, mark_marks _, ?_, rfl⟩
      simp [logA, logB, mark, ha, hb, hlog]
  · obtain ⟨hruna, hloga⟩ := hx a (.inl ha)
    rcases hb : m.b with _ | b
    · refine ⟨{ m with a := some (f a) }.mark, ?_, by simp [mark, ha], by simp [mark, hb], rfl, rfl, ?_⟩
      · simp [everywhere, ha, onA_run ha hruna, onSecondary, mark, hb]
      · refine ⟨_, mark_marks _, ?_, rfl⟩
        simp [logA, logB, mark, ha, hb, hd, hloga]
    · obtain ⟨hrunb, hlogb⟩ := hx b (.inr hb)
      set m₁ : Mirror H := { m with a := some (f a) }.mark with hm₁
      have hb₁ : m₁.b = some b := hb
      refine ⟨{ m₁ with b := some (f b) }.mark, ?_, by simp [mark, hm₁, ha], by simp [mark, hb], rfl, rfl, ?_⟩
      · simp only [everywhere, bind_run, state_run, ha]
        rw [onA_run ha hruna, ← hm₁]
        simp [onSecondary, hb₁, onB_run hb₁ hrunb]
      · refine ⟨[(m₁.logA.length, m₁.logB.length), (m₁.logA.length, (f b).log.length)], ?_, ?_, ?_⟩
        · rw [mark_marks]
          have hmarks : m₁.marks = m.marks ++ [(m₁.logA.length, m₁.logB.length)] := mark_marks _
          simp [hmarks, logA, logB]
        · simp [logA, logB, mark, hm₁, ha, hb, hloga, hlogb]
        · simp [logA, logB, mark]

theorem foldl_forget_eq (l : List (Nat × Block H)) (m : Mirror H) :
    ∃ c, l.foldl (fun m x => m.forget x.1) m = { m with cache := c } := by
  induction l generalizing m with
  | nil => exact ⟨m.cache, rfl⟩
  | cons x l ih =>
    obtain ⟨c, hc⟩ := ih (m.forget x.1)
    exact ⟨c, by rw [List.foldl_cons, hc]; rfl⟩

theorem Does.cache {x : Prog Error (Dev H) Unit} {f : Dev H → Dev H} (h : m.Does x f)
    (c : List (Nat × Nat × Block H)) : ({ m with cache := c } : Mirror H).Does x f := h

theorem writeVerifiedBatchNow_through {blocks : List (Nat × Block H)} {f : Dev H → Dev H}
    (hp : m.primary = some d) (hd : m.dropped = none) (hx : m.Does (writeEach blocks) f) :
    ∃ m', (writeVerifiedBatchNow blocks).run m = (.ok (), m') ∧ Through f m m' := by
  obtain ⟨c, hc⟩ := foldl_forget_eq blocks m
  have hx₁ := hx.cache c
  simp only [writeVerifiedBatchNow, bind_run, update_run, state_run, hc]
  split
  next hboth =>
    obtain ⟨a, ha⟩ := Option.isSome_iff_exists.mp hboth.1
    obtain ⟨b, hb⟩ := Option.isSome_iff_exists.mp hboth.2.1
    obtain ⟨hruna, hloga⟩ := hx a (.inl ha)
    obtain ⟨hrunb, hlogb⟩ := hx b (.inr hb)
    refine ⟨({ m with cache := c, a := some (f a), b := some (f b) } : Mirror H).mark, ?_, ?_, ?_, rfl, rfl, ?_⟩
    · rw [bind_run, onBoth_run (m := { m with cache := c }) ha hb hruna hrunb]
      rfl
    · simp [mark, ha]
    · simp [mark, hb]
    · refine ⟨_, mark_marks _, ?_, rfl⟩
      simp [logA, logB, mark, ha, hb, hloga, hlogb]
  · obtain ⟨m', hrun, ht⟩ := everywhere_through (m := { m with cache := c }) hp hd hx₁
    exact ⟨m', hrun, ⟨ht.a, ht.b, ht.dropped, ht.events, ht.marks⟩⟩

end Mirror

section Phases

private theorem write_or_flush {xs : List (Nat × Block H)} {op : DevOp H} (h : op ∈ writesOf xs ++ [.flush]) :
    op = .flush ∨ ∃ x ∈ xs, op = .write x.1 x.2 := by
  rcases List.mem_append.mp h with h | h
  · obtain ⟨x, hx, rfl⟩ := List.mem_map.mp h
    exact .inr ⟨x, hx, rfl⟩
  · exact .inl (List.mem_singleton.mp h)

theorem phase_write {xs : List (Nat × Block H)} {y : Dev H} (hn : n ≤ y.count) :
    Phase (fun y => (y.landedAll xs).flushed) (fun _ => writesOf xs ++ [.flush]) n y where
  log := by simp [Dev.flushed, Dev.landedAll_log, writesOf]
  image := by
    rw [Image.after_append]
    have himage : ∀ (xs : List (Nat × Block H)) (y : Dev H), (y.landedAll xs).image = y.image.after (writesOf xs) := by
      intro xs
      induction xs with
      | nil => intro y; rfl
      | cons x xs ih => intro y; exact ih (y.landed x)
    exact himage xs y
  quiet _ := quiet_flush _
  limit := by simp
  script := by simp
  room := by
    intro rest hrest
    have hcount : (y.image.after rest).count = y.image.count :=
      (Image.torn_after fun op hop => write_or_flush (hrest.subset hop)).count
    rw [hcount]
    exact hn
  grows := by
    intro rest hrest
    exact (Image.torn_after (i := y.image) fun op hop => write_or_flush (hrest.subset hop)).count.ge
  accepts := by
    rintro rest hrest c ⟨l, hl, hle⟩
    have hcount : (y.image.after rest).count = y.count :=
      (Image.torn_after fun op hop => write_or_flush (hrest.subset hop)).count
    exact ⟨l, hl, hle.imp_left fun hle => hle.trans_eq hcount⟩

/-- Extending a device that is smaller. -/
def Dev.extended (c : Nat) (y : Dev H) : Dev H := if c ≤ y.count then y else y.grown c

private theorem growing {c : Nat} {y : Dev H} {rest : List (DevOp H)}
    (h : rest <+: if c ≤ y.count then [] else [.grow c]) : rest = [] ∨ rest = [.grow c] ∧ ¬ c ≤ y.count := by
  split at h
  · exact .inl (List.prefix_nil.mp h)
  next hc =>
    rcases rest with _ | ⟨op, rest⟩
    · exact .inl rfl
    · obtain ⟨rfl, hnil⟩ := List.cons_prefix_cons.mp h
      exact .inr ⟨by rw [List.prefix_nil.mp hnil], hc⟩

theorem phase_grow {c : Nat} {y : Dev H} (hn : n ≤ y.count) (hacc : y.Accepts c) :
    Phase (Dev.extended c) (fun y => if c ≤ y.count then [] else [.grow c]) n y := by
  unfold Dev.extended
  constructor
  · split <;> simp [Dev.grown]
  · split <;> rfl
  · intro hq
    split
    · exact hq
    · exact hq.grow c
  · split <;> rfl
  · split <;> rfl
  · intro rest hrest
    rcases growing hrest with rfl | ⟨rfl, hc⟩
    · exact hn
    · show n ≤ c
      omega
  · intro rest hrest
    rcases growing hrest with rfl | ⟨rfl, hc⟩
    · exact le_rfl
    · show y.count ≤ c
      omega
  · intro rest hrest x hx
    obtain ⟨l, hl, hle⟩ := hx
    rcases growing hrest with rfl | ⟨rfl, hc⟩
    · exact ⟨l, hl, hle⟩
    · obtain ⟨l', hl', hle'⟩ := hacc
      obtain rfl : l' = l := Option.some.inj (hl'.symm.trans hl)
      have hle : x ≤ c ∨ x ≤ l' := hle
      exact ⟨l', hl, by omega⟩

end Phases

/-- A phase of nothing. -/
theorem phase_id {y : Dev H} (hn : n ≤ y.count) : Phase id (fun _ => []) n y := by
  refine ⟨by simp, rfl, fun hq => hq, rfl, rfl, fun rest hrest => ?_, fun rest hrest => ?_, fun rest hrest c hc => ?_⟩
  · rw [List.prefix_nil.mp hrest]
    exact hn
  · rw [List.prefix_nil.mp hrest]
    exact le_rfl
  · rw [List.prefix_nil.mp hrest] at hc
    exact hc

namespace Attached

/-- Reads and stagings touch no device. -/
theorem untouched (h : Attached m₀ k Q m d n) (hu : m.Untouched m') (hready : m'.Ready d) :
    Attached m₀ k Q m' d n := by
  obtain ⟨pending, cache, uses, events, rfl⟩ : ∃ pending cache uses events,
      m' = { m with pending := pending, cache := cache, uses := uses, events := events } :=
    ⟨_, _, _, _, hu⟩
  exact ⟨⟨hready, h.dropped, h.a, h.b, h.room, h.accepts, ⟨h.marked.within, h.marked.last⟩⟩, h.covers⟩

/-- Every device is there and has no fault. -/
theorem script (h : Attached m₀ k Q m d n) {y : Dev H} (hy : m.a = some y ∨ m.b = some y) : y.script = [] := by
  have hfol : ∀ {o o' : Option (Dev H)}, Follows o o' → o' = some y → y.script = [] := by
    intro o o' ho hy
    cases ho with
    | none => cases hy
    | some himage hquiet hlimit hscript =>
      cases hy
      exact hscript
  exact hy.elim (hfol h.a) (hfol h.b)

theorem room_primary (h : Attached m₀ k Q m d n) : n ≤ d.count := by
  have hp := h.ready.primary
  rcases ha : m.a with _ | a
  · rw [Mirror.primary, ha, Option.none_or] at hp
    exact h.room d (.inr hp)
  · rw [Mirror.primary, ha, Option.some_or] at hp
    exact h.room d (.inl (ha.trans hp))

variable (hQ : ∀ c c' j, c ≤ c' → Q c j → Q c' j)
include hQ

/-- A phase of writes to blocks in the room all devices have. -/
theorem writes (h : Attached m₀ k Q m d n) (xs : List (Nat × Block H))
    (ht : Through (fun y => (y.landedAll xs).flushed) m m') (hready : m'.Ready (d.landedAll xs).flushed)
    (hgood : ∀ j, d.image.Torn xs j → Q n j) : Attached m₀ k Q m' (d.landedAll xs).flushed n := by
  refine h.phase hQ ht hready (fun y hy => phase_write (h.room y hy)) ?_
  intro i rest j himage hquiet hrest hj
  refine hgood j ?_
  rw [himage]
  exact hj.torn hquiet fun op hop => write_or_flush (hrest.subset hop)

/-- Everything staged is written out. -/
theorem drain (h : Attached m₀ k Q m d n) (hstaged : ∀ x ∈ m.staged, x.1 < n)
    (hgood : ∀ j, d.image.Torn m.refs j → Q n j) :
    ∃ m', Mirror.drain.run m = (.ok (), m') ∧ Attached m₀ k Q m' (m.drained d) n ∧ m'.pending = [] ∧
      m'.events = m.events := by
  obtain ⟨m', hrun, hready, hpend⟩ := Mirror.drain_run h.ready
  by_cases hp : m.pending = []
  · obtain rfl : m' = m := by simpa [Mirror.drain, hp] using (congrArg Prod.snd hrun).symm
    exact ⟨m', hrun, by simpa [Mirror.drained, hp] using h, hpend, rfl⟩
  · have hdoes : ({ m with pending := [] } : Mirror H).Does (writeEach m.refs)
        fun y => (y.landedAll m.refs).flushed := by
      intro y hy
      refine ⟨writeEach_run (h.script hy) m.refs_nodup fun x hx => ?_, ?_⟩
      · have hx' := hstaged _ (Mirror.mem_staged_of_stagedAt (Mirror.mem_refs.mp hx))
        exact hx'.trans_le (h.room y hy)
      · simp [Dev.flushed, Dev.landedAll_log]
    obtain ⟨m'', hrun', ht⟩ := Mirror.writeVerifiedBatchNow_through (m := { m with pending := [] }) h.ready.primary
      h.dropped hdoes
    obtain rfl : m' = m'' := by
      have : Mirror.drain.run m = (.ok (), m'') := by simp [Mirror.drain, hp, hrun']
      exact congrArg Prod.snd (hrun.symm.trans this)
    have ht' : Through (fun y => (y.landedAll m.refs).flushed) m m' :=
      ⟨ht.a, ht.b, ht.dropped, ht.events, ht.marks⟩
    have hd : m.drained d = (d.landedAll m.refs).flushed := by simp [Mirror.drained, hp]
    rw [hd] at hready ⊢
    exact ⟨m', hrun, h.writes hQ m.refs ht' hready hgood, hpend, ht.events⟩

/-- A verified write: what is staged goes first. -/
theorem writeVerified (h : Attached m₀ k Q m d n) (hstaged : ∀ x ∈ m.staged, x.1 < n)
    (hgood : ∀ j, d.image.Torn m.refs j → Q n j) (lba : Nat) (hl : lba < n) (b : Block H)
    (hwrite : ∀ j, (m.drained d).image.Torn [(lba, b)] j → Q n j) :
    ∃ m', (Mirror.writeVerified lba b).run m = (.ok (), m') ∧
      Attached m₀ k Q m' ((m.drained d).landed (lba, b)).flushed n ∧ m'.pending = [] ∧ m'.events = m.events := by
  obtain ⟨m', hrun, hready, hpend⟩ := Mirror.writeVerified_run h.ready (hl.trans_le h.room_primary) b
  obtain ⟨m₁, hrun₁, h₁, hpend₁, hevents₁⟩ := h.drain hQ hstaged hgood
  have hdoes : (m₁.forget lba).Does (writeOne lba b) fun y => (y.landedAll [(lba, b)]).flushed := by
    intro y hy
    refine ⟨writeOne_run (h₁.script hy) (hl.trans_le (h₁.room y hy)) b, ?_⟩
    simp [Dev.flushed, Dev.landedAll_log]
  obtain ⟨m'', hrun', ht⟩ := Mirror.everywhere_through (m := m₁.forget lba) h₁.ready.primary h₁.dropped hdoes
  obtain rfl : m' = m'' := by
    have : (Mirror.writeVerified lba b).run m = (.ok (), m'') := by
      simp [Mirror.writeVerified, hrun₁, hrun']
    exact congrArg Prod.snd (hrun.symm.trans this)
  have hwritten := h₁.writes hQ [(lba, b)] ⟨ht.a, ht.b, ht.dropped, ht.events, ht.marks⟩ hready hwrite
  exact ⟨m', hrun, hwritten, hpend, ht.events.trans hevents₁⟩

/-- The devices are extended where they are smaller. -/
theorem grow (h : Attached m₀ k Q m d n) (hstaged : ∀ x ∈ m.staged, x.1 < n)
    (hgood : ∀ j, d.image.Torn m.refs j → Q n j) {c : Nat} (hacc : d.Accepts c)
    (hgrown : ∀ j, j = (m.drained d).image ∨ j = ((m.drained d).extended c).image → Q n j) :
    ∃ m', (Mirror.grow c).run m = (.ok (), m') ∧ Attached m₀ k Q m' ((m.drained d).extended c) (max n c) ∧
      m'.pending = [] ∧ m'.events = m.events := by
  obtain ⟨m', hrun, hready, hpend⟩ := Mirror.grow_run h.ready hacc
  obtain ⟨m₁, hrun₁, h₁, hpend₁, hevents₁⟩ := h.drain hQ hstaged hgood
  have hready' : m'.Ready ((m.drained d).extended c) := by
    simpa [Dev.extended] using hready
  have haccepts : ∀ y, m₁.a = some y ∨ m₁.b = some y → y.Accepts c := by
    have hprim : (m.drained d).Accepts c := by
      simpa [Dev.Accepts] using hacc
    have hp := h₁.ready.primary
    intro y hy
    rcases ha : m₁.a with _ | a
    · rw [Mirror.primary, ha, Option.none_or] at hp
      rcases hy with hy | hy
      · rw [ha] at hy
        cases hy
      · obtain rfl : y = m.drained d := by simpa [hp] using hy.symm
        exact hprim
    · obtain rfl : a = m.drained d := by simpa [Mirror.primary, ha] using hp
      rcases hy with hy | hy
      · obtain rfl : m.drained d = y := by simpa [ha] using hy
        exact hprim
      · exact h₁.accepts _ y c ha hy hprim
  have hdoes : m₁.Does (Dev.grow c) (Dev.extended c) := by
    intro y hy
    refine ⟨Dev.grow_run (h₁.script hy) (haccepts y hy), ?_⟩
    unfold Dev.extended
    split <;> simp [Dev.grown]
  obtain ⟨m'', hrun', ht⟩ := Mirror.everywhere_through h₁.ready.primary h₁.dropped hdoes
  obtain rfl : m' = m'' := by
    have : (Mirror.grow c).run m = (.ok (), m'') := by
      simp [Mirror.grow, hrun₁, hrun']
    exact congrArg Prod.snd (hrun.symm.trans this)
  have h₂ : Attached m₀ k Q m' ((m.drained d).extended c) n := by
    refine h₁.phase hQ ht hready' (fun y hy => phase_grow (h₁.room y hy) (haccepts y hy)) ?_
    intro i rest j himage hquiet hrest hj
    rcases growing hrest with rfl | ⟨rfl, hc⟩
    · rw [List.append_nil] at hj
      refine hgrown j (.inl ?_)
      rw [hj.quiet hquiet, himage]
    · refine hgrown j (.inr ?_)
      rw [hj.quiet (hquiet.grow c), Image.after_append, ← himage, Dev.extended, if_neg hc]
      rfl
  refine ⟨m', hrun, ⟨{ h₂.toSession with room := fun y hy => ?_ }, h₂.covers⟩, hpend, ht.events.trans hevents₁⟩
  refine max_le (h₂.room y hy) ?_
  rw [ht.a, ht.b, Option.map_eq_some_iff, Option.map_eq_some_iff] at hy
  have hcount : ∀ x : Dev H, c ≤ (x.extended c).count := by
    intro x
    unfold Dev.extended
    split
    · assumption
    · exact le_rfl
  rcases hy with ⟨x, -, rfl⟩ | ⟨x, -, rfl⟩ <;> exact hcount x

/-- A grow the primary refuses: what was staged is written out. -/
theorem grow_refused (h : Attached m₀ k Q m d n) (hstaged : ∀ x ∈ m.staged, x.1 < n)
    (hgood : ∀ j, d.image.Torn m.refs j → Q n j) {c : Nat} (hacc : ¬ d.Accepts c) (hdrained : Q n (m.drained d).image) :
    ∃ e m', (Mirror.grow c).run m = (.error e, m') ∧ Attached m₀ k Q m' (m.drained d) n ∧ m'.pending = [] ∧
      m'.events = m.events := by
  obtain ⟨e, m', hrun, hready, hpend⟩ := Mirror.grow_run_of_not h.ready hacc
  obtain ⟨m₁, hrun₁, h₁, hpend₁, hevents₁⟩ := h.drain hQ hstaged hgood
  have hnot : ¬ (m.drained d).Accepts c := by
    simpa [Dev.Accepts] using hacc
  obtain ⟨e', hgrow⟩ := Dev.grow_run_of_not hnot
  have ht : Through id m₁ m' := by
    have hp := h₁.ready.primary
    obtain ⟨m'', hrun', ht⟩ : ∃ m'', (Mirror.everywhere (Dev.grow c)).run m₁ = (.error e', m'') ∧ m'' = m₁.mark := by
      rcases ha : m₁.a with _ | a
      · rw [Mirror.primary, ha, Option.none_or] at hp
        have hself : ({ m₁ with b := some (m.drained d) } : Mirror H) = m₁ := by rw [← hp]
        refine ⟨m₁.mark, ?_, rfl⟩
        simp only [Mirror.everywhere, bind_run, state_run, ha, hp]
        rw [Mirror.onB_run hp hgrow, hself]
      · obtain rfl : a = m.drained d := by simpa [Mirror.primary, ha] using hp
        have hself : ({ m₁ with a := some (m.drained d) } : Mirror H) = m₁ := by rw [← ha]
        refine ⟨m₁.mark, ?_, rfl⟩
        simp only [Mirror.everywhere, bind_run, state_run, ha]
        rw [Mirror.onA_run ha hgrow, hself]
    obtain rfl : m' = m'' := by
      have : (Mirror.grow c).run m = (.error e', m'') := by
        simp [Mirror.grow, hrun₁, hrun']
      exact congrArg Prod.snd (hrun.symm.trans this)
    subst ht
    refine ⟨by simp [Mirror.mark], by simp [Mirror.mark], rfl, rfl, [(m₁.logA.length, m₁.logB.length)],
      Mirror.mark_marks _, ?_, rfl⟩
    intro x hx
    rw [List.mem_singleton.mp hx]
    exact ⟨le_rfl, le_rfl, le_rfl, le_rfl⟩
  refine ⟨e, m', hrun, ?_, hpend, ht.events.trans hevents₁⟩
  refine h₁.phase (f := id) hQ ht hready (fun y hy => phase_id (h₁.room y hy)) ?_
  intro i rest j himage hquiet hrest hj
  rw [List.prefix_nil.mp hrest, List.append_nil] at hj
  rw [hj.quiet hquiet, ← himage]
  exact hdrained

end Attached

/-- From here on only what the devices hold now matters. -/
theorem Session.restart (h : Session m₀ m d n) (hQ : ∀ c c' j, c ≤ c' → Q c j → Q c' j) (hgood : Q n d.image) :
    Attached m₀ m.marks.length Q m d n := by
  have ht : Through id m m := ⟨by simp, by simp, rfl, rfl, [], by simp, by simp, rfl⟩
  refine ⟨h, fun m' hcrash => h.cut ht (fun y hy => phase_id (h.room y hy)) hQ ?_ hcrash⟩
  intro i rest j himage hquiet hrest hj
  rw [List.prefix_nil.mp hrest, List.append_nil] at hj
  rw [hj.quiet hquiet, ← himage]
  exact hgood

end Manifestus
