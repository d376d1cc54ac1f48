import Manifestus.Vault.Opening

/-! The first open: devices without a sealed block become an empty vault. -/
set_option linter.unusedSectionVars false

namespace Manifestus
open Prog

variable {H : Type} [Crates H] {m m₀ m' : Mirror H} {d : Dev H} {k n r : Nat} {allowed : Map → Prop}

/-- No block is sealed. -/
def Dev.Blank (x : Dev H) : Prop := ∀ l < x.count, blockIsSealed (x.data l) = false

theorem Dev.Blank.rootless (h : d.Blank) : d.image.Rootless := by
  intro l hl e x hx
  have hb := h l hl
  rw [show d.data l = _ from hx] at hb
  cases hb

theorem classify_unsealed {b : Block H} (h : blockIsSealed b = false) (slot : Nat) (ringLog2 : Option Nat)
    (e : SpineEntry H) : classify b slot ringLog2 ≠ .valid e := by
  rcases b with _ | ⟨doc, extra⟩ | id
  · simp [classify]
  · cases h
  · simp [classify, SpineEntry.decode]

theorem bootstrapN_blank (h : m.Ready d) (hpend : m.pending = []) (hcount : m.blockCount ≤ d.count) (hblank : d.Blank) :
    Ring.bootstrapN.run m = (.ok none, m) := by
  have hprobe : ∀ slots : List Nat, (∀ s ∈ slots, s < d.count) →
      (Ring.bootstrapN.probe slots).run m = (.ok none, m) := by
    intro slots
    induction slots with
    | nil => intro _; rfl
    | cons s slots ih =>
      intro hs
      have hlt := hs s (by simp)
      simp only [Ring.bootstrapN.probe, bind_run, Mirror.read_run h hlt, Mirror.view_of_pending_nil hpend]
      rcases hc : classify (d.data s) s none with e | _ | _
      · exact absurd hc (classify_unsealed (hblank s hlt) s none e)
      · exact ih fun x hx => hs x (by simp [hx])
      · exact ih fun x hx => hs x (by simp [hx])
  unfold Ring.bootstrapN
  rw [bind_run, state_run]
  refine hprobe _ fun s hs => ?_
  have := List.mem_range.mp hs
  omega

theorem anySealedBlock_run (hs : d.script = []) (hblank : d.Blank) : anySealedBlock.run d = (.ok false, d) := by
  have hgo : ∀ lbas : List Nat, (∀ l ∈ lbas, l < d.count) → (anySealedBlock.go lbas).run d = (.ok false, d) := by
    intro lbas
    induction lbas with
    | nil => intro _; rfl
    | cons l lbas ih =>
      intro hl
      have hlt := hl l (by simp)
      simp only [anySealedBlock.go, bind_run, Dev.read_run hs hlt, hblank l hlt, Bool.false_eq_true, if_false]
      exact ih fun x hx => hl x (by simp [hx])
  unfold anySealedBlock
  rw [bind_run, state_run]
  exact hgo _ fun l hl => List.mem_range.mp hl

/-- A mark alone. -/
theorem Session.mark (h : Session m₀ m d n) : Session m₀ m.mark d n := by
  have ht : Through id m m.mark := by
    refine ⟨by simp [Mirror.mark], by simp [Mirror.mark], rfl, rfl, [(m.logA.length, m.logB.length)], Mirror.mark_marks _,
      ?_, rfl⟩
    intro x hx
    rw [List.mem_singleton.mp hx]
    exact ⟨le_rfl, le_rfl, le_rfl, le_rfl⟩
  exact h.phase (f := id) ht (fun y hy => phase_id (h.room y hy))
    ⟨h.ready.primary, h.ready.script, h.ready.staged, h.ready.cached⟩

theorem Session.script (h : Session m₀ m d n) {y : Dev H} (hy : m.a = some y ∨ m.b = some y) : y.script = [] := by
  have hfol : ∀ {o o' : Option (Dev H)}, Follows o o' → o' = some y → y.script = [] := by
    intro o o' ho hy
    cases ho with
    | none => cases hy
    | some himage hquiet hlimit hscript =>
      cases hy
      exact hscript
  exact hy.elim (hfol h.a) (hfol h.b)

/-- Neither device holds a vault; looking leaves marks only. -/
theorem anySealed_run (h : Session m₀ m d n) (hcache : m.cache = [])
    (hblank : ∀ x, m.a = some x ∨ m.b = some x → x.Blank) :
    ∃ m', Vault.anySealed.run m = (.ok false, m') ∧ Session m₀ m' d n ∧ m'.a = m.a ∧ m'.b = m.b ∧
      m'.pending = m.pending ∧ m'.events = m.events := by
  have hsame : ({ m with cache := [] } : Mirror H) = m := by rw [← hcache]
  have honA : ∀ u : Mirror H, u.a = m.a → ∃ u' : Mirror H,
      (if u.a.isSome then Mirror.onA anySealedBlock else pure false).run u = (.ok false, u') ∧ (u' = u ∨ u' = u.mark) := by
    intro u hu
    rcases ha : m.a with _ | a
    · exact ⟨u, by simp [hu, ha], .inl rfl⟩
    · have hself : ({ u with a := some a } : Mirror H) = u := by rw [← ha, ← hu]
      have hrun := anySealedBlock_run (h.script (.inl ha)) (hblank a (.inl ha))
      refine ⟨u.mark, ?_, .inr rfl⟩
      rw [hu, ha, Option.isSome_some, if_pos rfl, Mirror.onA_run (hu.trans ha) hrun, hself]
  have honB : ∀ u : Mirror H, u.b = m.b → ∃ u' : Mirror H,
      (if u.b.isSome then Mirror.onB anySealedBlock else pure false).run u = (.ok false, u') ∧ (u' = u ∨ u' = u.mark) := by
    intro u hu
    rcases hb : m.b with _ | b
    · exact ⟨u, by simp [hu, hb], .inl rfl⟩
    · have hself : ({ u with b := some b } : Mirror H) = u := by rw [← hb, ← hu]
      have hrun := anySealedBlock_run (h.script (.inr hb)) (hblank b (.inr hb))
      refine ⟨u.mark, ?_, .inr rfl⟩
      rw [hu, hb, Option.isSome_some, if_pos rfl, Mirror.onB_run (hu.trans hb) hrun, hself]
  obtain ⟨m₁, hrun₁, hm₁⟩ := honA m rfl
  have h₁ : Session m₀ m₁ d n ∧ m₁.a = m.a ∧ m₁.b = m.b ∧ m₁.pending = m.pending ∧ m₁.events = m.events := by
    rcases hm₁ with rfl | rfl
    · exact ⟨h, rfl, rfl, rfl, rfl⟩
    · exact ⟨h.mark, rfl, rfl, rfl, rfl⟩
  obtain ⟨m₂, hrun₂, hm₂⟩ := honB m₁ h₁.2.2.1
  have h₂ : Session m₀ m₂ d n ∧ m₂.a = m.a ∧ m₂.b = m.b ∧ m₂.pending = m.pending ∧ m₂.events = m.events := by
    rcases hm₂ with rfl | rfl
    · exact h₁
    · exact ⟨h₁.1.mark, h₁.2⟩
  rw [h₁.2.2.1] at hrun₂
  refine ⟨m₂, ?_, h₂⟩
  simp only [Vault.anySealed, Mirror.devices, bind_run, update_run, state_run, pure_run, hsame]
  cases ha : m.a.isSome <;> cases hb : m.b.isSome <;> rw [ha] at hrun₁ <;> rw [hb] at hrun₂ <;>
    simp only [Bool.false_eq_true, if_false, if_true] at hrun₁ hrun₂ ⊢ <;>
    simp only [bind_run, hrun₁, hrun₂, pure_run, Bool.or_false]

/-- Zeroing slots in a session. -/
theorem Session.zeroes : ∀ (slots : List Nat) {m : Mirror H} {d : Dev H}, Session m₀ m d n → m.pending = [] →
    (∀ s ∈ slots, s < n) →
    ∃ m' d', (each (fun slot => Mirror.writeVerified (0 + slot) .zero) slots).run m = (.ok (), m') ∧
      Session m₀ m' d' n ∧ m'.pending = [] ∧ m'.events = m.events ∧ d'.count = d.count ∧
      ∀ l, d'.data l = if l ∈ slots then .zero else d.data l := by
  intro slots
  induction slots with
  | nil => intro m d h hpend _; exact ⟨m, d, rfl, h, hpend, rfl, rfl, by simp⟩
  | cons s slots ih =>
    intro m d h hpend hs
    have hatt := h.restart (Q := fun _ _ => True) (fun _ _ _ _ _ => trivial) trivial
    obtain ⟨m₁, hrun₁, hatt₁, hpend₁, hevents₁⟩ := hatt.writeVerified (fun _ _ _ _ _ => trivial)
      (by simp [Mirror.staged, hpend]) (fun _ _ => trivial) s (hs s (by simp)) .zero fun _ _ => trivial
    obtain ⟨m₂, d₂, hrun₂, h₂, hpend₂, hevents₂, hcount, hdata⟩ := ih hatt₁.toSession hpend₁ fun x hx => hs x (by simp [hx])
    refine ⟨m₂, d₂, ?_, h₂, hpend₂, hevents₂.trans hevents₁, by simpa using hcount, fun l => ?_⟩
    · rw [each, bind_run, Nat.zero_add, hrun₁]
      exact hrun₂
    · rw [hdata l]
      by_cases hl : l ∈ slots
      · simp [hl]
      · simp only [hl, if_false, List.mem_cons, or_false]
        show Function.update (m.drained d).data s .zero l = _
        rw [Mirror.drained_data, Mirror.view_of_pending_nil hpend, Function.update_apply]

/-- The image of a first generation. -/
theorem sound_genesis {i : Image H} {len : Nat} {now : Int} (h₁ : 1 ≤ r) (h₂ : r ≤ 32) (hlen : 0 < len)
    (hfits : 2 ^ r + len ≤ i.count) (hroot : i.Rootless) (hfirst : i.data 0 = (Vault.genesisEntry r len now).encode)
    (hzero : ∀ s < 2 ^ r, s ≠ 0 → i.data s = .zero) :
    Sound r i (Vault.genesisEntry r len now) .empty where
  spine :=
    { fits := ⟨⟨by simp [Vault.genesisEntry]; omega, by simp [Vault.genesisEntry]⟩, rfl, h₁, h₂⟩
      head := by simpa [Vault.genesisEntry] using hfirst
      slots := by
        intro s hs
        by_cases h0 : s = 0
        · subst h0
          refine .inr (.inr ⟨_, hfirst, ⟨⟨by simp [Vault.genesisEntry]; omega, by simp [Vault.genesisEntry]⟩, rfl, h₁, h₂⟩,
            le_rfl, ?_, by simp [Vault.genesisEntry]⟩)
          exact Nat.lt_add_of_pos_right (Nat.two_pow_pos r)
        · exact .inr (.inl ⟨hzero s hs h0, by simp only [Vault.genesisEntry]; omega⟩) }
  fits := hfits
  rootless := hroot
  rep := by simp [Rep, SpineEntry.rootChild, Vault.genesisEntry, Hamt.fromRoot]
  sep := trivial

/-- The empty map. -/
def Map.empty : Map := fun _ => none

/-- A vault just made: its first generation, and nothing else on the ring. -/
structure Fresh (r : Nat) (now : Int) (v : Vault H) (d : Dev H) (e : SpineEntry H) : Prop where
  entry : e = Vault.genesisEntry r v.tract.len now
  plow : v.tract.plow = 0
  reap : v.tract.reap = 0
  fence : v.tract.fenceLimit = none
  pending : v.pendingReap = none
  delta : v.hamt.delta = ⟨[], []⟩
  events : v.ring.mirror.events = []
  ring : ∀ s < 2 ^ r, s ≠ 0 → d.data s = .zero

/-- An open that formats blank devices leaves an empty vault in use. -/
theorem open_blank (hparts : Mirror.fromParts m.a m.b = .ok m) (hsess : Session m m d m.blockCount)
    (hblank : ∀ x, m.a = some x ∨ m.b = some x → x.Blank) {ringLog2 : Nat} (h₁ : 1 ≤ ringLog2) (h₂ : ringLog2 ≤ 32)
    {now : Int} {v : Vault H} (hopen : (Vault.open ringLog2 now .unlinkOnly).run m = (.ok v, m')) :
    m' = v.ring.mirror ∧ ∃ d' e, InUse m v.ring.mirror.marks.length (· = Map.empty) ringLog2 v d' e .empty .empty ∧
      Fresh ringLog2 now v d' e := by
  obtain ⟨hpend, hcache, -, -, hevents⟩ := Mirror.fromParts_fields hparts
  have hdev : m.a = some d ∨ m.b = some d := by
    have hp := hsess.ready.primary
    rcases ha : m.a with _ | a
    · rw [Mirror.primary, ha, Option.none_or] at hp
      exact .inr hp
    · rw [Mirror.primary, ha, Option.some_or] at hp
      exact .inl hp
  have hblankd := hblank d hdev
  have hroot := rootOf_run hsess.ready hcache hblankd.rootless
  have hboot := bootstrapN_blank hsess.ready hpend hsess.room_primary hblankd
  obtain ⟨m₁, hsealed, hs₁, ha₁, hb₁, hpend₁, hevents₁⟩ := anySealed_run hsess hcache hblank
  have hcount₁ : m₁.blockCount = m.blockCount := by rw [Mirror.blockCount, Mirror.blockCount, ha₁, hb₁]
  simp only [Vault.open, Vault.openWith, bind_run, hroot, hboot, hsealed, Bool.false_eq_true, if_false, Vault.genesis,
    state_run, hcount₁] at hopen
  by_cases hsmall : m.blockCount ≤ 2 ^ ringLog2
  · simp [hsmall] at hopen
  · simp only [hsmall, if_false, bind_run, zeroRingAt] at hopen
    obtain ⟨m₂, d₂, hzero, hs₂, hpend₂, hevents₂, hcount₂, hdata₂⟩ := hs₁.zeroes (List.range (2 ^ ringLog2))
      (hpend₁.trans hpend) fun s hs => by
        have := List.mem_range.mp hs
        omega
    rw [hzero] at hopen
    have hroom₂ := hs₂.room_primary
    obtain ⟨head, hring, hhead⟩ := Ring.openAt_total hs₂.ready ringLog2 0 (by omega)
    obtain rfl : head = none := by
      rcases head with _ | ⟨s, x⟩
      · rfl
      · obtain ⟨hs, hvalid⟩ := hhead s x rfl
        rw [Mirror.view_of_pending_nil hpend₂, hdata₂, if_pos (by simpa using hs)] at hvalid
        cases hvalid
    set e : SpineEntry H := Vault.genesisEntry ringLog2 (m.blockCount - 2 ^ ringLog2) now with he
    obtain ⟨m₃, hwrite, hatt₃, hpend₃, hevents₃⟩ := (hs₂.restart (Q := fun _ _ => True) (fun _ _ _ _ _ => trivial) trivial).writeVerified
      (fun _ _ _ _ _ => trivial) (by simp [Mirror.staged, hpend₂]) (fun _ _ => trivial)
      0 (Nat.zero_lt_of_lt (not_le.mp hsmall)) e.encode fun _ _ => trivial
    set d₃ := ((m₂.drained d₂).landed (0, e.encode)).flushed with hd₃
    have hdata₃ : ∀ l, d₃.data l = if l = 0 then e.encode else if l < 2 ^ ringLog2 then .zero else d.data l := by
      intro l
      show Function.update (m₂.drained d₂).data 0 e.encode l = _
      rw [Mirror.drained_data, Mirror.view_of_pending_nil hpend₂, Function.update_apply, hdata₂]
      simp only [List.mem_range]
    have hcount₃ : d₃.count = d.count := by
      show (m₂.drained d₂).count = d.count
      rw [Mirror.drained_count, hcount₂]
    have hmod : (0 : Nat) % 2 ^ ringLog2 = 0 := Nat.zero_mod _
    have happend : (Ring.append e).run ⟨m₂, ringLog2, 0, none⟩ = (.ok (), ⟨m₃, ringLog2, 0, some (0, e)⟩) := by
      have hchains : (⟨m₂, ringLog2, 0, none⟩ : Ring H).Chains e := ⟨rfl, rfl, rfl⟩
      rw [Ring.append_eq hchains]
      simp only [Ring.onMirror, bind_run, zoom_run, Ring.n, show e.gen = 0 from rfl, hmod, Nat.add_zero, hwrite,
        update_run]
    simp only [hring, Vault.startSpine, bind_run, Vault.launch, Vault.onRing, zoom_run, ← he, happend, pure_run,
      Prod.mk.injEq, Except.ok.injEq] at hopen
    obtain ⟨rfl, rfl⟩ := hopen
    have hfresh : Fresh ringLog2 now
        (⟨⟨m₃, ringLog2, 0, some (0, e)⟩, ⟨2 ^ ringLog2, m.blockCount - 2 ^ ringLog2, 0, 0, none⟩, Hamt.empty, LiveSet.empty,
          none, .unlinkOnly, none, none⟩ : Vault H) d₃ e :=
      { entry := rfl
        plow := rfl
        reap := rfl
        fence := rfl
        pending := rfl
        delta := rfl
        events := ((hevents₃.trans hevents₂).trans hevents₁).trans hevents
        ring := fun s hs h0 => (hdata₃ s).trans (by rw [if_neg h0, if_pos hs]) }
    refine ⟨rfl, d₃, e, ?_, hfresh⟩
    have hlen : 0 < m.blockCount - 2 ^ ringLog2 := by omega
    have hsum : 2 ^ ringLog2 + (m.blockCount - 2 ^ ringLog2) = m.blockCount := by omega
    have hroom₃ := hatt₃.room_primary
    have hsound : Sound ringLog2 d₃.image e .empty := by
      refine sound_genesis h₁ h₂ hlen (by rw [hsum]; exact hroom₃) ?_ ?_ ?_
      · intro l hl
        show Block.NotRoot (d₃.data l)
        rw [hdata₃ l]
        split
        · exact e.encode_notRoot
        · split
          · exact Block.notRoot_zero
          · exact hblankd.rootless l (lt_of_lt_of_eq hl hcount₃)
      · exact (hdata₃ 0).trans (if_pos rfl)
      · intro s hs h0
        exact (hdata₃ s).trans (by rw [if_neg h0, if_pos hs])
    have hmap : (Tree.empty : Tree H).map = Map.empty := rfl
    have hatt : Attached m m₃.marks.length (Recovers (· = Map.empty) ringLog2) m₃ d₃
        (2 ^ ringLog2 + (m.blockCount - 2 ^ ringLog2)) := by
      rw [hsum]
      exact hatt₃.toSession.restart (fun _ _ _ hc hq => hq.mono hc) ⟨e, .empty, hsound, hsum.le, hmap⟩
    refine
      { attached := hatt
        ringLog2 := rfl
        ringBase := rfl
        head := by rw [show e.gen = 0 from rfl, hmod]
        base := rfl
        root := rfl
        policy := rfl
        settling := rfl
        sound := hsound
        len := le_rfl
        staging := by
          intro x hx
          simp [Mirror.staged, hpend₃] at hx
        indexed := ?_
        live := fun p => by simp [LiveSet.refers_empty, Tree.Claims]
        clean := fun _ => by simp [Hamt.empty, SpineEntry.rootChild, Hamt.fromRoot, he, Vault.genesisEntry]
        pending := by simp
        allows := hmap }
    exact
      { on := ⟨hatt.ready, hatt.room_primary⟩
        cursors := ⟨hlen, le_rfl, Nat.zero_le _⟩
        rep := rfl
        sep := trivial
        claims := fun p => by simp [Tree.Claims, Vault.store, Hamt.empty, LiveSet.refers_empty]
        added := by simp [Vault.store, Hamt.empty]
        removed := by simp [Vault.store, Hamt.empty]
        known := by simp [LiveSet.empty] }

end Manifestus
