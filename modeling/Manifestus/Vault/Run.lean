import Manifestus.Vault.Genesis
import Manifestus.Engine.Digest

/-! Runs of a fixed vault: sessions of operations and cold reopens. The vault is the map its operations
make, and a power loss inside an operation leaves the map before or after it. -/
set_option linter.unusedSectionVars false

namespace Manifestus
open Prog

variable {H : Type} [Crates H]

/-- An operation of the vault. -/
inductive Op where
  | put (key : Key) (value : Bytes) (now : Int)
  | putBatch (items : List (Key × Bytes)) (now : Int)
  | applyBatch (items : List (Key × Option Bytes)) (now : Int)
  | delete (key : Key) (now : Int)
  | commit (now : Int)
  | reapOneWindow (now : Int)
  | reclaimAhead (now : Int)
  | rescue (now : Int)
  | grow (newTractBlocks : Nat) (now : Int)

namespace Op

/-- The operation, its result but for an error dropped. -/
def prog : Op → Prog Error (Vault H) Unit
  | .put key value now => Vault.put key value now
  | .putBatch items now => Vault.putBatch items now
  | .applyBatch items now => Vault.applyBatch items now
  | .delete key now => do
    let _ ← Vault.delete key now
    pure ()
  | .commit now => Vault.commit now
  | .reapOneWindow now => do
    let _ ← Vault.reapOneWindow now
    pure ()
  | .reclaimAhead now => do
    let _ ← Vault.reclaimAhead now
    pure ()
  | .rescue now => do
    let _ ← Vault.rescue now
    pure ()
  | .grow newTractBlocks now => Vault.grow newTractBlocks now

/-- What the operation does to the map. -/
def items : Op → List (Key × Option Bytes)
  | .put key value _ => [(key, some value)]
  | .putBatch items _ => items.map fun x => (x.1, some x.2)
  | .applyBatch items _ => items
  | .delete key _ => [(key, none)]
  | _ => []

/-- The vault after operations that all return Ok. -/
def runs : List Op → Vault H → Option (Vault H)
  | [], v => some v
  | op :: ops, v =>
    match op.prog.run v with
    | (.ok _, v') => runs ops v'
    | (.error _, _) => none

end Op

/-- A first session of operations that all return Ok. -/
def Mirror.session (m : Mirror H) (ringLog2 : Nat) (ops : List Op) : Option (Vault H) :=
  match (Vault.open ringLog2 0 .unlinkOnly).run m with
  | (.ok v, _) => Op.runs ops v
  | (.error _, _) => none

section Sessions

variable {m m' : Mirror H} {v v' : Vault H} {M : Map}

theorem settle_run (h : v.settling = none) : Vault.settle.run v = (.ok (), v) := by
  have hstep : Vault.settleStep.run v = (.ok true, v) := by simp [Vault.settleStep, h]
  rw [Vault.settle, bind_run, state_run]
  show (Vault.settleSteps (v.tract.len + 1 + 1)).run v = _
  rw [settleSteps_succ, bind_run, hstep]
  rfl

namespace Keeps

variable {allowed : Map → Prop} {I : Vault H → Map → Map → Prop} {c : Map}

/-- An operation does to the map what its items do, or fails with some maps. -/
theorem op_sat (hk : Keeps allowed I) (op : Op) (h : I v c c)
    (hclosed : ∀ c, allowed c → ∀ pre, pre <+: op.items → allowed (c.apply pre)) :
    Sat op.prog v (fun _ v' => I v' (c.apply op.items) (c.apply op.items)) (fun _ v' => Somehow I v') := by
  have hsettle := settle_run (hk.settled h)
  have hc := hk.allows h
  have hsome : ∀ {u : Vault H}, Settles I c c u → Somehow I u := fun hu => ⟨c, c, hu.elim id id⟩
  cases op with
  | put key value now =>
    exact sat_run hsettle (hk.applyBatchNow_sat now [(key, some value)] h hclosed)
  | putBatch items now =>
    exact sat_run hsettle (hk.applyBatchNow_sat now _ h hclosed)
  | applyBatch items now =>
    exact sat_run hsettle (hk.applyBatchNow_sat now items h hclosed)
  | delete key now =>
    have hdel := hk.deleteNow_sat now key h (hclosed c hc [(key, none)] (List.prefix_refl _))
    exact sat_bind (sat_run hsettle (hdel.mono (fun _ _ hx => hx.2) fun _ _ hx => hx)) fun _ _ hx => sat_pure hx
  | commit now =>
    exact sat_run hsettle ((hk.commit h hc now).mono (fun _ _ hx => hx) fun _ _ hx => ⟨c, c, hx.2⟩)
  | reapOneWindow now =>
    have hreap := hk.reapOneWindowCapped_sat now (.inl h) hc none
    exact sat_bind (sat_run hsettle (hreap.mono (fun _ _ hx => hx.elim id id) fun _ _ hx => hsome hx))
      fun _ _ hx => sat_pure hx
  | reclaimAhead now =>
    have hreap := hk.reclaimAheadNow_sat now (.inl h) hc
    exact sat_bind (sat_run hsettle (hreap.mono (fun _ _ hx => hx.elim id id) fun _ _ hx => hsome hx))
      fun _ _ hx => sat_pure hx
  | rescue now =>
    have hres := hk.rescueNow_sat now hc h
    exact sat_bind (sat_run hsettle (hres.mono (fun _ _ hx => hx) fun _ _ hx => ⟨c, c, hx⟩)) fun _ _ hx => sat_pure hx
  | grow n now =>
    have hgrow := hk.growNow_sat now h n
    exact sat_run hsettle (hgrow.mono (fun _ _ hx => hx.elim id fun hx => hx.2) fun _ _ hx => ⟨c, c, hx.elim id id⟩)

end Keeps

/-- Devices newly attached and without fault: the second refuses no capacity the first accepts. -/
structure ErrorFree (m : Mirror H) : Prop where
  parts : Mirror.fromParts m.a m.b = .ok m
  attached : ∀ x, m.a = some x ∨ m.b = some x → x = x.image.dev x.limit
  accepts : ∀ x y c, m.a = some x → m.b = some y → x.Accepts c → y.Accepts c

theorem Mirror.blockCount_le {x : Dev H} (hx : m.a = some x ∨ m.b = some x) : m.blockCount ≤ x.count := by
  unfold Mirror.blockCount
  rcases ha : m.a with _ | a <;> rcases hb : m.b with _ | b <;> rw [ha, hb] at hx <;>
    simp only [reduceCtorEq, or_false, false_or, Option.some.injEq] at hx
  · rw [hx]
  · rw [hx]
  · rcases hx with rfl | rfl
    · exact min_le_left _ _
    · exact min_le_right _ _

theorem ErrorFree.session (h : ErrorFree m) : ∃ d, Session m m d m.blockCount := by
  obtain ⟨d, hd⟩ : ∃ d, m.primary = some d := by
    have hparts := h.parts
    unfold Mirror.fromParts at hparts
    split at hparts
    · cases hparts
    next hnone =>
      rcases ha : m.a with _ | a
      · rcases hb : m.b with _ | b
        · simp [ha, hb] at hnone
        · exact ⟨b, by simp [Mirror.primary, ha, hb]⟩
      · exact ⟨a, by simp [Mirror.primary, ha]⟩
  refine ⟨d, .fresh h.parts hd (fun x hx => ?_) h.accepts⟩
  have hx' := h.attached x hx
  exact ⟨by rw [hx']; rfl, by rw [hx']; rfl, Mirror.blockCount_le hx⟩

/-- The devices of a session attached again. -/
theorem Session.reattach {m₀ : Mirror H} {d : Dev H} {n : Nat} (h : Session m₀ m d n) :
    ErrorFree m.reattach ∧ Session m.reattach m.reattach (d.image.dev d.limit) m.reattach.blockCount ∧
      n ≤ m.reattach.blockCount := by
  have hb : m.reattach.b = m.b.map fun x => x.image.dev x.limit := by
    show (m.b.or m.dropped).map _ = _
    rw [h.dropped, Option.or_none]
  have hprim : m.reattach.primary = some (d.image.dev d.limit) := h.ready.reattach.primary
  have hdev : ∀ x, m.reattach.a = some x ∨ m.reattach.b = some x →
      ∃ y, (m.a = some y ∨ m.b = some y) ∧ x = y.image.dev y.limit := by
    intro x hx
    rw [hb] at hx
    rcases hx with hx | hx
    · obtain ⟨y, hy, rfl⟩ := Option.map_eq_some_iff.mp hx
      exact ⟨y, .inl hy, rfl⟩
    · obtain ⟨y, hy, rfl⟩ := Option.map_eq_some_iff.mp hx
      exact ⟨y, .inr hy, rfl⟩
  have hparts : Mirror.fromParts m.reattach.a m.reattach.b = .ok m.reattach := by
    unfold Mirror.fromParts
    rw [if_neg]
    · simp [Mirror.reattach]
    · rintro ⟨ha, hb⟩
      rw [Option.isNone_iff_eq_none] at ha hb
      simp [Mirror.primary, ha, hb] at hprim
  have hacc : ∀ x y c, m.reattach.a = some x → m.reattach.b = some y → x.Accepts c → y.Accepts c := by
    intro x y c hx hy hc
    rw [hb] at hy
    obtain ⟨x', hx', rfl⟩ := Option.map_eq_some_iff.mp hx
    obtain ⟨y', hy', rfl⟩ := Option.map_eq_some_iff.mp hy
    exact h.accepts x' y' c hx' hy' hc
  refine ⟨⟨hparts, ?_, hacc⟩, .fresh hparts hprim ?_ hacc, ?_⟩
  · intro x hx
    obtain ⟨y, -, rfl⟩ := hdev x hx
    rfl
  · intro x hx
    obtain ⟨y, -, rfl⟩ := hdev x hx
    exact ⟨rfl, rfl, Mirror.blockCount_le hx⟩
  · have hcounts : ∀ x, m.reattach.a = some x ∨ m.reattach.b = some x → n ≤ x.count := by
      intro x hx
      obtain ⟨y, hy, rfl⟩ := hdev x hx
      exact h.room y hy
    unfold Mirror.blockCount
    rcases ha : m.reattach.a with _ | a <;> rcases hb : m.reattach.b with _ | b
    · simp [Mirror.primary, ha, hb] at hprim
    · exact hcounts b (.inr hb)
    · exact hcounts a (.inl ha)
    · exact le_min (hcounts a (.inl ha)) (hcounts b (.inr hb))

/-- A power loss may lose nothing. -/
theorem Session.crash_kept {m₀ : Mirror H} {d : Dev H} {n k : Nat} (h : Session m₀ m d n) (hk : k ≤ m.marks.length) :
    m₀.Crashes k m m.reattach := by
  have hleaves : ∀ {o₀ o : Option (Dev H)}, Follows o₀ o →
      Leaves o₀ ((o.map Dev.log).getD []) (o.map fun x => x.image.dev x.limit) := by
    intro o₀ o ho
    cases ho with
    | none => rfl
    | @some d₀ x himage _ hlimit _ =>
      refine ⟨x.image, ⟨x.log, [], by simp, by simp, ?_, ?_⟩, by rw [← hlimit]; rfl⟩
      · rw [himage]
        rfl
      · intro l
        left
        rw [himage]
        simp
  have hb : m.reattach.b = m.b.map fun x => x.image.dev x.limit := by
    show (m.b.or m.dropped).map _ = _
    rw [h.dropped, Option.or_none]
  have hlast : ((0, 0) :: m.marks)[m.marks.length]? = some (m.logA.length, m.logB.length) := by
    have hm := h.marked.last
    rcases List.eq_nil_or_concat m.marks with hnil | ⟨ms, x, hms⟩
    · rw [hnil] at hm ⊢
      simpa using hm
    · rw [hms] at hm ⊢
      simpa using hm
  refine ⟨h.reattach.1.parts, _, _, m.logA, m.logB, ⟨m.marks.length, hk, hlast, rfl⟩, List.prefix_refl _, le_refl _,
    ?_, hleaves h.a, List.prefix_refl _, le_refl _, ?_, ?_⟩
  · simp
  · simp
  · rw [hb, Mirror.logB_eq h.dropped]
    exact hleaves h.b

/-- From here on other maps may be allowed. -/
theorem InUse.restart (allowed' : Map → Prop) {m₀ : Mirror H} {k r : Nat} {allowed : Map → Prop} {d : Dev H} {e : SpineEntry H}
    {T C : Tree H} (h : InUse m₀ k allowed r v d e T C) (hallows : allowed' T.map) :
    InUse m₀ v.ring.mirror.marks.length allowed' r v d e T C :=
  { h with
    attached := h.attached.toSession.restart (fun _ _ _ hc hq => hq.mono hc)
      ⟨e, T, h.sound, Nat.add_le_add_left h.len _, hallows⟩
    allows := hallows }

theorem Serves.restart (allowed' : Map → Prop) {m₀ : Mirror H} {k r : Nat} {allowed : Map → Prop} {com cur : Map}
    (h : Serves m₀ k allowed r v com cur) (hallows : allowed' com) :
    Serves m₀ v.ring.mirror.marks.length allowed' r v com cur := by
  obtain ⟨d, e, T, C, h, rfl, rfl⟩ := h
  exact ⟨d, e, T, C, h.restart allowed' hallows, rfl, rfl⟩

/-- A cold reopen of a vault in use. -/
theorem Serves.reopen {m₀ : Mirror H} {k r : Nat} {allowed : Map → Prop} {com cur : Map}
    (h : Serves m₀ k allowed r v com cur) (allowed' : Map → Prop) (hallows : allowed' com) (ringLog2 : Nat) (now : Int) :
    ∃ w, (Vault.open ringLog2 now .unlinkOnly).run v.ring.mirror.reattach = (.ok w, w.ring.mirror) ∧
      Serves v.ring.mirror.reattach 0 allowed' r w com com := by
  obtain ⟨d, e, T, C, h, rfl, rfl⟩ := h
  obtain ⟨herr, hsess, hcount⟩ := h.attached.toSession.reattach
  obtain ⟨w, hrun, hw⟩ := open_sound allowed' herr.parts hsess (e := e) (T := T) (r := r) h.sound
    ((Nat.add_le_add_left h.len _).trans hcount) hallows ringLog2 now
  exact ⟨w, hrun, hw⟩

/-- What a power loss leaves of a vault in use can be opened, and has an allowed map. -/
theorem Serves.crash {m₀ : Mirror H} {k r : Nat} {allowed : Map → Prop} {com cur : Map}
    (h : Serves m₀ k allowed r v com cur) (hcrash : m₀.Crashes k v.ring.mirror m') (ringLog2 : Nat) (now : Int) :
    ∃ w c, (Vault.open ringLog2 now .unlinkOnly).run m' = (.ok w, w.ring.mirror) ∧ allowed c ∧
      Serves m' 0 (· = c) r w c c := by
  obtain ⟨d, e, T, C, h, rfl, rfl⟩ := h
  obtain ⟨d', hsess, e', T', hsound, hneed, hallows⟩ := h.attached.covers m' hcrash
  obtain ⟨w, hrun, hw⟩ := open_sound (· = T'.map) hcrash.1 hsess hsound hneed rfl ringLog2 now
  exact ⟨w, T'.map, hrun, hallows, hw⟩

/-- A vault in use answers from its map. -/
theorem Serves.get {m₀ : Mirror H} {k r : Nat} {allowed : Map → Prop} {com cur : Map}
    (h : Serves m₀ k allowed r v com cur) (key : Key) : ∃ w, (Vault.get key).run v = (.ok (cur key), w) := by
  obtain ⟨d, e, T, C, h, rfl, rfl⟩ := h
  obtain ⟨w, hrun, -⟩ := h.get_sat (G := Freely) key
  exact ⟨w, hrun⟩

end Sessions

/-- A run of sessions on error-free devices from the first open, every operation of which returned Ok:
the devices the session started from, the vault, and the map its operations make. -/
inductive Run : Mirror H → Vault H → Map → Prop where
  | start {m m' : Mirror H} {v : Vault H} {ringLog2 : Nat} {now : Int} (hm : ErrorFree m)
      (hblank : ∀ x, m.a = some x ∨ m.b = some x → x.Blank) (h₁ : 1 ≤ ringLog2) (h₂ : ringLog2 ≤ 32)
      (hopen : (Vault.open ringLog2 now .unlinkOnly).run m = (.ok v, m')) : Run m v Map.empty
  | op {m : Mirror H} {v v' : Vault H} {M : Map} (h : Run m v M) (op : Op) (hrun : op.prog.run v = (.ok (), v')) :
      Run m v' (M.apply op.items)
  | reopen {m m' : Mirror H} {v v' : Vault H} {M : Map} {ringLog2 : Nat} {now : Int} (h : Run m v M)
      (hopen : (Vault.open ringLog2 now .unlinkOnly).run v.ring.mirror.reattach = (.ok v', m')) :
      Run v.ring.mirror.reattach v' M

variable {m m' : Mirror H} {v v' : Vault H} {M : Map}

theorem Run.serves (h : Run m v M) : ∃ k allowed r, Serves m k allowed r v M M := by
  induction h with
  | start hm hblank h₁ h₂ hopen =>
    obtain ⟨d, hsess⟩ := hm.session
    obtain ⟨-, d', e, huse, -⟩ := open_blank hm.parts hsess hblank h₁ h₂ hopen
    exact ⟨_, _, _, d', e, .empty, .empty, huse, rfl, rfl⟩
  | op h op hrun ih =>
    obtain ⟨k, allowed, r, hs⟩ := ih
    have hs' := hs.restart (fun _ => True) trivial
    have hsat := (serves_keeps _ _ (fun _ => True) r).op_sat op hs' fun _ _ _ _ => trivial
    unfold Sat at hsat
    rw [hrun] at hsat
    exact ⟨_, _, r, hsat⟩
  | reopen h hopen ih =>
    obtain ⟨k, allowed, r, hs⟩ := ih
    obtain ⟨w, hrun, hw⟩ := hs.reopen (fun _ => True) trivial _ _
    rw [hrun] at hopen
    cases hopen
    exact ⟨_, _, r, hw⟩

theorem Run.runs (h : Run m v M) {ops : List Op} (hops : Op.runs ops v = some v') :
    Run m v' (M.apply (ops.flatMap Op.items)) := by
  induction ops generalizing v M with
  | nil =>
    cases hops
    exact h
  | cons op ops ih =>
    rw [Op.runs] at hops
    rcases hr : op.prog.run v with ⟨_ | ⟨⟩, u⟩ <;> rw [hr] at hops
    · cases hops
    · rw [List.flatMap_cons, Map.apply_append]
      exact ih (h.op op hr) hops

theorem Run.session {ringLog2 : Nat} {ops : List Op} (hm : ErrorFree m)
    (hblank : ∀ x, m.a = some x ∨ m.b = some x → x.Blank) (h₁ : 1 ≤ ringLog2) (h₂ : ringLog2 ≤ 32)
    (h : m.session ringLog2 ops = some v) : Run m v (Map.empty.apply (ops.flatMap Op.items)) := by
  unfold Mirror.session at h
  rcases hr : (Vault.open ringLog2 0 .unlinkOnly).run m with ⟨_ | w, m'⟩ <;> rw [hr] at h
  · cases h
  · exact (Run.start hm hblank h₁ h₂ hr).runs h

namespace Digest

/-- Two blank devices of `n` blocks. -/
def pair (n : Nat) (limit : Option Nat) : Mirror Digest :=
  .new ⟨n, fun _ => .zero, limit, [], []⟩ ⟨n, fun _ => .zero, limit, [], []⟩

/-- Keys that part at the first chunk. -/
def key (n : Nat) : Key := BitVec.ofNat 256 (n * 2 ^ 251)

theorem pair_errorFree (n : Nat) (limit : Option Nat) : ErrorFree (pair n limit) := by
  refine ⟨rfl, ?_, ?_⟩
  · rintro x (hx | hx) <;> cases hx <;> rfl
  · intro x y c hx hy hc
    cases hx
    cases hy
    exact hc

theorem pair_blank (n : Nat) (limit : Option Nat) (x : Dev Digest)
    (hx : (pair n limit).a = some x ∨ (pair n limit).b = some x) : x.Blank := by
  rcases hx with hx | hx <;> cases hx <;> intro l _ <;> rfl

/-- A session on blank devices. -/
theorem pair_run {n r : Nat} (limit : Option Nat) (ops : List Op) (h₁ : 1 ≤ r) (h₂ : r ≤ 32)
    (h : ((pair n limit).session r ops).isSome) :
    ∃ v, (pair n limit).session r ops = some v ∧ Run (pair n limit) v (Map.empty.apply (ops.flatMap Op.items)) := by
  obtain ⟨v, hv⟩ := Option.isSome_iff_exists.mp h
  exact ⟨v, hv, .session (pair_errorFree n limit) (pair_blank n limit) h₁ h₂ hv⟩

end Digest

theorem Mirror.session_snoc {ringLog2 : Nat} {ops : List Op} {op : Op} (h : m.session ringLog2 (ops ++ [op]) = some v') :
    ∃ v, m.session ringLog2 ops = some v ∧ op.prog.run v = (.ok (), v') := by
  have hsnoc : ∀ (ops : List Op) (v : Vault H), Op.runs (ops ++ [op]) v = some v' →
      ∃ u, Op.runs ops v = some u ∧ op.prog.run u = (.ok (), v') := by
    intro ops
    induction ops with
    | nil =>
      intro v hv
      rw [List.nil_append, Op.runs] at hv
      rcases hr : op.prog.run v with ⟨_ | ⟨⟩, u⟩ <;> rw [hr] at hv
      · cases hv
      · cases hv
        exact ⟨v, rfl, hr⟩
    | cons x ops ih =>
      intro v hv
      rw [List.cons_append, Op.runs] at hv
      rw [Op.runs]
      rcases hr : x.prog.run v with ⟨_ | ⟨⟩, u⟩ <;> rw [hr] at hv
      · cases hv
      · exact ih u hv
  unfold Mirror.session at h ⊢
  rcases hr : (Vault.open ringLog2 0 .unlinkOnly).run m with ⟨_ | w, m'⟩ <;> rw [hr] at h
  · cases h
  · exact hsnoc ops w h

end Manifestus
