import Manifestus.Flat.Scribe
import Manifestus.Vault.Helm
import Manifestus.Vault.Launch

/-! The generations of a fixed vault. Whatever a vault goes through, every block of its ring that reads as a
generation belongs to one history, in which each generation names the hash of the one before. -/
set_option linter.unusedSectionVars false

namespace Manifestus
open Prog

variable {H : Type} [Crates H] {hist : Nat → SpineEntry H} {k r n : Nat} {m m₀ : Mirror H}

/-- The first `n` generations of a ring, each chained to the one before. -/
structure Chronicle (hist : Nat → SpineEntry H) (n : Nat) : Prop where
  gen : ∀ g < n, (hist g).gen = g
  first : 0 < n → (hist 0).prevHash = Crates.zeros
  next : ∀ g, g + 1 < n → (hist (g + 1)).prevHash = (hist g).bodyHash

/-- The last of them. -/
def newest (hist : Nat → SpineEntry H) : Nat → Option (SpineEntry H)
  | 0 => none
  | n + 1 => some (hist n)

/-- A block of the ring that reads as a generation is one of the first `n`. -/
def Numbered (r : Nat) (hist : Nat → SpineEntry H) (n l : Nat) (b : Block H) : Prop :=
  l < 2 ^ r → ∀ x, classify b l (some r) = .valid x → x.gen < n ∧ hist x.gen = x

theorem numbered_of_le {l : Nat} (h : 2 ^ r ≤ l) (b : Block H) : Numbered r hist n l b :=
  fun hl => absurd hl (Nat.not_lt.mpr h)

theorem legible_numbered : Legible (Numbered r hist n) where
  zero l _ x hx := absurd hx (classify_unsealed rfl l (some r) x)
  torn l _ _ x hx := absurd hx (classify_unsealed rfl l (some r) x)

namespace Chronicle

/-- One more generation. -/
theorem snoc (h : Chronicle hist n) {e : SpineEntry H} (hgen : e.gen = n) (hfirst : n = 0 → e.prevHash = Crates.zeros)
    (hnext : ∀ g, n = g + 1 → e.prevHash = (hist g).bodyHash) : Chronicle (Function.update hist n e) (n + 1) where
  gen g hg := by
    by_cases heq : g = n
    · rw [heq, Function.update_self, hgen]
    · rw [Function.update_of_ne heq]
      exact h.gen g (by omega)
  first _ := by
    by_cases heq : n = 0
    · subst heq
      rw [Function.update_self]
      exact hfirst rfl
    · rw [Function.update_of_ne (Ne.symm heq)]
      exact h.first (Nat.pos_of_ne_zero heq)
  next g hg := by
    have hne : g ≠ n := by omega
    rw [Function.update_of_ne hne]
    by_cases heq : g + 1 = n
    · rw [heq, Function.update_self]
      exact hnext g heq.symm
    · rw [Function.update_of_ne heq]
      exact h.next g (by omega)

theorem take (h : Chronicle hist n) {n' : Nat} (hn : n' ≤ n) : Chronicle hist n' where
  gen g hg := h.gen g (hg.trans_le hn)
  first hpos := h.first (hpos.trans_le hn)
  next g hg := h.next g (hg.trans_le hn)

end Chronicle

/-- Generations that a ring takes, none with cursors or a tract behind the one before. -/
structure Ascending (r : Nat) (hist : Nat → SpineEntry H) (n : Nat) : Prop where
  fits : ∀ g < n, (hist g).Fits r
  plow : ∀ g, g + 1 < n → (hist g).plow ≤ (hist (g + 1)).plow
  blocks : ∀ g, g + 1 < n → (hist g).tractBlocks ≤ (hist (g + 1)).tractBlocks

namespace Ascending

variable {hist' : Nat → SpineEntry H}

theorem congr (h : Ascending r hist n) (heq : ∀ g < n, hist' g = hist g) : Ascending r hist' n where
  fits g hg := heq g hg ▸ h.fits g hg
  plow g hg := by
    rw [heq g (by omega), heq (g + 1) hg]
    exact h.plow g hg
  blocks g hg := by
    rw [heq g (by omega), heq (g + 1) hg]
    exact h.blocks g hg

theorem take (h : Ascending r hist n) {n' : Nat} (hn : n' ≤ n) : Ascending r hist n' where
  fits g hg := h.fits g (hg.trans_le hn)
  plow g hg := h.plow g (hg.trans_le hn)
  blocks g hg := h.blocks g (hg.trans_le hn)

/-- One more generation. -/
theorem snoc (h : Ascending r hist (n + 1)) (hfits : (hist (n + 1)).Fits r) (hplow : (hist n).plow ≤ (hist (n + 1)).plow)
    (hblocks : (hist n).tractBlocks ≤ (hist (n + 1)).tractBlocks) : Ascending r hist (n + 2) where
  fits g hg := by
    cases Nat.lt_succ_iff_lt_or_eq.mp hg with
    | inl hlt => exact h.fits g hlt
    | inr heq => exact heq ▸ hfits
  plow g hg := by
    cases Nat.lt_succ_iff_lt_or_eq.mp hg with
    | inl hlt => exact h.plow g hlt
    | inr heq =>
      obtain rfl : g = n := by omega
      exact hplow
  blocks g hg := by
    cases Nat.lt_succ_iff_lt_or_eq.mp hg with
    | inl hlt => exact h.blocks g hlt
    | inr heq =>
      obtain rfl : g = n := by omega
      exact hblocks

end Ascending

/-- A ring at block 0 written with the first `n` generations of `hist`, the last of them its head. -/
structure Ring.Logged (r : Nat) (hist : Nat → SpineEntry H) (n : Nat) (q : Ring H) : Prop where
  scribed : q.mirror.Scribed (Numbered r hist n) (2 ^ r)
  ringLog2 : q.ringLog2 = r
  base : q.base = 0
  head : q.headEntry = newest hist n
  history : Chronicle hist n

namespace Ring.Logged

variable {q : Ring H}

/-- An append adds a generation to the history, or nothing. -/
theorem append (h : q.Logged r hist n) (entry : SpineEntry H) :
    Sat (Ring.append entry) q (fun _ q' => q'.Logged r (Function.update hist n entry) (n + 1) ∧
        ∀ l b, Numbered r hist n l b → Numbered r (Function.update hist n entry) (n + 1) l b)
      fun _ q' => q'.Logged r hist n := by
  by_cases hc : q.Chains entry
  · obtain ⟨hlog2, hlink⟩ := hc
    have hgen : entry.gen = n := by
      rw [h.head] at hlink
      cases n with
      | zero => exact hlink.1
      | succ g => exact hlink.1.trans (by rw [h.history.gen g (Nat.lt_succ_self g)])
    have hhist : Chronicle (Function.update hist n entry) (n + 1) := by
      apply h.history.snoc hgen
      · intro hn
        subst hn
        rw [h.head] at hlink
        exact hlink.2
      · intro g hg
        subst hg
        rw [h.head] at hlink
        exact hlink.2
    have hold : ∀ l b, Numbered r hist n l b → Numbered r (Function.update hist n entry) (n + 1) l b := by
      intro l b hb hl x hx
      obtain ⟨hlt, heq⟩ := hb hl x hx
      have hne : x.gen ≠ n := by omega
      exact ⟨hlt.trans (Nat.lt_succ_self n), by rw [Function.update_of_ne hne, heq]⟩
    have hnew : Numbered r (Function.update hist n entry) (n + 1) (entry.gen % 2 ^ r) entry.encode := by
      intro _ x hx
      rw [eq_of_classify_encode hx, hgen, Function.update_self]
      exact ⟨Nat.lt_succ_self n, rfl⟩
    have hslot : q.base + entry.gen % q.n = entry.gen % 2 ^ r := by rw [h.base, Nat.zero_add, Ring.n, h.ringLog2]
    have hwrite := h.scribed.writeVerified_sat hold hnew (Nat.mod_lt _ (Nat.two_pow_pos r))
    unfold Sat at hwrite ⊢
    rw [Ring.append_eq ⟨hlog2, hlink⟩, hslot]
    simp only [Ring.onMirror, bind_run, zoom_run]
    rcases hrun : (Mirror.writeVerified (entry.gen % 2 ^ r) entry.encode).run q.mirror with ⟨err | _, m'⟩ <;> rw [hrun] at hwrite
    · exact { h with scribed := hwrite }
    · simp only [update_run]
      have hhead : some entry = newest (Function.update hist n entry) (n + 1) := by rw [newest, Function.update_self]
      exact ⟨⟨hwrite, h.ringLog2, h.base, hhead, hhist⟩, hold⟩
  · obtain ⟨err, hrun⟩ := Ring.append_run_of_not hc
    unfold Sat
    rw [hrun]
    exact h

end Ring.Logged

/-- A fixed vault, its tract within `c` blocks, with the first `n` generations of `hist` on its ring. -/
def Vault.Logged (r : Nat) (hist : Nat → SpineEntry H) (n : Nat) : Nat → Vault H → Prop :=
  Aboard (2 ^ r) (fun _ => Mirror.Scribed (Numbered r hist n) (2 ^ r)) fun log2 base head root =>
    log2 = r ∧ base = 0 ∧ head = newest hist n ∧ root = none

/-- A fixed vault whose ring has one history with `keep`, to which the primary as the session found it belongs. -/
def Vault.Ledger (keep : (Nat → SpineEntry H) → Nat → Prop) (r : Nat) (m₀ : Mirror H) (c : Nat) (v : Vault H) : Prop :=
  ∃ hist n, keep hist n ∧ (∀ d, m₀.primary = some d → ∀ l, Numbered r hist n l (d.data l)) ∧ Chronicle hist n ∧
    v.Logged r hist n c

/-- The mirror's part of it. -/
theorem deck_numbered : Deck (H := H) (2 ^ r) fun _ => Mirror.Scribed (Numbered r hist n) (2 ^ r) where
  read := Mirror.Scribed.read
  readCached := Mirror.Scribed.readCached
  readRun := Mirror.Scribed.readRun
  readMany := Mirror.Scribed.readMany
  averted _ := steady_update fun _ h => h.same rfl rfl rfl
  reserve len h := h.reserveStaged len
  stage b hl _ h := h.stageOne (numbered_of_le hl b)
  erase hl := Mirror.Scribed.writeVerified (numbered_of_le hl _)
  grow count h := Mirror.Scribed.grow legible_numbered count _ h

theorem Vault.Logged.ring {c : Nat} {v : Vault H} (h : v.Logged r hist n c) (hhist : Chronicle hist n) :
    v.ring.Logged r hist n := by
  obtain ⟨hm, -, hlog2, hbase, hhead, -⟩ := h
  exact ⟨hm, hlog2, hbase, hhead, hhist⟩

/-- What more generations keep of a history, a vault under way keeps. -/
theorem helm_ledger {keep : (Nat → SpineEntry H) → Nat → Prop}
    (hkeep : ∀ hist n e, keep hist n → keep (Function.update hist n e) (n + 1)) :
    Helm (H := H) (2 ^ r) (Vault.Ledger keep r m₀) := by
  have hrigged : ∀ hist n, Rigged (H := H) (2 ^ r) (Vault.Logged r hist n) := fun _ _ => deck_numbered.rigged le_rfl
  -- what appends no generation keeps the history as it is
  have hkept : ∀ {α : Type} {x : Prog Error (Vault H) α} {c c' : Nat} {v : Vault H},
      (∀ hist n, v.Logged r hist n c → Sat x v (fun _ v' => v'.Logged r hist n c') fun _ v' => v'.Logged r hist n c) →
      v.Ledger keep r m₀ c → Sat x v (fun _ v' => v'.Ledger keep r m₀ c') fun _ v' => v'.Ledger keep r m₀ c := by
    intro α x c c' v hx ⟨hist, n, hk, hfirst, hhist, hlog⟩
    exact (hx hist n hlog).mono (fun _ _ h' => ⟨hist, n, hk, hfirst, hhist, h'⟩) fun _ _ h' => ⟨hist, n, hk, hfirst, hhist, h'⟩
  constructor
  · constructor
    · intro c v hv
      obtain ⟨hist, n, -, -, -, hlog⟩ := hv
      exact (hrigged hist n).base hlog
    · intro c v v' hbeside hv
      obtain ⟨hist, n, hk, hfirst, hhist, hlog⟩ := hv
      exact ⟨hist, n, hk, hfirst, hhist, (hrigged hist n).same hbeside hlog⟩
    · exact fun hx v hv => hkept (fun hist n => (hrigged hist n).till hx v) hv
    · exact fun k v hv => hkept (fun hist n => (hrigged hist n).shown k v) hv
    · exact fun count hv => hkept (fun hist n => (hrigged hist n).grow count) hv
  · intro c entry
    apply steady_zoom
    intro v ⟨hist, n, hk, hfirst, hhist, hlog⟩
    obtain ⟨-, hroom, -, -, -, hroot⟩ := id hlog
    apply ((hlog.ring hhist).append entry).mono
    · intro _ q ⟨hlog', hold⟩
      exact ⟨_, n + 1, hkeep hist n entry hk, fun d hd l => hold l _ (hfirst d hd l), hlog'.history, hlog'.scribed, hroom,
        hlog'.ringLog2, hlog'.base, hlog'.head, hroot⟩
    · intro _ q hlog'
      exact ⟨hist, n, hk, hfirst, hhist, hlog'.scribed, hroom, hlog'.ringLog2, hlog'.base, hlog'.head, hroot⟩
  · intro c now v hv
    obtain ⟨hist, n, -, -, -, -, -, -, -, -, hroot⟩ := id hv
    unfold Vault.migrateRing
    apply sat_state
    rw [hroot]
    exact hv

/-! ### The opens -/

/-- A first open writes zeros and the first generation. -/
theorem genesis_scribed {P : Nat → Block H → Prop} {now : Int} {policy : DeletePolicy} (hP : Legible P)
    (hfirst : P 0 (Vault.genesisEntry r (m.blockCount - 2 ^ r) now).encode) (hm : m.Scribed P n) :
    Sat (Vault.genesis r now policy) m (fun v _ => v.ring.mirror.Scribed P n) fun _ _ => True := by
  have hzero : Steady (Mirror.Scribed P n) (zeroRingAt r 0) :=
    steady_each (fun slot => Mirror.Scribed.writeVerified (hP.zero (0 + slot))) _
  unfold Vault.genesis
  apply sat_state
  dsimp only
  split
  · trivial
  · apply sat_bind ((hzero m hm).mono (fun _ _ h => h) fun _ _ _ => trivial)
    intro _ m₁ h₁
    apply sat_bind ((Ring.openAt_sat Mirror.Scribed.read r 0 h₁).mono (fun _ _ h => h) fun _ _ _ => trivial)
    intro q m₂ ⟨_, hq, hlog2, hbase⟩
    unfold Vault.startSpine
    apply sat_bind (launch_sat (Q := fun _ v => v.ring.mirror.Scribed P n) ?_)
    · intro res m₃ hres
      exact sat_pure hres
    · unfold Sat
      rw [Vault.onRing, zoom_run, hlog2]
      rcases hrun : (Ring.append (Vault.genesisEntry r (m.blockCount - 2 ^ r) now)).run q with ⟨_ | _, q'⟩
      · trivial
      · have hslot : q.base + (Vault.genesisEntry r (m.blockCount - 2 ^ r) now : SpineEntry H).gen % q.n = 0 := by
          rw [hbase]
          simp [Vault.genesisEntry]
        rw [Ring.append_eq (Ring.chains_of_append_ok hrun), hslot] at hrun
        have hwrite := Mirror.Scribed.writeVerified hfirst q.mirror hq
        unfold Sat at hwrite
        simp only [Ring.onMirror, bind_run, zoom_run] at hrun
        rcases hmirror : (Mirror.writeVerified 0 (Vault.genesisEntry r (m.blockCount - 2 ^ r) now).encode).run q.mirror
          with ⟨_ | _, m'⟩ <;> rw [hmirror] at hrun hwrite
        · cases hrun
        · simp only [update_run] at hrun
          cases hrun
          exact hwrite

/-- Devices without a sealed block are formatted. -/
theorem open_formats {d : Dev H} (ringLog2 : Nat) (now : Int) (hparts : Mirror.fromParts m.a m.b = .ok m)
    (hsess : Session m m d m.blockCount) (hblank : ∀ x, m.a = some x ∨ m.b = some x → x.Blank) :
    ∃ m₁ : Mirror H, m₁.a = m.a ∧ m₁.b = m.b ∧ m₁.pending = m.pending ∧
      (Vault.open ringLog2 now .unlinkOnly).run m = (Vault.genesis ringLog2 now .unlinkOnly).run m₁ := by
  obtain ⟨hpend, hcache, -⟩ := Mirror.fromParts_fields hparts
  have hdev := Mirror.attached_of_primary hsess.ready.primary
  have hroot := rootOf_run hsess.ready hcache (hblank d hdev).rootless
  have hboot := bootstrapN_blank hsess.ready hpend hsess.room_primary (hblank d hdev)
  obtain ⟨m₁, hsealed, -, ha₁, hb₁, hpend₁, -⟩ := anySealed_run hsess hcache hblank
  refine ⟨m₁, ha₁, hb₁, hpend₁, ?_⟩
  simp only [Vault.open, Vault.openWith, bind_run, hroot, hboot, hsealed, Bool.false_eq_true, if_false]

/-- A vault just made has a history of one generation. -/
theorem ledger_start {ringLog2 : Nat} {now : Int} {m' : Mirror H} {v : Vault H} (hm : ErrorFree m)
    (hblank : ∀ x, m.a = some x ∨ m.b = some x → x.Blank) (h₁ : 1 ≤ ringLog2) (h₂ : ringLog2 ≤ 32)
    (hopen : (Vault.open ringLog2 now .unlinkOnly).run m = (.ok v, m')) :
    Roomy (Vault.Ledger (Ascending ringLog2) ringLog2 m) v := by
  obtain ⟨d, hsess⟩ := hm.session
  obtain ⟨-, d', e, huse, hfresh⟩ := open_blank hm.parts hsess hblank h₁ h₂ hopen
  obtain ⟨m₁, ha₁, hb₁, hpend₁, hpath⟩ := open_formats ringLog2 now hm.parts hsess hblank
  rw [hpath] at hopen
  have hcount : m₁.blockCount = m.blockCount := by rw [Mirror.blockCount, Mirror.blockCount, ha₁, hb₁]
  have hroom : 2 ^ ringLog2 < m.blockCount := by
    by_contra hsmall
    simp [Vault.genesis, hcount, Nat.not_lt.mp hsmall] at hopen
  have hdata : ∀ hist n, ∀ y, m.primary = some y → ∀ l, Numbered ringLog2 hist n l (y.data l) := by
    intro hist n y hy l hl x hx
    have hin := Mirror.attached_of_primary hy
    have hlt : l < y.count := hl.trans (hroom.trans_le (Mirror.blockCount_le hin))
    exact absurd hx (classify_unsealed (hblank y hin l hlt) l (some ringLog2) x)
  have hdev := Mirror.attached_of_primary hsess.ready.primary
  set e₀ : SpineEntry H := Vault.genesisEntry ringLog2 (m₁.blockCount - 2 ^ ringLog2) now with he₀
  have hfirst : Numbered ringLog2 (fun _ => e₀) 1 0 e₀.encode := by
    intro _ x hx
    rw [eq_of_classify_encode hx]
    exact ⟨Nat.one_pos, rfl⟩
  have hscribed : m₁.Scribed (Numbered ringLog2 (fun _ => e₀) 1) (2 ^ ringLog2) := by
    have hnew := hm.attached d hdev
    constructor
    · refine ⟨d, by rw [Mirror.primary, ha₁, hb₁]; exact hsess.ready.primary, ?_⟩
      constructor
      · exact hsess.ready.script
      · exact hroom.le.trans (Mirror.blockCount_le hdev)
      · intro l b hb
        rw [hnew] at hb
        exact absurd hb (List.not_mem_nil)
      · exact hdata _ _ d hsess.ready.primary
    · intro x hx
      rw [Mirror.staged, hpend₁, (Mirror.fromParts_fields hm.parts).1] at hx
      exact absurd hx (by simp)
  have hend := (genesis_scribed legible_numbered hfirst hscribed).of_ok hopen
  have hhead : e = e₀ := by
    obtain ⟨y, hy, hs⟩ := hend.primary
    obtain rfl : d' = y := Option.some.inj (huse.attached.ready.primary.symm.trans hy)
    have hgen : e.gen = 0 := by rw [hfresh.entry]; rfl
    have hslot : d'.data 0 = e.encode := by
      have hhead := huse.sound.spine.head
      rwa [hgen, Nat.zero_mod] at hhead
    have hvalid := classify_encode huse.sound.spine.fits.sane huse.sound.spine.fits.log2 h₁ h₂
    rw [hgen, Nat.zero_mod] at hvalid
    exact ((hs.data 0 (Nat.two_pow_pos _) e (by rw [hslot]; exact hvalid)).2).symm
  refine ⟨_, fun _ => e₀, 1, ?_, hdata _ _, ?_, hend, ⟨huse.base, le_rfl⟩, huse.ringLog2, huse.ringBase, ?_, huse.root⟩
  · constructor
    · exact fun _ _ => hhead ▸ huse.sound.spine.fits
    · exact fun _ _ => le_rfl
    · exact fun _ _ => le_rfl
  · constructor
    · intro g hg
      rw [Nat.lt_one_iff.mp hg]
      rfl
    · exact fun _ => rfl
    · intro g hg
      omega
  · rw [huse.headEntry, hhead]
    rfl

/-- A vault whose index is walked has the history of what it was opened on, as far as the head found. -/
theorem ledger_walked {d : Dev H} {e : SpineEntry H} {T : Tree H} (hparts : Mirror.fromParts m.a m.b = .ok m)
    (hsess : Session m m d m.blockCount) (hsound : Sound r d.image e T) (hneed : 2 ^ r + e.tractBlocks ≤ m.blockCount)
    (hnew : d.log = []) (hhist : Chronicle hist n) (hasc : Ascending r hist n) (hdata : ∀ l, Numbered r hist n l (d.data l)) (w : Walk H) :
    Roomy (Vault.Ledger (Ascending r) r m) (Vault.walked m r e w) := by
  have hroom : 2 ^ r ≤ d.count := by
    have hle := hsess.room_primary
    omega
  have hhead : e.gen < n ∧ hist e.gen = e := by
    apply hdata (e.gen % 2 ^ r) (Nat.mod_lt _ (Nat.two_pow_pos r))
    rw [show d.data (e.gen % 2 ^ r) = e.encode from hsound.spine.head]
    exact classify_encode hsound.spine.fits.sane hsound.spine.fits.log2 hsound.spine.fits.one_le hsound.spine.fits.le
  have hcut : ∀ l, Numbered r hist (e.gen + 1) l (d.data l) := by
    intro l hl x hx
    obtain ⟨-, -, hle, -⟩ := hsound.spine.slot_gen hl hx
    exact ⟨Nat.lt_succ_of_le hle, (hdata l hl x hx).2⟩
  have hpend := (Mirror.fromParts_fields hparts).1
  refine ⟨_, hist, e.gen + 1, hasc.take hhead.1, ?_, hhist.take hhead.1,
    ⟨⟨d, hsess.ready.primary, hsess.ready.script, hroom, ?_, hcut⟩, ?_⟩, ⟨rfl, le_rfl⟩, rfl, rfl, ?_, rfl⟩
  · intro y hy
    obtain rfl : d = y := Option.some.inj (hsess.ready.primary.symm.trans hy)
    exact hcut
  · intro l b hb
    rw [hnew] at hb
    exact absurd hb (List.not_mem_nil)
  · intro x hx
    simp [Vault.walked, Vault.unsettled, Mirror.staged, hpend] at hx
  · rw [newest, hhead.2]
    rfl

/-! ### The runs -/

section Runs

variable {v : Vault H} {d : Dev H} {e : SpineEntry H} {T C : Tree H}

/-- A vault without a root entry, `o` its newest generation. -/
def Vault.Tops (base : Nat) (o : Option (SpineEntry H)) : Nat → Vault H → Prop :=
  Aboard base (fun _ _ => True) fun _ _ head root => head = o ∧ root = none

theorem rigged_tops (base : Nat) (o : Option (SpineEntry H)) : Rigged base (Vault.Tops base o) := by
  have hany : ∀ {α : Type} (x : Prog Error (Mirror H) α), Steady (fun _ => True) x := by
    intro α x m _
    unfold Sat
    split <;> trivial
  have hdeck : Deck (H := H) 0 fun _ _ => True := by
    constructor
    · exact fun _ => hany _
    · exact fun _ => hany _
    · exact fun _ _ => hany _
    · exact fun _ => hany _
    · exact fun _ => hany _
    · exact fun _ _ => trivial
    · exact fun _ _ _ _ => trivial
    · exact fun _ => hany _
    · exact fun _ hm => hany _ _ hm
  exact hdeck.rigged (Nat.zero_le _)

/-- A vault whose newest generation is `e` or the one after. -/
def Vault.Nears (base : Nat) (e : SpineEntry H) (v : Vault H) : Prop :=
  Roomy (Vault.Tops base (some e)) v ∨ ∃ y, Roomy (Vault.Tops base (some y)) v ∧ y.gen = e.gen + 1

/-- An append, and then what keeps the spine. -/
theorem Vault.Tops.append {base c : Nat} (h : Vault.Tops base (some e) c v) (entry : SpineEntry H)
    {rest : Unit → Prog Error (Vault H) Unit} (hrest : Steady (Vault.Tops base (some entry) c) (rest ())) :
    Sat (Vault.onRing (Ring.append entry) >>= rest) v (fun _ v' => v'.Nears base e) fun _ v' => v'.Nears base e := by
  by_cases hc : v.ring.Chains entry
  · have hgen : entry.gen = e.gen + 1 := by
      have hlink := hc.2
      rw [h.2.2.1] at hlink
      exact hlink.1
    have hrun : Sat (Vault.onRing (Ring.append entry)) v (fun _ v' => Vault.Tops base (some entry) c v') fun _ v' => v'.Nears base e := by
      unfold Sat
      rw [Vault.onRing, zoom_run, Ring.append_eq hc]
      simp only [Ring.onMirror, bind_run, zoom_run]
      rcases (Mirror.writeVerified (v.ring.base + entry.gen % v.ring.n) entry.encode).run v.ring.mirror with ⟨_ | _, m'⟩
      · exact .inl ⟨c, trivial, h.2.1, h.2.2⟩
      · exact ⟨trivial, h.2.1, rfl, h.2.2.2⟩
    apply sat_bind hrun
    intro _ v₁ h₁
    exact (hrest v₁ h₁).mono (fun _ _ h' => .inr ⟨entry, ⟨c, h'⟩, hgen⟩) fun _ _ h' => .inr ⟨entry, ⟨c, h'⟩, hgen⟩
  · obtain ⟨err, hrun⟩ := Ring.append_run_of_not hc
    unfold Sat
    rw [bind_run, Vault.onRing, zoom_run, hrun]
    exact .inl ⟨c, h⟩

/-- A step appends one generation at most. -/
theorem Step.head_after (huse : InUse m k (fun _ => True) r v d e T C) (x : Step) :
    (x.after v).ring.headEntry = some e ∨ ∃ y, (x.after v).ring.headEntry = some y ∧ y.gen = e.gen + 1 := by
  have hrigged := fun o : Option (SpineEntry H) => rigged_tops (2 ^ r) o
  have htops : Vault.Tops (2 ^ r) (some e) (2 ^ r + v.tract.len) v := ⟨trivial, ⟨huse.base, le_rfl⟩, huse.headEntry, huse.root⟩
  have hquiet : ∀ {α : Type} {x : Prog Error (Vault H) α} {u : Vault H} {c : Nat}, Steady (Vault.Tops (2 ^ r) (some e) c) x →
      Vault.Tops (2 ^ r) (some e) c u → Sat x u (fun _ v' => Vault.Tops (2 ^ r) (some e) c v') fun _ v' => v'.Nears (2 ^ r) e :=
    fun hx hu => (hx _ hu).mono (fun _ _ hv => hv) fun _ _ hv => .inl ⟨_, hv⟩
  have hsat : Sat x.prog v (fun _ v' => v'.Nears (2 ^ r) e) fun _ v' => v'.Nears (2 ^ r) e := by
    cases x with
    | commit now =>
      apply sat_bind (hquiet (hrigged _).flushOnce htops)
      intro root v₁ h₁
      apply sat_bind (hquiet (hrigged _).retireReap h₁)
      intro _ v₂ h₂
      apply sat_bind (hquiet ((hrigged _).headOr _) h₂)
      intro head v₃ h₃
      apply sat_state
      apply h₃.append
      apply (hrigged _).refence.bind
      intro _ u hu
      apply sat_state
      rw [hu.2.2.2]
      exact sat_pure hu
    | beat now =>
      apply sat_bind (hquiet ((hrigged _).headOr _) htops)
      intro head v₁ h₁
      apply sat_state
      exact h₁.append _ (hrigged _).refence
    | _ =>
      refine ((hrigged (some e)).quiet ?_ ?_ v ⟨_, htops⟩).mono (fun _ _ h' => .inl h') fun _ _ h' => .inl h' <;>
        exact fun _ heq => by cases heq
  cases hsat.final with
  | inl h =>
    obtain ⟨c, h⟩ := h
    exact .inl h.2.2.1
  | inr h =>
    obtain ⟨y, ⟨c, h⟩, hgen⟩ := h
    exact .inr ⟨y, h.2.2.1, hgen⟩

/-- The generation `e` and whatever is behind it. -/
structure Scene.Past (e : SpineEntry H) (x : Scene H) : Prop where
  plow : e.plow ≤ x.entry.plow
  blocks : e.tractBlocks ≤ x.entry.tractBlocks
  ahead : x.entry.plow ≤ x.vault.tract.plow

theorem Scene.Past.move {x y : Scene H} (hx : x.Used m k (fun _ => True) r) (h : Move Freely r x y) (hpast : x.Past e) : y.Past e := by
  cases h with
  | edit hs _ => exact ⟨hpast.plow, hpast.blocks, hpast.ahead.trans hs.onward⟩
  | stage _ hs _ _ => exact ⟨hpast.plow, hpast.blocks, hpast.ahead.trans hs.onward⟩
  | beat _ _ _ hplow _ hlen => exact ⟨hplow ▸ hpast.plow, hlen ▸ hpast.blocks, hplow ▸ hpast.ahead⟩
  | land _ _ _ hplow _ hlen _ =>
    exact ⟨hplow ▸ hpast.plow.trans hpast.ahead, hlen ▸ hpast.blocks.trans hx.len, hplow.le⟩
  | refence => exact ⟨hpast.plow, hpast.blocks, hpast.ahead⟩
  | waive _ => exact ⟨hpast.plow, hpast.blocks, hpast.ahead⟩
  | reload => exact ⟨hpast.plow, hpast.blocks, hpast.ahead⟩
  | drain _ _ _ => exact ⟨hpast.plow, hpast.blocks, hpast.ahead⟩
  | realign _ _ _ _ => exact ⟨hpast.plow, hpast.blocks, Nat.le_add_right _ _⟩

/-- A vault in use with ascending generations on its ring, the newest not ahead of the plow. -/
def Vault.Ascends (r : Nat) (m : Mirror H) (k : Nat) (v : Vault H) : Prop :=
  (∃ d e T C, InUse m k (fun _ => True) r v d e T C ∧ e.plow ≤ v.tract.plow) ∧ Roomy (Vault.Ledger (Ascending r) r m) v

/-- One step, whatever it returns. -/
theorem Vault.Ascends.step (h : v.Ascends r m k) (x : Step) : (x.after v).Ascends r m k := by
  obtain ⟨⟨d, e, T, C, huse, hahead⟩, c, hist, n, hasc, hfirst, hhist, hlog⟩ := h
  obtain ⟨⟨v', d', e', T', C'⟩, rfl, huse', hmoves⟩ := huse.step_leads (G := Freely) (x := x) trivial
  have hpast : (⟨x.after v, d', e', T', C'⟩ : Scene H).Past e :=
    (hmoves.keep (fun hx hm _ hp => Scene.Past.move hx hm hp) huse ⟨le_rfl, le_rfl, hahead⟩).1
  -- the history goes on from where it was
  have hhelm : Helm (H := H) (2 ^ r) (Vault.Ledger (fun hist' n' => n ≤ n' ∧ ∀ g < n, hist' g = hist g) r m) := by
    apply helm_ledger
    intro hist' n' y hk
    refine ⟨hk.1.trans (Nat.le_succ _), fun g hg => ?_⟩
    have hne : g ≠ n' := by omega
    rw [Function.update_of_ne hne]
    exact hk.2 g hg
  have hgo := (hhelm.step x).after ⟨c, hist, n, ⟨le_rfl, fun _ _ => rfl⟩, hfirst, hhist, hlog⟩
  obtain ⟨c', hist', n', ⟨hle, hsame⟩, hfirst', hhist', hlog'⟩ := hgo
  have hhead : some e = newest hist n := huse.headEntry.symm.trans (hlog.ring hhist).head
  have hhead' : some e' = newest hist' n' := huse'.headEntry.symm.trans (hlog'.ring hhist').head
  rcases n with _ | g
  · cases hhead
  rcases n' with _ | g'
  · cases hhead'
  obtain rfl : e = hist g := Option.some.inj hhead
  obtain rfl : e' = hist' g' := Option.some.inj hhead'
  have hgen : (hist g).gen = g := hhist.gen g (Nat.lt_succ_self g)
  have hgen' : (hist' g').gen = g' := hhist'.gen g' (Nat.lt_succ_self g')
  refine ⟨⟨d', _, T', C', huse', hpast.ahead⟩, c', hist', g' + 1, ?_, hfirst', hhist', hlog'⟩
  have hone : g' = g ∨ g' = g + 1 := by
    have hafter : (x.after v).ring.headEntry = some (hist' g') := huse'.headEntry
    rcases Step.head_after huse x with hstill | ⟨y, hnext, hy⟩
    · rw [hafter] at hstill
      have heq := congrArg SpineEntry.gen (Option.some.inj hstill)
      omega
    · rw [hafter] at hnext
      have heq := congrArg SpineEntry.gen (Option.some.inj hnext)
      omega
  have hkept := hasc.congr hsame
  rcases hone with rfl | rfl
  · exact hkept
  · apply hkept.snoc huse'.sound.spine.fits
    · rw [hsame g (Nat.lt_succ_self g)]
      exact hpast.plow
    · rw [hsame g (Nat.lt_succ_self g)]
      exact hpast.blocks

theorem Vault.Ascends.exec (h : v.Ascends r m k) (xs : List Step) : (Manifestus.exec xs v).Ascends r m k := by
  induction xs generalizing v with
  | nil => exact h
  | cons x xs ih => exact ih (h.step x)

/-- The end of an open is a list of steps. -/
theorem Stepwise.wake : Stepwise (Vault.wake (H := H)) v := by
  apply bind (step .refence)
  intro _ u
  apply state
  apply ite
  · apply bind (attempt (rescueNow _))
    intro res w
    rcases res with err | _
    · cases err with
      | tractFull =>
        apply state
        apply bind (attempt (growNow _ _))
        exact fun _ _ => pure _
      | _ => exact pure _
    · exact pure _
  · exact pure _

/-- A vault opened on one is steps from where its index is walked. -/
theorem ascends_opened {ringLog2 : Nat} {now : Int} {m' : Mirror H} (hparts : Mirror.fromParts m.a m.b = .ok m)
    (hsess : Session m m d m.blockCount) (hsound : Sound r d.image e T) (hneed : 2 ^ r + e.tractBlocks ≤ m.blockCount)
    (hnew : d.log = []) (hhist : Chronicle hist n) (hasc : Ascending r hist n) (hdata : ∀ l, Numbered r hist n l (d.data l))
    (hopen : (Vault.open ringLog2 now .unlinkOnly).run m = (.ok v, m')) : v.Ascends r m 0 := by
  obtain ⟨w, huse, -, hwake⟩ := open_walked (fun _ => True) hparts hsess hsound hneed trivial ringLog2 now
  have hkeeps := serves_keeps m 0 (fun _ => True) r
  have hserves : Sat Vault.wake (Vault.walked m r e w) (fun _ u => Serves m 0 (fun _ => True) r u T.map T.map) fun _ _ => False := by
    apply sat_bind (hkeeps.refence ⟨d, e, T, T, huse, rfl, rfl⟩)
    intro _ v₁ h₁
    apply sat_state
    split
    · exact (hkeeps.rescues (c := T.map) trivial).unwedge_sat _ h₁
    · exact sat_pure h₁
  have hstart : (Vault.walked m r e w).Ascends r m 0 :=
    ⟨⟨d, e, T, T, huse, le_rfl⟩, ledger_walked hparts hsess hsound hneed hnew hhist hasc hdata w⟩
  obtain ⟨u, hrun, hu⟩ : ∃ u, (Vault.open ringLog2 now .unlinkOnly).run m = (.ok u, u.ring.mirror) ∧ u.Ascends r m 0 := by
    apply hwake
    apply hserves.self.mono
    · intro _ u hu
      obtain ⟨xs, hxs⟩ := Stepwise.wake (v := Vault.walked m r e w)
      rw [hu.2, hxs]
      exact hstart.exec xs
    · exact fun _ _ hf => hf.1
  rw [hrun] at hopen
  cases hopen
  exact hu

/-- Every vault under way is in use and its generations ascend. -/
theorem Reached.ascends (h : Reached m k v) : ∃ r, v.Ascends r m k := by
  induction h with
  | @start m m' v ringLog2 now hm hblank h₁ h₂ hopen =>
    obtain ⟨d, hsess⟩ := hm.session
    obtain ⟨-, d', e, huse, hfresh⟩ := open_blank hm.parts hsess hblank h₁ h₂ hopen
    have hplow : e.plow ≤ v.tract.plow := by
      rw [hfresh.entry]
      exact Nat.zero_le _
    exact ⟨ringLog2, ⟨d', e, .empty, .empty, huse.restart (fun _ => True) trivial, hplow⟩, ledger_start hm hblank h₁ h₂ hopen⟩
  | step h x ih =>
    obtain ⟨r, hv⟩ := ih
    exact ⟨r, hv.step x⟩
  | @reopen m m' k v v' ringLog2 now h hopen ih =>
    obtain ⟨r, ⟨d, e, T, C, huse, -⟩, c, hist, n, hasc, -, hhist, hkept⟩ := ih
    obtain ⟨herr, hsess, hcount⟩ := huse.attached.toSession.reattach
    have hneed : 2 ^ r + e.tractBlocks ≤ v.ring.mirror.reattach.blockCount := (Nat.add_le_add_left huse.len _).trans hcount
    have hlog := hkept.ring hhist
    obtain ⟨y, hy, hs⟩ := hlog.scribed.primary
    obtain rfl : d = y := Option.some.inj (huse.attached.ready.primary.symm.trans hy)
    exact ⟨r, ascends_opened herr.parts hsess huse.sound hneed rfl hlog.history hasc hs.data hopen⟩
  | @crash m m₁ m₂ k v v' ringLog2 now h hcrash hopen ih =>
    obtain ⟨r, ⟨d, e, T, C, huse, -⟩, c, hist, n, hasc, hfirst, hhist, hkept⟩ := ih
    obtain ⟨d₁, hsess, e₁, T₁, hsound, hneed, -⟩ := huse.attached.covers m₁ hcrash
    have hlog := hkept.ring hhist
    obtain ⟨hnew, hleft⟩ := hlog.scribed.crash legible_numbered huse.attached.toSession hfirst hcrash hsess.ready.primary
    exact ⟨r, ascends_opened hcrash.1 hsess hsound hneed hnew hlog.history hasc hleft hopen⟩

/-- The ring of every vault under way has one history, and it ascends. -/
theorem Reached.ledger (h : Reached m k v) :
    Roomy (Vault.Ledger (Ascending v.ring.ringLog2) v.ring.ringLog2 m) v := by
  obtain ⟨r, ⟨d, e, T, C, huse, -⟩, hledger⟩ := h.ascends
  exact huse.ringLog2 ▸ hledger

end Runs

end Manifestus
