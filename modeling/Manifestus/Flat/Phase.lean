import Manifestus.Flat.Mirror
import Manifestus.Flat.Crash

/-! Sessions on the devices of a mirror: what a power loss may leave, and what holds of it after
each write phase. -/
set_option linter.unusedSectionVars false

namespace Manifestus
open Prog

variable {H : Type} [Crates H] {m₀ m m' : Mirror H} {d : Dev H} {n k : Nat}

/-- What a power loss after `ops` leaves of a device, attached again. -/
def Leaves : Option (Dev H) → List (DevOp H) → Option (Dev H) → Prop
  | none, _, o => o = none
  | some d, ops, o => ∃ j, d.image.Survives ops j ∧ o = some (j.dev d.limit)

namespace Mirror

/-- What reached the first device. -/
def logA (m : Mirror H) : List (DevOp H) := (m.a.map Dev.log).getD []

/-- What reached the second device, also after it was given up. -/
def logB (m : Mirror H) : List (DevOp H) := ((m.b <|> m.dropped).map Dev.log).getD []

/-- Two marks in a row from number `k` on; the last one stands twice. -/
def Between (m : Mirror H) (k : Nat) (lo hi : Nat × Nat) : Prop :=
  ∃ i, k ≤ i ∧ ((0, 0) :: m.marks)[i]? = some lo ∧ hi = (m.marks[i]?).getD lo

/-- `m'` is what a power loss at or after mark `k` leaves of the session from `m₀` to `m`: each device
stopped somewhere between two marks, kept what it had flushed, and lost or tore what it liked of
the rest. -/
def Crashes (m₀ : Mirror H) (k : Nat) (m m' : Mirror H) : Prop :=
  Mirror.fromParts m'.a m'.b = .ok m' ∧ ∃ lo hi la lb, m.Between k lo hi ∧
    la <+: m.logA ∧ lo.1 ≤ la.length ∧ la.length ≤ hi.1 ∧ Leaves m₀.a la m'.a ∧
    lb <+: m.logB ∧ lo.2 ≤ lb.length ∧ lb.length ≤ hi.2 ∧ Leaves m₀.b lb m'.b

/-- The marks end where the logs do. -/
structure Marked (m : Mirror H) : Prop where
  within : ∀ x ∈ m.marks, x.1 ≤ m.logA.length ∧ x.2 ≤ m.logB.length
  last : m.marks.getLast?.getD (0, 0) = (m.logA.length, m.logB.length)

end Mirror

/-- A device and what it was at the start of the session. -/
inductive Follows : Option (Dev H) → Option (Dev H) → Prop where
  | none : Follows none none
  | some {d₀ d : Dev H} (image : d.image = d₀.image.after d.log) (quiet : Quiet d.log)
      (limit : d.limit = d₀.limit) (script : d.script = []) : Follows (some d₀) (some d)

/-- A mirror in a session, all of its devices without fault and of at least `n` blocks. The second
device accepts every capacity the first accepts. -/
structure Session (m₀ m : Mirror H) (d : Dev H) (n : Nat) : Prop where
  ready : m.Ready d
  dropped : m.dropped = none
  a : Follows m₀.a m.a
  b : Follows m₀.b m.b
  room : ∀ x, m.a = some x ∨ m.b = some x → n ≤ x.count
  accepts : ∀ x y c, m.a = some x → m.b = some y → x.Accepts c → y.Accepts c
  marked : m.Marked

/-- What a power loss since mark `k` leaves of the session can be attached again and satisfies `Q`,
which is told the capacity of the smaller device and the contents of the first. -/
structure Attached (m₀ : Mirror H) (k : Nat) (Q : Nat → Image H → Prop) (m : Mirror H) (d : Dev H) (n : Nat) : Prop
    extends Session m₀ m d n where
  covers : ∀ m', m₀.Crashes k m m' → ∃ d', Session m' m' d' m'.blockCount ∧ Q m'.blockCount d'.image

/-- What a write phase does to a device. -/
structure Phase (f : Dev H → Dev H) (ops : Dev H → List (DevOp H)) (n : Nat) (d : Dev H) : Prop where
  log : (f d).log = d.log ++ ops d
  image : (f d).image = d.image.after (ops d)
  quiet : Quiet d.log → Quiet (f d).log
  limit : (f d).limit = d.limit
  script : (f d).script = d.script
  room : ∀ rest, rest <+: ops d → n ≤ (d.image.after rest).count
  grows : ∀ rest, rest <+: ops d → d.count ≤ (d.image.after rest).count
  accepts : ∀ rest, rest <+: ops d → ∀ c, ((d.image.after rest).dev d.limit).Accepts c → d.Accepts c

/-- The mirror after every device went through a phase. -/
structure Through (f : Dev H → Dev H) (m m' : Mirror H) : Prop where
  a : m'.a = m.a.map f
  b : m'.b = m.b.map f
  dropped : m'.dropped = m.dropped
  events : m'.events = m.events
  marks : ∃ ms, m'.marks = m.marks ++ ms ∧
    (∀ x ∈ ms, m.logA.length ≤ x.1 ∧ x.1 ≤ m'.logA.length ∧ m.logB.length ≤ x.2 ∧ x.2 ≤ m'.logB.length) ∧
    ms.getLast?.getD (m.logA.length, m.logB.length) = (m'.logA.length, m'.logB.length)

@[simp] theorem Image.dev_image (j : Image H) (limit : Option Nat) : (j.dev limit).image = j := rfl

namespace Mirror

theorem logB_eq (h : m.dropped = none) : m.logB = (m.b.map Dev.log).getD [] := by
  rw [logB, h]
  rcases m.b with _ | b <;> rfl

end Mirror

/-- A prefix of a longer log that is not in the shorter one extends it. -/
private theorem prefix_of_le {α : Type} {l log ops : List α} (h : l <+: log ++ ops) (hle : log.length ≤ l.length) :
    ∃ rest, rest <+: ops ∧ l = log ++ rest := by
  have hlog : log <+: l := List.prefix_of_prefix_length_le (List.prefix_append log ops) h hle
  obtain ⟨rest, rfl⟩ := hlog
  exact ⟨rest, (List.prefix_append_right_inj log).mp h, rfl⟩

/-- What a cut inside a phase leaves of one device. -/
private theorem Leaves.cut {f : Dev H → Dev H} {ops : Dev H → List (DevOp H)} {o₀ o o' : Option (Dev H)}
    {l : List (DevOp H)} (hfol : Follows o₀ o) (hph : ∀ x, o = some x → Phase f ops n x)
    (hl : l <+: ((o.map f).map Dev.log).getD []) (hle : ((o.map Dev.log).getD []).length ≤ l.length)
    (h : Leaves o₀ l o') :
    (o = none ∧ o' = none) ∨ ∃ d₀ d j rest, o₀ = some d₀ ∧ o = some d ∧ rest <+: ops d ∧
      d₀.image.Survives (d.log ++ rest) j ∧ o' = some (j.dev d.limit) ∧ j.count = (d.image.after rest).count := by
  cases hfol with
  | none => exact .inl ⟨rfl, h⟩
  | @some d₀ d himage hquiet hlimit hscript =>
    obtain ⟨j, hj, ho'⟩ := h
    have hphase := hph d rfl
    simp only [Option.map_some, Option.getD_some] at hl hle
    rw [hphase.log] at hl
    obtain ⟨rest, hrest, rfl⟩ := prefix_of_le hl hle
    refine .inr ⟨d₀, d, j, rest, rfl, rfl, hrest, hj, by rw [ho', hlimit], ?_⟩
    obtain ⟨-, -, -, -, hcount, -⟩ := hj
    rw [hcount, Image.after_append, ← himage]

/-- Devices newly attached start a session. -/
theorem Session.fresh (hparts : Mirror.fromParts m.a m.b = .ok m) (hprim : m.primary = some d)
    (hnew : ∀ x, m.a = some x ∨ m.b = some x → x.script = [] ∧ x.log = [] ∧ n ≤ x.count)
    (hacc : ∀ x y c, m.a = some x → m.b = some y → x.Accepts c → y.Accepts c) : Session m m d n := by
  have hm : m = ⟨m.a, m.b, m.a.isNone || m.b.isNone, [], [], [], 0, none, []⟩ := by
    unfold Mirror.fromParts at hparts
    split at hparts
    · cases hparts
    · exact (Except.ok.inj hparts).symm
  have hself : ∀ o : Option (Dev H), (∀ x, o = some x → x.script = [] ∧ x.log = [] ∧ n ≤ x.count) → Follows o o := by
    intro o ho
    rcases o with _ | x
    · exact .none
    · obtain ⟨hscript, hlog, -⟩ := ho x rfl
      exact .some (by rw [hlog]; rfl) (by rw [hlog]; exact quiet_nil) rfl hscript
  have hdev : m.a = some d ∨ m.b = some d := by
    rcases ha : m.a with _ | a
    · rw [Mirror.primary, ha, Option.none_or] at hprim
      exact .inr hprim
    · rw [Mirror.primary, ha, Option.some_or] at hprim
      exact .inl hprim
  have hlogs : ∀ o : Option (Dev H), (∀ x, o = some x → x.script = [] ∧ x.log = [] ∧ n ≤ x.count) →
      ((o.map Dev.log).getD []) = [] := by
    intro o ho
    rcases o with _ | x
    · rfl
    · exact (ho x rfl).2.1
  have hdropped : m.dropped = none := by rw [hm]
  have hmarks : m.marks = [] := by rw [hm]
  have hlogA : m.logA = [] := hlogs m.a fun x hx => hnew x (.inl hx)
  have hlogB : m.logB = [] := (Mirror.logB_eq hdropped).trans (hlogs m.b fun x hx => hnew x (.inr hx))
  exact
    { ready := ⟨hprim, (hnew d hdev).1, by rw [hm]; simp [Mirror.staged], by rw [hm]; simp⟩
      dropped := hdropped
      a := hself m.a fun x hx => hnew x (.inl hx)
      b := hself m.b fun x hx => hnew x (.inr hx)
      room := fun x hx => (hnew x hx).2.2
      accepts := hacc
      marked := ⟨by rw [hmarks]; simp, by rw [hmarks, hlogA, hlogB]; rfl⟩ }

namespace Session

variable {f : Dev H → Dev H} {ops : Dev H → List (DevOp H)} (h : Session m₀ m d n) (ht : Through f m m')
include h ht

theorem logA_through : m'.logA = ((m.a.map f).map Dev.log).getD [] := by rw [Mirror.logA, ht.a]

theorem logB_through : m'.logB = ((m.b.map f).map Dev.log).getD [] := by
  rw [Mirror.logB_eq (ht.dropped.trans h.dropped), ht.b]

variable (hph : ∀ x, m.a = some x ∨ m.b = some x → Phase f ops n x)
include hph

/-- The logs only grow. -/
theorem logs_through : m.logA <+: m'.logA ∧ m.logB <+: m'.logB := by
  have hgrows : ∀ {o : Option (Dev H)}, (∀ x, o = some x → Phase f ops n x) →
      (o.map Dev.log).getD [] <+: ((o.map f).map Dev.log).getD [] := by
    intro o hx
    rcases o with _ | x
    · exact List.prefix_refl _
    · simp only [Option.map_some, Option.getD_some, (hx x rfl).log]
      exact List.prefix_append _ _
  rw [h.logA_through ht, h.logB_through ht, Mirror.logB_eq h.dropped]
  exact ⟨hgrows fun x hx => hph x (.inl hx), hgrows fun x hx => hph x (.inr hx)⟩

/-- Every device of the mirror goes through a phase. -/
theorem phase (hready : m'.Ready (f d)) : Session m₀ m' (f d) n := by
  obtain ⟨ms, hmarks, hms, hlast⟩ := ht.marks
  obtain ⟨hgrowsA, hgrowsB⟩ := h.logs_through ht hph
  have hfollows : ∀ {o₀ o : Option (Dev H)}, Follows o₀ o → (∀ x, o = some x → Phase f ops n x) →
      Follows o₀ (o.map f) := by
    intro o₀ o hfol hx
    cases hfol with
    | none => exact .none
    | @some d₀ x himage hquiet hlimit hscript =>
      have hphase := hx x rfl
      refine .some ?_ (hphase.quiet hquiet) (hphase.limit.trans hlimit) (hphase.script.trans hscript)
      rw [hphase.image, hphase.log, Image.after_append, himage]
  refine
    { ready := hready
      dropped := ht.dropped.trans h.dropped
      a := by rw [ht.a]; exact hfollows h.a fun x hx => hph x (.inl hx)
      b := by rw [ht.b]; exact hfollows h.b fun x hx => hph x (.inr hx)
      room := ?_
      accepts := ?_
      marked := ⟨?_, ?_⟩ }
  · have hroom : ∀ x, Phase f ops n x → n ≤ (f x).count := by
      intro x hx
      have hr := hx.room (ops x) (List.prefix_refl _)
      rw [← hx.image] at hr
      exact hr
    intro x hx
    rw [ht.a, ht.b, Option.map_eq_some_iff, Option.map_eq_some_iff] at hx
    rcases hx with ⟨y, hy, rfl⟩ | ⟨y, hy, rfl⟩
    · exact hroom y (hph y (.inl hy))
    · exact hroom y (hph y (.inr hy))
  · intro x y c hx hy hc
    rw [ht.a, Option.map_eq_some_iff] at hx
    rw [ht.b, Option.map_eq_some_iff] at hy
    obtain ⟨x, hx, rfl⟩ := hx
    obtain ⟨y, hy, rfl⟩ := hy
    have hpx := hph x (.inl hx)
    have hpy := hph y (.inr hy)
    have hxc : x.Accepts c := by
      refine hpx.accepts (ops x) (List.prefix_refl _) c ?_
      rw [← hpx.image]
      obtain ⟨l, hl, hle⟩ := hc
      exact ⟨l, hpx.limit ▸ hl, hle⟩
    obtain ⟨l, hl, hle⟩ := h.accepts x y c hx hy hxc
    have hgrow := hpy.grows (ops y) (List.prefix_refl _)
    rw [← hpy.image] at hgrow
    exact ⟨l, hpy.limit.trans hl, hle.imp_left fun hle => hle.trans hgrow⟩
  · intro x hx
    rw [hmarks, List.mem_append] at hx
    rcases hx with hx | hx
    · obtain ⟨h₁, h₂⟩ := h.marked.within x hx
      exact ⟨h₁.trans hgrowsA.length_le, h₂.trans hgrowsB.length_le⟩
    · obtain ⟨-, h₁, -, h₂⟩ := hms x hx
      exact ⟨h₁, h₂⟩
  · rw [hmarks, List.getLast?_append]
    rcases hl : ms.getLast? with _ | x
    · rw [hl, Option.getD_none] at hlast
      rw [Option.none_or, h.marked.last, hlast]
    · rw [hl, Option.getD_some] at hlast
      simpa using hlast

/-- A power loss inside a phase, when every cut of the phase leaves a good image. -/
theorem cut {Q : Nat → Image H → Prop} (hQ : ∀ c c' j, c ≤ c' → Q c j → Q c' j)
    (hgood : ∀ (i : Image H) (rest : List (DevOp H)) (j : Image H), d.image = i.after d.log → Quiet d.log →
      rest <+: ops d → i.Survives (d.log ++ rest) j → Q n j) {m'' : Mirror H}
    (hcrash : m₀.Crashes m.marks.length m' m'') :
    ∃ d', Session m'' m'' d' m''.blockCount ∧ Q m''.blockCount d'.image := by
  obtain ⟨ms, hmarks, hms, -⟩ := ht.marks
  obtain ⟨hparts, lo, hi, la, lb, ⟨i, hik, hlo, hhi⟩, hla, hla₁, hla₂, hleaveA, hlb, hlb₁, hlb₂, hleaveB⟩ := hcrash
  have hlow : m.logA.length ≤ lo.1 ∧ m.logB.length ≤ lo.2 := by
    rcases Nat.lt_or_ge m.marks.length i with hlt | hge
    · rw [hmarks, ← List.cons_append, List.getElem?_append_right (by simp; omega)] at hlo
      obtain ⟨h₁, -, h₂, -⟩ := hms lo (List.mem_of_getElem? hlo)
      exact ⟨h₁, h₂⟩
    · obtain rfl : i = m.marks.length := by omega
      have hmark := h.marked.last
      rw [hmarks, ← List.cons_append, List.getElem?_append_left (by simp)] at hlo
      have hlo' : lo = m.marks.getLast?.getD (0, 0) := by
        rcases List.eq_nil_or_concat m.marks with hnil | ⟨l, x, hx⟩
        · rw [hnil] at hlo ⊢
          simpa using hlo.symm
        · rw [hx] at hlo ⊢
          simpa using hlo.symm
      rw [hlo', hmark]
      exact ⟨le_rfl, le_rfl⟩
  rw [h.logA_through ht] at hla
  rw [h.logB_through ht] at hlb
  have hcutA := hleaveA.cut h.a (fun x hx => hph x (.inl hx)) hla
    (by rw [← Mirror.logA]; exact hlow.1.trans hla₁)
  have hcutB := hleaveB.cut h.b (fun x hx => hph x (.inr hx)) hlb
    (by rw [← Mirror.logB_eq h.dropped]; exact hlow.2.trans hlb₁)
  have hprim := h.ready.primary
  rcases hcutA with ⟨hma, hma''⟩ | ⟨a₀, a, ja, resta, ha₀, ha, hresta, hja, hja', hna⟩
  · rcases hcutB with ⟨hmb, hmb''⟩ | ⟨b₀, b, jb, restb, hb₀, hb, hrestb, hjb, hjb', hnb⟩
    · simp [Mirror.primary, hma, hmb] at hprim
    · obtain rfl : b = d := by simpa [Mirror.primary, hma, hb] using hprim
      have hfol := h.b
      rw [hb₀, hb] at hfol
      have hcount : m''.blockCount = jb.count := by simp [Mirror.blockCount, hma'', hjb', Image.dev]
      have hroom : n ≤ jb.count := hnb ▸ (hph b (.inr hb)).room restb hrestb
      cases hfol with
      | some himage hquiet hlimit hscript =>
        refine ⟨jb.dev b.limit, .fresh hparts (by simp [Mirror.primary, hma'', hjb']) ?_ ?_,
          hQ n _ _ (hcount ▸ hroom) (hgood b₀.image restb jb himage hquiet hrestb hjb)⟩
        · intro x hx
          obtain rfl : jb.dev b.limit = x := by simpa [hma'', hjb'] using hx
          exact ⟨rfl, rfl, hcount.le⟩
        · intro x y c hx
          rw [hma''] at hx
          cases hx
  · obtain rfl : a = d := by simpa [Mirror.primary, ha] using hprim
    have hfol := h.a
    rw [ha₀, ha] at hfol
    have hroomA : n ≤ ja.count := hna ▸ (hph a (.inl ha)).room resta hresta
    cases hfol with
    | some himage hquiet hlimit hscript =>
      have hQja := hgood a₀.image resta ja himage hquiet hresta hja
      rcases hcutB with ⟨hmb, hmb''⟩ | ⟨b₀, b, jb, restb, hb₀, hb, hrestb, hjb, hjb', hnb⟩
      · have hcount : m''.blockCount = ja.count := by simp [Mirror.blockCount, hja', hmb'', Image.dev]
        refine ⟨ja.dev a.limit, .fresh hparts (by simp [Mirror.primary, hja']) ?_ ?_,
          hQ n _ _ (hcount ▸ hroomA) hQja⟩
        · intro x hx
          obtain rfl : ja.dev a.limit = x := by simpa [hmb'', hja'] using hx
          exact ⟨rfl, rfl, hcount.le⟩
        · intro x y c _ hy
          rw [hmb''] at hy
          cases hy
      · have hroomB : n ≤ jb.count := hnb ▸ (hph b (.inr hb)).room restb hrestb
        have hcount : m''.blockCount = min ja.count jb.count := by
          simp [Mirror.blockCount, hja', hjb', Image.dev]
        refine ⟨ja.dev a.limit, .fresh hparts (by simp [Mirror.primary, hja']) ?_ ?_,
          hQ n _ _ (hcount ▸ le_min hroomA hroomB) hQja⟩
        · intro x hx
          rw [hja', hjb', Option.some.injEq, Option.some.injEq] at hx
          rcases hx with rfl | rfl
          · exact ⟨rfl, rfl, hcount ▸ min_le_left _ _⟩
          · exact ⟨rfl, rfl, hcount ▸ min_le_right _ _⟩
        · intro x y c hx hy hc
          rw [hja', Option.some.injEq] at hx
          rw [hjb', Option.some.injEq] at hy
          subst hx hy
          have hac : a.Accepts c := by
            refine (hph a (.inl ha)).accepts resta hresta c ?_
            obtain ⟨l, hl, hle⟩ := hc
            exact ⟨l, hl, hle.imp_left fun hle => hle.trans_eq hna⟩
          obtain ⟨l, hl, hle⟩ := h.accepts a b c ha hb hac
          have hgrow := (hph b (.inr hb)).grows restb hrestb
          rw [← hnb] at hgrow
          exact ⟨l, hl, hle.imp_left fun hle => hle.trans hgrow⟩

end Session

/-- Every device of the mirror goes through a phase that leaves only good images when it is cut. -/
theorem Attached.phase {Q : Nat → Image H → Prop} (hQ : ∀ c c' j, c ≤ c' → Q c j → Q c' j)
    (h : Attached m₀ k Q m d n) {f : Dev H → Dev H} {ops : Dev H → List (DevOp H)} (ht : Through f m m')
    (hready : m'.Ready (f d)) (hph : ∀ x, m.a = some x ∨ m.b = some x → Phase f ops n x)
    (hgood : ∀ (i : Image H) (rest : List (DevOp H)) (j : Image H), d.image = i.after d.log → Quiet d.log →
      rest <+: ops d → i.Survives (d.log ++ rest) j → Q n j) :
    Attached m₀ k Q m' (f d) n := by
  refine ⟨h.toSession.phase ht hph hready, fun m'' hcrash => ?_⟩
  obtain ⟨ms, hmarks, hms, hlast⟩ := ht.marks
  obtain ⟨hgrowsA, hgrowsB⟩ := h.toSession.logs_through ht hph
  obtain ⟨hparts, lo, hi, la, lb, ⟨i, hik, hlo, hhi⟩, hla, hla₁, hla₂, hleaveA, hlb, hlb₁, hlb₂, hleaveB⟩ := hcrash
  by_cases hold : i < m.marks.length
  · -- a cut before the phase
    have hlo' : ((0, 0) :: m.marks)[i]? = some lo := by
      rw [hmarks, ← List.cons_append, List.getElem?_append_left (by simp; omega)] at hlo
      exact hlo
    have hhi' : m.marks[i]? = some hi := by
      rw [hmarks, List.getElem?_append_left hold, List.getElem?_eq_getElem hold, Option.getD_some] at hhi
      rw [List.getElem?_eq_getElem hold, hhi]
    obtain ⟨hhi₁, hhi₂⟩ := h.marked.within hi (List.mem_of_getElem? hhi')
    exact h.covers m'' ⟨hparts, lo, hi, la, lb, ⟨i, hik, hlo', by rw [hhi']; rfl⟩,
      List.prefix_of_prefix_length_le hla hgrowsA (hla₂.trans hhi₁), hla₁, hla₂, hleaveA,
      List.prefix_of_prefix_length_le hlb hgrowsB (hlb₂.trans hhi₂), hlb₁, hlb₂, hleaveB⟩
  · exact h.toSession.cut ht hph hQ hgood ⟨hparts, lo, hi, la, lb, ⟨i, not_lt.mp hold, hlo, hhi⟩, hla, hla₁, hla₂,
      hleaveA, hlb, hlb₁, hlb₂, hleaveB⟩

end Manifestus
