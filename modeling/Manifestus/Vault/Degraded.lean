import Manifestus.Vault.Secondary

/-! Opening a vault with and without its secondary: a secondary with no less room than the primary does not
show when a vault is opened that the primary holds. -/
set_option linter.unusedSectionVars false

namespace Manifestus
open Prog

variable {H : Type} [Crates H]

/-! ### The head -/

section Search

variable {S : Mirror H → Mirror H → Prop} (hread : ∀ lba, Parallel S (Mirror.read (H := H) lba))
include hread

theorem genAt_parallel (slot : Nat) : Parallel (Ring.Beside S) (Ring.genAt (H := H) slot) := by
  have hmirror : ∀ lba, Parallel (Ring.Beside S) (Ring.onMirror (Mirror.read (H := H) lba)) := fun lba =>
    parallel_part (hread lba) (fun _ _ => rfl) fun _ _ _ => rfl
  exact parallel_view (fun _ _ => rfl) fun _ => (hmirror _).bind fun _ => parallel_pure _

theorem bisect_parallel {both : Nat → Nat → Prog Error (Ring H) (Option (Nat × SpineEntry H))}
    (hboth : ∀ lo hi, Parallel (Ring.Beside S) (both lo hi)) (fuel : Nat) :
    ∀ lo anchor hi, Parallel (Ring.Beside S) (Ring.bisect both fuel lo anchor hi) := by
  induction fuel with
  | zero => exact fun _ _ _ => parallel_pure _
  | succ fuel ih =>
    intro lo anchor hi
    rw [Ring.bisect]
    apply parallel_ite
    · apply (genAt_parallel hread _).bind
      intro c
      split
      · exact (hboth _ _).bind fun _ => (hboth _ _).bind fun _ => parallel_pure _
      · exact ih _ _ _
      · exact parallel_ite (ih _ _ _) (ih _ _ _)
    · exact parallel_pure _

theorem search_parallel (fuel : Nat) : ∀ lo hi, Parallel (Ring.Beside S) (Ring.search (H := H) fuel lo hi) := by
  induction fuel with
  | zero => exact fun _ _ => parallel_pure _
  | succ fuel ih =>
    intro lo hi
    rw [Ring.search]
    apply parallel_ite (parallel_pure _)
    apply (genAt_parallel hread _).bind
    intro c
    split
    · exact ih _ _
    · exact bisect_parallel hread ih fuel _ _ _
    · exact bisect_parallel hread ih fuel _ _ _

/-- The rings opened are the same but for their mirrors. -/
theorem openAt_parallel (ringLog2 base : Nat) :
    Carries Ring.mirror (fun m q => { q with mirror := m }) S S (Ring.openAt (H := H) ringLog2 base) := by
  have hsearch : Parallel (Ring.Beside S) (Ring.headSearch (H := H)) :=
    parallel_view (fun _ _ => rfl) fun _ => search_parallel hread _ _ _
  intro m m' res m₁ hm hrun
  unfold Ring.openAt at hrun ⊢
  dsimp only at hrun ⊢
  rcases hs : Ring.headSearch.run ⟨m, ringLog2, base, none⟩ with ⟨head, q⟩
  obtain ⟨q', ht, m₂, hm₂, rfl⟩ := hsearch.run (t := ⟨m', ringLog2, base, none⟩) ⟨m', hm, rfl⟩ hs
  rw [hs] at hrun
  rw [ht]
  cases head with
  | error e =>
    cases hrun
    exact ⟨m₂, hm₂, rfl, fun _ hq => by cases hq⟩
  | ok head =>
    cases hrun
    exact ⟨m₂, hm₂, rfl, fun _ hq => by cases hq; rfl⟩

theorem openResidence_parallel (root : RootEntry H) :
    Carries Ring.mirror (fun m q => { q with mirror := m }) S S (Vault.openResidence root) := by
  apply (openAt_parallel hread _ _).bind
  · exact fun _ _ hm => hm
  intro q m res m₁ hm hrun
  by_cases hgone : q.head.isNone = true ∧ root.was ≠ root.base
  · rw [if_pos hgone] at hrun ⊢
    exact openAt_parallel hread _ _ hm hrun
  · rw [if_neg hgone] at hrun ⊢
    cases hrun
    exact ⟨m, hm, rfl, fun _ hq => by cases hq; rfl⟩

end Search

/-! ### Room -/

/-- The secondary, where there is one, has no less room than the primary. -/
def Mirror.Roomy (m : Mirror H) : Prop := ∀ a b, m.a = some a → m.b = some b → a.count ≤ b.count

/-- Mirrors on the same primary with secondaries that do not limit it. -/
structure Mirror.SameRoom (m m' : Mirror H) : Prop where
  same : m.SamePrimary m'
  room : m.Roomy
  other : m'.Roomy

theorem read_count (c lba : Nat) : Steady (fun d : Dev H => d.count = c) (Dev.read lba) := by
  apply Steady.bind
  · exact steady_state fun _ => steady_ite (steady_pure _) (steady_fail _)
  intro _
  apply Steady.bind
  · intro d hd
    rcases hs : d.script with _ | ⟨f, rest⟩
    · simp only [Sat, Dev.nextFault, hs]
      exact hd
    · simp only [Sat, Dev.nextFault, hs]
      exact hd
  intro fault
  split
  · exact steady_fail _
  · exact steady_state fun _ => steady_pure _

theorem readRoot_count (c : Nat) : Steady (fun d : Dev H => d.count = c) (readRoot (H := H)) := by
  have hgo : ∀ (slots : List Nat) (best : Option (RootEntry H)), Steady (fun d : Dev H => d.count = c) (readRoot.go best slots) := by
    intro slots
    induction slots with
    | nil => exact fun _ => steady_pure _
    | cons slot rest ih =>
      intro best
      apply (read_count c slot).bind
      intro b
      split
      · exact steady_ite (ih _) (ih _)
      · exact ih _
  exact steady_state fun _ => hgo _ _

namespace Mirror.SameRoom

variable {m m' : Mirror H}

theorem blockCount (h : m.SameRoom m') : m'.blockCount = m.blockCount := by
  obtain ⟨d, hd⟩ := Option.isSome_iff_exists.mp h.same.primary
  have hlone : ∀ {m : Mirror H}, m.a = some d → m.Roomy → m.blockCount = d.count := by
    intro m hd hroom
    unfold Mirror.blockCount
    rcases hb : m.b with _ | b
    · simp only [hd]
    · simp only [hd]
      exact min_eq_left (hroom d b hd hb)
  rw [hlone hd h.room, hlone (h.same.a.trans hd) h.other]

theorem onFirst {α : Type} {x : Prog Error (Dev H) α} (hx : ∀ c, Steady (fun d : Dev H => d.count = c) x) :
    Parallel SameRoom (Mirror.onFirst x) := by
  intro m m' h
  obtain ⟨hres, hafter⟩ := Mirror.SamePrimary.onFirst x m m' h.same
  obtain ⟨d, hd⟩ := Option.isSome_iff_exists.mp h.same.primary
  have hroom : ∀ {m : Mirror H}, m.a = some d → m.Roomy → ((Mirror.onFirst x).run m).2.Roomy := by
    intro m hd hroom a b ha hb
    simp only [Mirror.onFirst, hd, Option.some.injEq] at ha hb
    rw [← ha, (hx d.count).after rfl]
    exact hroom d b hd hb
  exact ⟨hres, hafter, hroom hd h.room, hroom (h.same.a.trans hd) h.other⟩

theorem read (lba : Nat) : Parallel (SameRoom (H := H)) (Mirror.read lba) := by
  apply parallel_state
  · intro m m' h
    rw [Mirror.SamePrimary.buffered.stagedAt h.same]
  · intro m
    split
    · exact parallel_pure _
    · exact onFirst fun c => read_count c lba

theorem rootOf : Parallel (SameRoom (H := H)) Vault.rootOf := by
  have hfirst : ∀ {m : Mirror H}, m.a.isSome → Vault.rootOf.run m = (Mirror.onFirst readRoot).run { m with cache := [] } := by
    intro m hm
    obtain ⟨d, hd⟩ := Option.isSome_iff_exists.mp hm
    simp only [Vault.rootOf, Mirror.devices, bind_run, update_run, state_run, pure_run, hd]
  intro m m' h
  rw [hfirst h.same.primary, hfirst (h.same.a ▸ h.same.primary)]
  apply onFirst readRoot_count
  exact ⟨{ h.same with cache := rfl }, h.room, h.other⟩

theorem bootstrapN : Parallel (SameRoom (H := H)) Ring.bootstrapN := by
  have hprobe : ∀ slots, Parallel (SameRoom (H := H)) (Ring.bootstrapN.probe slots) := by
    intro slots
    induction slots with
    | nil => exact parallel_pure _
    | cons slot rest ih =>
      apply (read slot).bind
      intro b
      split
      · exact parallel_pure _
      · exact ih
  apply parallel_state
  · intro m m' h
    rw [h.blockCount]
  · exact fun _ => hprobe _

end Mirror.SameRoom

/-! ### The opens -/

section Opens

variable {base ringLog2 : Nat} {root : Option (RootEntry H)} {policy : DeletePolicy}

theorem resumeUnsettled_onto {m : Mirror H} {q : Ring H} (hcount : m.blockCount = q.mirror.blockCount) :
    Vault.resumeUnsettled { q with mirror := m } base root policy =
      (Vault.resumeUnsettled q base root policy).map (Vault.onto m) := by
  unfold Vault.resumeUnsettled
  rw [show ({ q with mirror := m } : Ring H).headEntry = q.headEntry from rfl]
  rcases q.headEntry with _ | head
  · rfl
  · dsimp only
    rcases checkedAdd base head.tractBlocks with _ | need
    · rfl
    · dsimp only
      rw [hcount]
      split
      · rfl
      · rfl

theorem resumeUnsettled_mirror {q : Ring H} {v : Vault H} (h : Vault.resumeUnsettled q base root policy = .ok v) :
    v.ring.mirror = q.mirror := by
  unfold Vault.resumeUnsettled at h
  rcases hhead : q.headEntry with _ | head
  · simp [hhead] at h
  · simp only [hhead, checkedAdd] at h
    split at h
    · cases h
    · cases h
      rfl

/-- Opening a vault from mirrors that differ in the secondary. -/
abbrev Opens (x : Prog Error (Mirror H) (Vault H)) : Prop :=
  Carries (fun v => v.ring.mirror) Vault.onto Mirror.SameRoom Mirror.SamePrimary x

/-- A ring opened alike is a vault resumed alike. -/
theorem resumeCommon_opens {x : Prog Error (Mirror H) (Ring H)}
    (hx : Carries Ring.mirror (fun m q => { q with mirror := m }) Mirror.SameRoom Mirror.SameRoom x) :
    Opens (x >>= fun q => Vault.resumeCommon q base root policy) := by
  apply hx.bind fun _ _ h => h.same
  intro q m res m₁ h hrun
  unfold Vault.resumeCommon at hrun ⊢
  rw [bind_run, lift_run] at hrun ⊢
  rw [resumeUnsettled_onto h.blockCount]
  rcases hres : Vault.resumeUnsettled q base root policy with err | v
  · rw [hres] at hrun
    cases hrun
    exact ⟨m, h.same, rfl, fun _ hv => by cases hv⟩
  · rw [hres] at hrun
    have hm : v.ring.mirror.SamePrimary m := resumeUnsettled_mirror hres ▸ h.same
    rcases hsettle : Vault.settle.run v with ⟨rs, w⟩
    obtain ⟨w', hsettle', m₂, hm₂, rfl⟩ := Mirror.SamePrimary.unseen.settle.run (t := v.onto m) ⟨m, hm, rfl⟩ hsettle
    dsimp only [Except.map] at hrun ⊢
    rw [bind_run] at hrun ⊢
    unfold Vault.launch at hrun ⊢
    simp only [hsettle] at hrun
    simp only [hsettle']
    cases rs with
    | error err =>
      cases hrun
      exact ⟨m₂, hm₂, rfl, fun _ hv => by cases hv⟩
    | ok _ =>
      cases hrun
      exact ⟨m₂, hm₂, rfl, fun _ hv => by cases hv; rfl⟩

theorem resumeUnsettled_opens (r : Nat) :
    Opens (Ring.openAt r 0 >>= fun q => lift (Vault.resumeUnsettled (H := H) q base root policy)) := by
  apply (openAt_parallel Mirror.SameRoom.read _ _).bind fun _ _ h => h.same
  intro q m res m₁ h hrun
  rw [lift_run] at hrun ⊢
  rw [resumeUnsettled_onto h.blockCount]
  cases hrun
  exact ⟨m, h.same, rfl, fun _ hv => resumeUnsettled_mirror hv⟩

/-- The primary holds a vault: a root, or entries of a spine. -/
def Mirror.Bootstraps (m : Mirror H) : Prop :=
  ∀ m₁, Vault.rootOf.run m = (.ok none, m₁) → (Ring.bootstrapN.run m₁).1 ≠ .ok none

variable {m m' m₁ : Mirror H} {now : Int} {slow : Bool} {res : Except Error (Vault H)}

theorem openWith_parallel (h : m.SameRoom m') (hholds : m.Bootstraps)
    (hrun : (Vault.openWith ringLog2 now policy slow).run m = (res, m₁)) :
    ∃ m₂, m₁.SamePrimary m₂ ∧ (Vault.openWith ringLog2 now policy slow).run m' = (res.map (Vault.onto m₂), m₂) ∧
      ∀ v, res = .ok v → v.ring.mirror = m₁ := by
  unfold Vault.openWith at hrun ⊢
  rw [bind_run] at hrun ⊢
  rcases hroot : Vault.rootOf.run m with ⟨err | found, m₃⟩
  · obtain ⟨m₄, hroot', h₄⟩ := Mirror.SameRoom.rootOf.run h hroot
    rw [hroot] at hrun
    rw [hroot']
    cases hrun
    exact ⟨m₄, h₄.same, rfl, fun _ hv => by cases hv⟩
  · obtain ⟨m₄, hroot', h₄⟩ := Mirror.SameRoom.rootOf.run h hroot
    rw [hroot] at hrun
    rw [hroot']
    cases found with
    | some root => exact resumeCommon_opens (openResidence_parallel Mirror.SameRoom.read root) h₄ hrun
    | none =>
      dsimp only at hrun ⊢
      rw [bind_run] at hrun ⊢
      rcases hboot : Ring.bootstrapN.run m₃ with ⟨err | seen, m₅⟩
      · obtain ⟨m₆, hboot', h₆⟩ := Mirror.SameRoom.bootstrapN.run h₄ hboot
        rw [hboot] at hrun
        rw [hboot']
        cases hrun
        exact ⟨m₆, h₆.same, rfl, fun _ hv => by cases hv⟩
      · obtain ⟨m₆, hboot', h₆⟩ := Mirror.SameRoom.bootstrapN.run h₄ hboot
        rw [hboot] at hrun
        rw [hboot']
        cases seen with
        | none => exact absurd (congrArg Prod.fst hboot) (hholds _ hroot)
        | some r =>
          cases slow with
          | true => exact resumeUnsettled_opens r h₆ hrun
          | false => exact resumeCommon_opens (openAt_parallel Mirror.SameRoom.read _ _) h₆ hrun

end Opens

end Manifestus
