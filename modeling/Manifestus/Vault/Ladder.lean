import Manifestus.Vault.Grow
import Manifestus.Engine.Open

/-! The write ladders. Whatever a ladder does, it is made of puts, deletes, commits, reap windows,
grows and reloads of the committed index; an invariant that these keep is kept by the ladder. -/
set_option linter.unusedSectionVars false

namespace Manifestus
open Prog

variable {H : Type} [Crates H]

/-- The map after items in order. -/
def Map.apply (m : Map) (items : List (Key × Option Bytes)) : Map :=
  items.foldl (fun m x => Function.update m x.1 x.2) m

@[simp] theorem Map.apply_nil (m : Map) : m.apply [] = m := rfl

@[simp] theorem Map.apply_cons (m : Map) (x : Key × Option Bytes) (items : List (Key × Option Bytes)) :
    m.apply (x :: items) = Map.apply (Function.update m x.1 x.2) items := rfl

theorem Map.apply_append (m : Map) (xs ys : List (Key × Option Bytes)) : m.apply (xs ++ ys) = (m.apply xs).apply ys := by
  simp [Map.apply]

/-- Items decide the keys they have. -/
theorem Map.apply_congr (items : List (Key × Option Bytes)) : ∀ {m m' : Map},
    (∀ k, k ∉ items.map Prod.fst → m k = m' k) → m.apply items = m'.apply items := by
  induction items with
  | nil =>
    intro m m' h
    funext k
    exact h k (by simp)
  | cons x items ih =>
    intro m m' h
    refine ih fun k hk => ?_
    show Function.update m x.1 x.2 k = Function.update m' x.1 x.2 k
    by_cases hkx : k = x.1
    · rw [hkx, Function.update_self, Function.update_self]
    · rw [Function.update_of_ne hkx, Function.update_of_ne hkx]
      exact h k (by simp [hkx, hk])

theorem Map.apply_of_notMem (items : List (Key × Option Bytes)) : ∀ {m : Map} {k : Key},
    k ∉ items.map Prod.fst → m.apply items k = m k := by
  induction items with
  | nil => intro m k _; rfl
  | cons x items ih =>
    intro m k h
    simp only [List.map_cons, List.mem_cons, not_or] at h
    rw [Map.apply_cons, ih h.2, Function.update_of_ne h.1]

/-- Items applied again over some of them. -/
theorem Map.apply_apply {pre items : List (Key × Option Bytes)} (h : pre <+: items) (m : Map) :
    (m.apply pre).apply items = m.apply items := by
  refine Map.apply_congr items fun k hk => Map.apply_of_notMem pre fun hpre => hk ?_
  exact (h.map Prod.fst).subset hpre

/-- An invariant of the vault's steps: `com` is the committed map, `cur` the map in memory, and only
allowed maps are committed. -/
structure Keeps (allowed : Map → Prop) (I : Vault H → Map → Map → Prop) : Prop where
  put : ∀ {v com cur}, I v com cur → ∀ key value,
    Sat (Vault.onStore (Hamt.put v.live.liveness key value)) v
      (fun _ v' => I v' com (Function.update cur key (some value))) (fun _ v' => I v' com cur)
  delete : ∀ {v com cur}, I v com cur → ∀ key,
    Sat (Vault.onStore (Hamt.delete key v.policy)) v
      (fun existed v' => existed = (cur key).isSome ∧ I v' com (Function.update cur key none)) (fun _ _ => False)
  held : ∀ {v com cur}, I v com cur → ∀ key value,
    Sat (Vault.holdsCommitted key value) v
      (fun held v' => (held = true → cur key = some value) ∧ I v' com cur) (fun _ _ => False)
  commit : ∀ {v com cur}, I v com cur → allowed cur → ∀ now,
    Sat (Vault.commitNow now) v (fun _ v' => I v' cur cur) (fun err v' => err.Refused ∧ I v' com cur)
  stage : ∀ {v com cur}, I v com cur → ∀ w,
    Sat (Vault.reapStaged w) v (fun _ v' => I v' com cur) (fun _ v' => I v' com cur)
  waive : ∀ {v com cur}, I v com cur → I { v with tract := { v.tract with fenceLimit := none } } com cur
  refence : ∀ {v com cur}, I v com cur → Sat Vault.refence v (fun _ v' => I v' com cur) (fun _ _ => False)
  reload : ∀ {v com cur}, I v com cur → ∀ reason,
    Sat (Vault.reloadHead reason) v (fun _ v' => I v' com com) (fun _ _ => False)
  grow : ∀ {v com cur}, I v com cur → ∀ {n}, v.tract.len < n → ∀ now,
    Sat (Vault.growNow n now) v (fun _ v' => I v' com com) (fun _ v' => I v' com cur ∨ I v' com com)
  long : ∀ {v com cur}, I v com cur → 0 < v.tract.len
  clean : ∀ {v com cur}, I v com cur → v.hamt.hasUncommitted = false → cur = com
  allows : ∀ {v com cur}, I v com cur → allowed com
  settled : ∀ {v com cur}, I v com cur → v.settling = none

/-- What a rescue keeps: `P` between its windows, `Q` inside a window and when it fails. -/
structure Rescues (P Q : Vault H → Prop) : Prop where
  weaken : ∀ {v}, P v → Q v
  stage : ∀ {v}, P v → ∀ w, Sat (Vault.reapStaged w) v (fun _ v' => Q v') (fun _ v' => Q v')
  commit : ∀ {v}, Q v → ∀ now, Sat (Vault.commitNow now) v (fun _ v' => P v') (fun _ v' => Q v')
  grow : ∀ {v}, Q v → ∀ {n}, v.tract.len < n → ∀ now, Sat (Vault.growNow n now) v (fun _ v' => P v') (fun _ v' => Q v')
  waive : ∀ {v}, P v → P { v with tract := { v.tract with fenceLimit := none } }
  refence : ∀ {v}, P v → Sat Vault.refence v (fun _ v' => P v') (fun _ _ => False)
  long : ∀ {v}, Q v → 0 < v.tract.len

namespace Rescues

variable {P Q : Vault H → Prop} (hr : Rescues P Q) {v : Vault H} (now : Int)
include hr

theorem rescueWindows_sat : ∀ (left windows : Nat) (grown : Bool) {v : Vault H}, P v →
    Sat (Vault.rescueWindows now left windows grown) v (fun _ v' => P v') (fun _ v' => Q v') := by
  intro left
  induction left with
  | zero => intro windows grown v h; exact sat_pure h
  | succ left ih =>
    intro windows grown v h
    unfold Vault.rescueWindows
    refine sat_state ?_
    simp only []
    split
    · exact sat_pure h
    · split
      · exact sat_pure h
      · split
        · split
          · exact sat_fail (hr.weaken h)
          · refine sat_bind ?_ fun _ v₁ h₁ => ih windows true h₁
            by_cases hn : v.tract.len < if v.tract.len < v.live.len * 2 then v.tract.len * 2
                else v.tract.len + v.reapWindow * 4
            · exact hr.grow (hr.weaken h) hn now
            · unfold Vault.growNow
              refine sat_state ?_
              rw [if_pos (not_lt.mp hn)]
              exact sat_pure h
        · refine sat_update ?_
          refine sat_bind (hr.stage (hr.waive h) _) fun _ v₁ h₁ => ?_
          refine sat_bind (hr.commit h₁ now) fun _ v₂ h₂ => ?_
          exact ih (windows + 1) grown h₂

theorem rescueNow_sat (h : P v) : Sat (Vault.rescueNow now) v (fun _ v' => P v') (fun _ v' => Q v') := by
  unfold Vault.rescueNow
  refine sat_state (sat_bind (hr.rescueWindows_sat now _ 0 false h) fun _ v₁ h₁ => ?_)
  exact sat_bind ((hr.refence h₁).mono (fun _ _ hx => hx) fun _ _ hf => hf.elim) fun _ v₂ h₂ => sat_pure h₂

/-- A rescue of the open never fails. -/
theorem unwedge_sat (h : P v) : Sat (Vault.unwedge now) v (fun _ v' => Q v') (fun _ _ => False) := by
  have hgrow : ∀ u, Q u → Sat (do
      let v ← state
      let _ ← attempt (Vault.growNow (v.tract.len * 2) now)
      pure ()) u (fun _ v' => Q v') (fun _ _ => False) := by
    intro u hu
    have hlen := hr.long hu
    refine sat_state (sat_bind (R := fun _ v' => Q v') (sat_attempt ?_) fun _ v' h' => sat_pure h')
    exact (hr.grow hu (n := u.tract.len * 2) (by omega) now).mono (fun _ _ hx => hr.weaken hx) fun _ _ hx => hx
  unfold Vault.unwedge
  refine sat_try (hr.rescueNow_sat now h) (fun _ v₁ h₁ => sat_pure (hr.weaken h₁)) fun err v₁ h₁ => ?_
  rcases err with _ | _ | _ | _ | _ | _ | _ | _ | _ <;> try exact sat_pure h₁
  exact hgrow v₁ h₁

end Rescues

/-- Memory has the map `cur`; it or `com` is committed. -/
def Settles (I : Vault H → Map → Map → Prop) (com cur : Map) (v : Vault H) : Prop := I v com cur ∨ I v cur cur

/-- Some maps are committed and in memory. -/
def Somehow (I : Vault H → Map → Map → Prop) (v : Vault H) : Prop := ∃ com cur, I v com cur

namespace Keeps

variable {allowed : Map → Prop} {I : Vault H → Map → Map → Prop} (hk : Keeps allowed I) {v : Vault H} {com cur c : Map}
  (now : Int)
include hk

/-- A step that keeps both maps, after which the ladder goes on. -/
theorem commit_settles (h : Settles I com cur v) (hcur : allowed cur) :
    Sat (Vault.commitNow now) v (fun _ v' => I v' cur cur) (fun err v' => err.Refused ∧ Settles I com cur v') := by
  rcases h with h | h
  · exact (hk.commit h hcur now).mono (fun _ _ hx => hx) fun _ _ hx => ⟨hx.1, .inl hx.2⟩
  · exact (hk.commit h hcur now).mono (fun _ _ hx => hx) fun _ _ hx => ⟨hx.1, .inr hx.2⟩

theorem stage_settles (h : Settles I com cur v) (w : Nat) :
    Sat (Vault.reapStaged w) v (fun _ v' => Settles I com cur v') (fun _ v' => Settles I com cur v') := by
  rcases h with h | h
  · exact (hk.stage h w).mono (fun _ _ hx => .inl hx) fun _ _ hx => .inl hx
  · exact (hk.stage h w).mono (fun _ _ hx => .inr hx) fun _ _ hx => .inr hx

theorem reapOneWindowCapped_sat (h : Settles I com cur v) (hcur : allowed cur) (cap : Option Nat) :
    Sat (Vault.reapOneWindowCapped now cap) v (fun _ v' => Settles I com cur v')
      (fun _ v' => Settles I com cur v') := by
  unfold Vault.reapOneWindowCapped
  have hcommit : ∀ u, Settles I com cur u → Sat (Vault.commitNow now) u (fun _ v' => Settles I com cur v')
      (fun _ v' => Settles I com cur v') := fun u hu =>
    (hk.commit_settles now hu hcur).mono (fun _ _ hx => .inr hx) fun _ _ hx => hx.2
  refine sat_state (sat_when (fun _ => hcommit v h) (fun _ => h) fun v₁ h₁ => sat_state ?_)
  simp only []
  split
  · exact sat_pure h₁
  · split
    · exact sat_pure h₁
    · refine sat_when (fun _ => hcommit v₁ h₁) (fun _ => h₁) fun v₂ h₂ => sat_state ?_
      split
      · exact sat_pure h₂
      · refine sat_bind (hk.stage_settles h₂ _) fun _ v₃ h₃ => ?_
        refine sat_bind ((hk.commit_settles now h₃ hcur).mono (fun _ _ hx => hx) fun _ _ hx => hx.2) fun _ v₄ h₄ => ?_
        exact sat_pure (.inr h₄)

theorem maybeReap_sat (h : Settles I com cur v) (hcur : allowed cur) :
    Sat (Vault.maybeReap now) v (fun _ v' => Settles I com cur v') (fun _ v' => Settles I com cur v') := by
  unfold Vault.maybeReap
  refine sat_state ?_
  simp only []
  split
  · exact sat_bind (hk.reapOneWindowCapped_sat now h hcur none) fun _ v₁ h₁ => sat_pure h₁
  · exact sat_pure h

/-- A reap window after a commit. -/
theorem maybeReap_same (h : I v c c) (hc : allowed c) :
    Sat (Vault.maybeReap now) v (fun _ v' => I v' c c) (fun _ v' => Somehow I v') :=
  (hk.maybeReap_sat now (.inl h) hc).mono (fun _ _ hx => hx.elim id id)
    fun _ _ hx => hx.elim (fun hx => ⟨_, _, hx⟩) fun hx => ⟨_, _, hx⟩

theorem reclaimAheadNow_sat (h : Settles I com cur v) (hcur : allowed cur) :
    Sat (Vault.reclaimAheadNow now) v (fun _ v' => Settles I com cur v') (fun _ v' => Settles I com cur v') := by
  unfold Vault.reclaimAheadNow
  refine sat_state ?_
  simp only []
  split
  · exact sat_pure h
  · split
    · exact sat_pure h
    · split
      · exact sat_pure h
      · exact sat_bind (hk.reapOneWindowCapped_sat now h hcur _) fun _ v₁ h₁ => sat_pure h₁

/-- A rescue keeps the map. -/
theorem rescues (hc : allowed c) : Rescues (fun v => I v c c) fun v => I v c c where
  weaken h := h
  stage h w := hk.stage h w
  commit h now := (hk.commit h hc now).mono (fun _ _ hx => hx) fun _ _ hx => hx.2
  grow h _ hn now := (hk.grow h hn now).mono (fun _ _ hx => hx) fun _ _ hx => hx.elim id id
  waive h := hk.waive h
  refence h := hk.refence h
  long h := hk.long h

theorem rescueNow_sat (hc : allowed c) (h : I v c c) :
    Sat (Vault.rescueNow now) v (fun _ v' => I v' c c) (fun _ v' => I v' c c) := (hk.rescues hc).rescueNow_sat now h

theorem growNow_sat (h : I v com cur) (n : Nat) :
    Sat (Vault.growNow n now) v (fun _ v' => I v' com com ∨ n ≤ v.tract.len ∧ I v' com cur)
      (fun _ v' => I v' com cur ∨ I v' com com) := by
  rcases Nat.lt_or_ge v.tract.len n with hn | hn
  · exact (hk.grow h hn now).mono (fun _ _ hx => .inl hx) fun _ _ hx => hx
  · unfold Vault.growNow
    refine sat_state ?_
    rw [if_pos hn]
    exact sat_pure (.inr ⟨hn, h⟩)

/-- The tract doubles. -/
theorem double_sat (h : I v com cur) :
    Sat (Vault.growNow (v.tract.len * 2) now) v (fun _ v' => I v' com com)
      (fun _ v' => I v' com cur ∨ I v' com com) :=
  hk.grow h (by have := hk.long h; omega) now

theorem growInLadder_sat (h : I v com cur) :
    Sat (Vault.growInLadder now) v (fun _ v' => cur = com ∧ I v' cur cur) (fun _ v' => I v' com cur) := by
  unfold Vault.growInLadder
  refine sat_state ?_
  split
  · exact sat_fail h
  next hc =>
    have heq : cur = com := hk.clean h (by simpa using hc)
    subst heq
    exact (hk.double_sat now h).mono (fun _ _ hx => ⟨rfl, hx⟩) fun _ _ hx => hx.elim id id

theorem rollbackToHead_sat (h : Settles I com cur v) (hcur : allowed cur) (failed : Bool) :
    Sat (Vault.rollbackToHead now failed) v (fun _ v' => I v' cur cur) (fun _ v' => Settles I com cur v') := by
  have hreload : ∀ u, I u cur cur → Sat (Vault.reloadHead "rescue on pre-genesis vault") u (fun _ v' => I v' cur cur)
      (fun _ v' => Settles I com cur v') := fun u hu => (hk.reload hu _).mono (fun _ _ hx => hx) fun _ _ hf => hf.elim
  unfold Vault.rollbackToHead
  refine sat_state ?_
  simp only []
  split
  · split
    · exact sat_fail h
    · refine sat_try (hk.commit_settles now h hcur) (fun _ v₁ h₁ => ?_) fun err v₁ h₁ => ?_
      · exact hreload v₁ h₁
      · rcases err with _ | _ | _ | _ | _ | _ | _ | _ | _ <;> exact sat_fail h₁.2
  next hc =>
    have hclean : v.hamt.hasUncommitted = false := by simpa using hc
    rcases h with h | h
    · have heq : cur = com := hk.clean h hclean
      exact hreload v (heq ▸ h)
    · exact hreload v h

theorem rescueFromCommittedHead_sat (h : I v com cur) :
    Sat (Vault.rescueFromCommittedHead now) v (fun _ v' => I v' com com) (fun _ v' => I v' com com) := by
  have hcom := hk.allows h
  unfold Vault.rescueFromCommittedHead
  refine sat_bind ((hk.reload h _).mono (fun _ _ hx => hx) fun _ _ hf => hf.elim) fun _ v₁ h₁ => ?_
  refine sat_try (hk.rescueNow_sat now hcom h₁) (fun _ v₂ h₂ => sat_pure h₂) fun err v₂ h₂ => ?_
  rcases err with _ | _ | _ | _ | _ | _ | _ | _ | _ <;> try exact sat_fail h₂
  refine sat_state ((hk.double_sat now h₂).mono (fun _ _ hx => hx) fun _ _ hx => hx.elim id id)

theorem ladderRescue_sat (hc : allowed c) (h : I v c c) (grew : Bool) :
    Sat (Vault.ladderRescue now grew) v (fun _ v' => I v' c c) (fun _ v' => I v' c c) := by
  unfold Vault.ladderRescue
  refine sat_try (hk.rescueNow_sat now hc h) (fun _ v₂ h₂ => sat_pure h₂) fun err v₂ h₂ => ?_
  rcases err with _ | _ | _ | _ | _ | _ | _ | _ | _ <;> try exact sat_fail h₂
  cases grew with
  | true => exact sat_fail h₂
  | false =>
    exact sat_bind ((hk.growInLadder_sat now h₂).mono (fun _ _ hx => hx.2) fun _ _ hx => hx) fun _ v₃ h₃ => sat_pure h₃

/-- Up to `left` attempts of a put: landed or not, the committed map is the one before or the one in
memory. -/
theorem putAttempts_sat (key : Key) (value : Bytes) (hcur : allowed cur) : ∀ (left : Nat) (grew : Bool) {v : Vault H},
    Settles I com cur v →
    Sat (Vault.putAttempts key value now left grew) v
      (fun x v' => ∃ c, (c = com ∨ c = cur) ∧ I v' c (if x.1 then Function.update cur key (some value) else cur))
      (fun _ v' => Settles I com cur v') := by
  intro left
  induction left with
  | zero =>
    intro grew v h
    refine sat_pure ?_
    rcases h with h | h
    · exact ⟨com, .inl rfl, h⟩
    · exact ⟨cur, .inr rfl, h⟩
  | succ left ih =>
    intro grew v h
    have hput : Sat (Vault.onStore (Hamt.put v.live.liveness key value)) v
        (fun _ v' => ∃ c, (c = com ∨ c = cur) ∧ I v' c (Function.update cur key (some value)))
        (fun _ v' => Settles I com cur v') := by
      rcases h with h | h
      · exact (hk.put h key value).mono (fun _ _ hx => ⟨com, .inl rfl, hx⟩) fun _ _ hx => .inl hx
      · exact (hk.put h key value).mono (fun _ _ hx => ⟨cur, .inr rfl, hx⟩) fun _ _ hx => .inr hx
    -- after a rollback everything starts from the map in memory
    have hrescue : ∀ (failed grew : Bool) u, Settles I com cur u →
        Sat (do
            Vault.rollbackToHead now failed
            let grew ← Vault.ladderRescue now grew
            Vault.putAttempts key value now left grew) u
          (fun x v' => ∃ c, (c = com ∨ c = cur) ∧ I v' c (if x.1 then Function.update cur key (some value) else cur))
          (fun _ v' => Settles I com cur v') := by
      intro failed grew u hu
      refine sat_bind (hk.rollbackToHead_sat now hu hcur failed) fun _ v₁ h₁ => ?_
      refine sat_bind ((hk.ladderRescue_sat now hcur h₁ grew).mono (fun _ _ hx => hx) fun _ _ hx => .inr hx)
        fun grew' v₂ h₂ => ih grew' (.inr h₂)
    unfold Vault.putAttempts
    refine sat_state (sat_try hput (fun _ v₁ h₁ => sat_pure h₁) fun err v₁ h₁ => ?_)
    rcases err with _ | _ | _ | _ | _ | _ | plow | _ | _ <;> try exact sat_fail h₁
    · -- fenced
      refine sat_try (hk.commit_settles now h₁ hcur) (fun _ v₂ h₂ => ih grew (.inr h₂)) fun err v₂ h₂ => ?_
      rcases err with _ | _ | _ | _ | _ | _ | plow | _ | _ <;> try exact ih grew h₂.2
      exact hrescue true grew v₂ h₂.2
    · -- full
      refine sat_bind (hk.reapOneWindowCapped_sat now h₁ hcur none) fun reaped v₂ h₂ => ?_
      cases reaped with
      | true => exact ih grew h₂
      | false => exact hrescue false grew v₂ h₂

theorem putNoCommit_sat (key : Key) (value : Bytes) (h : I v com cur) (hcur : allowed cur) :
    Sat (Vault.putNoCommit key value now) v
      (fun _ v' => ∃ c, (c = com ∨ c = cur) ∧ I v' c (Function.update cur key (some value)))
      (fun _ v' => Settles I com cur v') := by
  have hback : ∀ {u c}, (c = com ∨ c = cur) → I u c cur → Settles I com cur u := by
    rintro u c (rfl | rfl) hu
    · exact .inl hu
    · exact .inr hu
  unfold Vault.putNoCommit
  refine sat_state (sat_bind (hk.putAttempts_sat now key value hcur _ false (.inl h)) ?_)
  rintro ⟨landed, grew⟩ v₁ ⟨c, hc, h₁⟩
  cases landed with
  | true => exact sat_pure ⟨c, hc, h₁⟩
  | false =>
    cases grew with
    | true => exact sat_fail (hback hc h₁)
    | false =>
      refine sat_bind ((hk.growInLadder_sat now h₁).mono (fun _ _ hx => hx.2) fun _ _ hx => hback hc hx) fun _ v₂ h₂ => ?_
      refine sat_state (sat_bind (hk.putAttempts_sat now key value hcur _ true (show Settles I com cur v₂ from .inr h₂)) ?_)
      rintro ⟨landed, grew⟩ v₃ ⟨c', hc', h₃⟩
      cases landed with
      | true => exact sat_pure ⟨c', hc', h₃⟩
      | false => exact sat_fail (hback hc' h₃)

theorem deleteAttempts_sat (key : Key) (h : I v com cur) (left : Nat) :
    Sat (Vault.deleteAttempts key now (left + 1)) v
      (fun existed v' => existed = (cur key).isSome ∧ I v' com (Function.update cur key none)) (fun _ _ => False) := by
  unfold Vault.deleteAttempts
  exact sat_state (sat_try (hk.delete h key) (fun _ v₁ h₁ => sat_pure h₁) fun _ _ hf => hf.elim)

/-- The items of a batch in order: what is committed on the way is what was, or the map after some of
them. -/
theorem applyItems_sat (items : List (Key × Option Bytes)) : ∀ {v : Vault H} {com cur : Map}, I v com cur →
    (∀ pre, pre <+: items → allowed (cur.apply pre)) →
    Sat (Vault.applyItems now items) v
      (fun dirty v' => ∃ c, I v' c (cur.apply items) ∧ (c = com ∨ ∃ pre, pre <+: items ∧ c = cur.apply pre) ∧
        (dirty = false → cur.apply items = cur ∧ c = com))
      (fun _ v' => ∃ c c', I v' c c' ∧ (c = com ∨ ∃ pre, pre <+: items ∧ c = cur.apply pre)) := by
  induction items with
  | nil =>
    intro v com cur h _
    exact sat_pure ⟨com, h, .inl rfl, fun _ => ⟨rfl, rfl⟩⟩
  | cons x items ih =>
    intro v com cur h hall
    have hcur : allowed cur := hall [] (List.nil_prefix)
    have hall' : ∀ pre, pre <+: items → allowed (Map.apply (Function.update cur x.1 x.2) pre) :=
      fun pre hpre => hall (x :: pre) (List.cons_prefix_cons.mpr ⟨rfl, hpre⟩)
    -- what the rest commits, seen from the whole batch
    have hlift : ∀ {c₁ c : Map}, (c₁ = com ∨ c₁ = cur) →
        (c = c₁ ∨ ∃ pre, pre <+: items ∧ c = Map.apply (Function.update cur x.1 x.2) pre) →
        c = com ∨ ∃ pre, pre <+: x :: items ∧ c = cur.apply pre := by
      rintro c₁ c hc₁ (rfl | ⟨pre, hpre, rfl⟩)
      · rcases hc₁ with rfl | rfl
        · exact .inl rfl
        · exact .inr ⟨[], List.nil_prefix, rfl⟩
      · exact .inr ⟨x :: pre, List.cons_prefix_cons.mpr ⟨rfl, hpre⟩, rfl⟩
    obtain ⟨key, value | value⟩ := x
    · unfold Vault.applyItems
      refine sat_bind ((hk.deleteAttempts_sat now key h 1).mono (fun _ _ hx => hx) fun _ _ hf => hf.elim) ?_
      rintro existed v₁ ⟨hex, h₁⟩
      refine sat_bind ((ih h₁ hall').mono (fun _ _ hx => hx) ?_) ?_
      · rintro _ v₂ ⟨c, c', h₂, hc⟩
        exact ⟨c, c', h₂, hlift (.inl rfl) hc⟩
      · rintro dirty v₂ ⟨c, h₂, hc, hdirty⟩
        refine sat_pure ⟨c, h₂, hlift (.inl rfl) hc, fun hboth => ?_⟩
        simp only [Bool.or_eq_false_iff] at hboth
        obtain ⟨happly, hcom⟩ := hdirty hboth.2
        have hnone : cur key = none := by
          rw [hboth.1] at hex
          simpa using hex.symm
        have hsame : Function.update cur key none = cur := by
          rw [← hnone, Function.update_eq_self]
        refine ⟨?_, hcom⟩
        rw [Map.apply_cons, happly]
        exact hsame
    · unfold Vault.applyItems
      refine sat_bind ((hk.held h key value).mono (fun _ _ hx => hx) fun _ _ hf => hf.elim) ?_
      rintro held v₁ ⟨hheld, h₁⟩
      cases held with
      | true =>
        have hsame : Function.update cur key (some value) = cur := by
          rw [← hheld rfl, Function.update_eq_self]
        simp only [Map.apply_cons, hsame] at hall' ⊢
        refine (ih h₁ hall').mono ?_ ?_
        · rintro dirty v₂ ⟨c, h₂, hc, hdirty⟩
          refine ⟨c, h₂, hlift (.inl rfl) (by simpa only [hsame] using hc), hdirty⟩
        · rintro _ v₂ ⟨c, c', h₂, hc⟩
          exact ⟨c, c', h₂, hlift (.inl rfl) (by simpa only [hsame] using hc)⟩
      | false =>
        refine sat_bind ((hk.putNoCommit_sat now key value h₁ hcur).mono (fun _ _ hx => hx) ?_) ?_
        · rintro _ v₂ (h₂ | h₂)
          · exact ⟨com, cur, h₂, .inl rfl⟩
          · exact ⟨cur, cur, h₂, .inr ⟨[], List.nil_prefix, rfl⟩⟩
        · rintro _ v₂ ⟨c₁, hc₁, h₂⟩
          refine sat_bind ((ih h₂ hall').mono (fun _ _ hx => hx) ?_) ?_
          · rintro _ v₃ ⟨c, c', h₃, hc⟩
            exact ⟨c, c', h₃, hlift hc₁ hc⟩
          · rintro dirty v₃ ⟨c, h₃, hc, -⟩
            exact sat_pure ⟨c, h₃, hlift hc₁ hc, fun hf => by cases hf⟩

/-- A batch is its items in order, whatever its ladder does on the way. -/
theorem applyBatchNow_sat (items : List (Key × Option Bytes)) (h : I v c c)
    (hclosed : ∀ c, allowed c → ∀ pre, pre <+: items → allowed (c.apply pre)) :
    Sat (Vault.applyBatchNow items now) v (fun _ v' => I v' (c.apply items) (c.apply items))
      (fun _ v' => Somehow I v') := by
  have hc := hk.allows h
  have hall : ∀ {c'}, allowed c' → ∀ pre, pre <+: items → allowed (Map.apply c' pre) := fun hc' => hclosed _ hc'
  have hfin : allowed (c.apply items) := hall hc items (List.prefix_refl _)
  -- a map on the way to the end
  have hway : ∀ {x : Map}, (x = c ∨ ∃ pre, pre <+: items ∧ x = c.apply pre) → x.apply items = c.apply items := by
    rintro x (rfl | ⟨pre, hpre, rfl⟩)
    · rfl
    · exact Map.apply_apply hpre c
  -- the items once more, over what is committed
  have hreplay : ∀ u x, I u x x → x.apply items = c.apply items → Sat (Vault.applyItems now items) u
      (fun _ v' => ∃ x', I v' x' (c.apply items) ∧ x'.apply items = c.apply items) (fun _ v' => Somehow I v') := by
    intro u x hu hx
    refine (hk.applyItems_sat now items hu (hall (hk.allows hu))).mono ?_ ?_
    · rintro _ v' ⟨x', h', hx', -⟩
      rw [hx] at h'
      refine ⟨x', h', ?_⟩
      rcases hx' with rfl | ⟨pre, hpre, rfl⟩
      · exact hx
      · rw [Map.apply_apply hpre, hx]
    · rintro _ v' ⟨x', y', h', -⟩
      exact ⟨x', y', h'⟩
  have hfirst : Sat (Vault.applyGrowing items now) v
      (fun dirty v' => ∃ x, I v' x (c.apply items) ∧ x.apply items = c.apply items ∧
        (dirty = false → c.apply items = c ∧ x = c)) (fun _ v' => Somehow I v') := by
    unfold Vault.applyGrowing
    refine sat_try (hk.applyItems_sat now items h (hall hc)) ?_ ?_
    · rintro dirty v₁ ⟨x, h₁, hx, hdirty⟩
      exact sat_pure ⟨x, h₁, hway hx, hdirty⟩
    · rintro err v₁ ⟨x, y, h₁, hx⟩
      rcases err with _ | _ | _ | _ | _ | _ | _ | _ | _ <;> try exact sat_fail ⟨x, y, h₁⟩
      refine sat_state (sat_bind ((hk.double_sat now h₁).mono (fun _ _ hx => hx) ?_) fun _ v₂ h₂ => ?_)
      · rintro _ v' (h' | h')
        · exact ⟨x, y, h'⟩
        · exact ⟨x, x, h'⟩
      · refine sat_bind (hreplay v₂ x h₂ (hway hx)) ?_
        rintro _ v₃ ⟨x', h₃, hx'⟩
        exact sat_pure ⟨x', h₃, hx', fun hf => by cases hf⟩
  unfold Vault.applyBatchNow
  split
  next hempty =>
    rw [List.isEmpty_iff.mp hempty]
    exact sat_pure h
  · refine sat_bind hfirst ?_
    rintro dirty v₁ ⟨x, h₁, hx, hdirty⟩
    cases dirty with
    | false =>
      obtain ⟨hsame, rfl⟩ := hdirty rfl
      refine sat_pure ?_
      rw [hsame] at h₁ ⊢
      exact h₁
    | true =>
      have hroom : Sat (Vault.applyBatchNow.commitOrMakeRoom now) v₁
          (fun replay v' => if replay then ∃ y, I v' y y ∧ y.apply items = c.apply items
            else I v' (c.apply items) (c.apply items)) (fun _ v' => Somehow I v') := by
        unfold Vault.applyBatchNow.commitOrMakeRoom
        refine sat_try (hk.commit h₁ hfin now) (fun _ v₂ h₂ => sat_pure h₂) fun err v₂ h₂ => ?_
        rcases err with _ | _ | _ | _ | _ | _ | _ | _ | _ <;> try exact sat_fail ⟨_, _, h₂.2⟩
        · refine sat_bind ((hk.rescueFromCommittedHead_sat now h₂.2).mono (fun _ _ hx => hx) fun _ _ hx => ⟨_, _, hx⟩)
            fun _ v₃ h₃ => sat_pure ⟨x, h₃, hx⟩
        · refine sat_state (sat_bind ((hk.double_sat now h₂.2).mono (fun _ _ hx => hx) ?_)
            fun _ v₃ h₃ => sat_pure ⟨x, h₃, hx⟩)
          rintro _ v' (h' | h')
          · exact ⟨_, _, h'⟩
          · exact ⟨_, _, h'⟩
      refine sat_bind hroom fun replay v₂ h₂ => ?_
      cases replay with
      | false => exact hk.maybeReap_same now h₂ hfin
      | true =>
        obtain ⟨y, h₂, hy⟩ := h₂
        refine sat_bind (hreplay v₂ y h₂ hy) ?_
        rintro _ v₃ ⟨x', h₃, -⟩
        refine sat_bind ((hk.commit h₃ hfin now).mono (fun _ _ hx => hx) fun _ _ hx => ⟨_, _, hx.2⟩) fun _ v₄ h₄ => ?_
        exact hk.maybeReap_same now h₄ hfin

theorem deleteNow_sat (key : Key) (h : I v c c) (hclosed : allowed (Function.update c key none)) :
    Sat (Vault.deleteNow key now) v
      (fun existed v' => existed = (c key).isSome ∧ I v' (Function.update c key none) (Function.update c key none))
      (fun _ v' => Somehow I v') := by
  unfold Vault.deleteNow
  refine sat_state (sat_bind ((hk.delete h key).mono (fun _ _ hx => hx) fun _ _ hf => hf.elim) ?_)
  rintro existed v₁ ⟨hex, h₁⟩
  cases existed with
  | true =>
    refine sat_bind ((hk.commit h₁ hclosed now).mono (fun _ _ hx => hx) fun _ _ hx => ⟨_, _, hx.2⟩) fun _ v₂ h₂ => ?_
    exact sat_bind (hk.maybeReap_same now h₂ hclosed) fun _ v₃ h₃ => sat_pure ⟨hex, h₃⟩
  | false =>
    have hnone : c key = none := by simpa using hex.symm
    have hsame : Function.update c key none = c := by rw [← hnone, Function.update_eq_self]
    refine sat_pure ⟨hex, ?_⟩
    rw [hsame] at h₁ ⊢
    exact h₁

end Keeps

end Manifestus
