import Manifestus.Index.Keys
import Manifestus.Vault.Reached

/-! The keys a vault under way lists, and the copy of one vault into another that the list is for. -/
set_option linter.unusedSectionVars false

namespace Manifestus
open Prog

variable {H : Type} [Crates H] {m m₀ : Mirror H} {M : Map} {k r : Nat} {allowed : Map → Prop} {v v' u u' : Vault H} {d : Dev H}
  {e : SpineEntry H} {T C : Tree H}

/-- The value of one key of a vault put into another. -/
def Vault.copyKey (now : Int) (key : Key) : Prog Error (Vault H × Vault H) Unit := do
  match ← zoom Prod.fst (fun v p => (v, p.2)) (Vault.get key) with
  | some value => zoom Prod.snd (fun v p => (p.1, v)) (Vault.put key value now)
  | none => fail (.panic "a live key reads back")

/-- Every value of one vault put into another. -/
def Vault.copyLive (now : Int) : Prog Error (Vault H × Vault H) Unit := do
  let keys ← zoom Prod.fst (fun v p => (v, p.2)) Vault.liveKeys
  each (Vault.copyKey now) keys

namespace InUse

/-- The keys listed are those with a value in memory, unless the root is not on the devices yet. -/
theorem liveKeys_sat (h : InUse m₀ k allowed r v d e T C) :
    ∃ ks v', Vault.liveKeys.run v = (.ok ks, v') ∧ InUse m₀ k allowed r v' d e T C ∧ ks.Nodup ∧
      (v.hamt.isDirty = true → ks = []) ∧ (v.hamt.isDirty = false → ∀ key, key ∈ ks ↔ (C.map key).isSome) := by
  cases hdirty : v.hamt.isDirty with
  | false =>
    have hroot : ∀ i, v.store.hamt.root ≠ some (.dirty i) := by
      intro i hi
      rw [Hamt.isDirty, show v.hamt.root = some (.dirty i) from hi] at hdirty
      cases hdirty
    obtain ⟨s', w, hrun, hreads, hnd, hmem⟩ := Walker.walkKeys_run h.indexed.on h.indexed.rep h.indexed.sep hroot
    refine ⟨w.keys, v.withStore s', ?_, h.reads hreads, hnd, fun hn => absurd hn Bool.false_ne_true, fun _ key => hmem key⟩
    have hrun' : Walker.walkKeys.run ⟨v.store, Walk.start v.tract.len []⟩ = (.ok (), ⟨s', w⟩) := hrun
    simp only [Vault.liveKeys, hrun']
  | true =>
    obtain ⟨i, hi⟩ : ∃ i, v.hamt.root = some (.dirty i) := by
      rcases hroot : v.hamt.root with _ | c
      · simp [Hamt.isDirty, hroot] at hdirty
      · cases c with
        | committed hash lba => simp [Hamt.isDirty, hroot, Child.isDirty] at hdirty
        | dirty i => exact ⟨i, rfl⟩
    refine ⟨[], v, ?_, h, List.nodup_nil, fun _ => rfl, fun hn => absurd hn.symm Bool.false_ne_true⟩
    have hrun : ∃ k : Walk H, Walker.walkKeys.run ⟨v.store, Walk.start v.tract.len []⟩ = (.ok (), ⟨v.store, k⟩) ∧ k.keys = [] := by
      exists { Walk.start v.tract.len [] with visited := Visited.new v.store.tract.len }
      apply And.intro _ rfl
      simp only [Walker.walkKeys, bind_run, state_run, show v.store.hamt.root = some (.dirty i) from hi, Walker.onWalk, update_run,
        Walker.walkKeysChild, pure_run]
    obtain ⟨w, hwalk, hnil⟩ := hrun
    simp only [Vault.liveKeys, hwalk, hnil]
    rfl

/-- The copy of keys that have a value. -/
theorem copyKeys_sat (now : Int) : ∀ {ks : List Key} {v u : Vault H} {M : Map}, InUse m₀ k allowed r v d e T C →
    Run m u M → (∀ key ∈ ks, (C.map key).isSome) →
    Sat (each (Vault.copyKey now) ks) (v, u)
      (fun _ p => InUse m₀ k allowed r p.1 d e T C ∧ Run m p.2 fun key => if key ∈ ks then C.map key else M key)
      fun _ p => InUse m₀ k allowed r p.1 d e T C := by
  intro ks
  induction ks with
  | nil =>
    intro v u M h hu _
    exact ⟨h, by simpa using hu⟩
  | cons key ks ih =>
    intro v u M h hu hsome
    obtain ⟨hkey, hks⟩ := List.forall_mem_cons.mp hsome
    obtain ⟨value, hvalue⟩ := Option.isSome_iff_exists.mp hkey
    obtain ⟨v₁, hget, h₁, -⟩ := h.get_sat (G := Freely) key
    unfold Sat
    simp only [each, Vault.copyKey, bind_run, zoom_run, hget, hvalue]
    rcases hput : (Vault.put key value now).run u with ⟨err | _, u₁⟩
    · exact h₁
    · have hu₁ : Run m u₁ (M.apply [(key, some value)]) := hu.op (.put key value now) hput
      have hmap : (fun x => if x ∈ ks then C.map x else M.apply [(key, some value)] x) =
          fun x => if x ∈ key :: ks then C.map x else M x := by
        funext x
        rw [Map.apply_cons, Map.apply_nil]
        by_cases hx : x = key
        · subst hx
          simp [hvalue]
        · simp [hx]
      have hrest := ih h₁ hu₁ hks
      rw [hmap] at hrest
      exact hrest

/-- The copy of a vault in use whose root is on the devices. -/
theorem copyLive_sat (now : Int) {M : Map} (h : InUse m₀ k allowed r v d e T C) (hdirty : v.hamt.isDirty = false) (hu : Run m u M) :
    Sat (Vault.copyLive now) (v, u)
      (fun _ p => InUse m₀ k allowed r p.1 d e T C ∧ Run m p.2 fun key => (C.map key).or (M key))
      fun _ p => InUse m₀ k allowed r p.1 d e T C := by
  obtain ⟨ks, v', hrun, h', -, -, hkeys⟩ := h.liveKeys_sat
  have hmem := hkeys hdirty
  have hcopy := copyKeys_sat now h' hu fun key hkey => (hmem key).mp hkey
  have hmap : (fun key => if key ∈ ks then C.map key else M key) = fun key => (C.map key).or (M key) := by
    funext key
    cases hvalue : C.map key with
    | none => rw [if_neg (by simp [hmem, hvalue]), Option.none_or]
    | some value => rw [if_pos (by simp [hmem, hvalue]), Option.some_or]
  rw [hmap] at hcopy
  unfold Sat at hcopy ⊢
  simp only [Vault.copyLive, bind_run, zoom_run, hrun]
  exact hcopy

end InUse

end Manifestus
