import Manifestus.Spine.Fixed
import Manifestus.Flat.Session
import Manifestus.Index.Walk

/-! A committed vault on an image: the ring, the newest generation, and the index it names. -/
set_option linter.unusedSectionVars false

namespace Manifestus
open Prog

variable {H : Type} [Crates H] {r n : Nat} {i j : Image H} {e e' : SpineEntry H} {T T' : Tree H}

/-- The pointer a generation commits. -/
def SpineEntry.rootChild (e : SpineEntry H) : Option (Child H) := (Hamt.fromRoot e.hamtHash e.hamtLba : Hamt H).root

/-- No block is a root entry. -/
def Image.Rootless (i : Image H) : Prop := ∀ l < i.count, (i.data l).NotRoot

/-- The image of a fixed vault whose newest generation is `e`, with the index `T`. -/
structure Sound (r : Nat) (i : Image H) (e : SpineEntry H) (T : Tree H) : Prop where
  spine : Spine r i.data e
  fits : 2 ^ r + e.tractBlocks ≤ i.count
  rootless : i.Rootless
  rep : Rep (fun p => i.data (2 ^ r + p)) e.tractBlocks [] [] e.rootChild T
  sep : T.Sep

/-- What a key-value map may be. -/
abbrev Map := Key → Option Bytes

/-- The map of an index. -/
def Tree.map (t : Tree H) : Map := fun k => t.find k 0

/-- An image a power loss may leave: it is sound, fits `n` blocks, and has an allowed map. -/
def Recovers (allowed : Map → Prop) (r n : Nat) (j : Image H) : Prop :=
  ∃ e T, Sound r j e T ∧ 2 ^ r + e.tractBlocks ≤ n ∧ allowed T.map

theorem Recovers.mono {allowed : Map → Prop} {c c' : Nat} (hc : c ≤ c') (h : Recovers allowed r c j) :
    Recovers allowed r c' j := by
  obtain ⟨e, T, hs, hn, hm⟩ := h
  exact ⟨e, T, hs, hn.trans hc, hm⟩

theorem SpineEntry.rootChild_ne_dirty (e : SpineEntry H) (x : Nat) : e.rootChild ≠ some (.dirty x) := by
  unfold rootChild Hamt.fromRoot
  split <;> simp

namespace Sound

theorem claims_lt (h : Sound r i e T) {p : Nat} (hp : T.Claims p) : p < e.tractBlocks := h.rep.claims_lt hp

/-- Blocks outside the index and the ring do not matter. -/
theorem congr (h : Sound r i e T) (hspine : Spine r j.data e) (hcount : i.count ≤ j.count)
    (hroot : j.Rootless) (hview : ∀ p, T.Claims p → j.data (2 ^ r + p) = i.data (2 ^ r + p)) :
    Sound r j e T where
  spine := hspine
  fits := h.fits.trans hcount
  rootless := hroot
  rep := h.rep.congr le_rfl hview fun _ _ => rfl
  sep := h.sep

/-- The index is that of every later generation with the same pointer. -/
theorem rep_at (h : Sound r i e T) {len : Nat} (hlen : e.tractBlocks ≤ len) :
    Rep (fun p => i.data (2 ^ r + p)) len [] [] e.rootChild T :=
  h.rep.congr hlen (fun _ _ => rfl) fun _ _ => rfl

end Sound

/-- A torn block is no root entry. -/
theorem Block.notRoot_raw (id : Nat) : (Block.raw id : Block H).NotRoot := by
  intro e x h
  cases h

theorem Block.notRoot_zero : (Block.zero : Block H).NotRoot := by
  intro e x h
  cases h

theorem SpineEntry.encode_notRoot (e : SpineEntry H) : e.encode.NotRoot := by
  intro x y h
  cases h

/-- Staged tract blocks: inside the tract, on no position of the committed index. -/
def Staging (r len : Nat) (T : Tree H) (xs : List (Nat × Block H)) : Prop :=
  ∀ x ∈ xs, ∃ p, x.1 = 2 ^ r + p ∧ p < len ∧ ¬ T.Claims p ∧ x.2.NotRoot

theorem Staging.lt {len : Nat} {xs : List (Nat × Block H)} (h : Staging r len T xs) {x : Nat × Block H} (hx : x ∈ xs) :
    x.1 < 2 ^ r + len := by
  obtain ⟨p, hp, hlt, -, -⟩ := h x hx
  omega

/-- Staged blocks that land, whole, torn or not at all, leave a sound image. -/
theorem Sound.staging {len : Nat} {xs : List (Nat × Block H)} (h : Sound r i e T) (hxs : Staging r len T xs)
    (ht : i.Torn xs j) : Sound r j e T := by
  have hsame : ∀ l, (∀ x ∈ xs, x.1 ≠ l) → j.data l = i.data l := by
    intro l hl
    rcases ht.data l with heq | ⟨b, hb, -⟩
    · exact heq
    · exact absurd rfl (hl _ hb)
  refine h.congr (h.spine.congr fun s hs => hsame s ?_) ht.count.ge ?_ fun p hp => hsame _ ?_
  · intro x hx hxs'
    obtain ⟨p, hp, -⟩ := hxs x hx
    omega
  · intro l hl
    rcases ht.data l with heq | ⟨b, hb, heq | ⟨id, heq⟩⟩
    · rw [heq]
      exact h.rootless l (ht.count ▸ hl)
    · obtain ⟨p, -, -, -, hroot⟩ := hxs _ hb
      rw [heq]
      exact hroot
    · rw [heq]
      exact Block.notRoot_raw id
  · intro x hx hxp
    obtain ⟨q, hq, -, hnot, -⟩ := hxs x hx
    obtain rfl : q = p := by omega
    exact hnot hp

/-- A generation being appended: before it has landed whole the old one stands, after that the new
one. -/
theorem Sound.appending (h : Sound r i e T) (hfits : e'.Fits r) (hgen : e'.gen = e.gen + 1)
    (hnew : ∀ k : Image H, k.count = i.count → (∀ l, 2 ^ r ≤ l → k.data l = i.data l) → Spine r k.data e' →
      k.Rootless → Sound r k e' T')
    (ht : i.Torn [(e'.gen % 2 ^ r, e'.encode)] j) : Sound r j e T ∨ Sound r j e' T' := by
  have hslot : e'.gen % 2 ^ r < 2 ^ r := Nat.mod_lt _ (Nat.two_pow_pos r)
  have hother : ∀ l, l ≠ e'.gen % 2 ^ r → j.data l = i.data l := by
    intro l hl
    rcases ht.data l with heq | ⟨b, hb, -⟩
    · exact heq
    · simp only [List.mem_singleton, Prod.mk.injEq] at hb
      exact absurd hb.1 hl
  have hdata : ∀ b, j.data (e'.gen % 2 ^ r) = b → j.data = Function.update i.data (e'.gen % 2 ^ r) b := by
    intro b hb
    funext l
    by_cases hl : l = e'.gen % 2 ^ r
    · rw [hl, hb, Function.update_self]
    · rw [hother l hl, Function.update_of_ne hl]
  have hroot : ∀ b, j.data (e'.gen % 2 ^ r) = b → b.NotRoot → j.Rootless := by
    intro b hb hnb l hlt
    by_cases hl : l = e'.gen % 2 ^ r
    · rw [hl, hb]
      exact hnb
    · rw [hother l hl]
      exact h.rootless l (ht.count ▸ hlt)
  have htract : ∀ l, 2 ^ r ≤ l → j.data l = i.data l := fun l hl => hother l (by omega)
  rcases ht.data (e'.gen % 2 ^ r) with heq | ⟨b, hb, heq | ⟨id, heq⟩⟩
  · refine .inl (h.congr (h.spine.congr fun s hs => ?_) ht.count.ge (hroot _ heq (h.rootless _ ?_)) fun p _ => ?_)
    · by_cases hl : s = e'.gen % 2 ^ r
      · rw [hl, heq]
      · exact hother s hl
    · have := h.fits
      omega
    · exact htract _ (Nat.le_add_right _ _)
  · simp only [List.mem_singleton, Prod.mk.injEq, true_and] at hb
    subst hb
    refine .inr (hnew j ht.count htract ?_ (hroot _ heq e'.encode_notRoot))
    rw [hdata _ heq]
    exact h.spine.append hfits hgen
  · refine .inl (h.congr ?_ ht.count.ge (hroot _ heq (Block.notRoot_raw id)) fun p _ => ?_)
    · rw [hdata _ heq, hgen]
      exact h.spine.torn id
    · exact htract _ (Nat.le_add_right _ _)

end Manifestus
