import Manifestus.Engine.Digest
import Manifestus.Index.Put
import Manifestus.Index.Delete
import Manifestus.Index.Flush
import Manifestus.Index.Live
import Manifestus.Index.Steady

/-! The index as a finite map, whatever its callers tell it of what is live: a call that succeeds does what it
does when nothing ahead of the plow is live. -/
set_option linter.unusedSectionVars false

namespace Manifestus
open Prog Store

variable {H : Type} [Crates H] {d : Dev H} {live : LiveSet H} {s s' : Store H} {t : Tree H}

/-- The live set names no block of the clean space. -/
def LiveSet.Spares (l : LiveSet H) (s : Store H) : Prop :=
  ∀ q, s.tract.plow ≤ q → q < s.tract.reap + s.tract.len → ¬ l.Refers (q % s.tract.len)

theorem LiveSet.spares_of_behind (h : ∀ p, live.Refers p → s.tract.Behind p) : live.Spares s :=
  fun _ hq hlt hl => Tract.not_behind hq hlt (h _ hl)

/-- Reading leaves the tract as it is. -/
theorem Store.onMirror_tract {α : Type} (x : Prog Error (Mirror H) α) (s : Store H) :
    ((Store.onMirror x).run s).2.tract = s.tract := rfl

theorem LiveSet.steady_onMirror {α : Type} (l : LiveSet H) (x : Prog Error (Mirror H) α) :
    Steady l.Spares (Store.onMirror x) := by
  intro s hs
  unfold Sat
  rcases hr : (Store.onMirror x).run s with ⟨_ | a, s'⟩
  all_goals
    have ht : s'.tract = s.tract := by
      rw [← Store.onMirror_tract x s, hr]
    intro q
    rw [ht]
    exact hs q

theorem LiveSet.steady_inBounds (l : LiveSet H) (lba : Nat) : Steady l.Spares (Tract.inBounds (H := H) lba) :=
  steady_state fun _ => steady_ite (steady_pure _) (steady_fail _)

/-- Appends only take from the clean space, and nothing else moves the cursors. -/
theorem LiveSet.mooring (l : LiveSet H) : Mooring l.Spares where
  read lba := (l.steady_inBounds lba).bind fun _ => steady_state fun _ => l.steady_onMirror _
  readCached lba := (l.steady_inBounds lba).bind fun _ => steady_state fun _ => l.steady_onMirror _
  readRun lba n := steady_state fun _ => steady_ite (steady_fail _) (l.steady_onMirror _)
  readMany lbas := (steady_each (fun _ => l.steady_inBounds _) _).bind fun _ => steady_state fun _ => l.steady_onMirror _
  hamt _ hs := hs
  append live n make := by
    intro s hs
    apply sat_state
    dsimp only
    split
    · exact sat_fail hs
    · split
      · exact sat_fail hs
      · split
        · exact ((l.steady_onMirror _).bind fun _ => steady_fail _) s hs
        · apply sat_update
          apply sat_pure
          intro q hq
          exact hs q (Nat.le_trans (Nat.le_add_right _ n) hq)
  erase lba := (l.steady_inBounds lba).bind fun _ => steady_state fun _ => l.steady_onMirror _

/-- What `x` does when it succeeds, `y` does from the same store. -/
def Echoed (live : LiveSet H) {α : Type} (x y : Prog Error (Store H) α) : Prop :=
  ∀ s a s', live.Spares s → x.run s = (.ok a, s') → y.run s = (.ok a, s')

namespace Echoed

variable {α β : Type} {x y : Prog Error (Store H) α} {f g : α → Prog Error (Store H) β}

theorem refl (x : Prog Error (Store H) α) : Echoed live x x := fun _ _ _ _ h => h

theorem bind (hx : Echoed live x y) (hs : Steady live.Spares x) (hf : ∀ a, Echoed live (f a) (g a)) :
    Echoed live (x >>= f) (y >>= g) := by
  intro s b s' hsp hrun
  rw [bind_run] at hrun ⊢
  have hafter := hs.after hsp
  rcases hr : x.run s with ⟨e | a, s₁⟩ <;> rw [hr] at hrun hafter
  · cases hrun
  · rw [hx s a s₁ hsp hr]
    exact hf a s₁ b s' hafter hrun

theorem state {f g : Store H → Prog Error (Store H) β} (hf : ∀ s, Echoed live (f s) (g s)) :
    Echoed live (Prog.state >>= f) (Prog.state >>= g) := fun s => hf s s

theorem each {γ : Type} {f g : γ → Prog Error (Store H) Unit} (hf : ∀ c, Echoed live (f c) (g c))
    (hs : ∀ c, Steady live.Spares (f c)) (cs : List γ) : Echoed live (Prog.each f cs) (Prog.each g cs) := by
  induction cs with
  | nil => exact refl _
  | cons c cs ih => exact (hf c).bind (hs c) fun _ => ih

end Echoed

section Echoes

variable (live) (told : Liveness H)

theorem echoed_appendWith (n : Nat) (make : Nat → Block H) :
    Echoed live (Tract.appendWith told n make) (Tract.appendWith live.liveness n make) := by
  intro s ps s' hsp hrun
  simp only [Tract.appendWith, bind_run, state_run] at hrun ⊢
  split at hrun
  · cases hrun
  next hclean =>
    rw [if_neg hclean]
    split at hrun
    · cases hrun
    next hfence =>
      rw [if_neg hfence]
      have hnone : (List.range n).find? (fun i => live.liveness.isReferenced ((s.tract.plow + i) % s.tract.len)) = none := by
        apply List.find?_eq_none.mpr
        intro i hi
        have hlt := List.mem_range.mp hi
        unfold Tract.cleanBlocks at hclean
        exact hsp (s.tract.plow + i) (Nat.le_add_right _ _) (by omega)
      rw [hnone]
      split at hrun
      · cases hrun
      · exact hrun

theorem echoed_appendOne (b : Block H) : Echoed live (Tract.appendOne told b) (Tract.appendOne live.liveness b) :=
  (echoed_appendWith live told _ _).bind (live.mooring.append _ _ _) fun _ => .refl _

theorem echoed_putLeaf (key : Key) (value : Bytes) :
    Echoed live (Hamt.putLeaf told key value) (Hamt.putLeaf live.liveness key value) := by
  unfold Hamt.putLeaf
  split
  · exact (echoed_appendOne live told _).bind (live.mooring.appendOne _ _) fun _ => .refl _
  · apply (echoed_appendWith live told _ _).bind (live.mooring.append _ _ _)
    intro placed
    apply (Echoed.refl _).bind (steady_each (fun _ => live.mooring.onHamt _) _)
    intro _
    apply (Echoed.refl _).bind (steady_lift _)
    intro leaf
    exact (echoed_appendOne live told _).bind (live.mooring.appendOne _ _) fun _ => .refl _

theorem echoed_put (key : Key) (value : Bytes) :
    Echoed live (Hamt.put told key value) (Hamt.put live.liveness key value) := by
  have hinner : Echoed live (Hamt.putInner told key value) (Hamt.putInner live.liveness key value) :=
    (echoed_putLeaf live told key value).bind (live.mooring.putLeaf _ _ _) fun _ => .refl _
  intro s a s' hsp hrun
  simp only [Hamt.put, bind_run, state_run, attempt_run] at hrun ⊢
  rcases hr : (Hamt.putInner told key value).run s with ⟨e | b, s₁⟩ <;> rw [hr] at hrun
  · cases hrun
  · rw [hinner s b s₁ hsp hr]
    exact hrun

theorem echoed_flushNode (fuel idx : Nat) :
    Echoed live (Hamt.flushNode told fuel idx) (Hamt.flushNode live.liveness fuel idx) := by
  induction fuel generalizing idx with
  | zero => exact .refl _
  | succ fuel ih =>
    have hchild : ∀ c, Echoed live (Hamt.flushChild (Hamt.flushNode told fuel) idx c)
        (Hamt.flushChild (Hamt.flushNode live.liveness fuel) idx c) := by
      intro c
      apply (Echoed.refl _).bind (live.mooring.nodeAt _)
      intro node
      split
      · exact (ih _).bind (live.mooring.flushNode _ _ _) fun _ => .refl _
      · exact .refl _
    have hsteady : ∀ c, Steady live.Spares (Hamt.flushChild (Hamt.flushNode told fuel) idx c) :=
      live.mooring.flushChild (live.mooring.flushNode told fuel) idx
    rw [Hamt.flushNode, Hamt.flushNode]
    apply (Echoed.each hchild hsteady _).bind (steady_each hsteady _)
    intro _
    apply (Echoed.refl _).bind (live.mooring.nodeAt _)
    intro node
    apply (Echoed.refl _).bind (Mooring.encodeNode _)
    intro block
    exact (echoed_appendOne live told _).bind (live.mooring.appendOne _ _) fun _ => .refl _

theorem echoed_flush : Echoed live (Hamt.flush told) (Hamt.flush live.liveness) := by
  apply Echoed.state
  intro s
  split
  · exact .refl _
  · exact .refl _
  · exact (echoed_flushNode live told _ _).bind (live.mooring.flushNode _ _ _) fun _ => .refl _

end Echoes

/-- The store holds the index `t`, and the live set and the delta that account for it name only blocks behind the
plow. -/
def Grounded (s : Store H) (t : Tree H) : Prop :=
  ∃ d live, Accounted (fun b => b = .zero) live d s t ∧ ∀ p, live.Refers p → s.tract.Behind p

namespace Grounded

/-- The same tree under a new index in memory with nothing on record: its positions are the live set. -/
theorem afresh (h : Grounded s t) {hamt : Hamt H} (hdelta : hamt.delta = ⟨[], []⟩)
    (hrep : ∀ d, s.Holds d [] s.hamt.root t → Rep (s.view d) s.tract.len hamt.arena [] hamt.root t) :
    Grounded { s with hamt := hamt } t := by
  obtain ⟨d, live, hacc, hbehind⟩ := h
  let l : LiveSet H := ⟨[], (live.positions ++ spots s.hamt.delta.added).filter (· ∉ spots s.hamt.delta.removed)⟩
  have hclaims : ∀ p, t.Claims p ↔ l.Refers p := by
    intro p
    rw [hacc.claims, ← LiveSet.mem_positions, LiveSet.refers_iff]
    simp [l, or_and_right]
  exists d, l
  constructor
  · exact
      { on := ⟨hacc.on.ready, hacc.on.fits⟩
        cursors := hacc.cursors
        rep := hrep d hacc.rep
        sep := hacc.sep
        claims := fun p => by simp [hdelta, hclaims]
        added := by simp [hdelta]
        removed := by simp [hdelta]
        known := fun e he => absurd he List.not_mem_nil
        record := by simp [hdelta, l] }
  · intro p hp
    cases hacc.kept ((hclaims p).mpr hp) with
    | inl hl => exact hbehind p hl
    | inr hb => exact hb

end Grounded

namespace Hamt

/-- A call on the index; `told` is what its caller says is live. -/
inductive Call (H : Type) where
  | put (told : Liveness H) (key : Key) (value : Bytes)
  | delete (key : Key) (policy : DeletePolicy)
  | flush (told : Liveness H)
  | restart (told : Liveness H)
  | takeDelta
  | lookup (key : Key)

/-- The call on the store. A restart is a flush and a cold index from the root it returned. -/
def Call.run : Call H → Prog Error (Store H) Unit
  | .put told key value => Hamt.put told key value
  | .delete key policy => do
    let _ ← Hamt.delete key policy
    pure ()
  | .flush told => do
    let _ ← Hamt.flush told
    pure ()
  | .restart told => do
    let (hash, lba) ← Hamt.flush told
    onHamt fun _ => fromRoot hash lba
  | .takeDelta => do
    let _ ← Hamt.takeDelta
    pure ()
  | .lookup key => do
    let _ ← Hamt.lookup key
    pure ()

/-- The call on the map. -/
def Call.on (m : Key → Option Bytes) : Call H → Key → Option Bytes
  | .put _ key value => Function.update m key (some value)
  | .delete key _ => Function.update m key none
  | _ => m

theorem put_grounded (h : Grounded s t) {told : Liveness H} {key : Key} {value : Bytes} {a : Unit}
    (hrun : (put told key value).run s = (.ok a, s')) :
    ∃ t', Grounded s' t' ∧ ∀ k, t'.find k 0 = Function.update (fun k => t.find k 0) key (some value) k := by
  obtain ⟨d, live, hacc, hbehind⟩ := h
  have hecho := echoed_put live told key value s a s' (LiveSet.spares_of_behind hbehind) hrun
  obtain ⟨t', hstored⟩ := (put_accounted hacc key value).of_ok hecho
  exists t'
  constructor
  · exact ⟨d, live, hstored.accounted, fun p hp => hstored.steps.behind p (hbehind p hp)⟩
  · intro k
    rw [hstored.find, Function.update_apply]

theorem delete_grounded (h : Grounded s t) (key : Key) (policy : DeletePolicy) :
    ∃ s' t', (delete key policy).run s = (.ok (t.find key 0).isSome, s') ∧ Grounded s' t' ∧
      ∀ k, t'.find k 0 = Function.update (fun k => t.find k 0) key none k := by
  obtain ⟨d, live, hacc, hbehind⟩ := h
  obtain ⟨s', d', t', hrun, hacc', htract, -, -, -, hfind, -⟩ := delete_accounted hacc key policy fun _ => rfl
  exists s', t', hrun
  constructor
  · exact ⟨d', live, hacc', fun p hp => by rw [htract]; exact hbehind p hp⟩
  · intro k
    rw [hfind, Function.update_apply]

theorem flush_grounded (h : Grounded s t) {told : Liveness H} {r : H × Nat}
    (hrun : (flush told).run s = (.ok r, s')) :
    ∃ t', Grounded s' t' ∧ s'.hamt.root = (fromRoot r.1 r.2 : Hamt H).root ∧ ∀ k, t'.find k 0 = t.find k 0 := by
  obtain ⟨d, live, hacc, hbehind⟩ := h
  have hecho := echoed_flush live told s r s' (LiveSet.spares_of_behind hbehind) hrun
  obtain ⟨hroot, -, t', hgained, hfind⟩ := (flush_accounted hacc).of_ok hecho
  exact ⟨t', ⟨d, live, hgained.accounted, fun p hp => hgained.steps.behind p (hbehind p hp)⟩, hroot, hfind⟩

theorem lookup_grounded (h : Grounded s t) (key : Key) :
    ∃ s', (lookup key).run s = (.ok (t.find key 0), s') ∧ Grounded s' t := by
  obtain ⟨d, live, hacc, hbehind⟩ := h
  obtain ⟨s', hrun, hreads⟩ := lookup_run hacc.on hacc.rep key
  exists s', hrun, d, live
  constructor
  · apply hacc.steps (hreads.steps hacc.on hacc.cursors)
    all_goals rw [hreads.hamt]
  · intro p hp
    rw [hreads.tract]
    exact hbehind p hp

/-- A committed root that stands for the tree reads the same without the nodes in memory. -/
theorem rep_fromRoot {view : Nat → Block H} {len : Nat} {arena : List (Node H)} {root : Option (Child H)} {hash : H}
    {lba : Nat} (h : Rep view len arena [] root t) (hroot : root = (fromRoot hash lba : Hamt H).root) :
    Rep view len [] [] (fromRoot hash lba : Hamt H).root t := by
  rw [← hroot]
  cases root with
  | none =>
    have hempty : t = .empty := Rep.unique (t := .empty) rfl h
    rw [hempty]
    rfl
  | some c =>
    apply Rep.congr h le_rfl (fun _ _ => rfl)
    intro u hu
    have hno := h.no_uses (by
      rw [hroot]
      unfold fromRoot
      split <;> simp)
    exact absurd hu (hno u)

/-- A call that succeeds keeps the index, and does to what it holds what it does to the map. -/
theorem call_grounded (h : Grounded s t) (c : Call H) (hrun : c.run.run s = (.ok (), s')) :
    ∃ t', Grounded s' t' ∧ ∀ k, t'.find k 0 = c.on (fun k => t.find k 0) k := by
  cases c with
  | put told key value => exact put_grounded h hrun
  | delete key policy =>
    obtain ⟨s₁, t', hdel, hgr, hfind⟩ := delete_grounded h key policy
    simp only [Call.run, bind_run, hdel, pure_run, Prod.mk.injEq, true_and] at hrun
    subst hrun
    exact ⟨t', hgr, hfind⟩
  | flush told =>
    simp only [Call.run, bind_run] at hrun
    rcases hr : (flush told).run s with ⟨e | r, s₁⟩ <;> rw [hr] at hrun
    · cases hrun
    · cases hrun
      obtain ⟨t', hgr, -, hfind⟩ := flush_grounded h hr
      exact ⟨t', hgr, hfind⟩
  | restart told =>
    simp only [Call.run, bind_run] at hrun
    rcases hr : (flush told).run s with ⟨e | r, s₁⟩ <;> rw [hr] at hrun
    · cases hrun
    · cases hrun
      obtain ⟨t', hgr, hroot, hfind⟩ := flush_grounded h hr
      exact ⟨t', hgr.afresh rfl fun d hrep => rep_fromRoot hrep hroot, hfind⟩
  | takeDelta =>
    cases hrun
    exact ⟨t, h.afresh rfl fun _ hrep => hrep, fun _ => rfl⟩
  | lookup key =>
    obtain ⟨s₁, hlook, hgr⟩ := lookup_grounded h key
    simp only [Call.run, bind_run, hlook, pure_run, Prod.mk.injEq, true_and] at hrun
    subst hrun
    exact ⟨t, hgr, fun _ => rfl⟩

theorem calls_grounded (h : Grounded s t) (cs : List (Call H)) (hrun : (each Call.run cs).run s = (.ok (), s')) :
    ∃ t', Grounded s' t' ∧ ∀ k, t'.find k 0 = cs.foldl Call.on (fun k => t.find k 0) k := by
  induction cs generalizing s t with
  | nil =>
    cases hrun
    exact ⟨t, h, fun _ => rfl⟩
  | cons c cs ih =>
    simp only [each, bind_run] at hrun
    rcases hr : c.run.run s with ⟨e | a, s₁⟩ <;> rw [hr] at hrun
    · cases hrun
    · obtain ⟨t₁, hgr, hfind⟩ := call_grounded h c hr
      obtain ⟨t', hgr', hfind'⟩ := ih hgr hrun
      exists t', hgr'
      intro k
      rw [hfind', List.foldl_cons, funext hfind]

/-- The empty index on a tract of a mirror that answers. -/
theorem empty_grounded (hon : s.On d) (hcur : s.tract.Cursors) (hempty : s.hamt = Hamt.empty) :
    Grounded s .empty := by
  exists d, ⟨[], []⟩
  constructor
  · exact
      { on := hon
        cursors := hcur
        rep := by rw [hempty]; rfl
        sep := trivial
        claims := fun p => by simp [hempty, Hamt.empty, LiveSet.refers_iff, Tree.Claims]
        added := by simp [hempty, Hamt.empty]
        removed := by simp [hempty, Hamt.empty]
        known := fun e he => absurd he List.not_mem_nil
        record := by simp [hempty, Hamt.empty] }
  · intro p hp
    simp [LiveSet.refers_iff] at hp

/-- After any calls that all succeeded, whatever they were told is live, every lookup finds what the same calls on a
map leave: the last value put, or nothing where the key was deleted since or never put. -/
theorem index_refines_map (hon : s.On d) (hcur : s.tract.Cursors) (hempty : s.hamt = Hamt.empty) (calls : List (Call H))
    (hrun : (each Call.run calls).run s = (.ok (), s')) (key : Key) :
    ((Hamt.lookup key).run s').1 = .ok (calls.foldl Call.on (fun _ => none) key) := by
  obtain ⟨t', hgr, hfind⟩ := calls_grounded (empty_grounded hon hcur hempty) calls hrun
  obtain ⟨s₁, hlook, -⟩ := lookup_grounded hgr key
  rw [hlook, hfind]
  rfl

section Restart

private def shelf : Dev Digest := ⟨64, fun _ => .zero, none, [], []⟩

private def shelved : Store Digest := ⟨Mirror.new shelf shelf, ⟨0, 64, 0, 0, none⟩, Hamt.empty⟩

private def nothingLive : Liveness Digest := ⟨fun _ _ => false, fun _ => false⟩

/-- Two keys that part only at their second chunk, the value of one in furrows: it is erased, and put again after a
restart. -/
private def shelving : List (Call Digest) :=
  [.put nothingLive (1#256 <<< 250) (List.replicate 9000 7), .put nothingLive (1#256 <<< 249) [1, 2, 3],
    .delete (1#256 <<< 250) .zeroIsErase, .restart nothingLive, .put nothingLive (1#256 <<< 250) []]

set_option maxRecDepth 10000 in
theorem index_refines_map_restarted :
    ∃ s', (each Call.run shelving).run shelved = (.ok (), s') ∧
      ∀ key, ((Hamt.lookup key).run s').1 = .ok (shelving.foldl Call.on (fun _ => none) key) := by
  have hready : shelved.mirror.Ready shelf :=
    ⟨rfl, rfl, by simp [shelved, Mirror.staged, Mirror.new], by simp [shelved, Mirror.new]⟩
  have hon : shelved.On shelf := ⟨hready, by decide⟩
  have hcur : shelved.tract.Cursors := ⟨by decide, by decide, by decide⟩
  have hok : ((each Call.run shelving).run shelved).1 = .ok () := by decide +kernel
  rcases hres : (each Call.run shelving).run shelved with ⟨r, s'⟩
  rw [hres] at hok
  obtain rfl : r = .ok () := hok
  exact ⟨s', rfl, index_refines_map hon hcur rfl shelving hres⟩

end Restart

end Hamt

end Manifestus
