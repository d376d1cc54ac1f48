import Manifestus.Index.Edit

/-! A pointer cut from the index by the way that leads to it: what a descent for any key still meets. -/
set_option linter.unusedSectionVars false

namespace Manifestus

variable {H : Type} [Crates H]

namespace Tree

/-- The blocks of nodes and leaves. -/
def Blocks : Tree H → Nat → Prop
  | .empty, _ => False
  | .leaf _ lba _ _ _, p => p = lba
  | .disk _ lba ch, p => p = lba ∨ ∃ i, (ch i).Blocks p
  | .dirty _ ch, p => ∃ i, (ch i).Blocks p

/-- The blocks that a descent for `k` from `depth` reads. -/
def Way (k : Key) : Nat → Tree H → Nat → Prop
  | _, .empty, _ => False
  | _, .leaf _ lba _ _ _, p => p = lba
  | depth, .disk _ lba ch, p => p = lba ∨ Way k (depth + 1) (ch (chunk k depth)) p
  | depth, .dirty _ ch, p => Way k (depth + 1) (ch (chunk k depth)) p

/-- The leaf that a descent for `k` from `depth` ends at, of whatever key it is. -/
def stop (k : Key) : Nat → Tree H → Option (H × Nat)
  | _, .empty => none
  | _, .leaf hash lba _ _ _ => some (hash, lba)
  | depth, .disk _ _ ch => stop k (depth + 1) (ch (chunk k depth))
  | depth, .dirty _ ch => stop k (depth + 1) (ch (chunk k depth))

/-- `t'` is `t` without the pointer `(h, l)` on the way of `k`; the nodes above it are copied. -/
inductive Cut (k : Key) (h : H) (l : Nat) : Nat → Tree H → Tree H → Prop
  | leaf {depth : Nat} {key : Key} {value : Bytes} {furrows : List Nat} :
      Cut k h l depth (.leaf h l key value furrows) .empty
  | node {depth : Nat} {ch : Fin 32 → Tree H} : Cut k h l depth (.disk h l ch) .empty
  | disk {depth lba idx : Nat} {hash : H} {ch : Fin 32 → Tree H} {t' : Tree H} (hne : ¬ (hash = h ∧ lba = l))
      (hcut : Cut k h l (depth + 1) (ch (chunk k depth)) t') :
      Cut k h l depth (.disk hash lba ch) (.dirty idx (Function.update ch (chunk k depth) t'))
  | dirty {depth idx : Nat} {ch : Fin 32 → Tree H} {t' : Tree H}
      (hcut : Cut k h l (depth + 1) (ch (chunk k depth)) t') :
      Cut k h l depth (.dirty idx ch) (.dirty idx (Function.update ch (chunk k depth) t'))

variable {k k' : Key} {h h' : H} {l l' p depth : Nat} {t t' x y : Tree H}

/-- What is found under a pointer belongs to the tree. -/
theorem claims_of_seek {k : Key} {h : H} {l p : Nat} {x : Tree H} {t : Tree H} :
    ∀ {depth : Nat}, t.seek k h l depth = some x → x.Claims p → t.Claims p := by
  induction t with
  | empty => intro depth hs; simp [seek] at hs
  | leaf hash lba key value furrows =>
    intro depth hs hp
    rw [seek] at hs
    split at hs
    · cases hs; exact hp
    · cases hs
  | disk hash lba ch ih =>
    intro depth hs hp
    rw [seek] at hs
    split at hs
    · cases hs; exact hp
    · exact .inr ⟨_, ih _ hs hp⟩
  | dirty idx ch ih =>
    intro depth hs hp
    exact ⟨_, ih _ hs hp⟩

theorem Sep.sought {k : Key} {h : H} {l : Nat} {x : Tree H} {t : Tree H} :
    ∀ {depth : Nat}, t.Sep → t.seek k h l depth = some x → x.Sep := by
  induction t with
  | empty => intro depth _ hs; simp [seek] at hs
  | leaf hash lba key value furrows =>
    intro depth ht hs
    rw [seek] at hs
    split at hs
    · cases hs; exact ht
    · cases hs
  | disk hash lba ch ih =>
    intro depth ht hs
    rw [seek] at hs
    split at hs
    · cases hs; exact ht
    · exact ih _ (ht.1 _) hs
  | dirty idx ch ih =>
    intro depth ht hs
    exact ih _ (ht.1 _) hs

theorem Blocks.claims (hp : t.Blocks p) : t.Claims p := by
  induction t with
  | empty => exact hp
  | leaf hash lba key value furrows => exact .inl hp
  | disk hash lba ch ih =>
    rcases hp with hp | ⟨i, hi⟩
    · exact .inl hp
    · exact .inr ⟨i, ih i hi⟩
  | dirty idx ch ih =>
    obtain ⟨i, hi⟩ := hp
    exact ⟨i, ih i hi⟩

theorem Way.blocks (hp : t.Way k depth p) : t.Blocks p := by
  induction t generalizing depth with
  | empty => exact hp
  | leaf hash lba key value furrows => exact hp
  | disk hash lba ch ih => exact hp.imp_right fun hp => ⟨_, ih _ hp⟩
  | dirty idx ch ih => exact ⟨_, ih _ hp⟩

/-- A pointer leads to the block it names. -/
theorem claims_root (hs : t.seek k h l depth = some x) : x.Claims l := by
  induction t generalizing depth with
  | empty => simp [seek] at hs
  | leaf hash lba key value furrows =>
    rw [seek] at hs
    split at hs
    next heq =>
      cases hs
      exact .inl heq.2.symm
    · cases hs
  | disk hash lba ch ih =>
    rw [seek] at hs
    split at hs
    next heq =>
      cases hs
      exact .inl heq.2.symm
    · exact ih _ hs
  | dirty idx ch ih => exact ih _ hs

namespace Cut

/-- The cut leaves a pointer that neither leads to the one cut nor is below it. -/
theorem seek (hc : Cut k h l depth t t') (hx : t.seek k h l depth = some x) (hy : t.seek k' h' l' depth = some y)
    (hapart : ∀ p, x.Claims p → ¬ y.Claims p) : t'.seek k' h' l' depth = some y := by
  induction hc with
  | leaf =>
    rw [Tree.seek, if_pos ⟨rfl, rfl⟩] at hx
    cases hx
    exact absurd (claims_root hy) (hapart _ (claims_of_seek hy (claims_root hy)))
  | node =>
    rw [Tree.seek, if_pos ⟨rfl, rfl⟩] at hx
    cases hx
    exact absurd (claims_root hy) (hapart _ (claims_of_seek hy (claims_root hy)))
  | @disk depth lba idx hash ch t' hne hcut ih =>
    rw [Tree.seek, if_neg hne] at hx
    rw [Tree.seek] at hy
    split at hy
    · cases hy
      exact absurd (.inr ⟨_, claims_of_seek hx (claims_root hx)⟩) (hapart _ (claims_root hx))
    · rw [Tree.seek]
      by_cases hk : chunk k' depth = chunk k depth
      · rw [hk] at hy ⊢
        rw [Function.update_self]
        exact ih hx hy
      · rw [Function.update_of_ne hk]
        exact hy
  | @dirty depth idx ch t' hcut ih =>
    rw [Tree.seek] at hx hy ⊢
    by_cases hk : chunk k' depth = chunk k depth
    · rw [hk] at hy ⊢
      rw [Function.update_self]
      exact ih hx hy
    · rw [Function.update_of_ne hk]
      exact hy

theorem seek_none (hc : Cut k h l depth t t') (hy : t.seek k' h' l' depth = none) : t'.seek k' h' l' depth = none := by
  induction hc with
  | leaf => rfl
  | node => rfl
  | @disk depth lba idx hash ch t' hne hcut ih =>
    rw [Tree.seek] at hy
    split at hy
    · cases hy
    · rw [Tree.seek]
      by_cases hk : chunk k' depth = chunk k depth
      · rw [hk] at hy ⊢
        rw [Function.update_self]
        exact ih hy
      · rw [Function.update_of_ne hk]
        exact hy
  | @dirty depth idx ch t' hcut ih =>
    rw [Tree.seek] at hy
    rw [Tree.seek]
    by_cases hk : chunk k' depth = chunk k depth
    · rw [hk] at hy ⊢
      rw [Function.update_self]
      exact ih hy
    · rw [Function.update_of_ne hk]
      exact hy

theorem way (hc : Cut k h l depth t t') (hp : t'.Way k' depth p) : t.Way k' depth p := by
  induction hc with
  | leaf => exact hp.elim
  | node => exact hp.elim
  | @disk depth lba idx hash ch t' hne hcut ih =>
    rw [Way] at hp
    refine .inr ?_
    by_cases hk : chunk k' depth = chunk k depth
    · rw [hk] at hp ⊢
      rw [Function.update_self] at hp
      exact ih hp
    · rwa [Function.update_of_ne hk] at hp
  | @dirty depth idx ch t' hcut ih =>
    rw [Way] at hp ⊢
    by_cases hk : chunk k' depth = chunk k depth
    · rw [hk] at hp ⊢
      rw [Function.update_self] at hp
      exact ih hp
    · rwa [Function.update_of_ne hk] at hp

theorem blocks (hc : Cut k h l depth t t') (hp : t'.Blocks p) : t.Blocks p := by
  induction hc with
  | leaf => exact hp.elim
  | node => exact hp.elim
  | disk hne hcut ih =>
    rcases (exists_update (P := fun t => t.Blocks p)).mp hp with hp | ⟨i, -, hp⟩
    · exact .inr ⟨_, ih hp⟩
    · exact .inr ⟨i, hp⟩
  | dirty hcut ih =>
    rcases (exists_update (P := fun t => t.Blocks p)).mp hp with hp | ⟨i, -, hp⟩
    · exact ⟨_, ih hp⟩
    · exact ⟨i, hp⟩

/-- A descent that does not pass the pointer ends where it ended. -/
theorem stop (hc : Cut k h l depth t t') (hs : t.seek k' h l depth = none) : t'.stop k' depth = t.stop k' depth := by
  induction hc with
  | leaf => simp [Tree.seek] at hs
  | node => simp [Tree.seek] at hs
  | @disk depth lba idx hash ch t' hne hcut ih =>
    rw [Tree.seek, if_neg hne] at hs
    rw [Tree.stop, Tree.stop]
    by_cases hk : chunk k' depth = chunk k depth
    · rw [hk] at hs ⊢
      rw [Function.update_self]
      exact ih hs
    · rw [Function.update_of_ne hk]
  | @dirty depth idx ch t' hcut ih =>
    rw [Tree.seek] at hs
    rw [Tree.stop, Tree.stop]
    by_cases hk : chunk k' depth = chunk k depth
    · rw [hk] at hs ⊢
      rw [Function.update_self]
      exact ih hs
    · rw [Function.update_of_ne hk]

/-- One that passed it ends there. -/
theorem stop_none (hc : Cut k h l depth t t') (hsep : t.Sep) (hx : t.seek k h l depth = some x)
    (hs : t.seek k' h l depth = some y) : t'.stop k' depth = none := by
  induction hc with
  | leaf => rfl
  | node => rfl
  | @disk depth lba idx hash ch t' hne hcut ih =>
    rw [Tree.seek, if_neg hne] at hs hx
    rw [Tree.stop]
    by_cases hk : chunk k' depth = chunk k depth
    · rw [hk] at hs ⊢
      rw [Function.update_self]
      exact ih (hsep.1 _) hx hs
    · exact absurd (claims_of_seek hx (claims_root hx))
        ((hsep.2.1 _ _ hk).1 _ (claims_of_seek hs (claims_root hs)))
  | @dirty depth idx ch t' hcut ih =>
    rw [Tree.seek] at hs hx
    rw [Tree.stop]
    by_cases hk : chunk k' depth = chunk k depth
    · rw [hk] at hs ⊢
      rw [Function.update_self]
      exact ih (hsep.1 _) hx hs
    · exact absurd (claims_of_seek hx (claims_root hx))
        ((hsep.2.1 _ _ hk).1 _ (claims_of_seek hs (claims_root hs)))

/-- A descent that ended nowhere still does. -/
theorem stop_of_none (hc : Cut k h l depth t t') (hs : t.stop k' depth = none) : t'.stop k' depth = none := by
  induction hc with
  | leaf => rfl
  | node => rfl
  | @disk depth lba idx hash ch t' hne hcut ih =>
    rw [Tree.stop] at hs
    rw [Tree.stop]
    by_cases hk : chunk k' depth = chunk k depth
    · rw [hk] at hs ⊢
      rw [Function.update_self]
      exact ih hs
    · rw [Function.update_of_ne hk]
      exact hs
  | @dirty depth idx ch t' hcut ih =>
    rw [Tree.stop] at hs
    rw [Tree.stop]
    by_cases hk : chunk k' depth = chunk k depth
    · rw [hk] at hs ⊢
      rw [Function.update_self]
      exact ih hs
    · rw [Function.update_of_ne hk]
      exact hs

end Cut
end Tree
end Manifestus
