import Manifestus.Index.Insert

/-! Flushing the index: dirty nodes are appended bottom-up; a flush that runs out of room leaves
an index that finds the same. -/
set_option linter.unusedSectionVars false

namespace Manifestus
open Prog Store

variable {H : Type} [Crates H] {d : Dev H} {live : LiveSet H} {s s' s₁ s₂ : Store H} {t t' t₁ t₂ : Tree H}
  {path : List (Fin 32)}

/-- Below a committed pointer nothing is in the arena. -/
theorem Rep.no_uses {view : Nat → Block H} {len : Nat} {arena : List (Node H)} {t : Tree H} :
    ∀ {path : List (Fin 32)} {c : Option (Child H)}, Rep view len arena path c t →
      (∀ i, c ≠ some (.dirty i)) → ∀ u, ¬ t.Uses u := by
  induction t with
  | empty => intro path c _ _ u hu; exact hu
  | leaf => intro path c _ _ u hu; exact hu
  | disk hash lba ch ih =>
    rintro path c ⟨-, slots, -, hch⟩ - u ⟨i, hi⟩
    refine ih i (hch i) (fun j hj => ?_) u hi
    rcases slots i with _ | p <;> simp at hj
  | dirty idx ch ih =>
    rintro path c ⟨hc, -⟩ hno
    exact absurd hc (hno idx)

/-- What a flush of a subtree does: the blocks it adds are new, and the subtree finds what it
found. -/
structure Flushed (live : LiveSet H) (d : Dev H) (path : List (Fin 32)) (s s' : Store H)
    (c' : Option (Child H)) (t t' : Tree H) : Prop where
  steps : Steps live d s s'
  rep : s'.Holds d path c' t'
  sep : t'.Sep
  locate : ∀ k, t'.locate k path.length = t.locate k path.length
  delta : ∃ l, s'.hamt = ({ s.hamt with arena := s'.hamt.arena } : Hamt H).gain l ∧
    (∀ e ∈ l, ¬ (live.Refers e.1 ∨ s.tract.Behind e.1) ∧ s'.tract.Behind e.1 ∧
      sealedHp (s'.view d e.1) = some e.2) ∧ (spots l).Nodup ∧
    ∀ p, t'.Claims p ↔ t.Claims p ∨ p ∈ spots l
  length : s'.hamt.arena.length = s.hamt.arena.length
  frame : ∀ u, ¬ t.Uses u → s'.hamt.arena[u]? = s.hamt.arena[u]?
  uses : ∀ u, t'.Uses u → t.Uses u

theorem Flushed.refl {c : Option (Child H)} (hon : s.On d) (hcur : s.tract.Cursors) (hrep : s.Holds d path c t)
    (hsep : t.Sep) : Flushed live d path s s c t t where
  steps := .refl hon hcur
  rep := hrep
  sep := hsep
  locate _ := rfl
  delta := ⟨[], by simp, by simp, by simp, by simp⟩
  length := rfl
  frame _ _ := rfl
  uses _ hu := hu

theorem Flushed.trans {c' c'' : Option (Child H)} (h : Flushed live d path s s₁ c' t t₁)
    (h' : Flushed live d path s₁ s₂ c'' t₁ t₂) : Flushed live d path s s₂ c'' t t₂ where
  steps := h.steps.trans h'.steps
  rep := h'.rep
  sep := h'.sep
  locate k := (h'.locate k).trans (h.locate k)
  delta := by
    obtain ⟨l, hhamt, hnew, hnd, hclaims⟩ := h.delta
    obtain ⟨l', hhamt', hnew', hnd', hclaims'⟩ := h'.delta
    refine ⟨l ++ l', ?_, ?_, ?_, fun p => ?_⟩
    · rw [hhamt', hhamt]
      simp [Hamt.gain]
    · intro e he
      rcases List.mem_append.mp he with he | he
      · obtain ⟨h₁, h₂, h₃⟩ := hnew e he
        exact ⟨h₁, h'.steps.behind _ h₂, by rw [h'.steps.frame _ (.inr h₂)]; exact h₃⟩
      · obtain ⟨h₁, h₂⟩ := hnew' e he
        exact ⟨fun hk => h₁ (hk.imp_right (h.steps.behind _)), h₂⟩
    · rw [spots_append, List.nodup_append']
      refine ⟨hnd, hnd', fun p hp hp' => ?_⟩
      obtain ⟨e, he, rfl⟩ := mem_spots.mp hp
      obtain ⟨e', he', heq⟩ := mem_spots.mp hp'
      exact (hnew' e' he').1 (heq ▸ .inr (hnew e he).2.1)
    · rw [hclaims', hclaims, spots_append, List.mem_append, or_assoc]
  length := h'.length.trans h.length
  frame u hu := (h'.frame u fun hc => hu (h.uses u hc)).trans (h.frame u hu)
  uses u hu := h.uses u (h'.uses u hu)

/-- What a flushed subtree holds is not written over. -/
theorem Flushed.kept {c' : Option (Child H)} (h : Flushed live d path s s' c' t t')
    (hkept : ∀ p, t.Claims p → live.Refers p ∨ s.tract.Behind p) {p : Nat} (hp : t'.Claims p) :
    live.Refers p ∨ s'.tract.Behind p := by
  obtain ⟨l, -, hnew, -, hclaims⟩ := h.delta
  rcases (hclaims p).mp hp with hp | hp
  · exact (hkept p hp).imp_right (h.steps.behind p)
  · obtain ⟨e, he, rfl⟩ := mem_spots.mp hp
    exact .inr (hnew e he).2.1

/-- A child is flushed and its pointer, new or old, stands in the node. -/
theorem Flushed.child {idx : Nat} {node : Node H} {ch : Fin 32 → Tree H} {c : Fin 32} {sub : Option (Child H)}
    {arena : List (Node H)} (hnode : s.hamt.arena[idx]? = some node) (hdepth : node.depth = path.length)
    (hmax : path.length < maxDepth) (hroute : OnPath path node.route)
    (hch : ∀ i, s.Holds d (path ++ [i]) (node.children i) (ch i)) (hsep : (Tree.dirty idx ch).Sep)
    (hkept : ∀ p, (Tree.dirty idx ch).Claims p → live.Refers p ∨ s.tract.Behind p)
    (h : Flushed live d (path ++ [c]) s s₁ sub (ch c) t₁) (hlen : arena.length = s₁.hamt.arena.length)
    (hself : arena[idx]? = some { node with children := Function.update node.children c sub })
    (hother : ∀ u, u ≠ idx → arena[u]? = s₁.hamt.arena[u]?) :
    Flushed live d path s { s₁ with hamt := { s₁.hamt with arena := arena } } (some (.dirty idx))
      (.dirty idx ch) (.dirty idx (Function.update ch c t₁)) := by
  obtain ⟨l, hhamt, hnew, hnd, hclaims⟩ := h.delta
  obtain ⟨hseps, hapart, hidx⟩ := hsep
  have hfresh : ∀ p ∈ spots l, ∀ i, ¬ (ch i).Claims p := by
    intro p hp i hc
    obtain ⟨e, he, rfl⟩ := mem_spots.mp hp
    exact (hnew e he).1 (hkept _ ⟨i, hc⟩)
  have hidx₁ : ¬ t₁.Uses idx := fun hu => hidx c (h.uses idx hu)
  refine
    { steps := h.steps.of_hamt _
      rep := ⟨rfl, _, hself, hdepth, hmax, hroute, fun i => ?_⟩
      sep := ⟨Tree.sep_update hseps h.sep, hapart.update (fun p hp => ?_) (fun u hu => .inl (h.uses u hu)), ?_⟩
      locate := fun k => ?_
      delta := ⟨l, by rw [hhamt]; rfl, hnew, hnd, fun p => ?_⟩
      length := hlen.trans h.length
      frame := fun u hu => ?_
      uses := fun u hu => ?_ }
  · by_cases hi : i = c
    · subst hi
      simp only [Function.update_self]
      exact Rep.congr h.rep le_rfl (fun _ _ => rfl) fun u hu => hother u (by rintro rfl; exact hidx₁ hu)
    · simp only [Function.update_of_ne hi]
      refine Rep.congr (hch i) (le_of_eq h.steps.len.symm)
        (fun p hp => h.steps.frame p (hkept p ⟨i, hp⟩)) fun u hu => ?_
      rw [hother u (by rintro rfl; exact hidx i hu)]
      exact h.frame u ((hapart i c hi).2 u hu)
  · rcases (hclaims p).mp hp with hp | hp
    · exact .inl hp
    · exact .inr fun i _ => hfresh p hp i
  · intro i hi
    by_cases hic : i = c
    · subst hic
      rw [Function.update_self] at hi
      exact hidx₁ hi
    · rw [Function.update_of_ne hic] at hi
      exact hidx i hi
  · rw [Tree.locate_dirty, Tree.locate_dirty]
    by_cases hk : chunk k path.length = c
    · rw [hk, Function.update_self]
      have := h.locate k
      rwa [List.length_append, List.length_singleton] at this
    · rw [Function.update_of_ne hk]
  · refine (Tree.exists_update (P := fun t => t.Claims p)).trans ?_
    rw [hclaims]
    constructor
    · rintro ((hp | hp) | ⟨i, -, hp⟩)
      · exact .inl ⟨c, hp⟩
      · exact .inr hp
      · exact .inl ⟨i, hp⟩
    · rintro (⟨i, hp⟩ | hp)
      · by_cases hi : i = c
        · exact .inl (.inl (hi ▸ hp))
        · exact .inr ⟨i, hi, hp⟩
      · exact .inl (.inr hp)
  · rw [hother u fun hui => hu (.inl hui)]
    exact h.frame u fun hc => hu (.inr ⟨c, hc⟩)
  · rcases hu with rfl | hu
    · exact .inl rfl
    · rcases (Tree.exists_update (P := fun t => t.Uses u)).mp hu with hu | ⟨i, -, hu⟩
      · exact .inr ⟨c, h.uses u hu⟩
      · exact .inr ⟨i, hu⟩

namespace Hamt

/-- The child of the node at `idx` is not waiting to be flushed. -/
def Clean (s : Store H) (idx : Nat) (c : Fin 32) : Prop :=
  ∀ node, s.hamt.arena[idx]? = some node → ∀ j, node.children c ≠ some (.dirty j)

/-- What is known of a dirty node before it is flushed. -/
structure Ripe (live : LiveSet H) (d : Dev H) (path : List (Fin 32)) (s : Store H) (idx : Nat)
    (ch : Fin 32 → Tree H) : Prop where
  on : s.On d
  cursors : s.tract.Cursors
  rep : s.Holds d path (some (.dirty idx)) (.dirty idx ch)
  sep : (Tree.dirty idx ch).Sep
  kept : ∀ p, (Tree.dirty idx ch).Claims p → live.Refers p ∨ s.tract.Behind p

theorem Ripe.flushed {idx : Nat} {ch ch' : Fin 32 → Tree H} (h : Ripe live d path s idx ch)
    (hf : Flushed live d path s s' (some (.dirty idx)) (.dirty idx ch) (.dirty idx ch')) :
    Ripe live d path s' idx ch' :=
  ⟨hf.steps.on, hf.steps.cursors, hf.rep, hf.sep, fun _ hp => hf.kept h.kept hp⟩

/-- The flush of a node: its pointer on success, the node with some children flushed else. -/
def Flushes (live : LiveSet H) (d : Dev H) (fuel : Nat) : Prop :=
  ∀ {path : List (Fin 32)} {s : Store H} {idx : Nat} {ch : Fin 32 → Tree H}, Ripe live d path s idx ch →
    fuel + path.length = descentFuel →
    Sat (flushNode live.liveness fuel idx) s
      (fun r s' => s'.hamt.delta.added ≠ [] ∧
        ∃ t', Flushed live d path s s' (some (.committed r.1 r.2)) (.dirty idx ch) t')
      (fun e s' => e.Refused ∧
        ∃ ch', Flushed live d path s s' (some (.dirty idx)) (.dirty idx ch) (.dirty idx ch'))

private theorem flushChild_sat {fuel idx : Nat} {ch : Fin 32 → Tree H} (ih : Flushes live d fuel)
    (h : Ripe live d path s idx ch) (hfuel : fuel + 1 + path.length = descentFuel) (c : Fin 32) :
    Sat (flushChild (flushNode live.liveness fuel) idx c) s
      (fun _ s' => (∃ ch', Flushed live d path s s' (some (.dirty idx)) (.dirty idx ch) (.dirty idx ch')) ∧
        Clean s' idx c ∧ ∀ c', Clean s idx c' → Clean s' idx c')
      (fun e s' => e.Refused ∧
        ∃ ch', Flushed live d path s s' (some (.dirty idx)) (.dirty idx ch) (.dirty idx ch')) := by
  obtain ⟨-, node, hnode, hdepth, hmax, hroute, hch⟩ := h.rep
  refine sat_run (nodeAt_run hnode) ?_
  by_cases hdirty : ∃ sub, node.children c = some (.dirty sub)
  · obtain ⟨sub, hsub⟩ := hdirty
    have hc := hch c
    obtain ⟨ch₁, hch₁⟩ : ∃ ch₁, ch c = .dirty sub ch₁ := by
      rw [hsub] at hc
      cases hcc : ch c with
      | empty => rw [hcc] at hc; cases hc
      | leaf => rw [hcc] at hc; cases hc.1
      | disk => rw [hcc] at hc; cases hc.1
      | dirty j ch₁ =>
        rw [hcc] at hc
        cases hc.1
        exact ⟨ch₁, rfl⟩
    have hidx : sub ≠ idx := by
      rintro rfl
      exact h.sep.2.2 c (by rw [hch₁]; exact .inl rfl)
    have hripe : Ripe live d (path ++ [c]) s sub ch₁ := by
      refine ⟨h.on, h.cursors, ?_, ?_, fun p hp => h.kept p ⟨c, by rw [hch₁]; exact hp⟩⟩
      · rw [hsub, hch₁] at hc
        exact hc
      · rw [← hch₁]
        exact h.sep.1 c
    rw [hsub]
    refine sat_bind ((ih hripe (by simp; omega)).mono (fun _ _ h => h) fun e s' hf => ?_) fun r s₁ hf => ?_
    · obtain ⟨href, ch', hf⟩ := hf
      rw [← hch₁] at hf
      have hself : s'.hamt.arena[idx]? = some node :=
        (hf.frame idx (h.sep.2.2 c)).trans hnode
      have hsame : ({ node with children := Function.update node.children c (some (.dirty sub)) } : Node H) = node := by
        rw [← hsub, Function.update_eq_self]
      exact ⟨href, _, Flushed.child hnode hdepth hmax hroute hch h.sep h.kept hf rfl (by rw [hsame]; exact hself)
        fun _ _ => rfl⟩
    · obtain ⟨-, t₁, hf⟩ := hf
      rw [← hch₁] at hf
      have hself : s₁.hamt.arena[idx]? = some node := (hf.frame idx (h.sep.2.2 c)).trans hnode
      have hset : (s₁.hamt.arena.modify idx fun nd => { nd with
          children := Function.update nd.children c (some (.committed r.1 r.2)) })[idx]? =
          some { node with children := Function.update node.children c (some (.committed r.1 r.2)) } := by
        simp [hself]
      refine ⟨⟨_, Flushed.child hnode hdepth hmax hroute hch h.sep h.kept hf (by simp) hset ?_⟩, ?_, ?_⟩
      · intro u hu
        simp [Ne.symm hu]
      · intro nd hnd j
        obtain rfl := Option.some.inj (hset.symm.trans hnd)
        simp
      · intro c' hclean nd hnd j
        obtain rfl := Option.some.inj (hset.symm.trans hnd)
        by_cases hcc : c' = c
        · subst hcc
          simp
        · simp only [Function.update_of_ne hcc]
          exact hclean node hnode j
  · have hclean : Clean s idx c := by
      intro nd hnd j hj
      obtain rfl := Option.some.inj (hnode.symm.trans hnd)
      exact hdirty ⟨j, hj⟩
    have hstay : (∃ ch', Flushed live d path s s (some (.dirty idx)) (.dirty idx ch) (.dirty idx ch')) ∧
        Clean s idx c ∧ ∀ c', Clean s idx c' → Clean s idx c' :=
      ⟨⟨ch, .refl h.on h.cursors h.rep h.sep⟩, hclean, fun _ hc => hc⟩
    rcases hcc : node.children c with _ | (⟨_, _⟩ | sub)
    · exact hstay
    · exact hstay
    · exact absurd ⟨sub, hcc⟩ hdirty

private theorem flushChildren_sat {fuel idx : Nat} (ih : Flushes live d fuel)
    (hfuel : fuel + 1 + path.length = descentFuel) (cs : List (Fin 32)) :
    ∀ {s : Store H} {ch : Fin 32 → Tree H}, Ripe live d path s idx ch →
    Sat (each (flushChild (flushNode live.liveness fuel) idx) cs) s
      (fun _ s' => (∃ ch', Flushed live d path s s' (some (.dirty idx)) (.dirty idx ch) (.dirty idx ch')) ∧
        (∀ c ∈ cs, Clean s' idx c) ∧ ∀ c, Clean s idx c → Clean s' idx c)
      (fun e s' => e.Refused ∧
        ∃ ch', Flushed live d path s s' (some (.dirty idx)) (.dirty idx ch) (.dirty idx ch')) := by
  induction cs with
  | nil =>
    intro s ch h
    exact ⟨⟨ch, .refl h.on h.cursors h.rep h.sep⟩, by simp, fun _ hc => hc⟩
  | cons c cs ihcs =>
    intro s ch h
    refine sat_bind (flushChild_sat ih h hfuel c) fun _ s₁ hs₁ => ?_
    obtain ⟨⟨ch₁, hf₁⟩, hclean₁, hmono₁⟩ := hs₁
    refine (ihcs (h.flushed hf₁)).mono ?_ ?_
    · rintro _ s₂ ⟨⟨ch₂, hf₂⟩, hclean₂, hmono₂⟩
      refine ⟨⟨ch₂, hf₁.trans hf₂⟩, ?_, fun c' hc' => hmono₂ c' (hmono₁ c' hc')⟩
      intro c' hc'
      rcases List.mem_cons.mp hc' with rfl | hc'
      · exact hmono₂ _ hclean₁
      · exact hclean₂ c' hc'
    · rintro e s₂ ⟨href, ch₂, hf₂⟩
      exact ⟨href, ch₂, hf₁.trans hf₂⟩

/-- The document a node whose children are all on the tract is encoded as. -/
def nodeDoc (node : Node H) : Doc H :=
  .node node.depth node.route fun i => (node.children i).bind Child.slot

/-- A node whose children are all on the tract, appended. -/
private theorem appended_node {idx : Nat} {ch : Fin 32 → Tree H} {node : Node H} {lba : Nat}
    (h : Ripe live d path s idx ch) (hnode : s.hamt.arena[idx]? = some node)
    (hclean : ∀ c, Clean s idx c)
    (happ : Tract.Appended live.liveness d (fun _ => sealBlock (nodeDoc node)) [lba] s s') :
    Flushed live d path s { s' with hamt := s'.hamt.gain [(lba, Crates.hash (nodeDoc node) 0)] }
      (some (.committed (Crates.hash (nodeDoc node) 0) lba)) (.dirty idx ch)
      (.disk (Crates.hash (nodeDoc node) 0) lba ch) := by
  set slots : Fin 32 → Option (H × Nat) := fun i => (node.children i).bind Child.slot with hslots
  obtain ⟨-, node', hnode', hdepth, hmax, hroute, hch⟩ := h.rep
  obtain rfl := Option.some.inj (hnode.symm.trans hnode')
  have hsteps := happ.steps fun _ _ _ e x he => by simp [sealBlock, nodeDoc] at he
  obtain ⟨hlt, href, hbehind⟩ := happ.fresh lba (by simp)
  have hview : s'.view d lba = sealBlock (nodeDoc node) := happ.placed 0 lba rfl
  have hnot : ¬ (live.Refers lba ∨ s.tract.Behind lba) := by simp [LiveSet.Refers, href, hbehind]
  -- a clean child is the committed pointer its slot encodes
  have hchild : ∀ i, (slots i).map (fun p => Child.committed p.1 p.2) = node.children i := by
    intro i
    simp only [hslots]
    rcases hc : node.children i with _ | (⟨h', l'⟩ | j)
    · rfl
    · rfl
    · exact absurd hc (hclean i node hnode j)
  have hch' : ∀ i, Rep (s'.view d) s'.tract.len s'.hamt.arena (path ++ [i])
      ((slots i).map fun p => .committed p.1 p.2) (ch i) := by
    intro i
    rw [hchild]
    refine Rep.congr (hch i) (le_of_eq hsteps.len.symm) (fun p hp => hsteps.frame p (h.kept p ⟨i, hp⟩))
      fun u _ => ?_
    rw [happ.hamt]
  have hnouses : ∀ i u, ¬ (ch i).Uses u := by
    intro i
    refine (hch i).no_uses fun j => ?_
    exact hclean i node hnode j
  refine
    { steps := hsteps.of_hamt _
      rep := ⟨rfl, slots, ⟨?_, hmax, ⟨node.route, 0, ?_, ?_, hroute⟩, ?_⟩, hch'⟩
      sep := ⟨h.sep.1, h.sep.2.1, fun i hi => hnot (h.kept lba ⟨i, hi⟩)⟩
      locate := fun k => rfl
      delta := ⟨[(lba, Crates.hash (nodeDoc node) 0)], ?_, ?_, by simp, fun p => ?_⟩
      length := congrArg (fun h => h.arena.length) happ.hamt
      frame := fun u _ => congrArg (fun h => h.arena[u]?) happ.hamt
      uses := fun u hu => by
        obtain ⟨i, hi⟩ := hu
        exact absurd hi (hnouses i u) }
  · show lba < s'.tract.len
    rw [hsteps.len]
    exact hlt
  · rw [← hdepth]
    exact hview
  · rw [← hdepth]
    rfl
  · intro i p hp
    have hc := hch' i
    rw [hp] at hc
    have hclaim : (ch i).Claims p.2 := by
      cases hcc : ch i with
      | empty => rw [hcc] at hc; cases hc
      | leaf => rw [hcc] at hc; cases hc.1; exact .inl rfl
      | disk => rw [hcc] at hc; cases hc.1; exact .inl rfl
      | dirty => rw [hcc] at hc; cases hc.1
    exact hc.claims_lt hclaim
  · rw [happ.hamt]
    rfl
  · intro e he
    rw [List.mem_singleton.mp he]
    refine ⟨hnot, (happ.behind lba).mpr (.inr (by simp)), ?_⟩
    show sealedHp (s'.view d lba) = _
    rw [hview]
    rfl
  · simp [Tree.Claims, or_comm]

theorem flushNode_sat : ∀ fuel, Flushes live d fuel := by
  intro fuel
  induction fuel with
  | zero =>
    intro path s idx ch h hfuel
    obtain ⟨-, node, -, -, hmax, -, -⟩ := h.rep
    simp [descentFuel] at hfuel
    omega
  | succ fuel ih =>
    intro path s idx ch h hfuel
    rw [flushNode, flushOne]
    refine sat_bind (x := each (flushChild (flushNode live.liveness fuel) idx) (List.finRange 32))
      (flushChildren_sat ih hfuel _ h) fun _ s₁ hs₁ => ?_
    obtain ⟨⟨ch₁, hf₁⟩, hclean, -⟩ := hs₁
    have hripe := h.flushed hf₁
    obtain ⟨-, node, hnode, -, -, -, -⟩ := hripe.rep
    have hdirty : ¬ ((List.finRange 32).any fun i => (node.children i).any Child.isDirty) = true := by
      simp only [List.any_eq_true, not_exists, not_and]
      intro i hi
      rcases hc : node.children i with _ | (⟨h', l'⟩ | j)
      · simp
      · simp [Child.isDirty]
      · exact absurd hc (hclean i hi node hnode j)
    refine sat_run (nodeAt_run hnode) (sat_run (a := sealBlock (nodeDoc node)) (t := s₁) ?_ ?_)
    · rw [encodeNode, if_neg hdirty]
      rfl
    refine sat_bind ((Tract.appendOne_sat hripe.on hripe.cursors _).mono (fun _ _ h => h) fun e s' hs' => ?_)
      fun lba s₂ happ => ?_
    · refine ⟨hs'.1, ch₁, hf₁.trans ?_⟩
      have hsteps := hs'.2.steps hripe.cursors
      have hrefl : Flushed live d path s₁ s₁ (some (.dirty idx)) (.dirty idx ch₁) (.dirty idx ch₁) :=
        .refl hripe.on hripe.cursors hripe.rep hripe.sep
      exact
        { hrefl with
          steps := hsteps
          rep := by
            rw [Store.Holds, hs'.2.view, hs'.2.tract, hs'.2.hamt]
            exact hripe.rep
          delta := ⟨[], by rw [hs'.2.hamt]; simp, by simp, by simp, by simp⟩
          length := by rw [hs'.2.hamt]
          frame := fun u _ => by rw [hs'.2.hamt] }
    · have hflushed := hf₁.trans (appended_node hripe hnode (fun c => hclean c (List.mem_finRange c)) happ)
      rw [sealedHp_sealBlock]
      exact sat_run (onHamt_run _ _) (sat_pure ⟨by simp [pushAdded], _, hflushed⟩)

theorem ne_zeros_of_sealed {b : Block H} {hash : H} (h : sealedHp b = some hash) : hash ≠ Crates.zeros := by
  cases b with
  | zero => cases h
  | raw => cases h
  | sealed doc extra =>
    cases h
    exact Crates.hash_ne_zeros doc extra

/-- A committed pointer of a sound index is the root a resume starts from. -/
theorem fromRoot_root_of_rep {view : Nat → Block H} {len : Nat} {arena : List (Node H)} {path : List (Fin 32)}
    {hash : H} {lba : Nat} {t : Tree H} (h : Rep view len arena path (some (.committed hash lba)) t) :
    (fromRoot hash lba : Hamt H).root = some (.committed hash lba) := by
  have hne : hash ≠ Crates.zeros := by
    cases t with
    | empty => cases h
    | leaf =>
      obtain ⟨hc, -, hleaf⟩ := h
      cases hc
      exact ne_zeros_of_sealed hleaf.hash_eq
    | disk =>
      obtain ⟨hc, slots, hnode, -⟩ := h
      cases hc
      exact ne_zeros_of_sealed hnode.hash_eq
    | dirty => cases h.1
  simp [fromRoot, hne]

/-- The arena may be dropped once the root is committed. -/
theorem drop_arena {P : Block H → Prop} (h : Accounted P live d s t) {hash : H} {lba : Nat}
    (hroot : s.hamt.root = some (.committed hash lba)) :
    Accounted P live d { s with hamt := { s.hamt with arena := [] } } t := by
  have hrep := h.rep
  rw [hroot] at hrep
  have hno := hrep.no_uses (by simp)
  exact
    { h with
      on := ⟨h.on.ready, h.on.fits⟩
      rep := Rep.congr h.rep le_rfl (fun _ _ => rfl) fun u hu => absurd hu (hno u) }

/-- A flush leaves a committed root that finds what the index found; without room it leaves an
index that does. -/
theorem flush_accounted {P : Block H → Prop} (h : Accounted P live d s t) :
    Sat (flush live.liveness) s
      (fun r s' => s'.hamt.root = (fromRoot r.1 r.2 : Hamt H).root ∧ (s.hamt.root ≠ none → s'.hamt.arena = []) ∧
        ∃ t', Gained P live d s s' t t' ∧ ∀ k, t'.find k 0 = t.find k 0)
      (fun e s' => e.Refused ∧ ∃ t', Gained P live d s s' t t' ∧ ∀ k, t'.find k 0 = t.find k 0) := by
  unfold flush
  refine sat_state ?_
  have hrep := h.rep
  rcases hroot : s.hamt.root with _ | (⟨hash, lba⟩ | idx)
  · refine sat_pure ⟨?_, fun hne => absurd rfl hne, t, .refl h, fun _ => rfl⟩
    simp [fromRoot, hroot]
  · rw [hroot] at hrep
    refine sat_run (onHamt_run _ _) (sat_pure ⟨?_, fun _ => rfl, t, ⟨(Steps.refl h.on h.cursors).of_hamt _,
      .inr ⟨rfl, rfl⟩, drop_arena h hroot, [], [], by simp, by simp, by simp, by simp, by simp⟩, fun _ => rfl⟩)
    rw [fromRoot_root_of_rep hrep]
    exact hroot
  · rw [hroot] at hrep
    obtain ⟨ch, rfl⟩ : ∃ ch, t = .dirty idx ch := by
      cases t with
      | empty => cases hrep
      | leaf => cases hrep.1
      | disk => cases hrep.1
      | dirty j ch =>
        cases hrep.1
        exact ⟨ch, rfl⟩
    have hripe : Ripe live d [] s idx ch := ⟨h.on, h.cursors, hrep, h.sep, fun _ hp => h.kept hp⟩
    -- a flushed index accounts for what it added
    have haccount : ∀ {s' : Store H} {c' : Option (Child H)} {t' : Tree H},
        Flushed live d [] s s' c' (.dirty idx ch) t' →
        s.hamt.Fate (s'.hamt.setRoot c') →
        Gained P live d s { s' with hamt := s'.hamt.setRoot c' } (.dirty idx ch) t' ∧
          ∀ k, t'.find k 0 = (Tree.dirty idx ch).find k 0 := by
      intro s' c' t' hf hfate
      obtain ⟨l, hhamt, hnew, hnd, hclaims⟩ := hf.delta
      have hadd : s'.hamt.delta.added = s.hamt.delta.added ++ l := by
        rw [hhamt]
        rfl
      have hrem : s'.hamt.delta.removed = s.hamt.delta.removed ++ [] := by
        rw [hhamt]
        simp [gain]
      refine ⟨⟨hf.steps.of_hamt _, hfate, h.account (hf.steps.of_hamt _) l [] hf.rep hf.sep hadd hrem hnew (by simp)
        (by simpa using hclaims), l, [], hadd, hrem, hnd, fun e he => (hnew e he).1, by simp⟩, fun k => ?_⟩
      rw [Tree.find, Tree.find]
      exact congrArg _ (hf.locate k)
    refine sat_bind ((flushNode_sat descentFuel hripe rfl).mono (fun _ _ h => h) fun e s' hs' => ?_)
      fun r s' hs' => ?_
    · obtain ⟨href, ch', hf⟩ := hs'
      obtain ⟨l, hhamt, -⟩ := hf.delta
      have hroot' : s'.hamt.root = some (.dirty idx) := by rw [hhamt]; exact hroot
      have hsame : s'.hamt.setRoot (some (.dirty idx)) = s'.hamt := by rw [← hroot']; rfl
      obtain ⟨hgained, hfind⟩ := haccount hf (.inl (by simp [hasUncommitted, isDirty, setRoot, Child.isDirty]))
      rw [hsame] at hgained
      exact ⟨href, _, hgained, hfind⟩
    · obtain ⟨hadded, t', hf⟩ := hs'
      obtain ⟨hgained, hfind⟩ := haccount hf (fate_of_added hadded)
      refine sat_run (onHamt_run _ _) (sat_run (onHamt_run _ _) (sat_pure ⟨?_, fun _ => rfl, t',
        ⟨hgained.steps.of_hamt _, hgained.fate, drop_arena hgained.accounted rfl, hgained.delta⟩, hfind⟩))
      rw [fromRoot_root_of_rep hf.rep]
      rfl

theorem flush_sat (h : Indexed live d s t) :
    Sat (flush live.liveness) s
      (fun r s' => Steps live d s s' ∧ s.hamt.Fate s'.hamt ∧ s'.hamt.root = (fromRoot r.1 r.2 : Hamt H).root ∧
        ∃ t', Indexed live d s' t' ∧ t.Within s t' ∧ ∀ k, t'.find k 0 = t.find k 0)
      (fun e s' => e.Refused ∧ Steps live d s s' ∧ s.hamt.Fate s'.hamt ∧
        ∃ t', Indexed live d s' t' ∧ t.Within s t' ∧ ∀ k, t'.find k 0 = t.find k 0) := by
  refine (flush_accounted (indexed_iff.mp h)).mono ?_ ?_
  · rintro r s' ⟨hroot, -, t', hg, hfind⟩
    exact ⟨hg.steps, hg.fate, hroot, t', indexed_iff.mpr hg.accounted, hg.within (indexed_iff.mp h), hfind⟩
  · rintro e s' ⟨href, t', hg, hfind⟩
    exact ⟨href, hg.steps, hg.fate, t', indexed_iff.mpr hg.accounted, hg.within (indexed_iff.mp h), hfind⟩

end Hamt
end Manifestus
