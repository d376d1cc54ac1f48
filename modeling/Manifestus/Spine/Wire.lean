import Manifestus.Engine.Codec
import Manifestus.Engine.PlainVsf

/-! The hash a spine entry is chained by, against the seal of the block it was read from. -/
set_option linter.unusedSectionVars false

namespace Manifestus
open Vsf

section Wire

variable [Vsf]

theorem schema_written : (VsfType.d schema).Written := by
  show schema.length < 2 ^ 8
  decide

theorem flattenPairs_cons (p : Bytes × VsfType) (ps : List (Bytes × VsfType)) :
    flattenPairs (p :: ps) = flatten (.d p.1) ++ (flatten p.2 ++ flattenPairs ps) := by
  simp [flattenPairs]

theorem head_replicate_zero (n : Nat) : (List.replicate n (0 : UInt8)).head? ≠ some 0x64 := by
  cases n with
  | zero => simp
  | succ n =>
    rw [List.replicate_succ, List.head?_cons]
    decide

section Pairs

variable {σ : Type} {take : σ → Bytes → VsfType → Except Error σ}

/-- Fields taken in order. -/
def takeFields (take : σ → Bytes → VsfType → Except Error σ) : σ → List (Bytes × VsfType) → Except Error σ
  | s, [] => .ok s
  | s, p :: ps =>
    match take s p.1 p.2 with
    | .error e => .error e
    | .ok s => takeFields take s ps

theorem takeFields_append {s s' : σ} {ps qs : List (Bytes × VsfType)} (h : takeFields take s ps = .ok s') :
    takeFields take s (ps ++ qs) = takeFields take s' qs := by
  induction ps generalizing s with
  | nil =>
    cases h
    rfl
  | cons p ps ih =>
    rw [List.cons_append, takeFields]
    rw [takeFields] at h
    rcases hp : take s p.1 p.2 with e | s₁
    · rw [hp] at h
      cases h
    · rw [hp] at h
      exact ih h

/-- Values that are parsed as what they were flattened from. -/
def Parsed (Good : VsfType → Prop) : Prop := ∀ x, Good x → ∀ front rest : Bytes, ∃ w,
  parse (front ++ (flatten x ++ rest)) front.length = .ok (w, front.length + (flatten x).length) ∧ x.ReadAs w

theorem parsed_written : Parsed VsfType.Written := by
  intro x hx front rest
  rw [← List.append_assoc]
  exact parse_flatten x hx front rest

theorem parse_name {name : Bytes} (h : name.length < 2 ^ 8) (front rest : Bytes) :
    parse (front ++ (flatten (.d name) ++ rest)) front.length =
      .ok (.d name, front.length + (flatten (.d name)).length) := by
  obtain ⟨w, hparse, hread⟩ := parsed_written (.d name) h front rest
  obtain rfl : w = .d name := hread
  exact hparse

/-- Fields are read in turn, up to the first byte that starts none. -/
theorem readPairs_flatten {Good : VsfType → Prop} (hgood : Parsed Good) (wrap : String → Error) (bad : Error)
    (htake : ∀ s name x w, Good x → x.ReadAs w → take s name w = take s name x) {rest : Bytes}
    (hrest : rest.head? ≠ some 0x64) : ∀ (ps : List (Bytes × VsfType)) (front : Bytes) (fuel : Nat) (s : σ),
    (∀ p ∈ ps, p.1.length < 2 ^ 8 ∧ Good p.2) → ps.length < fuel →
    readPairs wrap bad take (front ++ (flattenPairs ps ++ rest)) fuel front.length s = takeFields take s ps := by
  intro ps
  induction ps with
  | nil =>
    intro front fuel s _ hfuel
    obtain ⟨fuel, rfl⟩ : ∃ n, fuel = n + 1 := ⟨fuel - 1, by omega⟩
    have hat : (front ++ (flattenPairs [] ++ rest))[front.length]? = rest.head? := by
      rw [List.getElem?_append_right le_rfl, Nat.sub_self, List.head?_eq_getElem?]
      rfl
    rw [readPairs, if_neg (by rw [hat]; exact hrest), takeFields]
  | cons p ps ih =>
    intro front fuel s hps hfuel
    obtain ⟨fuel, rfl⟩ : ∃ n, fuel = n + 1 := ⟨fuel - 1, by omega⟩
    obtain ⟨hname, hvalue⟩ := hps p (by simp)
    have hblock : front ++ (flattenPairs (p :: ps) ++ rest) =
        front ++ (flatten (.d p.1) ++ (flatten p.2 ++ (flattenPairs ps ++ rest))) := by
      simp [flattenPairs_cons, List.append_assoc]
    have hparse := parse_name hname front (flatten p.2 ++ (flattenPairs ps ++ rest))
    obtain ⟨w, hparse', hread⟩ := hgood p.2 hvalue (front ++ flatten (.d p.1)) (flattenPairs ps ++ rest)
    rw [List.append_assoc, List.length_append] at hparse'
    have hat : (front ++ (flatten (.d p.1) ++ (flatten p.2 ++ (flattenPairs ps ++ rest))))[front.length]? =
        some 0x64 := by
      have hd := flatten_d p.1
      rw [List.getElem?_append_right le_rfl, Nat.sub_self, ← List.head?_eq_getElem?, List.head?_append, hd]
      rfl
    rw [hblock, readPairs, if_pos hat, hparse]
    simp only
    rw [hparse']
    simp only
    rw [htake s p.1 p.2 w hvalue hread, takeFields]
    rcases take s p.1 p.2 with e | s'
    · rfl
    · have := ih (front ++ (flatten (.d p.1) ++ flatten p.2)) fuel s' (fun q hq => hps q (by simp [hq]))
        (by simpa using hfuel)
      simpa only [List.append_assoc, List.length_append, Nat.add_assoc] using this

end Pairs

namespace WireFields

theorem to32_val (h : Hash32) : to32 h.val = .ok h := by
  simp [to32, h.property]

/-- A number is taken in any width. -/
theorem take_readAs (f : WireFields) (name : Bytes) {v w : VsfType} (hv : v.Written) (h : v.ReadAs w) :
    f.take name w = f.take name v := by
  cases v with
  | u x =>
    have hw : asU64 w = some x := h
    have hu : asU64 (.u x) = some x := rfl
    unfold take
    rw [hw, hu]
    cases w <;> first | rfl | cases hw
  | hp bytes => rw [show w = .hp bytes from h]
  | d name => rw [show w = .d name from h]
  | e6 t => rw [show w = .e6 t from h]
  | _ => exact absurd hv not_false

def takeAll (f : WireFields) : List (Bytes × VsfType) → Except Error WireFields
  | [] => .ok f
  | p :: ps =>
    match f.take p.1 p.2 with
    | .error e => .error e
    | .ok f => takeAll f ps

theorem takeAll_eq (f : WireFields) (ps : List (Bytes × VsfType)) : f.takeAll ps = takeFields take f ps := by
  induction ps generalizing f with
  | nil => rfl
  | cons p ps ih =>
    rw [takeAll, takeFields]
    rcases f.take p.1 p.2 with e | f'
    · rfl
    · exact ih f'

theorem vsfParse_flatten {v : VsfType} (hv : v.Written) (front rest : Bytes) : ∃ w,
    vsfParse (front ++ (flatten v ++ rest)) front.length = .ok (w, front.length + (flatten v).length) ∧ v.ReadAs w := by
  obtain ⟨w, hparse, hread⟩ := parse_flatten v hv front rest
  refine ⟨w, ?_, hread⟩
  rw [← List.append_assoc, vsfParse, hparse]

theorem read_eq (block : Bytes) (fuel ptr : Nat) (f : WireFields) : read block fuel ptr f =
    readPairs (fun e => .corrupt s!"vsf parse: {e}") (.corrupt "expected field name") take block fuel ptr f := by
  induction fuel generalizing ptr f with
  | zero => rfl
  | succ fuel ih =>
    unfold read readPairs vsfParse
    simp only [ih]
    by_cases hat : block[ptr]? = some 0x64
    · rw [if_pos hat, if_pos hat]
      rcases parse block ptr with e | ⟨x, next⟩
      · rfl
      · cases x with
        | d name =>
          simp only
          rcases parse block next with e | ⟨value, next⟩
          · rfl
          · simp only
            rcases f.take name value with e | f' <;> rfl
        | _ => rfl
    · rw [if_neg hat, if_neg hat]

/-- Pairs are read in turn, up to the first byte that starts none. -/
theorem read_pairs {rest : Bytes} (hrest : rest.head? ≠ some 0x64) (ps : List (Bytes × VsfType)) (front : Bytes)
    (fuel : Nat) (f : WireFields) (hps : ∀ p ∈ ps, (VsfType.d p.1).Written ∧ p.2.Written) (hfuel : ps.length < fuel) :
    read (front ++ (flattenPairs ps ++ rest)) fuel front.length f = takeAll f ps := by
  rw [read_eq, takeAll_eq]
  exact readPairs_flatten parsed_written _ _ (fun f name _ _ hx h => f.take_readAs name hx h) hrest ps front fuel f hps hfuel

end WireFields

namespace WireEntry

variable (e : WireEntry)

theorem mem_pairs {p : Bytes × VsfType} (hp : p ∈ e.pairs) :
    p ∈ [(ascii "gen", .u e.gen), (ascii "prev", .hp e.prevHash.val), (ascii "ring", .u e.ringLog2.toUInt64),
      (ascii "tract", .u e.tractBlocks), (ascii "hamt", .hp e.hamtHash.val), (ascii "hamtat", .u e.hamtLba),
      (ascii "plow", .u e.plow), (ascii "live", .u e.live), (ascii "time", .e6 e.eagleTime)] ∨
    ∃ r, p = (ascii "reap", .u r) := by
  rw [pairs, List.mem_append] at hp
  refine hp.imp id fun h => ?_
  rcases hr : e.reap with _ | r <;> rw [hr] at h
  · cases h
  · exact ⟨r, List.mem_singleton.mp h⟩

theorem pairs_written : ∀ p ∈ e.pairs, (VsfType.d p.1).Written ∧ p.2.Written := by
  intro p hp
  rcases e.mem_pairs hp with h | ⟨r, rfl⟩
  · simp only [List.mem_cons, List.not_mem_nil, or_false] at h
    rcases h with rfl | rfl | rfl | rfl | rfl | rfl | rfl | rfl | rfl
    case inr.inl => exact ⟨by show (ascii "prev").length < 2 ^ 8; decide, e.prevHash.property⟩
    case inr.inr.inr.inr.inl => exact ⟨by show (ascii "hamt").length < 2 ^ 8; decide, e.hamtHash.property⟩
    all_goals
      refine ⟨?_, trivial⟩
      show (ascii _).length < 2 ^ 8
      decide
  · refine ⟨?_, trivial⟩
    show (ascii _).length < 2 ^ 8
    decide

theorem length_pairs : e.pairs.length ≤ 10 := by
  unfold pairs
  rcases e.reap with _ | r <;> simp

/-- The fields of an entry, taken together. -/
theorem takeAll_pairs : WireFields.takeAll {} e.pairs = .ok
    ⟨some e.gen, some e.prevHash, some e.ringLog2, some e.tractBlocks, some e.hamtHash, some e.hamtLba, some e.plow,
      some e.live, some e.eagleTime, e.reap⟩ := by
  obtain ⟨gen, prev, ring, tract, hamt, hamtat, plow, reap, live, time⟩ := e
  rcases reap with _ | reap <;>
    simp [WireFields.takeAll, WireFields.take, pairs, ascii, asU64, WireFields.to32_val]

theorem entry_pairs : WireFields.entry ⟨some e.gen, some e.prevHash, some e.ringLog2, some e.tractBlocks,
    some e.hamtHash, some e.hamtLba, some e.plow, some e.live, some e.eagleTime, e.reap⟩ = .ok e := rfl

variable {e}

/-- Schema and fields, then zeros to the end of the block. -/
theorem body_eq {body : Bytes} (h : e.body = .ok body) :
    ∃ k, body = flatten (.d schema) ++ (flattenPairs e.pairs ++ List.replicate k 0) := by
  simp only [WireEntry.body] at h
  split at h
  case isTrue => cases h
  case isFalse =>
    injection h with h
    exact ⟨_, by rw [← h, List.append_assoc]⟩

theorem encode_eq {body : Bytes} (h : e.body = .ok body) :
    e.encode = .ok (magic ++ (flatten (.hp (blake3 body).val) ++ ([0x3E] ++ body))) := by
  rw [encode, h]
  simp only [List.append_assoc]

theorem parse_seal (hash : Hash32) (body : Bytes) :
    parse (magic ++ (flatten (.hp hash.val) ++ ([0x3E] ++ body))) 4 = .ok (.hp hash.val, 4 + hpLen) := by
  obtain ⟨w, hparse, hread⟩ := parse_flatten (.hp hash.val) hash.property magic ([0x3E] ++ body)
  obtain rfl : w = .hp hash.val := hread
  rw [List.append_assoc, flatten_hp] at hparse
  exact hparse

theorem drop_seal (hash : Hash32) (body : Bytes) :
    (magic ++ (flatten (.hp hash.val) ++ ([0x3E] ++ body))).drop (4 + hpLen + 1) = body := by
  have hfront : (magic ++ flatten (.hp hash.val) ++ [0x3E]).length = 4 + hpLen + 1 := by
    rw [List.length_append, List.length_append, flatten_hp]
    rfl
  rw [← hfront, ← List.append_assoc, ← List.append_assoc, List.drop_left]

/-- The hash an entry is chained by is that of its own encoding. -/
theorem bodyHash_eq {body : Bytes} (h : e.body = .ok body) : e.bodyHash = .ok (blake3 body) := by
  rw [bodyHash, encode_eq h]
  simp only [parse_seal, drop_seal]

theorem bodyHash_error {err : Error} (h : e.body = .error err) : e.bodyHash = .error err := by
  rw [bodyHash, encode, h]

/-- The geometry that `decode` asks of an entry. -/
structure Geometry (e : WireEntry) : Prop where
  ring : e.ringLog2 ≠ 0 ∧ e.ringLog2.toNat ≤ 32
  tract : e.tractBlocks ≠ 0
  cursors : ∀ r, e.reap = some r → r ≤ e.plow ∧ e.plow - r ≤ e.tractBlocks
  domain : e.plow.toNat + e.tractBlocks.toNat < 2 ^ 64

theorem checked_of_geometry {e : WireEntry} (h : e.Geometry) : e.checked = .ok e := by
  have hring : ¬ (e.toSpine.ringLog2 = 0 ∨ 32 < e.toSpine.ringLog2) := by
    rintro (hzero | hlarge)
    · exact h.ring.1 (UInt8.toNat_inj.mp hzero)
    · exact absurd hlarge (Nat.not_lt.mpr h.ring.2)
  have htract : e.toSpine.tractBlocks ≠ 0 := fun hzero => h.tract (UInt64.toNat_inj.mp hzero)
  have hcursors : ¬ (e.toSpine.reap.any fun reap => e.toSpine.plow < reap || e.toSpine.tractBlocks < e.toSpine.plow - reap) = true := by
    rcases hr : e.reap with _ | r
    · simp [toSpine, hr]
    · obtain ⟨hle, hwide⟩ := h.cursors r hr
      rw [UInt64.le_iff_toNat_le] at hle
      rw [UInt64.le_iff_toNat_le, UInt64.toNat_sub_of_le _ _ hle] at hwide
      simp [toSpine, hr]
      omega
  unfold checked SpineEntry.geometry
  rw [if_neg hring, if_neg htract, if_neg hcursors, if_neg (by simp [checkedAdd])]
  simp only
  rw [if_neg (Nat.not_le.mpr h.domain)]

/-- An entry outside the geometry is refused. -/
theorem checked_refused {e : WireEntry} (h : ¬ e.Geometry) : ∃ what, e.checked = .error (.corrupt what) := by
  unfold checked SpineEntry.geometry
  by_cases hring : e.toSpine.ringLog2 = 0 ∨ 32 < e.toSpine.ringLog2
  · rw [if_pos hring]
    exact ⟨_, rfl⟩
  rw [if_neg hring]
  by_cases htract : e.toSpine.tractBlocks = 0
  · rw [if_pos htract]
    exact ⟨_, rfl⟩
  rw [if_neg htract]
  by_cases hcursors : (e.toSpine.reap.any fun reap => e.toSpine.plow < reap || e.toSpine.tractBlocks < e.toSpine.plow - reap) = true
  · rw [if_pos hcursors]
    exact ⟨_, rfl⟩
  rw [if_neg hcursors, if_neg (by simp [checkedAdd])]
  simp only
  by_cases hdomain : 2 ^ 64 ≤ e.plow.toNat + e.tractBlocks.toNat
  · rw [if_pos hdomain]
    exact ⟨_, rfl⟩
  exfalso
  apply h
  obtain ⟨hzero, hlarge⟩ := not_or.mp hring
  constructor
  case ring => exact ⟨fun h => hzero (congrArg UInt8.toNat h), Nat.not_lt.mp hlarge⟩
  case tract => exact fun h => htract (congrArg UInt64.toNat h)
  case cursors =>
    intro r hr
    simp [toSpine, hr] at hcursors
    obtain ⟨hle, hwide⟩ := hcursors
    have hle' : r ≤ e.plow := UInt64.le_iff_toNat_le.mpr hle
    constructor
    · exact hle'
    · rw [UInt64.le_iff_toNat_le, UInt64.toNat_sub_of_le _ _ hle']
      omega
  case domain => exact Nat.not_le.mp hdomain

theorem checked_ok {e e' : WireEntry} (h : e.checked = .ok e') : e' = e ∧ e.Geometry := by
  by_cases hg : e.Geometry
  · rw [checked_of_geometry hg] at h
    injection h with h
    exact ⟨h.symm, hg⟩
  · obtain ⟨what, hwhat⟩ := checked_refused hg
    rw [hwhat] at h
    cases h

end WireEntry

section Block

variable {block : Bytes}

/-- The part of a block under its seal. -/
def wireBody (block : Bytes) : Bytes :=
  match wireHeader block with
  | .ok (_, start) => block.drop start
  | .error _ => []

/-- The seal stored in a block. -/
def storedSeal (block : Bytes) : Bytes :=
  match wireHeader block with
  | .ok (stored, _) => stored
  | .error _ => []

/-- The part under the seal is what the writer makes of some entry. -/
def Canonical (block : Bytes) : Prop := ∃ e : WireEntry, e.body = .ok (wireBody block)

/-- What a decoded block went through. -/
theorem decode_cases {e : WireEntry} (h : WireEntry.decode block = .ok e) : ∃ start ptr f,
    wireHeader block = .ok ((blake3 (block.drop start)).val, start) ∧
    vsfParse block start = .ok (.d schema, ptr) ∧ WireFields.read block (block.length + 1) ptr {} = .ok f ∧
    f.entry = .ok e ∧ e.Geometry := by
  unfold WireEntry.decode at h
  rcases hheader : wireHeader block with err | ⟨stored, start⟩ <;> rw [hheader] at h
  · cases h
  simp only at h
  by_cases hseal : (blake3 (block.drop start)).val = stored
  case neg => rw [if_pos hseal] at h; cases h
  rw [if_neg (not_not.mpr hseal)] at h
  subst hseal
  rcases hschema : vsfParse block start with err | ⟨v, ptr⟩ <;> rw [hschema] at h
  · cases h
  cases v with
  | d name =>
    simp only at h
    by_cases hname : name = schema
    case neg => rw [if_pos hname] at h; cases h
    rw [if_neg (not_not.mpr hname)] at h
    subst hname
    rcases hread : WireFields.read block (block.length + 1) ptr {} with err | f <;> rw [hread] at h
    · cases h
    simp only at h
    rcases hentry : f.entry with err | e' <;> rw [hentry] at h
    · cases h
    obtain ⟨rfl, hgeometry⟩ := WireEntry.checked_ok h
    exact ⟨start, ptr, f, rfl, hschema, hread, hentry, hgeometry⟩
  | _ => cases h

theorem decode_geometry {e : WireEntry} (h : WireEntry.decode block = .ok e) : e.Geometry := by
  obtain ⟨start, ptr, f, -, -, -, -, hgeometry⟩ := decode_cases h
  exact hgeometry

theorem decode_seal {e : WireEntry} (h : WireEntry.decode block = .ok e) :
    (blake3 (wireBody block)).val = storedSeal block := by
  obtain ⟨start, ptr, f, hheader, -⟩ := decode_cases h
  rw [wireBody, storedSeal, hheader]

theorem length_flattenPairs : ∀ ps : List (Bytes × VsfType), ps.length ≤ (flattenPairs ps).length
  | [] => Nat.zero_le _
  | p :: ps => by
    have hd : 0 < (flatten (.d p.1)).length := by
      have := flatten_d p.1
      rcases hf : flatten (.d p.1) with _ | ⟨b, bs⟩
      · rw [hf] at this
        cases this
      · simp
    have := length_flattenPairs ps
    simp only [flattenPairs, List.flatMap_cons, List.length_append, List.length_cons] at this ⊢
    omega

/-- Decoding is the inverse of encoding on what the writer makes. -/
theorem decode_canonical {e e' : WireEntry} (h : WireEntry.decode block = .ok e) (hbody : e'.body = .ok (wireBody block)) :
    e = e' := by
  obtain ⟨start, ptr, f, hheader, hschema, hread, hentry, -⟩ := decode_cases h
  obtain ⟨k, hk⟩ := WireEntry.body_eq hbody
  have hdrop : block.drop start = flatten (.d schema) ++ (flattenPairs e'.pairs ++ List.replicate k 0) := by
    rw [← hk, wireBody, hheader]
  have hlen := congrArg List.length hdrop
  simp only [List.length_drop, List.length_append] at hlen
  have hpairs := length_flattenPairs e'.pairs
  have hstart : (block.take start).length = start := by
    have hmany : 0 < e'.pairs.length := by simp [WireEntry.pairs]
    rw [List.length_take]
    omega
  have hblock : block = block.take start ++ (flatten (.d schema) ++ (flattenPairs e'.pairs ++ List.replicate k 0)) := by
    rw [← hdrop, List.take_append_drop]
  obtain ⟨w, hparse, hw⟩ := WireFields.vsfParse_flatten schema_written (block.take start)
    (flattenPairs e'.pairs ++ List.replicate k 0)
  rw [← hblock, hstart, hschema] at hparse
  injection hparse with hparse
  obtain rfl : ptr = start + (flatten (.d schema)).length := congrArg Prod.snd hparse
  have hfields := WireFields.read_pairs (head_replicate_zero k) e'.pairs (block.take start ++ flatten (.d schema)) (block.length + 1) {}
    e'.pairs_written (by omega)
  rw [List.append_assoc, ← hblock, List.length_append, hstart, hread, e'.takeAll_pairs] at hfields
  injection hfields with hfields
  rw [hfields, WireEntry.entry_pairs] at hentry
  injection hentry with hentry
  exact hentry.symm

end Block

/-- The hash the next entry would be chained by is the seal stored in the block. -/
def WireEntry.Names (e : WireEntry) (block : Bytes) : Prop :=
  ∃ hash, e.bodyHash = .ok hash ∧ hash.val = storedSeal block

/-- The hash does not confuse the part under a block's seal with the encoding of its entry. -/
def WireEntry.Uncollided (e : WireEntry) (block : Bytes) : Prop :=
  ∀ body, e.body = .ok body → blake3 body = blake3 (wireBody block) → body = wireBody block

/-- A decoded entry names its block exactly when the block is the writer's. -/
theorem names_iff_canonical {block : Bytes} {e : WireEntry} (h : WireEntry.decode block = .ok e)
    (hfree : e.Uncollided block) : e.Names block ↔ Canonical block := by
  have hseal := decode_seal h
  constructor
  · rintro ⟨hash, hhash, hstored⟩
    rcases hbody : e.body with err | body
    · rw [WireEntry.bodyHash_error hbody] at hhash
      cases hhash
    · rw [WireEntry.bodyHash_eq hbody] at hhash
      injection hhash with hhash
      have hsame : blake3 body = blake3 (wireBody block) := by
        rw [hhash]
        exact Subtype.ext (hstored.trans hseal.symm)
      exact ⟨e, by rw [hbody, hfree body hbody hsame]⟩
  · rintro ⟨e', hbody⟩
    obtain rfl := decode_canonical h hbody
    exact ⟨_, WireEntry.bodyHash_eq hbody, hseal⟩

section History

/-- Who wrote an entry: this engine, or one that knows more fields and hashes the block it read. -/
inductive Writer where
  | host
  | foreign
  deriving DecidableEq

/-- An entry of a ring's history with its block. -/
structure Link where
  writer : Writer
  entry : WireEntry
  block : Bytes

/-- `child` was appended on top of `parent`: the checks of `Ring::append`, and what the host
writes. -/
def Link.Follows (parent child : Link) : Prop :=
  child.entry.gen.toNat = parent.entry.gen.toNat + 1 ∧ child.entry.ringLog2 = parent.entry.ringLog2 ∧
  match child.writer with
  | .host => parent.entry.bodyHash = .ok child.entry.prevHash ∧ child.entry.encode = .ok child.block
  | .foreign => child.entry.prevHash.val = storedSeal parent.block

/-- Blocks of a ring, oldest first, each accepted and appended on top of the one before. -/
structure History (links : List Link) : Prop where
  accepted : ∀ l ∈ links, l.block.length = blockSize ∧ WireEntry.decode l.block = .ok l.entry
  follows : links.IsChain Link.Follows

variable {links : List Link}

/-- Every link's entry carries the seal of the block before it. -/
def Chained (links : List Link) : Prop :=
  links.IsChain fun parent child => child.entry.prevHash.val = storedSeal parent.block

/-- The host appended on top of blocks of its own making only. -/
def HostOnCanonical (links : List Link) : Prop :=
  links.IsChain fun parent child => child.writer = .host → Canonical parent.block

theorem follows_chained_iff {parent child : Link} (hfollows : parent.Follows child)
    (hnames : parent.entry.Names parent.block ↔ Canonical parent.block) :
    child.entry.prevHash.val = storedSeal parent.block ↔ (child.writer = .host → Canonical parent.block) := by
  obtain ⟨-, -, hwriter⟩ := hfollows
  cases hw : child.writer with
  | foreign =>
    rw [hw] at hwriter
    exact iff_of_true hwriter nofun
  | host =>
    rw [hw] at hwriter
    rw [forall_prop_of_true rfl, ← hnames]
    constructor
    · exact fun h => ⟨_, hwriter.1, h⟩
    · rintro ⟨hash, hhash, hstored⟩
      rw [hwriter.1] at hhash
      injection hhash with hhash
      rwa [hhash]

/-- A block's entry names it exactly when the block is canonical, and a history is chained by the
seals on disk exactly when the host never appended on top of a block that is not. -/
theorem chain_names_blocks (h : History links) (hfree : ∀ l ∈ links, l.entry.Uncollided l.block) :
    (∀ l ∈ links, l.entry.Names l.block ↔ Canonical l.block) ∧ (Chained links ↔ HostOnCanonical links) := by
  have hnames : ∀ l ∈ links, l.entry.Names l.block ↔ Canonical l.block := fun l hl =>
    names_iff_canonical (h.accepted l hl).2 (hfree l hl)
  refine ⟨hnames, ?_⟩
  have hpair : ∀ parent child, parent ∈ links → parent.Follows child →
      (child.entry.prevHash.val = storedSeal parent.block ↔ (child.writer = .host → Canonical parent.block)) :=
    fun parent child hparent hfollows => follows_chained_iff hfollows (hnames parent hparent)
  rw [Chained, HostOnCanonical, List.isChain_iff_getElem, List.isChain_iff_getElem]
  have hfollows := List.isChain_iff_getElem.mp h.follows
  exact forall₂_congr fun i hi => hpair _ _ (List.getElem_mem _) (hfollows i hi)

end History

end Wire

section Signed

/-- Fields sealed in a block. -/
def sealedFields (fields : Bytes) : Bytes :=
  let body := fields ++ List.replicate (blockSize - wireStart - fields.length) 0
  magic ++ flatten (.hp (blake3 body).val) ++ [0x3E] ++ body

def zeros32 : Hash32 := ⟨List.replicate 32 0, by simp⟩

/-- An empty vault at generation 0. -/
def blankEntry : WireEntry := ⟨0, zeros32, 2, 8, zeros32, 0, 0, some 0, 0, 0⟩

def blankBlock : Bytes := sealedFields (flatten (.d schema) ++ flattenPairs blankEntry.pairs)

/-- `blankEntry` with one field more. -/
def signedBlock : Bytes :=
  sealedFields (flatten (.d schema) ++ flattenPairs (blankEntry.pairs ++ [(ascii "sig", .u 7)]))

/-- What the host appends on top of `blankEntry`, whatever its block. -/
@[irreducible] def hostEntry : WireEntry :=
  { blankEntry with
    gen := 1
    prevHash := match blankEntry.bodyHash with
      | .ok h => h
      | .error _ => zeros32 }

@[irreducible] def hostBlock : Bytes :=
  match hostEntry.encode with
  | .ok b => b
  | .error _ => []

theorem hostEntry_prevHash : blankEntry.bodyHash = .ok hostEntry.prevHash := by decide +kernel

theorem hostEntry_next : hostEntry.gen.toNat = blankEntry.gen.toNat + 1 ∧ hostEntry.ringLog2 = blankEntry.ringLog2 := by
  unfold hostEntry
  exact ⟨by decide, by trivial⟩

set_option maxRecDepth 10000 in
theorem hostEntry_block : hostEntry.encode = .ok hostBlock ∧ hostBlock.length = blockSize ∧
    WireEntry.decode hostBlock = .ok hostEntry := by decide +kernel

/-- The host's first append on top of a block that decodes to `blankEntry`. -/
theorem history_host {writer : Writer} {block : Bytes} (hlength : block.length = blockSize)
    (hdecode : WireEntry.decode block = .ok blankEntry) :
    History [⟨writer, blankEntry, block⟩, ⟨.host, hostEntry, hostBlock⟩] where
  accepted := by
    intro l hl
    rcases List.mem_pair.mp hl with rfl | rfl
    · exact ⟨hlength, hdecode⟩
    · exact hostEntry_block.2
  follows := List.isChain_pair.mpr ⟨hostEntry_next.1, hostEntry_next.2, hostEntry_prevHash, hostEntry_block.1⟩

set_option maxRecDepth 10000 in
theorem chain_names_blocks_blank :
    (blankEntry.Names blankBlock ↔ Canonical blankBlock) ∧
    (Chained [⟨.host, blankEntry, blankBlock⟩, ⟨.host, hostEntry, hostBlock⟩] ↔
      HostOnCanonical [⟨.host, blankEntry, blankBlock⟩, ⟨.host, hostEntry, hostBlock⟩]) := by
  have hblank : blankBlock.length = blockSize ∧ WireEntry.decode blankBlock = .ok blankEntry := by decide +kernel
  have hbodies : blankEntry.body = .ok (wireBody blankBlock) ∧ hostEntry.body = .ok (wireBody hostBlock) := by
    decide +kernel
  obtain ⟨hnames, hchained⟩ := chain_names_blocks (history_host hblank.1 hblank.2) (by
    intro l hl body hbody _
    rcases List.mem_pair.mp hl with rfl | rfl
    · exact Except.ok.inj (hbody.symm.trans hbodies.1)
    · exact Except.ok.inj (hbody.symm.trans hbodies.2))
  exact ⟨hnames _ (List.mem_cons_self ..), hchained⟩

set_option maxRecDepth 10000 in
/-- An entry with a field of its own is accepted, and what the host appends on top does not name
it. -/
theorem chain_misnames_signed :
    History [⟨.foreign, blankEntry, signedBlock⟩, ⟨.host, hostEntry, hostBlock⟩] ∧
    ¬ blankEntry.Names signedBlock ∧
    ¬ Chained [⟨.foreign, blankEntry, signedBlock⟩, ⟨.host, hostEntry, hostBlock⟩] := by
  have hsigned : signedBlock.length = blockSize ∧ WireEntry.decode signedBlock = .ok blankEntry := by decide +kernel
  have hseal : hostEntry.prevHash.val ≠ storedSeal signedBlock := by decide +kernel
  refine ⟨history_host hsigned.1 hsigned.2, ?_, ?_⟩
  · rintro ⟨hash, hhash, hstored⟩
    rw [hostEntry_prevHash] at hhash
    injection hhash with hhash
    exact hseal (hhash ▸ hstored)
  · intro h
    rw [Chained, List.isChain_pair] at h
    exact hseal h

end Signed

end Manifestus

