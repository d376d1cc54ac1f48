import Manifestus.Engine.Codec
import Manifestus.Spine.Wire

/-! What the encoders write, the decoders read back, in one block and sealed. -/
set_option linter.unusedSectionVars false

namespace Manifestus
open Vsf

section Fields

variable [Vsf] [VsfSized]

/-- The values the encoders put. -/
def VsfType.Put (x : VsfType) : Prop :=
  x.Written ∨ ∃ kind bytes, x = .v kind bytes ∧ bytes.length ≤ blockSize

theorem parsed_put : Parsed VsfType.Put := by
  intro x hx front rest
  rcases hx with hx | ⟨kind, bytes, rfl, hlen⟩
  · exact parsed_written x hx front rest
  · rw [← List.append_assoc]
    exact ⟨_, VsfSized.parse_flatten_v kind bytes hlen front rest, rfl⟩

/-- Fields a decoder reads back. -/
def Puttable (ps : List (Bytes × VsfType)) : Prop := ∀ p ∈ ps, p.1.length < 2 ^ 8 ∧ p.2.Put

theorem puttable_nil : Puttable ([] : List (Bytes × VsfType)) := fun p hp => by cases hp

theorem Puttable.cons {name : Bytes} {x : VsfType} {ps : List (Bytes × VsfType)} (hname : name.length < 2 ^ 8)
    (hx : x.Put) (h : Puttable ps) : Puttable ((name, x) :: ps) := by
  intro p hp
  rcases List.mem_cons.mp hp with rfl | hp
  · exact ⟨hname, hx⟩
  · exact h p hp

theorem Puttable.append {ps qs : List (Bytes × VsfType)} (h : Puttable ps) (h' : Puttable qs) :
    Puttable (ps ++ qs) := by
  intro p hp
  rcases List.mem_append.mp hp with hp | hp
  · exact h p hp
  · exact h' p hp

end Fields

section Envelope

variable [Vsf] [VsfSized]

theorem wireStart_eq : wireStart = 4 + hpLen + 1 := by
  rw [wireStart, flatten_hp ⟨List.replicate 32 0, by simp⟩]

theorem wireStart_le : wireStart ≤ 54 := by
  have := VsfSized.hp_le
  rw [wireStart_eq]
  omega

/-- The bytes of a block that seals `body`. -/
def sealedBytes (body : Bytes) : Bytes := magic ++ (flatten (.hp (blake3 body).val) ++ ([0x3E] ++ body))

theorem parse_sealedBytes (body : Bytes) : parse (sealedBytes body) 4 = .ok (.hp (blake3 body).val, 4 + hpLen) :=
  WireEntry.parse_seal _ body

theorem drop_sealedBytes (body : Bytes) : (sealedBytes body).drop (4 + hpLen + 1) = body :=
  WireEntry.drop_seal _ body

theorem sealedBytes_mark (body : Bytes) : (sealedBytes body)[4 + hpLen]? = some 0x3E := by
  have hfront : (magic ++ flatten (.hp (blake3 body).val)).length = 4 + hpLen := by
    rw [List.length_append, flatten_hp]
    rfl
  rw [sealedBytes, ← List.append_assoc, ← hfront, List.getElem?_append_right le_rfl, Nat.sub_self]
  rfl

theorem sealedHp_sealedBytes (body : Bytes) : Codec.sealedHp (sealedBytes body) = some (blake3 body) := by
  have hmagic : (sealedBytes body).take 4 = magic := by
    rw [sealedBytes]
    exact List.take_left' (by rfl)
  unfold Codec.sealedHp
  rw [if_neg (not_not.mpr hmagic), parse_sealedBytes]
  simp only
  rw [if_neg (not_not.mpr (sealedBytes_mark body)), drop_sealedBytes, if_neg (not_not.mpr rfl),
    dif_pos (blake3 body).property]

theorem wireHeader_sealedBytes (body : Bytes) :
    wireHeader (sealedBytes body) = .ok ((blake3 body).val, 4 + hpLen + 1) := by
  have hmagic : (sealedBytes body).take 4 = magic := by
    rw [sealedBytes]
    exact List.take_left' (by rfl)
  unfold wireHeader vsfParse
  rw [if_neg (not_not.mpr hmagic), parse_sealedBytes]
  simp only
  rw [if_neg (not_not.mpr (sealedBytes_mark body))]

/-- Fields that fit the block are sealed in it, zeros after them. -/
theorem encodeFields_ok {schema : Bytes} {ps : List (Bytes × VsfType)}
    (hfits : wireStart + ((flatten (.d schema)).length + (flattenPairs ps).length) ≤ blockSize) :
    ∃ n, encodeFields schema ps =
        .ok (sealedBytes (flatten (.d schema) ++ (flattenPairs ps ++ List.replicate n 0))) ∧
      (sealedBytes (flatten (.d schema) ++ (flattenPairs ps ++ List.replicate n 0))).length = blockSize := by
  refine ⟨blockSize - wireStart - (flatten (.d schema) ++ flattenPairs ps).length, ?_, ?_⟩
  · unfold encodeFields sealedBytes
    rw [if_neg (by rw [List.length_append]; omega)]
    simp only [List.append_assoc]
  · simp only [sealedBytes, List.length_append, List.length_replicate, flatten_hp, List.length_singleton]
    rw [wireStart_eq] at *
    have hmagic : magic.length = 4 := rfl
    omega

/-- Schema and fields of a sealed block, read from its start on. -/
theorem sealedBytes_split (schema : Bytes) (ps : List (Bytes × VsfType)) (n : Nat) :
    ∃ front : Bytes, front.length = 4 + hpLen + 1 ∧
      sealedBytes (flatten (.d schema) ++ (flattenPairs ps ++ List.replicate n 0)) =
        front ++ (flatten (.d schema) ++ (flattenPairs ps ++ List.replicate n 0)) := by
  generalize flatten (.d schema) ++ (flattenPairs ps ++ List.replicate n 0) = body
  refine ⟨magic ++ (flatten (.hp (blake3 body).val) ++ [0x3E]), ?_, by simp [sealedBytes]⟩
  rw [List.length_append, List.length_append, flatten_hp]
  rfl

/-- The schema and the fields of a sealed block. -/
theorem read_sealedBytes {σ : Type} {take : σ → Bytes → VsfType → Except Error σ} (wrap : String → Error) (bad : Error)
    (htake : ∀ s name x w, VsfType.Put x → x.ReadAs w → take s name w = take s name x) {schema : Bytes}
    {ps : List (Bytes × VsfType)} {n : Nat} {block : Bytes} (s : σ) (hschema : schema.length < 2 ^ 8)
    (hps : Puttable ps)
    (hblock : block = sealedBytes (flatten (.d schema) ++ (flattenPairs ps ++ List.replicate n 0))) :
    ∃ ptr, parse block (4 + hpLen + 1) = .ok (.d schema, ptr) ∧
      readPairs wrap bad take block (block.length + 1) ptr s = takeFields take s ps := by
  obtain ⟨front, hfront, hsplit⟩ := sealedBytes_split schema ps n
  have hlen : ps.length < block.length + 1 := by
    have := length_flattenPairs ps
    rw [hblock, hsplit]
    simp only [List.length_append]
    omega
  refine ⟨front.length + (flatten (.d schema)).length, ?_, ?_⟩
  · rw [hblock, hsplit, ← hfront]
    exact parse_name hschema front _
  · have hread := readPairs_flatten parsed_put wrap bad htake (head_replicate_zero n) ps
      (front ++ flatten (.d schema)) (block.length + 1) s hps hlen
    rw [List.length_append, List.append_assoc, ← hsplit, ← hblock] at hread
    exact hread

end Envelope

/-- A document of one block is written whole, sealed by the hash of its body, and read back. -/
def RoundTrip [Vsf] {α : Type} (encoded : Except Error Bytes) (decode : Bytes → Except Error α) (doc : α) : Prop :=
  ∃ block, encoded = .ok block ∧ block.length = blockSize ∧
    Codec.sealedHp block = some (blake3 (block.drop wireStart)) ∧ decode block = .ok doc

section Documents

variable [Vsf] [VsfSized]

/-- Fields that fit make a block that seals them and is read back as them. -/
theorem roundTrip_of_fields {α : Type} {schema : Bytes} {ps : List (Bytes × VsfType)}
    {decode : Bytes → Except Error α} {doc : α}
    (hfits : wireStart + ((flatten (.d schema)).length + (flattenPairs ps).length) ≤ blockSize)
    (hread : ∀ n block, block = sealedBytes (flatten (.d schema) ++ (flattenPairs ps ++ List.replicate n 0)) →
      decode block = .ok doc) : RoundTrip (encodeFields schema ps) decode doc := by
  obtain ⟨n, hencode, hlen⟩ := encodeFields_ok hfits
  refine ⟨_, hencode, hlen, ?_, hread n _ rfl⟩
  rw [sealedHp_sealedBytes, wireStart_eq, drop_sealedBytes]

namespace Codec

theorem array32_val (what : String) (h : Hash32) : Fields.array32 what h.val = .ok h := by
  simp [Fields.array32, h.property]

theorem take_number (f : Fields) (name : Bytes) {w : VsfType} {x : UInt64} (hw : asU64 w = some x) :
    f.take name w = .ok (f.takeNumber name x) := by
  cases w <;> first | (exfalso; simp [asU64] at hw; done) | simp only [Fields.take, hw]

/-- A number is taken in any width. -/
theorem take_readAs (f : Fields) (name : Bytes) (x w : VsfType) (hx : x.Put) (h : x.ReadAs w) :
    f.take name w = f.take name x := by
  cases x with
  | u x =>
    have hu : asU64 (.u x) = some x := rfl
    rw [take_number f name h, take_number f name hu]
  | hp bytes => rw [show w = .hp bytes from h]
  | d name => rw [show w = .d name from h]
  | e6 t => rw [show w = .e6 t from h]
  | v kind bytes => rw [show w = .v kind bytes from h]
  | _ =>
    rcases hx with hx | ⟨kind, bytes, hx, -⟩
    · exact absurd hx not_false
    · cases hx

/-- A block of fields is decoded as the document they make. -/
theorem decodeDoc_eq {schema : Bytes} {ps : List (Bytes × VsfType)} {f : Fields} (hschema : schema.length < 2 ^ 8)
    (hps : Puttable ps) (htake : takeFields Fields.take {} ps = .ok f) (n : Nat)
    (block : Bytes) (hblock : block = sealedBytes (flatten (.d schema) ++ (flattenPairs ps ++ List.replicate n 0))) :
    decodeDoc block = docOf schema f := by
  obtain ⟨ptr, hparse, hread⟩ := read_sealedBytes Error.corrupt (.corrupt "bad field name")
    take_readAs {} hschema hps hblock
  unfold decodeDoc
  have hseal : parse block 4 = .ok (.hp (blake3 (flatten (.d schema) ++ (flattenPairs ps ++ List.replicate n 0))).val,
      4 + hpLen) := by
    rw [hblock]
    exact parse_sealedBytes _
  rw [hseal]
  simp only
  rw [hparse]
  simp only
  rw [hread, htake]

theorem length_field (name : Bytes) (a : Nat) {x : VsfType} {b : Nat} (hname : name.length = a) (ha : a < 2 ^ 8)
    (hx : (flatten x).length ≤ b) : (flatten (.d name)).length + (flatten x).length ≤ a + 4 + b := by
  have := VsfSized.d_le name (by omega)
  omega

theorem length_flattenPairs_cons (p : Bytes × VsfType) (ps : List (Bytes × VsfType)) :
    (flattenPairs (p :: ps)).length =
      (flatten (.d p.1)).length + (flatten p.2).length + (flattenPairs ps).length := by
  rw [flattenPairs_cons, List.length_append, List.length_append, Nat.add_assoc]

theorem length_hp (h : Hash32) : (flatten (.hp h.val)).length ≤ 49 := by
  rw [flatten_hp]
  exact VsfSized.hp_le

theorem length_schema (schema : Bytes) (a : Nat) (h : schema.length = a) (ha : a < 2 ^ 8) :
    (flatten (.d schema)).length ≤ a + 4 := by
  have := VsfSized.d_le schema (by omega)
  omega

theorem put_hp (h : Hash32) : (VsfType.hp h.val).Put := .inl h.property

theorem put_u (x : UInt64) : (VsfType.u x).Put := .inl trivial

theorem put_v (kind : UInt8) {bytes : Bytes} (h : bytes.length ≤ blockSize) : (VsfType.v kind bytes).Put :=
  .inr ⟨kind, bytes, rfl, h⟩

theorem capacity_lt : loneCapacity ≤ blockSize - 128 ∧ furrowCapacity ≤ blockSize - 128 := by
  unfold loneCapacity furrowCapacity
  omega

theorem lone_roundTrip {key : Hash32} {value : Bytes} (h : value.length ≤ loneCapacity) :
    RoundTrip (encodeLone key value) decodeDoc (.lone key value) := by
  have hstart := wireStart_le
  have hblock : blockSize = 4096 := rfl
  have hsmall : value.length ≤ blockSize := h.trans (capacity_lt.1.trans (Nat.sub_le _ _))
  unfold loneCapacity at h
  apply roundTrip_of_fields
  · have hs := length_schema schemaLone 15 (by rfl) (by decide)
    have hkey := length_field (ascii "key") 3 (by rfl) (by decide) (length_hp key)
    have hv := length_field (ascii "v") 1 (by rfl) (by decide) (VsfSized.v_le 0x72 value hsmall)
    simp only [length_flattenPairs_cons]
    simp only [flattenPairs, List.flatMap_nil, List.length_nil]
    omega
  · intro n block hsealed
    rw [decodeDoc_eq (by decide) ?_ (f := { key := some key, value := some value }) ?_ n block hsealed]
    · rfl
    · exact .cons (by decide) (put_hp key) (.cons (by decide) (put_v _ hsmall) puttable_nil)
    · simp [takeFields, Fields.take, array32_val, Except.map, ascii]

theorem furrow_roundTrip {key : Hash32} {index : UInt64} {payload : Bytes} (h : payload.length ≤ furrowCapacity) :
    RoundTrip (encodeFurrow key index payload) decodeDoc (.furrow key index payload) := by
  have hstart := wireStart_le
  have hblock : blockSize = 4096 := rfl
  have hsmall : payload.length ≤ blockSize := h.trans (capacity_lt.2.trans (Nat.sub_le _ _))
  unfold furrowCapacity at h
  apply roundTrip_of_fields
  · have hs := length_schema schemaFurrow 17 (by rfl) (by decide)
    have hkey := length_field (ascii "key") 3 (by rfl) (by decide) (length_hp key)
    have hi := length_field (ascii "i") 1 (by rfl) (by decide) (VsfSized.u_le index)
    have hv := length_field (ascii "v") 1 (by rfl) (by decide) (VsfSized.v_le 0x72 payload hsmall)
    simp only [length_flattenPairs_cons]
    simp only [flattenPairs, List.flatMap_nil, List.length_nil]
    omega
  · intro n block hsealed
    rw [decodeDoc_eq (by decide) ?_ (f := { key := some key, index := some index, value := some payload }) ?_ n block
      hsealed]
    · rfl
    · exact .cons (by decide) (put_hp key) (.cons (by decide) (put_u index)
        (.cons (by decide) (put_v _ hsmall) puttable_nil))
    · simp [takeFields, Fields.take, Fields.takeNumber, asU64, array32_val, Except.map, ascii]

section Extent

variable {key : Hash32} {size : UInt64}

/-- The run fields of an extent. -/
def runFields (runs : List (UInt64 × UInt64)) : List (Bytes × VsfType) :=
  runs.flatMap fun r => [(ascii "s", .u r.1), (ascii "c", .u r.2)]

theorem runFields_cons (r : UInt64 × UInt64) (runs : List (UInt64 × UInt64)) :
    runFields (r :: runs) = (ascii "s", .u r.1) :: (ascii "c", .u r.2) :: runFields runs := rfl

theorem puttable_runFields (runs : List (UInt64 × UInt64)) : Puttable (runFields runs) := by
  induction runs with
  | nil => exact puttable_nil
  | cons r runs ih => exact .cons (by decide) (put_u r.1) (.cons (by decide) (put_u r.2) ih)

/-- A run takes two fields and at most 32 bytes. -/
theorem length_runFields (runs : List (UInt64 × UInt64)) : (flattenPairs (runFields runs)).length ≤ 32 * runs.length := by
  induction runs with
  | nil => exact Nat.le_refl 0
  | cons r runs ih =>
    have hs := length_field (ascii "s") 1 (by rfl) (by decide) (VsfSized.u_le r.1)
    have hc := length_field (ascii "c") 1 (by rfl) (by decide) (VsfSized.u_le r.2)
    rw [runFields_cons, length_flattenPairs_cons, length_flattenPairs_cons, List.length_cons]
    simp only
    omega

theorem take_runFields (runs : List (UInt64 × UInt64)) : ∀ f : Fields,
    takeFields Fields.take f (runFields runs) = .ok { f with
      runStarts := f.runStarts ++ runs.map Prod.fst
      runCounts := f.runCounts ++ runs.map Prod.snd } := by
  induction runs with
  | nil => intro f; simp [runFields, takeFields]
  | cons r runs ih =>
    intro f
    rw [runFields_cons]
    simp [takeFields, Fields.take, Fields.takeNumber, asU64, ascii, ih]

theorem extent_roundTrip {runs : List (UInt64 × UInt64)} (h : runs.length ≤ maxRuns) :
    RoundTrip (encodeExtent key size runs) decodeDoc (.extent key size runs) := by
  have hstart := wireStart_le
  have hblock : blockSize = 4096 := rfl
  have hruns := length_runFields runs
  unfold encodeExtent
  rw [if_neg (Nat.not_lt.mpr h)]
  unfold maxRuns at h
  show RoundTrip (encodeFields schemaExtent ([(ascii "key", .hp key.val), (ascii "size", .u size)] ++ runFields runs)) _ _
  apply roundTrip_of_fields
  · have hs := length_schema schemaExtent 17 (by rfl) (by decide)
    have hkey := length_field (ascii "key") 3 (by rfl) (by decide) (length_hp key)
    have hsize := length_field (ascii "size") 4 (by rfl) (by decide) (VsfSized.u_le size)
    rw [List.cons_append, List.cons_append, List.nil_append, length_flattenPairs_cons, length_flattenPairs_cons]
    simp only
    omega
  · intro n block hsealed
    have htake : takeFields Fields.take {} ([(ascii "key", .hp key.val), (ascii "size", .u size)] ++ runFields runs) =
        .ok { key := some key, size := some size, runStarts := runs.map Prod.fst, runCounts := runs.map Prod.snd } := by
      have hfirst : takeFields Fields.take {} [(ascii "key", .hp key.val), (ascii "size", .u size)] =
          .ok { key := some key, size := some size } := by
        simp [takeFields, Fields.take, Fields.takeNumber, asU64, array32_val, Except.map, ascii]
      rw [takeFields_append hfirst, take_runFields]
      rfl
    have hput : Puttable ([(ascii "key", .hp key.val), (ascii "size", .u size)] ++ runFields runs) :=
      .cons (by decide) (put_hp key) (.cons (by decide) (put_u size) (puttable_runFields runs))
    rw [decodeDoc_eq (by decide) hput htake n block hsealed]
    have hzip : (runs.map Prod.fst).zip (runs.map Prod.snd) = runs := by
      rw [List.zip_map', List.map_id']
    simp [docOf, schemaExtent, schemaLone, ascii, Fields.need, hzip, bind, Except.bind]

end Extent

section Node

variable {children : Fin 32 → Option Child}

theorem getLsbD_bit : ∀ i j : Fin 32, (1#32 <<< j.val).getLsbD i.val = decide (i = j) := by decide +kernel

/-- A mask of one bit. -/
theorem and_bit_ne_zero (p : BitVec 32) (i : Fin 32) : p &&& (1#32 <<< i.val) ≠ 0 ↔ p.getLsbD i.val = true := by
  have hat : ∀ j : Fin 32, (p &&& (1#32 <<< i.val)).getLsbD j.val = (p.getLsbD j.val && decide (j = i)) := by
    intro j
    rw [BitVec.getLsbD_and, getLsbD_bit]
  constructor
  · intro h
    by_contra hbit
    apply h
    apply BitVec.eq_of_getLsbD_eq
    intro j hj
    have hat := hat ⟨j, hj⟩
    rw [show (p &&& (1#32 <<< i.val)).getLsbD j = _ from hat, show (0 : BitVec 32) = 0#32 from rfl, BitVec.getLsbD_zero]
    by_cases hij : (⟨j, hj⟩ : Fin 32) = i
    · subst hij
      rw [Bool.not_eq_true] at hbit
      rw [hbit]
      simp
    · simp [hij]
  · intro hbit h
    have hat := hat i
    rw [h, hbit] at hat
    simp at hat

/-- A bit of the bitmap is set where there is a child. -/
theorem getLsbD_presence (i : Fin 32) : (presence children).getLsbD i.val = (children i).isSome := by
  have hfold : ∀ (l : List (Fin 32)) (p : BitVec 32),
      (l.foldl (fun p i => if (children i).isSome then p ||| (1#32 <<< i.val) else p) p).getLsbD i.val =
        (p.getLsbD i.val || (decide (i ∈ l) && (children i).isSome)) := by
    intro l
    induction l with
    | nil => intro p; rw [List.foldl_nil, decide_eq_false List.not_mem_nil, Bool.false_and, Bool.or_false]
    | cons j l ih =>
      intro p
      rw [List.foldl_cons, ih]
      rcases hj : (children j).isSome with _ | _
      · rw [if_neg (by simp)]
        by_cases hij : i = j
        · subst hij
          rw [hj, Bool.and_false, Bool.and_false]
        · simp only [List.mem_cons, hij, false_or]
      · rw [if_pos rfl, BitVec.getLsbD_or, getLsbD_bit]
        by_cases hij : i = j
        · subst hij
          rw [hj, decide_eq_true rfl, decide_eq_true List.mem_cons_self]
          simp only [Bool.or_true, Bool.true_or, Bool.and_true]
        · simp only [List.mem_cons, hij, false_or, decide_false, Bool.or_false]
  rw [presence, hfold, decide_eq_true (List.mem_finRange i)]
  simp

theorem presence_iff (i : Fin 32) : presence children &&& (1#32 <<< i.val) ≠ 0 ↔ (children i).isSome = true := by
  rw [and_bit_ne_zero, getLsbD_presence]

theorem countOnes_presence : countOnes (presence children) = ((List.finRange 32).filterMap children).length := by
  rw [List.length_filterMap_eq_countP, countOnes]
  apply List.countP_congr
  intro i _
  rw [decide_eq_true_iff]
  exact presence_iff i

theorem presence_toNat : BitVec.ofNat 32 (UInt64.ofNat (presence children).toNat).toNat = presence children := by
  have hlt := (presence children).isLt
  rw [UInt64.toNat_ofNat_of_lt' (Nat.lt_trans hlt (by decide))]
  exact BitVec.ofNat_toNat ..

/-- The pointer of a committed child. -/
def Child.pointer : Child → Option (Hash32 × UInt64)
  | .committed hash lba => some (hash, lba)
  | .dirty _ => none

/-- Every child is committed. -/
def Committed (children : Fin 32 → Option Child) : Prop := ∀ i c, children i = some c → ∃ hash lba, c = .committed hash lba

/-- The pointers of the children at `bits`, in order. -/
def pointersAt (children : Fin 32 → Option Child) (bits : List (Fin 32)) : List (Hash32 × UInt64) :=
  (bits.filterMap children).filterMap Child.pointer

theorem pointersAt_cons_some {bit : Fin 32} {bits : List (Fin 32)} {hash : Hash32} {lba : UInt64}
    (h : children bit = some (.committed hash lba)) :
    pointersAt children (bit :: bits) = (hash, lba) :: pointersAt children bits := by
  simp [pointersAt, h, Child.pointer]

theorem pointersAt_cons_none {bit : Fin 32} {bits : List (Fin 32)} (h : children bit = none) :
    pointersAt children (bit :: bits) = pointersAt children bits := by
  simp [pointersAt, h]

/-- The pointers dealt out again, each to the bit it was taken from. -/
theorem placeChildren_pointersAt (hall : Committed children) : ∀ (bits : List (Fin 32)) (before : List (Hash32 × UInt64))
    (placed : Fin 32 → Option Child), bits.Nodup →
    placeChildren (presence children) (before ++ pointersAt children bits) bits before.length placed =
      .ok fun i => if i ∈ bits ∧ (children i).isSome then children i else placed i := by
  intro bits
  induction bits with
  | nil => intro before placed _; simp [placeChildren]
  | cons bit bits ih =>
    intro before placed hnd
    rw [List.nodup_cons] at hnd
    rw [placeChildren]
    rcases hc : children bit with _ | c
    · have hoff : ¬ presence children &&& (1#32 <<< bit.val) ≠ 0 := by
        rw [presence_iff, hc]
        simp
      rw [if_neg hoff, pointersAt_cons_none hc, ih before placed hnd.2]
      congr 1
      funext i
      by_cases hi : i = bit
      · subst hi
        simp [hc]
      · simp [hi]
    · obtain ⟨hash, lba, rfl⟩ := hall bit c hc
      have hon : presence children &&& (1#32 <<< bit.val) ≠ 0 := by
        rw [presence_iff, hc]
        rfl
      have hat : (before ++ pointersAt children (bit :: bits))[before.length]? = some (hash, lba) := by
        rw [List.getElem?_append_right le_rfl, Nat.sub_self, pointersAt_cons_some hc]
        rfl
      rw [if_pos hon, hat]
      simp only
      have hstep := ih (before ++ [(hash, lba)]) (Function.update placed bit (some (.committed hash lba))) hnd.2
      rw [List.append_assoc, List.singleton_append, List.length_append, List.length_singleton] at hstep
      rw [pointersAt_cons_some hc, hstep]
      congr 1
      funext i
      by_cases hi : i = bit
      · subst hi
        simp [hc, hnd.1]
      · simp [hi]

theorem placeChildren_all (hall : Committed children) :
    placeChildren (presence children) (pointersAt children (List.finRange 32)) (List.finRange 32) 0 (fun _ => none) =
      .ok children := by
  have h := placeChildren_pointersAt hall (List.finRange 32) [] (fun _ => none) (List.nodup_finRange 32)
  rw [List.nil_append, List.length_nil] at h
  rw [h]
  congr 1
  funext i
  rcases children i with _ | c <;> simp

/-- The fields of committed children. -/
def pointerFields (slots : List (Hash32 × UInt64)) : List (Bytes × VsfType) :=
  slots.flatMap fun slot => [(ascii "ch", .hp slot.1.val), (ascii "at", .u slot.2)]

theorem pointerFields_cons (slot : Hash32 × UInt64) (slots : List (Hash32 × UInt64)) :
    pointerFields (slot :: slots) = (ascii "ch", .hp slot.1.val) :: (ascii "at", .u slot.2) :: pointerFields slots := rfl

theorem childFields_pointers (l : List Child) (h : ∀ c ∈ l, ∃ hash lba, c = .committed hash lba) :
    childFields l = .ok (pointerFields (l.filterMap Child.pointer)) := by
  induction l with
  | nil => rfl
  | cons c l ih =>
    obtain ⟨hash, lba, rfl⟩ := h c List.mem_cons_self
    have ih := ih fun c hc => h c (List.mem_cons_of_mem _ hc)
    rw [childFields, ih, List.filterMap_cons_some (by rfl), pointerFields_cons]

theorem childFields_committed (hall : Committed children) (bits : List (Fin 32)) :
    childFields (bits.filterMap children) = .ok (pointerFields (pointersAt children bits)) := by
  apply childFields_pointers
  intro c hc
  obtain ⟨i, -, hi⟩ := List.mem_filterMap.mp hc
  exact hall i c hi

theorem length_pointersAt (hall : Committed children) (bits : List (Fin 32)) :
    (pointersAt children bits).length = (bits.filterMap children).length := by
  induction bits with
  | nil => rfl
  | cons bit bits ih =>
    rcases hc : children bit with _ | c
    · rw [pointersAt_cons_none hc, ih, List.filterMap_cons_none hc]
    · obtain ⟨hash, lba, rfl⟩ := hall bit c hc
      rw [pointersAt_cons_some hc, List.filterMap_cons_some hc, List.length_cons, List.length_cons, ih]

theorem puttable_pointerFields (slots : List (Hash32 × UInt64)) : Puttable (pointerFields slots) := by
  induction slots with
  | nil => exact puttable_nil
  | cons slot slots ih => exact .cons (by decide) (put_hp slot.1) (.cons (by decide) (put_u slot.2) ih)

/-- A child takes two fields and at most 72 bytes. -/
theorem length_pointerFields (slots : List (Hash32 × UInt64)) :
    (flattenPairs (pointerFields slots)).length ≤ 72 * slots.length := by
  induction slots with
  | nil => exact Nat.le_refl 0
  | cons slot slots ih =>
    have hch := length_field (ascii "ch") 2 (by rfl) (by decide) (length_hp slot.1)
    have hat := length_field (ascii "at") 2 (by rfl) (by decide) (VsfSized.u_le slot.2)
    rw [pointerFields_cons, length_flattenPairs_cons, length_flattenPairs_cons, List.length_cons]
    simp only
    omega

theorem take_pointerFields (slots : List (Hash32 × UInt64)) : ∀ f : Fields,
    takeFields Fields.take f (pointerFields slots) = .ok { f with
      hashes := f.hashes ++ slots.map Prod.fst
      lbas := f.lbas ++ slots.map Prod.snd } := by
  induction slots with
  | nil => intro f; simp [pointerFields, takeFields]
  | cons slot slots ih =>
    intro f
    rw [pointerFields_cons]
    simp [takeFields, Fields.take, Fields.takeNumber, asU64, array32_val, Except.map, ascii, ih]

/-- A node of committed children is read back with its children in their slots. -/
theorem node_roundTrip {node : Node} (hall : Committed node.children) (hdepth : node.depth.toNat < maxDepth) :
    RoundTrip (encodeNode node) decodeDoc (.node node) := by
  have hstart := wireStart_le
  have hblock : blockSize = 4096 := rfl
  have hslots := length_pointersAt hall (List.finRange 32)
  have hle : (pointersAt node.children (List.finRange 32)).length ≤ 32 := by
    rw [hslots]
    exact (List.length_filterMap_le _ _).trans_eq (List.length_finRange)
  have hfields := length_pointerFields (pointersAt node.children (List.finRange 32))
  unfold encodeNode
  rw [childFields_committed hall]
  generalize hslotsEq : pointersAt node.children (List.finRange 32) = slots at *
  simp only
  apply roundTrip_of_fields
  · have hs := length_schema schemaNode 15 (by rfl) (by decide)
    have hd := length_field (ascii "depth") 5 (by rfl) (by decide) (VsfSized.u_le node.depth.toUInt64)
    have hr := length_field (ascii "route") 5 (by rfl) (by decide) (length_hp node.route)
    have hm := length_field (ascii "map") 3 (by rfl) (by decide)
      (VsfSized.u_le (UInt64.ofNat (presence node.children).toNat))
    rw [List.cons_append, List.cons_append, List.cons_append, List.nil_append, length_flattenPairs_cons,
      length_flattenPairs_cons, length_flattenPairs_cons]
    simp only
    omega
  · intro n block hsealed
    have htake : takeFields Fields.take {} ([(ascii "depth", .u node.depth.toUInt64), (ascii "route", .hp node.route.val),
        (ascii "map", .u (UInt64.ofNat (presence node.children).toNat))] ++ pointerFields slots) =
        .ok { depth := some node.depth.toUInt64, route := some node.route,
              map := some (UInt64.ofNat (presence node.children).toNat),
              hashes := slots.map Prod.fst, lbas := slots.map Prod.snd } := by
      have hfirst : takeFields Fields.take {} [(ascii "depth", .u node.depth.toUInt64),
          (ascii "route", .hp node.route.val), (ascii "map", .u (UInt64.ofNat (presence node.children).toNat))] =
          .ok { depth := some node.depth.toUInt64, route := some node.route,
                map := some (UInt64.ofNat (presence node.children).toNat) } := by
        simp [takeFields, Fields.take, Fields.takeNumber, asU64, array32_val, Except.map, ascii]
      rw [takeFields_append hfirst, take_pointerFields]
      rfl
    have hput : Puttable ([(ascii "depth", .u node.depth.toUInt64), (ascii "route", .hp node.route.val),
        (ascii "map", .u (UInt64.ofNat (presence node.children).toNat))] ++ pointerFields slots) :=
      .cons (by decide) (put_u _) (.cons (by decide) (put_hp _) (.cons (by decide) (put_u _)
        (puttable_pointerFields slots)))
    rw [decodeDoc_eq (by decide) hput htake n block hsealed]
    have hzip : (slots.map Prod.fst).zip (slots.map Prod.snd) = slots := by
      rw [List.zip_map', List.map_id']
    have hcount : countOnes (presence node.children) = slots.length := by
      rw [countOnes_presence, hslots]
    have hplace := placeChildren_all hall
    rw [hslotsEq] at hplace
    have hnum : node.depth.toUInt64.toNat = node.depth.toNat := UInt8.toNat_toUInt64 _
    have hback : node.depth.toUInt64.toUInt8 = node.depth := by simp
    have hdoc : ∀ f : Fields, docOf schemaNode f = nodeOf f := by
      intro f
      unfold docOf
      rw [if_neg (by decide), if_neg (by decide), if_neg (by decide), if_neg (by decide), if_pos rfl]
    rw [hdoc]
    unfold nodeOf
    simp only [Fields.need, bind, Except.bind, presence_toNat, hcount, List.length_map, hzip, hplace, hnum, hback]
    rw [if_neg (by simp), if_neg (Nat.not_le.mpr hdepth)]

end Node

end Codec

end Documents

section Entries

variable [Vsf] [VsfSized]

namespace WireEntry

theorem encode_eq_fields (e : WireEntry) : e.encode = encodeFields schema e.pairs := by
  unfold encode body encodeFields
  by_cases hfits : blockSize < wireStart + (flatten (.d schema) ++ flattenPairs e.pairs).length
  · simp only [if_pos hfits]
  · simp only [if_neg hfits]

theorem decode_encoded (e : WireEntry) (n : Nat) (block : Bytes)
    (hblock : block = sealedBytes (flatten (.d schema) ++ (flattenPairs e.pairs ++ List.replicate n 0))) :
    decode block = e.checked := by
  obtain ⟨front, hfront, hsplit⟩ := sealedBytes_split schema e.pairs n
  have hlen : e.pairs.length < block.length + 1 := by
    have := length_flattenPairs e.pairs
    rw [hblock, hsplit]
    simp only [List.length_append]
    omega
  obtain ⟨w, hparse, hw⟩ := WireFields.vsfParse_flatten schema_written front (flattenPairs e.pairs ++ List.replicate n 0)
  obtain rfl : w = .d schema := hw
  have hread := WireFields.read_pairs (head_replicate_zero n) e.pairs (front ++ flatten (.d schema)) (block.length + 1)
    {} e.pairs_written hlen
  rw [List.append_assoc, ← hsplit, ← hblock, List.length_append, e.takeAll_pairs] at hread
  rw [← hsplit, ← hblock, hfront] at hparse
  have hheader := wireHeader_sealedBytes (flatten (.d schema) ++ (flattenPairs e.pairs ++ List.replicate n 0))
  rw [← hblock] at hheader
  have hdrop := drop_sealedBytes (flatten (.d schema) ++ (flattenPairs e.pairs ++ List.replicate n 0))
  rw [← hblock] at hdrop
  unfold decode
  rw [hheader]
  simp only
  rw [hdrop, if_neg (not_not.mpr rfl), hparse]
  simp only
  rw [if_neg (not_not.mpr rfl), ← hfront, hread]
  simp only [entry_pairs]

theorem length_spineFields (e : WireEntry) :
    wireStart + ((flatten (.d schema)).length + (flattenPairs e.pairs).length) ≤ blockSize := by
  have hstart := wireStart_le
  have hblock : blockSize = 4096 := rfl
  have hs := Codec.length_schema schema 16 (by rfl) (by decide)
  have hgen := Codec.length_field (ascii "gen") 3 (by rfl) (by decide) (VsfSized.u_le e.gen)
  have hprev := Codec.length_field (ascii "prev") 4 (by rfl) (by decide) (Codec.length_hp e.prevHash)
  have hring := Codec.length_field (ascii "ring") 4 (by rfl) (by decide) (VsfSized.u_le e.ringLog2.toUInt64)
  have htract := Codec.length_field (ascii "tract") 5 (by rfl) (by decide) (VsfSized.u_le e.tractBlocks)
  have hhamt := Codec.length_field (ascii "hamt") 4 (by rfl) (by decide) (Codec.length_hp e.hamtHash)
  have hhamtat := Codec.length_field (ascii "hamtat") 6 (by rfl) (by decide) (VsfSized.u_le e.hamtLba)
  have hplow := Codec.length_field (ascii "plow") 4 (by rfl) (by decide) (VsfSized.u_le e.plow)
  have hlive := Codec.length_field (ascii "live") 4 (by rfl) (by decide) (VsfSized.u_le e.live)
  have htime := Codec.length_field (ascii "time") 4 (by rfl) (by decide) (VsfSized.e6_le e.eagleTime)
  have hreap : ∀ r, (flatten (.d (ascii "reap"))).length + (flatten (.u r)).length ≤ 4 + 4 + 11 :=
    fun r => Codec.length_field (ascii "reap") 4 (by rfl) (by decide) (VsfSized.u_le r)
  have hnil : (flattenPairs []).length = 0 := rfl
  unfold pairs
  rcases e.reap with _ | r
  · simp only [List.cons_append, List.nil_append, Codec.length_flattenPairs_cons, hnil]
    omega
  · have hreap := hreap r
    simp only [List.cons_append, List.nil_append, Codec.length_flattenPairs_cons, hnil]
    omega

theorem spine_roundTrip {e : WireEntry} (h : e.Geometry) : RoundTrip e.encode decode e := by
  rw [encode_eq_fields]
  apply roundTrip_of_fields e.length_spineFields
  intro n block hblock
  rw [e.decode_encoded n block hblock, checked_of_geometry h]

/-- An entry outside the geometry is written and refused. -/
theorem spine_refused {e : WireEntry} (h : ¬ e.Geometry) :
    ∃ block what, e.encode = .ok block ∧ block.length = blockSize ∧ decode block = .error (.corrupt what) := by
  obtain ⟨n, hencode, hlen⟩ := encodeFields_ok e.length_spineFields
  obtain ⟨what, hwhat⟩ := checked_refused h
  refine ⟨_, what, e.encode_eq_fields ▸ hencode, hlen, ?_⟩
  rw [e.decode_encoded n _ rfl, hwhat]

end WireEntry

namespace WireRoot

theorem take_number (f : Fields) (name : Bytes) {w : VsfType} {x : UInt64} (hw : asU64 w = some x) :
    f.take name w = .ok (f.takeNumber name x) := by
  cases w <;> first | (exfalso; simp [asU64] at hw; done) | simp only [Fields.take, hw]

/-- A number is taken in any width. -/
theorem take_readAs (f : Fields) (name : Bytes) (x w : VsfType) (hx : x.Put) (h : x.ReadAs w) :
    f.take name w = f.take name x := by
  cases x with
  | u x =>
    have hu : asU64 (.u x) = some x := rfl
    rw [take_number f name h, take_number f name hu]
  | hp bytes => rw [show w = .hp bytes from h]
  | d name => rw [show w = .d name from h]
  | e6 t => rw [show w = .e6 t from h]
  | v kind bytes => rw [show w = .v kind bytes from h]
  | _ =>
    rcases hx with hx | ⟨kind, bytes, hx, -⟩
    · exact absurd hx not_false
    · cases hx

variable (e : WireRoot)

theorem puttable_pairs : Puttable e.pairs := by
  have hu := Codec.put_u
  exact .cons (by decide) (hu _) (.cons (by decide) (Codec.put_hp _) (.cons (by decide) (hu _) (.cons (by decide) (hu _)
    (.cons (by decide) (hu _) (.cons (by decide) (hu _) (.cons (by decide) (hu _) (.cons (by decide) (hu _)
      (.cons (by decide) (.inl trivial) puttable_nil))))))))

theorem take_pairs : takeFields Fields.take {} e.pairs = .ok ⟨some e.gen, some e.prevHash, some e.ringLog2, some e.at_,
    some e.was, some e.since, some e.residences, some e.residency, some e.eagleTime⟩ := by
  simp [takeFields, Fields.take, Fields.takeNumber, pairs, ascii, asU64, WireFields.to32_val, Except.map]

theorem length_rootFields :
    wireStart + ((flatten (.d schemaRoot)).length + (flattenPairs e.pairs).length) ≤ blockSize := by
  have hstart := wireStart_le
  have hblock : blockSize = 4096 := rfl
  have hs := Codec.length_schema schemaRoot 15 (by rfl) (by decide)
  have hgen := Codec.length_field (ascii "gen") 3 (by rfl) (by decide) (VsfSized.u_le e.gen)
  have hprev := Codec.length_field (ascii "prev") 4 (by rfl) (by decide) (Codec.length_hp e.prevHash)
  have hring := Codec.length_field (ascii "ring") 4 (by rfl) (by decide) (VsfSized.u_le e.ringLog2.toUInt64)
  have hat := Codec.length_field (ascii "at") 2 (by rfl) (by decide) (VsfSized.u_le e.at_)
  have hwas := Codec.length_field (ascii "was") 3 (by rfl) (by decide) (VsfSized.u_le e.was)
  have hsince := Codec.length_field (ascii "since") 5 (by rfl) (by decide) (VsfSized.u_le e.since)
  have hband := Codec.length_field (ascii "band") 4 (by rfl) (by decide) (VsfSized.u_le e.residences)
  have hstay := Codec.length_field (ascii "stay") 4 (by rfl) (by decide) (VsfSized.u_le e.residency)
  have htime := Codec.length_field (ascii "time") 4 (by rfl) (by decide) (VsfSized.e6_le e.eagleTime)
  have hnil : (flattenPairs []).length = 0 := rfl
  simp only [pairs, Codec.length_flattenPairs_cons, hnil]
  omega

theorem root_roundTrip : RoundTrip e.encode decode e := by
  apply roundTrip_of_fields e.length_rootFields
  intro n block hblock
  obtain ⟨ptr, hparse, hread⟩ := read_sealedBytes (fun e => .corrupt s!"vsf parse: {e}") (.corrupt "expected field name")
    take_readAs {} (by decide) e.puttable_pairs hblock
  have hheader := wireHeader_sealedBytes (flatten (.d schemaRoot) ++ (flattenPairs e.pairs ++ List.replicate n 0))
  rw [← hblock] at hheader
  have hdrop := drop_sealedBytes (flatten (.d schemaRoot) ++ (flattenPairs e.pairs ++ List.replicate n 0))
  rw [← hblock] at hdrop
  have hschema : vsfParse block (4 + hpLen + 1) = .ok (.d schemaRoot, ptr) := by
    rw [vsfParse, hparse]
  unfold decode
  rw [hheader]
  simp only
  rw [hdrop, if_neg (not_not.mpr rfl), hschema]
  simp only
  rw [if_neg (not_not.mpr rfl), hread, e.take_pairs]
  rfl

end WireRoot

end Entries

section Codecs

variable [Vsf]

/-- Every document within its capacity makes the round trip, every entry of a root ring, and a spine
entry where its geometry holds; outside it the entry is refused, and so is any block that holds one. -/
structure RoundTrips : Prop where
  lone : ∀ key value, value.length ≤ Codec.loneCapacity →
    RoundTrip (Codec.encodeLone key value) Codec.decodeDoc (.lone key value)
  furrow : ∀ key index payload, payload.length ≤ Codec.furrowCapacity →
    RoundTrip (Codec.encodeFurrow key index payload) Codec.decodeDoc (.furrow key index payload)
  extent : ∀ key size runs, runs.length ≤ Codec.maxRuns →
    RoundTrip (Codec.encodeExtent key size runs) Codec.decodeDoc (.extent key size runs)
  node : ∀ node : Codec.Node, node.depth.toNat < maxDepth → Codec.Committed node.children →
    RoundTrip (Codec.encodeNode node) Codec.decodeDoc (.node node)
  spine : ∀ e : WireEntry, e.Geometry → RoundTrip e.encode WireEntry.decode e
  refused : ∀ e : WireEntry, ¬ e.Geometry → ∃ block what,
    e.encode = .ok block ∧ block.length = blockSize ∧ WireEntry.decode block = .error (.corrupt what)
  checked : ∀ block (e : WireEntry), WireEntry.decode block = .ok e → e.Geometry
  root : ∀ e : WireRoot, RoundTrip e.encode WireRoot.decode e

/-- The block codecs of the engine over an encoding with the lengths the margins assume. -/
theorem codecs_round_trip [VsfSized] : RoundTrips where
  lone _ _ := Codec.lone_roundTrip
  furrow _ _ _ := Codec.furrow_roundTrip
  extent _ _ _ := Codec.extent_roundTrip
  node _ hdepth hall := Codec.node_roundTrip hall hdepth
  spine _ := WireEntry.spine_roundTrip
  refused _ := WireEntry.spine_refused
  checked _ _ := decode_geometry
  root := WireRoot.root_roundTrip

end Codecs

namespace PlainVsf

theorem parse_flatten_v (kind : UInt8) (bytes : Bytes) (h : bytes.length ≤ blockSize) (front rest : Bytes) :
    parse (front ++ flatten (.v kind bytes) ++ rest) front.length =
      .ok (.v kind bytes, front.length + (flatten (.v kind bytes)).length) := by
  have hblock : blockSize = 4096 := rfl
  have hdrop : (front ++ flatten (.v kind bytes) ++ rest).drop front.length = flatten (.v kind bytes) ++ rest := by
    rw [List.append_assoc, List.drop_left]
  have hlen : (UInt8.ofNat bytes.length).toNat + 256 * (UInt8.ofNat (bytes.length / 256)).toNat = bytes.length := by
    rw [UInt8.toNat_ofNat', UInt8.toNat_ofNat']
    omega
  rw [parse, hdrop]
  simp only [flatten, List.cons_append, List.nil_append, hlen, List.take_left, List.length_cons]

theorem length_u (x : UInt64) : (flatten (.u x)).length ≤ 11 := by
  by_cases hx : x < 256 <;> simp [flatten, hx, length_bytes8]

end PlainVsf

instance plainSized : VsfSized where
  parse_flatten_v := PlainVsf.parse_flatten_v
  d_le name _ := by
    show (PlainVsf.flatten (.d name)).length ≤ _
    simp [PlainVsf.flatten]
  u_le := PlainVsf.length_u
  e6_le t := by
    show (PlainVsf.flatten (.e6 t)).length ≤ _
    simp [PlainVsf.flatten, PlainVsf.length_bytes8]
  hp_le := by decide
  v_le kind bytes _ := by
    show (PlainVsf.flatten (.v kind bytes)).length ≤ _
    simp [PlainVsf.flatten]

/-- The blank entry makes the round trip, and the same entry over a tract of no blocks is refused. -/
theorem codecs_round_trip_blank :
    RoundTrip (Codec.encodeLone zeros32 [1, 2, 3]) Codec.decodeDoc (.lone zeros32 [1, 2, 3]) ∧
    RoundTrip blankEntry.encode WireEntry.decode blankEntry ∧
    ∃ block what, { blankEntry with tractBlocks := 0 }.encode = .ok block ∧ block.length = blockSize ∧
      WireEntry.decode block = .error (.corrupt what) := by
  have htrips := codecs_round_trip
  have hgeometry : blankEntry.Geometry := by
    constructor
    case cursors =>
      intro r hr
      cases hr
      decide
    all_goals decide
  exact ⟨htrips.lone zeros32 [1, 2, 3] (by decide), htrips.spine blankEntry hgeometry,
    htrips.refused _ fun h => h.tract rfl⟩

end Manifestus
