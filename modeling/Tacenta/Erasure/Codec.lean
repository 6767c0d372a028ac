/-
# Tacenta.Erasure.Codec -- the two coders at rest

`to_bytes` and `from_bytes` of the crate's encoder and decoder.  The readers
bound every count against the input before they read an entry, and refuse a
coder its own invariant refuses.
-/
import Tacenta.Erasure.Coders
import Tacenta.Format

set_option autoImplicit false

namespace Tacenta.Erasure

/-- The readers below refuse in one way. -/
abbrev FieldReader := Reader Unit

/-- A boolean's byte, 0 or 1. -/
def readFlag : FieldReader Bool := do
  let b ← Reader.u8 ()
  if b = 0x00 then pure false else if b = 0x01 then pure true else Reader.refuse ()

def Chunk.encode (c : Chunk) : Bytes := be16 c.index ++ c.data.toList

def readChunk : FieldReader Chunk := do
  let index ← Reader.u16 ()
  let data ← Reader.arr () 32
  pure { index, data }

theorem length_chunkEncode (c : Chunk) : c.encode.length = 34 := by simp [Chunk.encode]

theorem reads_flag (b : Bool) : Reads readFlag [if b then 0x01 else 0x00] b := by
  cases b
  · exact .bind_last (Reads.u8 _ 0x00) (.of_pure _)
  · exact .bind_last (Reads.u8 _ 0x01) (.of_pure _)

theorem reads_chunk (c : Chunk) : Reads readChunk c.encode c :=
  (Reads.u16 _ c.index).bind (.bind_last (Reads.arr _ c.data) (.of_pure _))

theorem consumes_flag : Consumes readFlag fun used b => used = [if b then 0x01 else 0x00] := by
  refine .bind (.u8 _) ?_
  rintro _ byte rfl
  by_cases off : byte = 0x00
  · rw [if_pos off]
    exact .of_pure (by simp [off])
  · rw [if_neg off]
    by_cases on : byte = 0x01
    · rw [if_pos on]
      exact .of_pure (by simp [on])
    · rw [if_neg on]
      exact .refuse _

theorem consumes_chunk : Consumes readChunk fun used c => used = c.encode := by
  refine .bind (.u16 _) ?_
  rintro _ index rfl
  refine .bind (.arr _ 32) ?_
  rintro _ data rfl
  exact .of_pure (by simp [Chunk.encode])

/-! ## The encoder -/

namespace Encoder

def toBytes (enc : Encoder) : Bytes :=
  be16 enc.next ++ ([if enc.exhausted then 0x01 else 0x00] ++
    (be32 (UInt32.ofNat enc.chunks.length) ++ enc.chunks.flatMap Vector.toList))

def decode (len : Nat) : FieldReader Encoder := do
  let next ← Reader.u16 ()
  let exhausted ← readFlag
  let count ← (fun v : UInt32 => v.toNat) <$> Reader.u32 ()
  Reader.require (decide (count ≤ len / chunkBytes)) ()
  let chunks ← Reader.many (Reader.arr () 32) count
  Reader.atEnd ()
  pure { chunks, next, exhausted }

def fromBytes (bytes : Bytes) : Option Encoder :=
  match (decode bytes.length).value bytes with
  | .error _ => none
  | .ok enc => if !enc.invariant then none else some enc

theorem length_toBytes (enc : Encoder) : enc.toBytes.length = 7 + enc.needed * 32 := by
  have wide : (enc.chunks.flatMap Vector.toList).length = enc.chunks.length * 32 :=
    length_flatMap_width (fun a => by simp) _
  simp only [toBytes, List.length_append, wide, length_be16, length_be32, List.length_singleton,
    needed]
  omega

/-- **The encoder's round trip.** -/
theorem fromBytes_toBytes {enc : Encoder} (inv : enc.invariant = true) :
    fromBytes enc.toBytes = some enc := by
  have small : enc.chunks.length ≤ maxCodewords := by
    simp only [invariant, Bool.and_eq_true, decide_eq_true_eq] at inv
    exact inv.1
  have fits : enc.chunks.length ≤ enc.toBytes.length / chunkBytes := by
    rw [length_toBytes, Nat.le_div_iff_mul_le (by decide), needed, chunkBytes]
    omega
  have reads : ReadsAll (decode enc.toBytes.length) enc.toBytes enc := by
    simp only [maxCodewords] at small
    refine .bind (Reads.u16 _ enc.next) (.bind (reads_flag enc.exhausted) ?_)
    refine .bind (Reads.count _ (by omega)) (.bind_nil (.require _ (decide_eq_true fits)) ?_)
    exact .bind_last (Reads.many fun c _ => Reads.arr _ c) (.atEnd _ (.of_pure _))
  simp [fromBytes, reads.value, inv]

/-- `encoded_len`: the index, the flag and the count, then every chunk. -/
def encodedLen (enc : Encoder) : Nat := 2 + 1 + 4 + enc.chunks.length * chunkBytes

theorem encodedLen_eq (enc : Encoder) : enc.encodedLen = enc.toBytes.length := by
  rw [length_toBytes, encodedLen, needed, chunkBytes]

theorem exhausts_decode (len : Nat) : Exhausts (decode len) fun input enc => input = enc.toBytes := by
  refine .bind (.u16 _) ?_
  rintro _ next rfl
  refine .bind consumes_flag ?_
  rintro _ exhausted rfl
  refine .bind (.count _) ?_
  rintro _ count rfl
  refine .bind (.require _) ?_
  rintro _ - ⟨rfl, -⟩
  refine .bind (.many (P := fun _ _ => True) ((Consumes.arr _ 32).mono fun _ _ h => ⟨h, trivial⟩) _) ?_
  rintro _ chunks ⟨rfl, length, -⟩
  refine .atEnd _ (.of_pure ?_)
  simp [toBytes, length]

/-- **An accepted encoder is spelled one way.** -/
theorem fromBytes_some {bytes : Bytes} {enc : Encoder} (read : fromBytes bytes = some enc) :
    enc.toBytes = bytes ∧ enc.invariant = true := by
  unfold fromBytes at read
  split at read
  · simp at read
  · rename_i decoded here
    split at read
    · simp at read
    · rename_i inv
      rw [← Option.some.inj read]
      exact ⟨((exhausts_decode _).value here).symm, by simpa using inv⟩

end Encoder

/-! ## The decoder -/

namespace Decoder

def toBytes (dec : Decoder) : Bytes :=
  be64 (UInt64.ofNat dec.size) ++ (be64 (UInt64.ofNat dec.needed) ++
    (be32 (UInt32.ofNat dec.held.length) ++ dec.held.flatMap Chunk.encode))

/-- The two sizes are bounded before they are narrowed. -/
def decode (len : Nat) : FieldReader Decoder := do
  let size ← Reader.u64 ()
  let needed ← Reader.u64 ()
  Reader.require (decide (needed.toNat ≤ maxCodewords)) ()
  Reader.require (decide (size.toNat ≤ maxCodewords * chunkBytes)) ()
  let count ← (fun v : UInt32 => v.toNat) <$> Reader.u32 ()
  Reader.require (decide (count ≤ len / (2 + chunkBytes))) ()
  let held ← Reader.many readChunk count
  Reader.atEnd ()
  pure { size := size.toNat, needed := needed.toNat, held }

def fromBytes (bytes : Bytes) : Option Decoder :=
  match (decode bytes.length).value bytes with
  | .error _ => none
  | .ok dec => if !dec.invariant then none else some dec

theorem length_toBytes (dec : Decoder) : dec.toBytes.length = 20 + dec.held.length * 34 := by
  simp only [toBytes, List.length_append, length_flatMap_width length_chunkEncode, length_be64,
    length_be32]
  omega

/-- **The decoder's round trip.** -/
theorem fromBytes_toBytes {dec : Decoder} (inv : dec.invariant = true) :
    fromBytes dec.toBytes = some dec := by
  obtain ⟨⟨⟨needs, small⟩, room⟩, -⟩ : ((dec.needed = chunkCount dec.size ∧
      dec.needed ≤ maxCodewords) ∧ dec.held.length ≤ dec.needed) ∧
      dec.held.Pairwise fun a b => a.index ≠ b.index := by
    simpa only [invariant, Bool.and_eq_true, decide_eq_true_eq] using inv
  have covers := chunkCount_covers dec.size
  rw [← needs] at covers
  simp only [maxCodewords] at small
  have size_toNat : (UInt64.ofNat dec.size).toNat = dec.size := by
    rw [UInt64.toNat_ofNat', Nat.mod_eq_of_lt (by omega)]
  have needed_toNat : (UInt64.ofNat dec.needed).toNat = dec.needed := by
    rw [UInt64.toNat_ofNat', Nat.mod_eq_of_lt (by omega)]
  have fits : dec.held.length ≤ dec.toBytes.length / (2 + chunkBytes) := by
    rw [length_toBytes, Nat.le_div_iff_mul_le (by decide), chunkBytes]
    omega
  have reads : ReadsAll (decode dec.toBytes.length) dec.toBytes dec := by
    refine .bind (Reads.u64 _ _) (.bind (Reads.u64 _ _) ?_)
    refine .bind_nil (.require _ (decide_eq_true ?_)) (.bind_nil (.require _ (decide_eq_true ?_)) ?_)
    · simp only [needed_toNat, maxCodewords]
      omega
    · simp only [size_toNat, maxCodewords, chunkBytes]
      omega
    refine .bind (Reads.count _ (by omega)) (.bind_nil (.require _ (decide_eq_true fits)) ?_)
    refine .bind_last (Reads.many fun c _ => reads_chunk c) (.atEnd _ ?_)
    rw [size_toNat, needed_toNat]
    exact .of_pure _
  simp [fromBytes, reads.value, inv]

/-- `encoded_len`: the two sizes and the count, then every codeword held. -/
def encodedLen (dec : Decoder) : Nat := 8 + 8 + 4 + dec.held.length * (2 + chunkBytes)

theorem encodedLen_eq (dec : Decoder) : dec.encodedLen = dec.toBytes.length := by
  rw [length_toBytes, encodedLen, chunkBytes]

theorem exhausts_decode (len : Nat) : Exhausts (decode len) fun input dec => input = dec.toBytes := by
  refine .bind (.u64 _) ?_
  rintro _ size rfl
  refine .bind (.u64 _) ?_
  rintro _ needed rfl
  refine .bind (.require _) ?_
  rintro _ - ⟨rfl, -⟩
  refine .bind (.require _) ?_
  rintro _ - ⟨rfl, -⟩
  refine .bind (.count _) ?_
  rintro _ count rfl
  refine .bind (.require _) ?_
  rintro _ - ⟨rfl, -⟩
  refine .bind (.many (P := fun _ _ => True) (consumes_chunk.mono fun _ _ h => ⟨h, trivial⟩) _) ?_
  rintro _ held ⟨rfl, length, -⟩
  refine .atEnd _ (.of_pure ?_)
  simp [toBytes, length]

/-- **An accepted decoder is spelled one way.** -/
theorem fromBytes_some {bytes : Bytes} {dec : Decoder} (read : fromBytes bytes = some dec) :
    dec.toBytes = bytes ∧ dec.invariant = true := by
  unfold fromBytes at read
  split at read
  · simp at read
  · rename_i decoded here
    split at read
    · simp at read
    · rename_i inv
      rw [← Option.some.inj read]
      exact ⟨((exhausts_decode _).value here).symm, by simpa using inv⟩

end Decoder

end Tacenta.Erasure
