/-
# Tacenta.Erasure.Coders -- what the two coders keep

The invariants the decoders of the crate check are kept by every operation of
the two coders: an encoder keeps its chunks and walks its indices once, a
decoder holds distinct indices and never more than it needs, and a value it
yields has the length it was made for.
-/
import Tacenta.Erasure.Code

set_option autoImplicit false

namespace Tacenta.Erasure

theorem chunkCount_covers (size : Nat) : size ≤ chunkCount size * 32 := by
  unfold chunkCount
  omega

/-! ## The encoder -/

namespace Encoder

theorem new_needed {message : Bytes} (small : chunkCount message.length ≤ maxCodewords) :
    (Encoder.new message).needed = chunkCount message.length := by
  simp [Encoder.new, needed, small]

theorem new_invariant (message : Bytes) : (Encoder.new message).invariant = true := by
  simp [Encoder.new, invariant]

@[simp] theorem nextChunk_chunks (enc : Encoder) : enc.nextChunk.2.chunks = enc.chunks := by
  unfold nextChunk
  split
  · rfl
  · simp only
    split <;> rfl

@[simp] theorem nextChunk_needed (enc : Encoder) : enc.nextChunk.2.needed = enc.needed := by
  simp [needed]

theorem nextChunk_invariant {enc : Encoder} (inv : enc.invariant = true) :
    enc.nextChunk.2.invariant = true := by
  unfold nextChunk
  split
  · exact inv
  · rename_i more
    simp only
    simp only [invariant, Bool.and_eq_true, decide_eq_true_eq] at inv
    split
    · rename_i last
      simp [invariant, inv.1, last]
    · simp [invariant, inv.1, more]

end Encoder

/-! ## The decoder -/

namespace Decoder

theorem new_invariant {size : Nat} (small : chunkCount size ≤ maxCodewords) :
    (Decoder.new size).invariant = true := by
  simp [Decoder.new, invariant, small]

@[simp] theorem addChunk_size (dec : Decoder) (chunk : Chunk) :
    (dec.addChunk chunk).1.size = dec.size := by
  unfold addChunk
  split
  · rfl
  · split <;> rfl

@[simp] theorem addChunk_needed (dec : Decoder) (chunk : Chunk) :
    (dec.addChunk chunk).1.needed = dec.needed := by
  unfold addChunk
  split
  · rfl
  · split <;> rfl

/-- A decoder takes a chunk when it still needs one and holds none at its index. -/
theorem addChunk_cases (dec : Decoder) (chunk : Chunk) :
    ((dec.addChunk chunk).1 = dec ∧
      (dec.needed ≤ dec.held.length ∨ ∃ c ∈ dec.held, c.index = chunk.index)) ∨
    ((dec.addChunk chunk).1 = { dec with held := dec.held ++ [chunk] } ∧
      dec.held.length < dec.needed ∧ ∀ c ∈ dec.held, c.index ≠ chunk.index) := by
  unfold addChunk
  split
  · rename_i full
    exact .inl ⟨rfl, .inl full⟩
  · rename_i room
    split
    · rename_i repeated
      exact .inl ⟨rfl, .inr (by simpa using repeated)⟩
    · rename_i fresh
      exact .inr ⟨rfl, by omega, by simpa using fresh⟩

theorem addChunk_invariant {dec : Decoder} (inv : dec.invariant = true) (chunk : Chunk) :
    (dec.addChunk chunk).1.invariant = true := by
  obtain ⟨same, -⟩ | ⟨taken, room, fresh⟩ := addChunk_cases dec chunk
  · rw [same]
    exact inv
  · rw [taken]
    simp only [invariant, Bool.and_eq_true, decide_eq_true_eq] at inv ⊢
    obtain ⟨⟨⟨needs, small⟩, -⟩, distinct⟩ := inv
    refine ⟨⟨⟨needs, small⟩, by simpa using room⟩, ?_⟩
    refine List.pairwise_append.2 ⟨distinct, List.pairwise_singleton _ _, fun a ha b hb => ?_⟩
    rw [List.mem_singleton.1 hb]
    exact fresh a ha

/-- **A value a decoder yields has the length it was made for.** -/
theorem message_length {dec : Decoder} (inv : dec.invariant = true) {value : Bytes}
    (yields : dec.message = some value) : value.length = dec.size := by
  simp only [invariant, Bool.and_eq_true, decide_eq_true_eq] at inv
  unfold message at yields
  split at yields
  · simp at yields
  · simp only [Option.some.injEq] at yields
    have covers := chunkCount_covers dec.size
    rw [← yields, List.length_take, List.length_flatMap]
    simp only [Arr.length_toList, List.map_const', List.length_range, List.sum_replicate,
      smul_eq_mul]
    rw [inv.1.1.1]
    omega

end Decoder

end Tacenta.Erasure
