/-
# Tacenta.Erasure.Gather -- a decoder that is handed one message's codewords

`Recovery` says what a run of offers ends with.  Here the same is said of a
decoder as it stands, for a protocol that keeps one among other things: whatever
it holds is codewords of one message, and what it yields is that message.  The
stream is told by how far it has gone.
-/
import Tacenta.Erasure.Recovery

set_option autoImplicit false

namespace Tacenta.Erasure

/-- The chunk is a codeword of the message. -/
def Word (message : Bytes) (c : Chunk) : Prop :=
  c.data = Encoder.codeword (Encoder.new message).chunks c.index

/-- **A decoder that holds codewords of one message yields that message.** -/
theorem message_of_words {message : Bytes} (small : message.length ≤ 65536 * 32) {dec : Decoder}
    (inv : dec.invariant = true) (size : dec.size = message.length)
    (words : ∀ c ∈ dec.held, Word message c) {value : Bytes} (yields : dec.message = some value) :
    value = message := by
  simp only [Decoder.invariant, Bool.and_eq_true, decide_eq_true_eq] at inv
  obtain ⟨⟨⟨needs, -⟩, room⟩, distinct⟩ := inv
  rw [size] at needs
  have few : chunkCount message.length ≤ maxCodewords := by
    unfold chunkCount maxCodewords
    omega
  have length : (Encoder.new message).chunks.length = chunkCount message.length :=
    Encoder.new_needed few
  unfold Decoder.message at yields
  split at yields
  · cases yields
  rename_i full
  have count : dec.held.length = chunkCount message.length := by
    simp only [Decoder.hasMessage, Bool.not_eq_true, Bool.not_eq_false', decide_eq_true_eq] at full
    omega
  have each : ∀ t ∈ List.range dec.needed,
      (Decoder.recovered (dec.held.take dec.needed) t).toList =
        (Encoder.chunkOf message t).toList := by
    intro t here
    rw [List.mem_range, needs] at here
    rw [needs, List.take_of_length_le count.le,
      recovered_eq (by rw [length]; exact few) (List.pairwise_map.2 distinct)
        (count.trans length.symm) words (by rwa [length]) (Vector.replicate 32 0),
      new_chunks few here]
  rw [← Option.some.inj yields, List.flatMap_congr each, size, needs,
    take_chunks (chunkCount_covers message.length)]

namespace Decoder

theorem message_eq_none {dec : Decoder} : dec.message = none ↔ dec.held.length < dec.needed := by
  unfold message hasMessage
  split <;> simp_all

theorem short_new {size : Nat} (some_ : 0 < size) : (new size).held.length < (new size).needed := by
  simp only [new, List.length_nil, chunkCount]
  omega

/-- One chunk leaves a new decoder short of a value of more than one. -/
theorem short_first {size : Nat} (long : 32 < size) (c : Chunk) :
    ((new size).addChunk c).1.held.length < ((new size).addChunk c).1.needed := by
  obtain ⟨same, -⟩ | ⟨taken, -, -⟩ := addChunk_cases (new size) c
  · rw [same]
    exact short_new (by omega)
  · rw [taken]
    simp only [new, List.nil_append, List.length_singleton, chunkCount]
    omega

theorem mem_addChunk {dec : Decoder} {c d : Chunk} (held : d ∈ (dec.addChunk c).1.held) :
    d ∈ dec.held ∨ d = c := by
  obtain ⟨same, -⟩ | ⟨taken, -, -⟩ := addChunk_cases dec c
  · rw [same] at held
    exact .inl held
  · rw [taken] at held
    simpa using held

end Decoder

namespace Encoder

/-- How many codewords a stream has issued. -/
def position (enc : Encoder) : Nat := if enc.exhausted then maxCodewords else enc.next.toNat

theorem position_le (enc : Encoder) : enc.position ≤ maxCodewords := by
  have small := enc.next.toNat_lt
  unfold position maxCodewords
  split <;> omega

@[simp] theorem position_at (chunks : List (Arr 32)) (index : Nat) :
    (at_ chunks index).position = min index maxCodewords := by
  have limit : maxCodewords = 65536 := rfl
  unfold position at_
  by_cases done : index ≥ maxCodewords
  · simp [done]
  · simp only [done, decide_false, Bool.false_eq_true, if_false, UInt16.toNat_ofNat']
    omega

@[simp] theorem position_new (message : Bytes) : (new message).position = 0 := rfl

theorem position_nextChunk (chunks : List (Arr 32)) (index : Nat) :
    (at_ chunks index).position ≤ (at_ chunks index).nextChunk.2.position := by
  rw [nextChunk_at, position_at, position_at]
  omega

/-- What a stream issues is a codeword of its message, at an index it had not
come to. -/
theorem output_word {message : Bytes} {index : Nat} {c : Chunk}
    (output : Encoder.output (Encoder.new message).chunks index = some c) :
    Word message c ∧ c.index.toNat = index ∧ index < maxCodewords := by
  have limit : maxCodewords = 65536 := rfl
  unfold Encoder.output at output
  split at output
  · rename_i inside
    rw [← Option.some.inj output]
    refine ⟨rfl, ?_, inside⟩
    rw [UInt16.toNat_ofNat']
    omega
  · cases output

end Encoder

end Tacenta.Erasure
