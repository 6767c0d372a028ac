/-
# Tacenta.Erasure.Runs -- the two coders over whole runs

An encoder and a decoder under any interleaving of `next_chunk`, `add_chunk` and
round trips through their stored forms, on a `usize` of `w` bits.  One call keeps
the encoder at its place in the stream and the decoder within its invariant, with
everything it held in front (`Coders.call_at`); so does a run (`Coders.run_at`).
-/
import Tacenta.Erasure.Exact
import Tacenta.Erasure.Recovery

set_option autoImplicit false

namespace Tacenta.Erasure

/-! ## Runs -/

inductive CoderCall where
  | nextChunk
  | addChunk (chunk : Chunk)
  /-- `Encoder::from_bytes(&enc.to_bytes())`, in the encoder's place. -/
  | restoreEncoder
  /-- `Decoder::from_bytes(&dec.to_bytes())`, in the decoder's place. -/
  | restoreDecoder
  deriving DecidableEq

structure Coders where
  encoder : Encoder
  decoder : Decoder

namespace Coders

/-- The coders after a call, and what `next_chunk` returned. -/
def call (w : Nat) (s : Coders) : CoderCall → Indexed Unit (Coders × List (Option Chunk))
  | .nextChunk => .ok ({ s with encoder := s.encoder.nextChunk.2 }, [s.encoder.nextChunk.1])
  | .addChunk chunk => .ok ({ s with decoder := (s.decoder.addChunk chunk).1 }, [])
  | .restoreEncoder => do
      let encoder ← Encoder.fromBytesAt w s.encoder.toBytes
      .ok ({ s with encoder }, [])
  | .restoreDecoder => do
      let decoder ← Decoder.fromBytesAt w s.decoder.toBytes
      .ok ({ s with decoder }, [])

/-- A run of calls, and what `next_chunk` returned along it. -/
def run (w : Nat) : Coders → List CoderCall → Indexed Unit (Coders × List (Option Chunk))
  | s, [] => .ok (s, [])
  | s, c :: rest => do
      let (s, now) ← s.call w c
      let (s, later) ← run w s rest
      .ok (s, now ++ later)

/-- The encoder stands at `index` of its stream, the decoder within its invariant. -/
structure At (chunks : List (Arr 32)) (index : Nat) (s : Coders) : Prop where
  encoder : s.encoder = Encoder.at_ chunks index
  decoder : s.decoder.invariant = true

/-- What a decoder keeps when chunks are added: its size, and what it holds in front. -/
structure Kept (dec dec' : Decoder) : Prop where
  size : dec'.size = dec.size
  held : dec.held <+: dec'.held

theorem Kept.refl (dec : Decoder) : Kept dec dec := ⟨rfl, List.prefix_rfl⟩

theorem Kept.trans {dec dec' dec'' : Decoder} (first : Kept dec dec') (second : Kept dec' dec'') :
    Kept dec dec'' := ⟨second.size.trans first.size, first.held.trans second.held⟩

theorem Kept.addChunk (dec : Decoder) (chunk : Chunk) : Kept dec (dec.addChunk chunk).1 := by
  refine ⟨Decoder.addChunk_size dec chunk, ?_⟩
  obtain ⟨same, -⟩ | ⟨taken, -, -⟩ := Decoder.addChunk_cases dec chunk
  · rw [same]
  · rw [taken]
    exact List.prefix_append _ _

variable {w : Nat} {chunks : List (Arr 32)} {index : Nat} {s : Coders}

theorem at_invariant (few : chunks.length ≤ maxCodewords) (index : Nat) :
    (Encoder.at_ chunks index).invariant = true := by
  have limit : maxCodewords = 65536 := rfl
  simp only [Encoder.invariant, Encoder.at_, Bool.and_eq_true, decide_eq_true_eq, few, true_and]
  by_cases done : index ≥ maxCodewords
  · have last : min index 65535 = 65535 := by omega
    rw [last]
    simp
  · simp [done]

/-- **One call**: it returns, the encoder moves on by what it issued, and the
decoder keeps what it held. -/
theorem call_at (wide : 32 ≤ w) (few : chunks.length ≤ maxCodewords) (at_ : At chunks index s)
    (c : CoderCall) :
    ∃ t n, s.call w c = .ok (t, (List.range' index n).map (Encoder.output chunks)) ∧
      n = [c].count .nextChunk ∧ At chunks (index + n) t ∧ Kept s.decoder t.decoder := by
  cases c with
  | nextChunk =>
      have next := Encoder.nextChunk_at chunks index
      rw [← at_.encoder] at next
      refine ⟨{ s with encoder := s.encoder.nextChunk.2 }, 1, ?_, rfl, ⟨?_, at_.decoder⟩, .refl _⟩
      · rw [call, next]
        rfl
      · rw [next]
  | addChunk chunk =>
      refine ⟨{ s with decoder := (s.decoder.addChunk chunk).1 }, 0, rfl, rfl, ?_, .addChunk _ _⟩
      exact ⟨at_.encoder, Decoder.addChunk_invariant at_.decoder chunk⟩
  | restoreEncoder =>
      have invariant : s.encoder.invariant = true := by
        rw [at_.encoder]
        exact at_invariant few index
      refine ⟨s, 0, ?_, rfl, at_, .refl _⟩
      rw [call, (Encoder.format_exact wide).restores _ invariant]
      rfl
  | restoreDecoder =>
      refine ⟨s, 0, ?_, rfl, at_, .refl _⟩
      rw [call, (Decoder.format_exact wide).restores _ at_.decoder]
      rfl

/-- **A run** goes the same way. -/
theorem run_at (wide : 32 ≤ w) (few : chunks.length ≤ maxCodewords) (at_ : At chunks index s)
    (calls : List CoderCall) :
    ∃ t, s.run w calls =
        .ok (t, (List.range' index (calls.count .nextChunk)).map (Encoder.output chunks)) ∧
      At chunks (index + calls.count .nextChunk) t ∧ Kept s.decoder t.decoder := by
  induction calls generalizing index s with
  | nil => exact ⟨s, rfl, at_, .refl _⟩
  | cons c rest ih =>
      obtain ⟨t, n, moved, count, at_t, kept⟩ := call_at wide few at_ c
      obtain ⟨u, ran, at_u, kept_u⟩ := ih at_t
      have total : (c :: rest).count .nextChunk = n + rest.count .nextChunk := by
        rw [count, ← List.count_append, List.singleton_append]
      refine ⟨u, ?_, ?_, kept.trans kept_u⟩
      · rw [run, moved]
        show (t.run w rest >>= fun p => .ok (p.1, _ ++ p.2)) = _
        rw [ran, total, ← List.range'_append_1, List.map_append]
        rfl
      · rw [total, ← Nat.add_assoc]
        exact at_u

end Coders

/-! ## From a new encoder and a new decoder -/

/-- **The coders over every run.**  From a new encoder of any message and a new
decoder of any size the field carries, every interleaving of calls and round
trips returns; both invariants hold; the stream is index after index to the last
and then nothing; what a decoder holds stays in front of what it holds later,
no index twice and no more than it needs; and the two stored formats are exact. -/
theorem coders_run_exact {w : Nat} (wide : 32 ≤ w) (message : Bytes) (size : Nat)
    (small : size ≤ 65536 * 32) :
    (∀ calls more : List CoderCall, ∃ s issued t issued',
      Coders.run w ⟨Encoder.new message, Decoder.new size⟩ calls = .ok (s, issued) ∧
      Coders.run w s more = .ok (t, issued') ∧
      s.encoder.invariant = true ∧ s.decoder.invariant = true ∧
      issued.length = calls.count .nextChunk ∧
      (∀ n < issued.length, issued[n]? = some (if n < 65536 then
        some ⟨UInt16.ofNat n, Encoder.codeword (Encoder.new message).chunks (UInt16.ofNat n)⟩
        else none)) ∧
      s.decoder.held <+: t.decoder.held ∧
      (s.decoder.held.map Chunk.index).Nodup ∧
      s.decoder.held.length ≤ chunkCount size) ∧
    ExactFormat w Encoder.invariant Encoder.toBytes (Encoder.fromBytesAt w) ∧
    ExactFormat w Decoder.invariant Decoder.toBytes (Decoder.fromBytesAt w) := by
  refine ⟨fun calls more => ?_, Encoder.format_exact wide, Decoder.format_exact wide⟩
  have few : (Encoder.new message).chunks.length ≤ maxCodewords := by
    simp [Encoder.new]
  have fits : chunkCount size ≤ maxCodewords := by
    unfold chunkCount maxCodewords
    omega
  have start : Coders.At (Encoder.new message).chunks 0 ⟨Encoder.new message, Decoder.new size⟩ :=
    ⟨Encoder.new_at message, Decoder.new_invariant fits⟩
  obtain ⟨s, ran, at_s, kept⟩ := Coders.run_at wide few start calls
  obtain ⟨t, went, -, later⟩ := Coders.run_at wide few at_s more
  have inv : ((s.decoder.needed = chunkCount s.decoder.size ∧ s.decoder.needed ≤ maxCodewords) ∧
      s.decoder.held.length ≤ s.decoder.needed) ∧
      s.decoder.held.Pairwise fun a b => a.index ≠ b.index := by
    simpa only [Decoder.invariant, Bool.and_eq_true, decide_eq_true_eq] using at_s.decoder
  refine ⟨s, _, t, _, ran, went, ?_, at_s.decoder, by simp, ?_, later.held, ?_, ?_⟩
  · rw [at_s.encoder]
    exact Coders.at_invariant few _
  · intro n inside
    rw [List.length_map, List.length_range'] at inside
    rw [List.getElem?_map, List.getElem?_range' inside, Nat.zero_add, Nat.one_mul]
    rfl
  · exact List.pairwise_map.2 inv.2
  · have same : s.decoder.size = size := kept.size
    rw [← same, ← inv.1.1.1]
    exact inv.1.2

/-- A message of two chunks and a decoder of its size, on a 32-bit target. -/
theorem coders_run_exact_pair :
    (∀ calls more : List CoderCall, ∃ s issued t issued',
      Coders.run 32 ⟨Encoder.new (List.replicate 40 7), Decoder.new 40⟩ calls = .ok (s, issued) ∧
      Coders.run 32 s more = .ok (t, issued') ∧
      s.encoder.invariant = true ∧ s.decoder.invariant = true ∧
      issued.length = calls.count .nextChunk ∧
      (∀ n < issued.length, issued[n]? = some (if n < 65536 then
        some ⟨UInt16.ofNat n,
          Encoder.codeword (Encoder.new (List.replicate 40 7)).chunks (UInt16.ofNat n)⟩
        else none)) ∧
      s.decoder.held <+: t.decoder.held ∧
      (s.decoder.held.map Chunk.index).Nodup ∧
      s.decoder.held.length ≤ chunkCount 40) ∧
    ExactFormat 32 Encoder.invariant Encoder.toBytes (Encoder.fromBytesAt 32) ∧
    ExactFormat 32 Decoder.invariant Decoder.toBytes (Decoder.fromBytesAt 32) :=
  coders_run_exact (by decide) (List.replicate 40 7) 40 (by decide)

end Tacenta.Erasure
