/-
# Tacenta.Erasure.Recovery -- any sufficient codewords give the message back

Lane `j` of a message is a polynomial of degree below the number of its chunks,
the chunks its values at `0, 1, …`; the codeword at `i` is every lane's value at
`i`, for the systematic indices too (`codeword_eq`).  A decoder ends with as many
codewords at distinct indices as there are chunks, and a polynomial of that
degree is what its values there say.
-/
import Tacenta.Erasure.Coders
import Tacenta.Erasure.Interpolation

set_option autoImplicit false

namespace Tacenta.Erasure

open Polynomial

/-! ## Lanes of a chunk -/

theorem toNat_join (hi lo : UInt8) :
    ((hi.toUInt16 <<< 8) ||| lo.toUInt16).toNat = hi.toNat * 256 + lo.toNat := by
  have high := hi.toNat_lt
  have low := lo.toNat_lt
  have shifted : (hi.toUInt16 <<< 8).toNat = hi.toNat <<< 8 := by
    rw [UInt16.toNat_shiftLeft, UInt8.toNat_toUInt16, Nat.shiftLeft_eq, Nat.shiftLeft_eq]
    show hi.toNat * 256 % 65536 = hi.toNat * 256
    omega
  rw [UInt16.toNat_or, shifted, UInt8.toNat_toUInt16, ← Nat.shiftLeft_add_eq_or_of_lt (by omega),
    Nat.shiftLeft_eq]

theorem join_high (hi lo : UInt8) : (((hi.toUInt16 <<< 8) ||| lo.toUInt16) >>> 8).toUInt8 = hi := by
  have low := lo.toNat_lt
  have high := hi.toNat_lt
  rw [← UInt8.toNat_inj, UInt16.toNat_toUInt8, UInt16.toNat_shiftRight, toNat_join,
    Nat.shiftRight_eq_div_pow]
  show (hi.toNat * 256 + lo.toNat) / 256 % 256 = hi.toNat
  omega

theorem join_low (hi lo : UInt8) : ((hi.toUInt16 <<< 8) ||| lo.toUInt16).toUInt8 = lo := by
  have low := lo.toNat_lt
  rw [← UInt8.toNat_inj, UInt16.toNat_toUInt8, toNat_join]
  omega

theorem split_join (w : UInt16) : ((w >>> 8).toUInt8.toUInt16 <<< 8) ||| w.toUInt8.toUInt16 = w := by
  have small := w.toNat_lt
  rw [← UInt16.toNat_inj, toNat_join, UInt16.toNat_toUInt8, UInt16.toNat_toUInt8,
    UInt16.toNat_shiftRight, Nat.shiftRight_eq_div_pow]
  show w.toNat / 256 % 256 * 256 + w.toNat % 256 = w.toNat
  omega

theorem getD_ofFn {n : Nat} (f : Fin n → UInt8) {i : Nat} (inside : i < n) :
    (Vector.ofFn f).toList.getD i 0 = f ⟨i, inside⟩ := by
  rw [List.getD_eq_getElem _ _ (by simpa using inside), Vector.getElem_toList, Vector.getElem_ofFn]

theorem lane_ofLanes (v : Nat → UInt16) {j : Nat} (inside : j < lanes) : lane (ofLanes v) j = v j := by
  have small : j < 16 := inside
  rw [lane, ofLanes, getD_ofFn _ (by omega), getD_ofFn _ (by omega)]
  have even : 2 * j % 2 = 0 := by omega
  have odd : ¬ (2 * j + 1) % 2 = 0 := by omega
  have half : 2 * j / 2 = j := by omega
  have half' : (2 * j + 1) / 2 = j := by omega
  simp only [even, odd, half, half', if_true, if_false]
  exact split_join (v j)

theorem arr_ext {n : Nat} {a b : Arr n}
    (same : ∀ i < n, a.toList.getD i 0 = b.toList.getD i 0) : a = b := by
  rw [← Arr.toList_inj]
  apply List.ext_getElem (by rw [Arr.length_toList, Arr.length_toList])
  intro i left right
  have here := same i (by rwa [Arr.length_toList] at left)
  rwa [List.getD_eq_getElem _ _ left, List.getD_eq_getElem _ _ right] at here

theorem ofLanes_lane (data : Arr 32) : ofLanes (lane data) = data := by
  apply arr_ext
  intro b inside
  rw [ofLanes, getD_ofFn _ inside]
  dsimp only
  by_cases even : b % 2 = 0
  · have whole : 2 * (b / 2) = b := by omega
    rw [if_pos even, lane, join_high, whole]
  · have whole : 2 * (b / 2) + 1 = b := by omega
    rw [if_neg even, lane, join_low, whole]

theorem ofLanes_congr {v w : Nat → UInt16} (same : ∀ j < lanes, v j = w j) : ofLanes v = ofLanes w := by
  unfold ofLanes
  congr 1
  funext b
  have inside : b.val / 2 < lanes := by
    have := b.isLt
    show b.val / 2 < 16
    omega
  rw [same _ inside]

/-! ## The lane polynomials -/

/-- The systematic indices. -/
def systematic (k : Nat) : List UInt16 := (List.range k).map UInt16.ofNat

theorem length_systematic (k : Nat) : (systematic k).length = k := by simp [systematic]

theorem at_systematic {k t : Nat} (inside : t < k) : at_ (systematic k) t = ⟨UInt16.ofNat t⟩ := by
  rw [← Gf.val_inj, at_, List.getD_eq_getElem _ _ (by rwa [length_systematic])]
  simp [systematic]

theorem systematic_nodup {k : Nat} (small : k ≤ maxCodewords) : (systematic k).Nodup := by
  refine List.Nodup.map_on ?_ List.nodup_range
  intro s hs t ht same
  have limit : k ≤ 65536 := small
  have numbers := congrArg UInt16.toNat same
  rw [UInt16.toNat_ofNat', UInt16.toNat_ofNat', Nat.mod_eq_of_lt, Nat.mod_eq_of_lt] at numbers
  · exact numbers
  · exact (List.mem_range.1 ht).trans_le limit
  · exact (List.mem_range.1 hs).trans_le limit

/-- Lane `j` across the chunks. -/
def laneValues (chunks : List (Arr 32)) (j : Nat) : List UInt16 := chunks.map fun c => lane c j

theorem length_laneValues (chunks : List (Arr 32)) (j : Nat) :
    (laneValues chunks j).length = chunks.length := List.length_map _

/-- The polynomial lane `j` takes its values from. -/
noncomputable def lanePoly (chunks : List (Arr 32)) (j : Nat) : Gf[X] :=
  Lagrange.interpolate (Finset.range (systematic chunks.length).length)
    (at_ (systematic chunks.length)) (at_ (laneValues chunks j))

theorem lanePoly_degree {chunks : List (Arr 32)} (small : chunks.length ≤ maxCodewords) (j : Nat) :
    (lanePoly chunks j).degree < chunks.length := by
  have bound := Lagrange.degree_interpolate_lt (at_ (laneValues chunks j))
    (at_injOn (systematic_nodup small))
  have count : ((Finset.range (systematic chunks.length).length).card : WithBot ℕ) =
      chunks.length := by
    rw [Finset.card_range, length_systematic]
  exact lt_of_lt_of_eq bound count

theorem at_laneValues {chunks : List (Arr 32)} (j : Nat) {t : Nat} (inside : t < chunks.length)
    (absent : Arr 32) : at_ (laneValues chunks j) t = ⟨lane (chunks.getD t absent) j⟩ := by
  have inside' : t < (laneValues chunks j).length := by rwa [length_laneValues]
  have entry : (laneValues chunks j)[t] = lane chunks[t] j := List.getElem_map _
  rw [at_, List.getD_eq_getElem _ _ inside', entry, List.getD_eq_getElem _ _ inside]

/-- At a systematic index the polynomial has the chunk's element. -/
theorem lanePoly_eval {chunks : List (Arr 32)} (small : chunks.length ≤ maxCodewords) (j : Nat)
    {t : Nat} (inside : t < chunks.length) (absent : Arr 32) :
    (lanePoly chunks j).eval ⟨UInt16.ofNat t⟩ = ⟨lane (chunks.getD t absent) j⟩ := by
  have here : t ∈ Finset.range (systematic chunks.length).length := by
    rw [length_systematic]
    exact Finset.mem_range.2 inside
  have node := Lagrange.eval_interpolate_at_node (at_ (laneValues chunks j))
    (at_injOn (systematic_nodup small)) here
  rw [at_systematic inside, at_laneValues j inside absent] at node
  exact node

/-- **A codeword is every lane's value at its index**, systematic or not. -/
theorem codeword_eq {chunks : List (Arr 32)} (small : chunks.length ≤ maxCodewords) (index : UInt16) :
    Encoder.codeword chunks index = ofLanes fun j => ((lanePoly chunks j).eval ⟨index⟩).val := by
  unfold Encoder.codeword
  split
  · rename_i inside
    rw [← ofLanes_lane (chunks.getD _ _)]
    congr 1
    funext j
    have value := lanePoly_eval small j inside (Vector.replicate 32 0)
    rw [UInt16.ofNat_toNat] at value
    rw [value]
  · apply ofLanes_congr
    intro j _
    have full : (laneValues chunks j).length = (systematic chunks.length).length := by
      rw [length_laneValues, length_systematic]
    show evaluate (coefficients (systematic chunks.length) (weights (systematic chunks.length)) index)
      (laneValues chunks j) = _
    rw [evaluate_formula, formula_lagrange _ full, lanePoly]

/-! ## The stream -/

/-- What `n` calls of `next_chunk` return, and the stream after them. -/
def Encoder.issue : Nat → Encoder → List (Option Chunk) × Encoder
  | 0, enc => ([], enc)
  | n + 1, enc =>
      let (chunk, enc) := enc.nextChunk
      let (rest, enc) := Encoder.issue n enc
      (chunk :: rest, enc)

/-- The stream at `index`, with every index before it issued. -/
def Encoder.at_ (chunks : List (Arr 32)) (index : Nat) : Encoder where
  chunks := chunks
  next := UInt16.ofNat (min index 65535)
  exhausted := decide (index ≥ maxCodewords)

/-- What the stream returns at `index`: a codeword below `2^16`, nothing after. -/
def Encoder.output (chunks : List (Arr 32)) (index : Nat) : Option Chunk :=
  if index < maxCodewords then
    some ⟨UInt16.ofNat index, Encoder.codeword chunks (UInt16.ofNat index)⟩
  else none

theorem Encoder.new_at (message : Bytes) :
    Encoder.new message = Encoder.at_ (Encoder.new message).chunks 0 := rfl

theorem Encoder.nextChunk_at (chunks : List (Arr 32)) (index : Nat) :
    (Encoder.at_ chunks index).nextChunk =
      (Encoder.output chunks index, Encoder.at_ chunks (index + 1)) := by
  unfold Encoder.nextChunk Encoder.output
  have limit : maxCodewords = 65536 := rfl
  by_cases done : index ≥ maxCodewords
  · have later : min index 65535 = min (index + 1) 65535 := by omega
    simp [Encoder.at_, done, Nat.not_lt.2 done, later, Nat.le_succ_of_le done]
  · have inside : min index 65535 = index := by omega
    have flag : (Encoder.at_ chunks index).exhausted = false := by simp [Encoder.at_, done]
    have next : (Encoder.at_ chunks index).next = UInt16.ofNat index := by
      simp [Encoder.at_, inside]
    rw [flag, if_neg (by decide), next, if_pos (Nat.not_le.1 done)]
    by_cases last : index = 65535
    · subst last
      simp [Encoder.at_, limit]
    · have more : UInt16.ofNat index ≠ 65535 := by
        intro same
        have number := congrArg UInt16.toNat same
        rw [UInt16.toNat_ofNat', Nat.mod_eq_of_lt (by omega)] at number
        exact last number
      have after : min (index + 1) 65535 = index + 1 := by omega
      have room : ¬ index + 1 ≥ maxCodewords := by omega
      rw [if_neg more]
      simp [Encoder.at_, inside, after, done, room, UInt16.ofNat_add]

/-- **The stream issues every index once, in order, and then nothing.** -/
theorem Encoder.issue_at (chunks : List (Arr 32)) (n index : Nat) :
    (Encoder.at_ chunks index).issue n =
      ((List.range' index n).map (Encoder.output chunks), Encoder.at_ chunks (index + n)) := by
  induction n generalizing index with
  | zero => rfl
  | succ n ih =>
      rw [Encoder.issue, Encoder.nextChunk_at]
      simp only [ih, List.range'_succ, List.map_cons, Prod.mk.injEq, true_and]
      congr 1
      omega

/-! ## The decoder -/

/-- The codewords of a message's stream: what some call of `next_chunk` returns. -/
def Issued (message : Bytes) (c : Chunk) : Prop :=
  ∃ n, some c ∈ ((Encoder.new message).issue n).1

/-- Offer codewords one after the other. -/
def Decoder.offer (dec : Decoder) (offers : List Chunk) : Decoder :=
  offers.foldl (fun dec c => (dec.addChunk c).1) dec

theorem Issued.data {message : Bytes} {c : Chunk} (issued : Issued message c) :
    c.data = Encoder.codeword (Encoder.new message).chunks c.index := by
  obtain ⟨n, here⟩ := issued
  rw [Encoder.new_at, Encoder.issue_at] at here
  obtain ⟨i, -, output⟩ := List.mem_map.1 here
  unfold Encoder.output at output
  split at output
  · rw [← Option.some.inj output]
  · cases output

/-- What a decoder holds after codewords were offered to it: codewords that were
offered, at distinct indices, either as many as it needs or one for each index. -/
theorem Decoder.offer_held {dec : Decoder} (distinct : (dec.held.map Chunk.index).Nodup)
    (room : dec.held.length ≤ dec.needed) (offers : List Chunk) :
    (dec.offer offers).needed = dec.needed ∧ (dec.offer offers).size = dec.size ∧
    ((dec.offer offers).held.map Chunk.index).Nodup ∧
    (dec.offer offers).held.length ≤ dec.needed ∧
    (∀ c ∈ (dec.offer offers).held, c ∈ dec.held ∨ c ∈ offers) ∧
    (∀ c ∈ dec.held, c ∈ (dec.offer offers).held) ∧
    ((dec.offer offers).held.length = dec.needed ∨
      ∀ c ∈ offers, c.index ∈ (dec.offer offers).held.map Chunk.index) := by
  induction offers generalizing dec with
  | nil => exact ⟨rfl, rfl, distinct, room, fun c here => .inl here, fun c here => here, by simp [offer]⟩
  | cons c rest ih =>
      have unfolded : dec.offer (c :: rest) = (dec.addChunk c).1.offer rest := rfl
      rw [unfolded]
      obtain ⟨same, refused⟩ | ⟨taken, more, fresh⟩ := Decoder.addChunk_cases dec c
      · rw [same]
        obtain ⟨needed, size, nodup, few, from_, kept, enough⟩ := ih distinct room
        refine ⟨needed, size, nodup, few, ?_, kept, ?_⟩
        · intro d here
          exact (from_ d here).imp id fun later => List.mem_cons_of_mem _ later
        · rcases refused with full | ⟨d, held, index⟩
          · have sub : dec.held.map Chunk.index ⊆ (dec.offer rest).held.map Chunk.index :=
              List.map_subset _ fun d here => kept d here
            have lengths := (distinct.subperm sub).length_le
            rw [List.length_map, List.length_map] at lengths
            exact .inl (by omega)
          · rcases enough with full | all
            · exact .inl full
            · refine .inr fun e here => ?_
              rcases List.mem_cons.1 here with rfl | later
              · exact List.mem_map.2 ⟨d, kept d held, index⟩
              · exact all e later
      · rw [taken]
        have distinct' : (({ dec with held := dec.held ++ [c] } : Decoder).held.map
            Chunk.index).Nodup := by
          rw [List.map_append, List.nodup_append]
          refine ⟨distinct, List.nodup_singleton _, ?_⟩
          intro i hi i' hi' same
          obtain ⟨d, held, rfl⟩ := List.mem_map.1 hi
          have other : i' = c.index := by simpa using hi'
          exact fresh d held (same.trans other)
        obtain ⟨needed, size, nodup, few, from_, kept, enough⟩ := ih distinct'
          (by simpa using more)
        refine ⟨needed, size, nodup, few, ?_, ?_, ?_⟩
        · intro d here
          rcases from_ d here with before | later
          · rcases List.mem_append.1 before with old | new
            · exact .inl old
            · exact .inr (by simp [List.mem_singleton.1 new])
          · exact .inr (List.mem_cons_of_mem _ later)
        · intro d here
          exact kept d (List.mem_append_left _ here)
        · rcases enough with full | all
          · exact .inl full
          · refine .inr fun e here => ?_
            rcases List.mem_cons.1 here with rfl | later
            · exact List.mem_map.2 ⟨e, kept e (by simp), rfl⟩
            · exact all e later

/-- Codewords of a stream at as many distinct indices as there are chunks give
each chunk back. -/
theorem recovered_eq {chunks : List (Arr 32)} (small : chunks.length ≤ maxCodewords)
    {held : List Chunk} (distinct : (held.map Chunk.index).Nodup)
    (enough : held.length = chunks.length)
    (words : ∀ c ∈ held, c.data = Encoder.codeword chunks c.index) {t : Nat}
    (inside : t < chunks.length) (absent : Arr 32) :
    Decoder.recovered held t = chunks.getD t absent := by
  have chunk : ofLanes (fun j => ((lanePoly chunks j).eval ⟨UInt16.ofNat t⟩).val) =
      chunks.getD t absent := by
    rw [← ofLanes_lane (chunks.getD t absent)]
    congr 1
    funext j
    rw [lanePoly_eval small j inside absent]
  unfold Decoder.recovered
  split
  · rename_i c found
    have here := List.mem_of_getLast? found
    obtain ⟨held', index⟩ := List.mem_filter.1 here
    rw [words c held', codeword_eq small, eq_of_beq index, chunk]
  · rw [← chunk]
    apply ofLanes_congr
    intro j hj
    have full : (held.map fun c => lane c.data j).length = (held.map Chunk.index).length := by
      rw [List.length_map, List.length_map]
    rw [evaluate_formula]
    congr 1
    apply formula_eval distinct full
    · rw [List.length_map, enough]
      exact lanePoly_degree small j
    · intro i hi
      rw [List.length_map] at hi
      have value := words held[i] (List.getElem_mem hi)
      have node : at_ (held.map Chunk.index) i = ⟨held[i].index⟩ := by
        rw [at_, List.getD_eq_getElem _ _ (by rwa [List.length_map]), List.getElem_map]
      rw [node, at_, List.getD_eq_getElem _ _ (by rwa [List.length_map]), List.getElem_map, value,
        codeword_eq small, lane_ofLanes _ hj]

/-! ## The message -/

theorem chunkOf_toList (message : Bytes) (t : Nat) :
    (Encoder.chunkOf message t).toList = (List.range 32).map fun b => message.getD (t * 32 + b) 0 :=
  Arr.toList_ofFn 32 fun b => message.getD (t * 32 + b) 0

theorem new_chunks {message : Bytes} {t : Nat} (few : chunkCount message.length ≤ maxCodewords)
    (inside : t < chunkCount message.length) (absent : Arr 32) :
    (Encoder.new message).chunks.getD t absent = Encoder.chunkOf message t := by
  have listed : (Encoder.new message).chunks =
      (List.range (chunkCount message.length)).map (Encoder.chunkOf message) := by
    rw [Encoder.new, Nat.min_eq_left few]
  rw [listed, List.getD_eq_getElem?_getD, List.getElem?_map, List.getElem?_range inside]
  rfl

/-- The chunks in a row are the message, then zeros. -/
theorem flatMap_chunkOf (message : Bytes) (k : Nat) :
    (List.range k).flatMap (fun t => (Encoder.chunkOf message t).toList) =
      (List.range (k * 32)).map fun b => message.getD b 0 := by
  induction k with
  | zero => simp
  | succ k ih =>
      rw [List.range_succ, List.flatMap_append, ih, Nat.succ_mul, List.range_add, List.map_append]
      simp only [List.flatMap_cons, List.flatMap_nil, List.append_nil, chunkOf_toList, List.map_map,
        Function.comp_def]

theorem take_chunks {message : Bytes} {k : Nat} (covers : message.length ≤ k * 32) :
    ((List.range k).flatMap fun t => (Encoder.chunkOf message t).toList).take message.length =
      message := by
  rw [flatMap_chunkOf]
  apply List.ext_getElem
  · rw [List.length_take, List.length_map, List.length_range]
    omega
  · intro b _ inside
    rw [List.getElem_take, List.getElem_map, List.getElem_range, List.getD_eq_getElem _ _ inside]

/-- **Any sufficient codewords give the message back.**  Codewords of a message's
stream, in any order and with any repetitions, at as many distinct indices as the
message has chunks: the decoder made for its length returns the message. -/
theorem erasure_recovers (message : Bytes) (small : message.length ≤ 65536 * 32)
    (offers : List Chunk) (issued : ∀ c ∈ offers, Issued message c)
    (enough : chunkCount message.length ≤ (offers.map Chunk.index).toFinset.card) :
    ((Decoder.new message.length).offer offers).message = some message := by
  have few : chunkCount message.length ≤ maxCodewords := by
    unfold chunkCount maxCodewords
    omega
  obtain ⟨needed, size, distinct, room, from_, -, full⟩ :=
    @Decoder.offer_held (Decoder.new message.length) (by simp [Decoder.new])
      (by simp [Decoder.new]) offers
  generalize (Decoder.new message.length).offer offers = dec at *
  have needs : dec.needed = chunkCount message.length := needed
  have count : dec.held.length = chunkCount message.length := by
    rcases full with full | all
    · exact full
    · have inside : (offers.map Chunk.index).toFinset ⊆ (dec.held.map Chunk.index).toFinset := by
        intro i here
        obtain ⟨c, offered, rfl⟩ := List.mem_map.1 (List.mem_toFinset.1 here)
        exact List.mem_toFinset.2 (all c offered)
      have counts := Finset.card_le_card inside
      rw [List.toFinset_card_of_nodup distinct, List.length_map] at counts
      exact Nat.le_antisymm room (enough.trans counts)
  have length : (Encoder.new message).chunks.length = chunkCount message.length :=
    Encoder.new_needed few
  have words : ∀ c ∈ dec.held, c.data = Encoder.codeword (Encoder.new message).chunks c.index := by
    intro c here
    rcases from_ c here with none_ | offered
    · simp [Decoder.new] at none_
    · exact (issued c offered).data
  have each : ∀ t ∈ List.range dec.needed,
      (Decoder.recovered (dec.held.take dec.needed) t).toList =
        (Encoder.chunkOf message t).toList := by
    intro t here
    rw [List.mem_range, needs] at here
    rw [needs, List.take_of_length_le count.le,
      recovered_eq (by rw [length]; exact few) distinct (count.trans length.symm) words
        (by rwa [length]) (Vector.replicate 32 0), new_chunks few here]
  have has : dec.hasMessage = true := by
    rw [Decoder.hasMessage, needs, count]
    simp
  have covers := chunkCount_covers message.length
  have length' : dec.size = message.length := size
  unfold Decoder.message
  rw [has, if_neg (by decide)]
  dsimp only
  rw [List.flatMap_congr each, length', needs, take_chunks covers]

/-- Two chunks, both lost: the third and fourth codewords, one of them twice. -/
theorem erasure_recovers_parity :
    ∃ offers : List Chunk, (offers.map Chunk.index) = [3, 2, 3] ∧
      ((Decoder.new 40).offer offers).message = some (List.replicate 40 7) := by
  have words : ((Encoder.new (List.replicate 40 7)).issue 4).1 =
      (List.range' 0 4).map (Encoder.output (Encoder.new (List.replicate 40 7)).chunks) := by
    rw [Encoder.new_at, Encoder.issue_at]
    rfl
  have output : ∀ i < 4, some (⟨UInt16.ofNat i, Encoder.codeword
      (Encoder.new (List.replicate 40 7)).chunks (UInt16.ofNat i)⟩ : Chunk) ∈
        ((Encoder.new (List.replicate 40 7)).issue 4).1 := by
    intro i here
    rw [words]
    refine List.mem_map.2 ⟨i, by simpa using here, ?_⟩
    rw [Encoder.output, if_pos (here.trans (by decide))]
  refine ⟨[3, 2, 3].map fun i => ⟨UInt16.ofNat i, Encoder.codeword
    (Encoder.new (List.replicate 40 7)).chunks (UInt16.ofNat i)⟩, rfl, ?_⟩
  have length : (List.replicate 40 (7 : UInt8)).length = 40 := List.length_replicate
  have recovers := erasure_recovers (List.replicate 40 7) (by rw [length]; decide)
    ([3, 2, 3].map fun i => ⟨UInt16.ofNat i, Encoder.codeword
      (Encoder.new (List.replicate 40 7)).chunks (UInt16.ofNat i)⟩)
    (by
      intro c here
      obtain ⟨i, among, rfl⟩ := List.mem_map.1 here
      refine ⟨4, output i ?_⟩
      simp only [List.mem_cons, List.not_mem_nil, or_false] at among
      omega)
    (by
      rw [length, List.map_map]
      decide)
  rwa [length] at recovers

end Tacenta.Erasure
