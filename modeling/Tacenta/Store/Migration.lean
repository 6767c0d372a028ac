/-
# Tacenta.Store.Migration -- stores of older versions

`from_bytes` reads five versions of the format.  What it takes off the bytes is
followed here backwards: the bytes of an older version are the store's own
identifiers and keys, laid out as that version laid them out (`writeOld`), so
nothing the old record named is lost.

An old replay record cannot be compared with, so a store that had one blocks its
last-resort keys.  `Shut` says that an identifier is blocked for as long as it
names a last-resort key and names no one-time key; every operation keeps it.

* `store_storage`: reachable stores are restored as they were, accepted bytes of
  the current version are written back as they were, and a migrated store never
  again accepts a handshake under a last-resort key its old record covered.
-/
import Tacenta.Store.Replay

set_option autoImplicit false

namespace Tacenta

/-- `r` leaves nothing unread. -/
def Ends {ε α : Type} (r : Reader ε α) : Prop := ∀ input a rest, r input = .ok (a, rest) → rest = []

theorem Ends.bind {ε α β : Type} {r : Reader ε α} {f : α → Reader ε β} (second : ∀ a, Ends (f a)) :
    Ends (r >>= f) := by
  intro input b rest read
  have step : (r >>= f) input = (r input >>= fun p => f p.1 p.2) := rfl
  rw [step, bind_eq_ok] at read
  obtain ⟨⟨a, left⟩, -, there⟩ := read
  exact second a left b rest there

theorem Ends.atEnd {ε α : Type} (e : ε) (a : α) :
    Ends (Reader.atEnd e >>= fun _ => (pure a : Reader ε α)) := by
  intro input b rest read
  have step : (Reader.atEnd e >>= fun _ => (pure a : Reader ε α)) input =
      (Reader.atEnd e input >>= fun p => .ok (a, p.2)) := rfl
  rw [step, bind_eq_ok] at read
  obtain ⟨⟨_, left⟩, ended, same⟩ := read
  unfold Reader.atEnd at ended
  split at ended
  · have out : (a, left) = (b, rest) := Except.ok.inj same
    have none_ : ((), []) = ((), left) := Except.ok.inj ended
    exact (congrArg Prod.snd out).symm.trans (congrArg Prod.snd none_).symm
  · simp at ended

namespace Store

variable {p : Primitives Secret} {s : PrekeyStore Secret}

/-! ## The older layouts -/

/-- A head, as every version lays it out. -/
def DecodedPrekeyHead.written (h : DecodedPrekeyHead) : Bytes :=
  [h.version] ++ (h.identityPublic.toList ++ (h.signedPrekeySecret.toList ++
    (be32 h.signedPrekeyId ++ (h.signedPrekeySig.toList ++
      (writeCount h.oneTime.length ++ (h.oneTime.flatMap writeOneTime ++
        (lenPrefix h.kem.raw ++ (be32 h.kemId ++ (h.kemSig.toList ++
          (writeCount h.kemOneTime.length ++ (h.kemOneTime.flatMap writeKemOneTime ++
            be32 h.nextId)))))))))))

/-- The head of a store. -/
def headOf (version : UInt8) (s : PrekeyStore Secret) : DecodedPrekeyHead where
  version := version
  identityPublic := s.identityPublic
  signedPrekeySecret := s.signedPrekeySecret
  signedPrekeyId := s.signedPrekeyId
  signedPrekeySig := s.signedPrekeySig
  oneTime := s.oneTime
  kem := s.kem
  kemId := s.kemId
  kemSig := s.kemSig
  kemOneTime := s.kemOneTime
  nextId := s.nextId

/-- Whether a version tags replay entries with their key. -/
def tagged (version : UInt8) : Bool :=
  version == prekeyStoreVersion || version == prekeyStoreVersionV4

/-- A replay record: none in the first version, bare fingerprints in the next
two, tagged ones since. -/
def writeSeenAs (version : UInt8) (seen : List (UInt32 × Secret)) : Bytes :=
  if version = prekeyStoreVersionV1 then []
  else writeCount seen.length ++ seen.flatMap fun e =>
    if tagged version then writeSeen e else e.2.toList

/-- The retired prekeys, from the third version on. -/
def writePreviousAs (version : UInt8) (signed : Option (Arr 32 × UInt32 × Arr 64))
    (kem : Option (KeyPair × UInt32 × Arr 64)) : Bytes :=
  if version = prekeyStoreVersion ∨ version = prekeyStoreVersionV4 ∨
      version = prekeyStoreVersionV3 then writePreviousSigned signed ++ writePreviousKem kem
  else []

/-- A store as an older version lays it out. -/
def writeOld (version : UInt8) (s : PrekeyStore Secret) : Bytes :=
  (headOf version s).written ++ (writeSeenAs version s.lastResortSeen ++
    writePreviousAs version s.previousSignedPrekey s.previousKem)

/-! ## Following the reader backwards -/

theorem keyPairFromBytes_self {kem : MlKem Secret} {bytes : Bytes} {pair : KeyPair}
    (decoded : kem.keyPairFromBytes bytes = some pair) :
    pair.raw = bytes ∧ kem.keyPairFromBytes pair.raw = some pair := by
  have same : pair.raw = bytes := by
    unfold MlKem.keyPairFromBytes at decoded
    split at decoded
    · simp at decoded
    · simp only at decoded
      split at decoded
      · simp at decoded
      · split at decoded
        · simp at decoded
        · split at decoded
          · simp at decoded
          · rw [← Option.some.inj decoded]
  exact ⟨same, same ▸ decoded⟩

theorem consumes_pair : Consumes (readPair p) fun used pair =>
    used = lenPrefix pair.raw ∧ p.kem.keyPairFromBytes pair.raw = some pair := by
  refine .bind (.lenPrefixed _) ?_
  rintro _ bytes rfl
  refine Consumes.lift.mono ?_
  rintro used pair ⟨rfl, decoded⟩
  have found : p.kem.keyPairFromBytes bytes = some pair := by
    cases h : p.kem.keyPairFromBytes bytes with
    | none => simp [h] at decoded
    | some other =>
        simp only [h, Except.ok.injEq] at decoded
        rw [decoded]
  obtain ⟨same, again⟩ := keyPairFromBytes_self found
  exact ⟨by rw [same, List.append_nil], again⟩

theorem consumes_oneTime : Consumes readOneTime fun used entry => used = writeOneTime entry ∧ True := by
  refine .bind (.u32 _) ?_
  rintro _ id rfl
  refine .bind (.arr _ 32) ?_
  rintro _ secret rfl
  exact .of_pure ⟨by rw [writeOneTime, List.append_nil], trivial⟩

theorem consumes_kemOneTime : Consumes (readKemOneTime p) fun used entry =>
    used = writeKemOneTime entry ∧ p.kem.keyPairFromBytes entry.2.1.raw = some entry.2.1 := by
  refine .bind (.u32 _) ?_
  rintro _ id rfl
  refine .bind consumes_pair ?_
  rintro _ pair ⟨rfl, valid⟩
  refine .bind (.arr _ 64) ?_
  rintro _ sig rfl
  exact .of_pure ⟨by rw [writeKemOneTime, List.append_nil], valid⟩

theorem consumes_head : Consumes (decodePrekeyHead p) fun used head => used = head.written ∧
    p.kem.keyPairFromBytes head.kem.raw = some head.kem ∧
    ∀ entry ∈ head.kemOneTime, p.kem.keyPairFromBytes entry.2.1.raw = some entry.2.1 := by
  refine .bind (.u8 _) ?_
  rintro _ version rfl
  refine .bind (.require _) ?_
  rintro _ - ⟨rfl, -⟩
  refine .bind (.arr _ 32) ?_
  rintro _ identityPublic rfl
  refine .bind (.arr _ 32) ?_
  rintro _ signedPrekeySecret rfl
  refine .bind (.u32 _) ?_
  rintro _ signedPrekeyId rfl
  refine .bind (.arr _ 64) ?_
  rintro _ signedPrekeySig rfl
  refine .bind (.count _) ?_
  rintro _ oneTimeCount rfl
  refine .bind (.many consumes_oneTime _) ?_
  rintro _ oneTime ⟨rfl, rfl, -⟩
  refine .bind consumes_pair ?_
  rintro _ kem ⟨rfl, kemValid⟩
  refine .bind (.u32 _) ?_
  rintro _ kemId rfl
  refine .bind (.arr _ 64) ?_
  rintro _ kemSig rfl
  refine .bind (.count _) ?_
  rintro _ kemOneTimeCount rfl
  refine .bind (.many consumes_kemOneTime _) ?_
  rintro _ kemOneTime ⟨rfl, rfl, valid⟩
  refine .bind (.u32 _) ?_
  rintro _ nextId rfl
  refine .of_pure ⟨?_, kemValid, valid⟩
  simp only [DecodedPrekeyHead.written, writeCount, List.nil_append, List.append_nil]

theorem consumes_seen (version : UInt8) (kemId : UInt32) : Consumes (decodeSeen version kemId)
    fun used seen => used = writeSeenAs version seen := by
  unfold decodeSeen
  by_cases first : version = prekeyStoreVersionV1
  · rw [if_pos first]
    exact .of_pure (by rw [writeSeenAs, if_pos first])
  rw [if_neg first]
  refine .bind (.count _) ?_
  rintro _ count rfl
  refine .bind (.require _) ?_
  rintro _ - ⟨rfl, -⟩
  have laid : ∀ (l : List (UInt32 × Secret)), l.length = count →
      writeSeenAs version l = be32 (UInt32.ofNat count) ++ l.flatMap fun e =>
        if tagged version then writeSeen e else e.2.toList := by
    intro l length
    rw [writeSeenAs, if_neg first, writeCount, length]
  by_cases tags : tagged version = true
  · have tags' : (version == prekeyStoreVersion || version == prekeyStoreVersionV4) = true := tags
    rw [if_pos tags']
    have entry : Consumes readSeen fun used e => used = writeSeen e ∧ True := by
      refine .bind (.u32 _) ?_
      rintro _ id rfl
      refine .bind (.arr _ 32) ?_
      rintro _ fingerprint rfl
      exact .of_pure ⟨by rw [writeSeen, List.append_nil], trivial⟩
    refine (Consumes.many entry count).mono ?_
    rintro used l ⟨rfl, length, -⟩
    simp only [laid l length, tags, if_true, List.nil_append]
  · have tags' : ¬ (version == prekeyStoreVersion || version == prekeyStoreVersionV4) = true := tags
    rw [if_neg tags']
    have entry : Consumes
        ((fun fingerprint => (kemId, fingerprint)) <$> Reader.arr PrekeyStoreDecodeError.tooShort 32)
        fun used (e : UInt32 × Secret) => used = e.2.toList ∧ True :=
      .map ((Consumes.arr _ 32).mono fun _ _ h => ⟨h, trivial⟩)
    refine (Consumes.many entry count).mono ?_
    rintro used l ⟨rfl, length, -⟩
    simp only [laid l length, tags, if_false, List.nil_append, Bool.false_eq_true]

theorem consumes_blocked {version : UInt8} (older : version ≠ prekeyStoreVersion) :
    Consumes (decodeBlocked version) fun used blocked => used = [] ∧ blocked = [] := by
  rw [decodeBlocked, if_neg older]
  exact .of_pure ⟨rfl, rfl⟩

/-- A field behind its presence byte. -/
def writePresent {α : Type} (write : α → Bytes) : Option α → Bytes
  | none => [0x00]
  | some a => [0x01] ++ write a

theorem consumes_optional {α : Type} {field : Reader PrekeyStoreDecodeError α} {write : α → Bytes}
    {P : α → Prop} (each : Consumes field fun used a => used = write a ∧ P a) :
    Consumes (readOptional field) fun used o => used = writePresent write o ∧ ∀ a ∈ o, P a := by
  refine .bind (.u8 _) ?_
  rintro _ present rfl
  by_cases absent : present = 0x00
  · rw [if_pos absent]
    exact .of_pure ⟨by rw [absent]; rfl, by simp⟩
  · rw [if_neg absent]
    by_cases here : present = 0x01
    · rw [if_pos here]
      refine .map (each.mono ?_)
      rintro used a ⟨rfl, holds⟩
      exact ⟨by rw [here]; rfl, by simpa using holds⟩
    · rw [if_neg here]
      exact .refuse _

theorem consumes_previous (version : UInt8) : Consumes (decodePreviousPrekeys p version)
    fun used previous => used = writePreviousAs version previous.1 previous.2 ∧
      ∀ r ∈ previous.2, p.kem.keyPairFromBytes r.1.raw = some r.1 := by
  unfold decodePreviousPrekeys
  by_cases retired : version = prekeyStoreVersion ∨ version = prekeyStoreVersionV4 ∨
      version = prekeyStoreVersionV3
  · rw [if_pos retired]
    have signed : Consumes readPreviousSigned fun used r =>
        used = r.1.toList ++ (be32 r.2.1 ++ r.2.2.toList) ∧ True := by
      refine .bind (.arr _ 32) ?_
      rintro _ secret rfl
      refine .bind (.u32 _) ?_
      rintro _ id rfl
      refine .bind (.arr _ 64) ?_
      rintro _ sig rfl
      exact .of_pure ⟨by rw [List.append_nil], trivial⟩
    have kem : Consumes (readPreviousKem p) fun used r =>
        used = lenPrefix r.1.raw ++ (be32 r.2.1 ++ r.2.2.toList) ∧
          p.kem.keyPairFromBytes r.1.raw = some r.1 := by
      refine .bind consumes_pair ?_
      rintro _ pair ⟨rfl, valid⟩
      refine .bind (.u32 _) ?_
      rintro _ id rfl
      refine .bind (.arr _ 64) ?_
      rintro _ sig rfl
      exact .of_pure ⟨by rw [List.append_nil], valid⟩
    refine .bind (consumes_optional signed) ?_
    rintro _ previousSigned ⟨rfl, -⟩
    refine .bind (consumes_optional kem) ?_
    rintro _ previousKem ⟨rfl, valid⟩
    refine .of_pure ⟨?_, valid⟩
    rw [writePreviousAs, if_pos retired, List.append_nil]
    cases previousSigned <;> cases previousKem <;> rfl
  · rw [if_neg retired]
    exact .of_pure ⟨by rw [writePreviousAs, if_neg retired], by simp⟩

/-! ## What was decoded -/

/-- Removing repeats from an ordered list orders it strictly. -/
theorem eraseReps_sorted {l : List UInt32} (sorted : l.Pairwise (· ≤ ·)) :
    l.eraseReps.Pairwise (· < ·) ∧ ∀ x, x ∈ l.eraseReps ↔ x ∈ l := by
  have loop : ∀ (l : List UInt32) (a : UInt32) (acc : List UInt32), (a :: l).Pairwise (· ≤ ·) →
      ∃ out, List.eraseRepsBy.loop (· == ·) a l acc = acc.reverse ++ out ∧
        out.Pairwise (· < ·) ∧ ∀ x, x ∈ out ↔ x ∈ a :: l := by
    intro l
    induction l with
    | nil => exact fun a acc _ => ⟨[a], by simp [List.eraseRepsBy.loop], by simp, by simp⟩
    | cons b rest ih =>
        intro a acc ordered
        have le : a ≤ b := List.rel_of_pairwise_cons ordered List.mem_cons_self
        have later := List.Pairwise.of_cons ordered
        by_cases same : a = b
        · subst same
          obtain ⟨out, run, strict, members⟩ := ih a acc later
          refine ⟨out, by rw [List.eraseRepsBy.loop, beq_self_eq_true]; exact run, strict, ?_⟩
          intro x
          rw [members]
          simp
        · obtain ⟨out, run, strict, members⟩ := ih b (a :: acc) later
          have ne : (a == b) = false := by simpa using same
          refine ⟨a :: out, ?_, ?_, ?_⟩
          · rw [List.eraseRepsBy.loop, ne]
            simp only [run, List.reverse_cons, List.append_assoc, List.singleton_append]
          · refine List.Pairwise.cons ?_ strict
            intro x member
            have above : b ≤ x := by
              rcases List.mem_cons.1 ((members x).1 member) with rfl | further
              · exact UInt32.le_refl _
              · exact List.rel_of_pairwise_cons later further
            exact UInt32.lt_of_lt_of_le (UInt32.lt_of_le_of_ne le same) above
          · intro x
            rw [List.mem_cons, members, List.mem_cons (a := x) (b := a)]
  cases l with
  | nil => exact ⟨List.Pairwise.nil, fun _ => Iff.rfl⟩
  | cons a rest =>
      obtain ⟨out, run, strict, members⟩ := loop rest a [] sorted
      have whole : (a :: rest).eraseReps = out := run
      rw [whole]
      exact ⟨strict, members⟩

theorem sortDedup_sorted (l : List UInt32) :
    (sortDedup l).Pairwise (· < ·) ∧ ∀ x, x ∈ sortDedup l ↔ x ∈ l := by
  have ordered : (l.mergeSort fun a b => decide (a ≤ b)).Pairwise (· ≤ ·) := by
    have sorted : (l.mergeSort fun a b => decide (a ≤ b)).Pairwise
        fun a b => decide (a ≤ b) = true :=
      List.pairwise_mergeSort
        (fun a b c ab bc => by
          simp only [decide_eq_true_eq] at ab bc ⊢
          exact UInt32.le_trans ab bc)
        (fun a b => by simpa using UInt32.le_total a b) l
    exact sorted.imp fun h => by simpa using h
  obtain ⟨strict, members⟩ := eraseReps_sorted ordered
  exact ⟨strict, fun x => (members x).trans List.mem_mergeSort⟩

/-- What decoding found: the bytes are the store's, its key pairs read back, its
blocked list is in order, and an older record blocks its keys. -/
structure Decoded (p : Primitives Secret) (bytes : Bytes) (version : UInt8)
    (s : PrekeyStore Secret) : Prop where
  head : bytes.head? = some version
  readable : Readable p s
  older : version ≠ prekeyStoreVersion → bytes = writeOld version s
  marked : version ≠ prekeyStoreVersion → s.lastResortSeen ≠ [] →
    ∀ id, s.isLastResort id = true → id ∈ s.legacyLastResortBlocked

theorem consumes_store : Consumes (decodeStore p) fun used result =>
    Decoded p used result.1 result.2 := by
  refine .bind consumes_head ?_
  rintro _ head ⟨rfl, kem, kemOneTime⟩
  refine .bind (consumes_seen head.version head.kemId) ?_
  rintro _ seen rfl
  have blocks : Consumes (decodeBlocked head.version) fun used blocked =>
      head.version ≠ prekeyStoreVersion → used = [] ∧ blocked = [] := by
    by_cases current : head.version = prekeyStoreVersion
    · rw [decodeBlocked, if_pos current]
      refine .bind (.count _) fun _ count _ => .bind (.require _) fun _ _ _ => ?_
      refine (Consumes.many ((Consumes.u32 _).mono fun _ _ h => ⟨h, trivial⟩) count).mono ?_
      exact fun _ _ _ older => absurd current older
    · exact (consumes_blocked current).mono fun used blocked found _ => found
  refine .bind blocks ?_
  rintro usedBlocked blocked olderBlocked
  refine .bind (consumes_previous head.version) ?_
  rintro _ previous ⟨rfl, previousKem⟩
  refine .bind (.atEnd _) ?_
  rintro _ - rfl
  refine .of_pure ⟨rfl, ⟨kem, kemOneTime, previousKem, (sortDedup_sorted _).1⟩, ?_, ?_⟩
  · intro older
    rw [(olderBlocked older).1]
    simp only [List.nil_append, List.append_nil]
    rfl
  · intro older recorded id live
    rw [migratedBlocked, (sortDedup_sorted _).2, if_pos ⟨older, recorded⟩]
    simp only [PrekeyStore.isLastResort, PrekeyStore.previousKemId, Bool.or_eq_true,
      decide_eq_true_eq] at live
    rcases live with rfl | retired
    · simp
    · have named : some id = previous.2.map fun r => r.2.1 := of_decide_eq_true retired
      refine List.mem_append_right _ ?_
      rw [← named]
      simp

theorem ends_store : Ends (decodeStore p) := by
  refine .bind fun head => .bind fun seen => .bind fun blocked => .bind fun previous => ?_
  exact .atEnd _ _

/-- Decoding takes the whole input. -/
theorem decoded_of_value {bytes : Bytes} {version : UInt8}
    (read : (decodeStore p).value bytes = .ok (version, s)) : Decoded p bytes version s := by
  unfold Reader.value at read
  cases run : decodeStore p bytes with
  | error e => simp [run] at read
  | ok result =>
      obtain ⟨out, rest⟩ := result
      simp only [run, Except.ok.injEq] at read
      subst read
      obtain ⟨used, whole, decoded⟩ := consumes_store bytes _ rest run
      rw [ends_store bytes _ rest run, List.append_nil] at whole
      exact whole ▸ decoded

/-- What `from_bytes` accepts is restorable, and in the current version it is
what the store is written as. -/
theorem fromBytes_ok {bytes : Bytes} (loaded : PrekeyStore.fromBytes p bytes = .ok s) :
    ∃ version, Decoded p bytes version s ∧ Restorable p s ∧
      (version = prekeyStoreVersion → s.toBytes = bytes) := by
  unfold PrekeyStore.fromBytes at loaded
  split at loaded
  · simp at loaded
  rename_i version store read
  split at loaded
  · simp at loaded
  rename_i canonical
  split at loaded
  · simp at loaded
  rename_i valid
  split at loaded
  · simp at loaded
  rename_i signed
  have same : store = s := Except.ok.inj loaded
  subst same
  simp only [Bool.not_eq_true', Bool.not_eq_false] at valid signed
  have decoded := decoded_of_value read
  refine ⟨version, decoded, restorable_iff.2 ⟨invariant_iff.1 valid, signaturesVerify_iff.1 signed,
    decoded.readable⟩, fun current => ?_⟩
  by_contra other
  exact canonical ⟨current, other⟩

/-! ## Blocked for good -/

/-- Identifier `id` is blocked while it names a last-resort key, and names no
one-time key. -/
structure Shut (s : PrekeyStore Secret) (id : UInt32) : Prop where
  issued : id < s.nextId
  blocked : s.isLastResort id = true → id ∈ s.legacyLastResortBlocked
  absent : ∀ e ∈ s.kemOneTime, e.1 ≠ id

variable {id : UInt32} {identity : Identity} {message : Bytes} {r : Session.Responded Secret}

/-- A migrated store shuts the last-resort keys its old record covered. -/
theorem Decoded.shut {bytes : Bytes} {version : UInt8} (decoded : Decoded p bytes version s)
    (valid : Valid p s) (older : version ≠ prekeyStoreVersion) (recorded : s.lastResortSeen ≠ [])
    (live : s.isLastResort id = true) : Shut s id := by
  have named : id ∈ [s.signedPrekeyId, s.kemId] ++
      (s.previousSignedPrekey.map fun r => r.2.1).toList ++
        (s.previousKem.map fun r => r.2.1).toList ++ s.oneTime.map Prod.fst := by
    simp only [PrekeyStore.isLastResort, PrekeyStore.previousKemId, Bool.or_eq_true,
      decide_eq_true_eq] at live
    rcases live with current | retired
    · simp [current]
    · have named : some id = s.previousKem.map fun r => r.2.1 := of_decide_eq_true retired
      simp [← named]
  refine ⟨(valid.numbered id (List.mem_append_left _ named)).2,
    fun _ => decoded.marked older recorded id live, fun e member same => ?_⟩
  have apart := (List.nodup_append.1 valid.distinct).2.2 id named e.1 (List.mem_map_of_mem member)
  exact apart same.symm

/-- A shut identifier is answered to by no slot. -/
theorem Shut.refuses (shut : Shut s id)
    (responded : Session.respond p identity s message = .ok r) : r.decoded.kemPrekeyId ≠ id := by
  rintro rfl
  obtain ⟨slot, ephemeral, oneTimeKey, ss, steps⟩ := Session.respond_ok responded
  obtain ⟨lastResort, entry⟩ := Session.responderKemSlot_ok steps.kemSlot
  cases last : r.lastResort with
  | false =>
      obtain ⟨e, member, named⟩ := entry last
      exact shut.absent e member named
  | true =>
      have live : s.isLastResort r.decoded.kemPrekeyId = true := lastResort ▸ last
      have open_ := Session.responderKemSlot_open (last ▸ steps.kemSlot)
      exact open_ (shut.blocked live)

theorem Shut.spend (shut : Shut s id)
    (responded : Session.respond p identity s message = .ok r) :
    Shut (Session.spend s r) id := by
  have spends := spend_spends responded
  refine ⟨spends.nextId ▸ shut.issued, fun live => ?_, fun e member => ?_⟩
  · rw [spends.isLastResort] at live
    rw [spends.blocked]
    exact shut.blocked live
  · exact shut.absent e (spends.kemOneTime e member)

theorem Shut.replenish (shut : Shut s id) (identity : Identity) (count : Nat) (rng : Rng) :
    Shut (s.replenish p identity count rng).1 id := by
  refine replenish_induction p s identity (motive := fun t => Shut t id) shut
    (fun t next secret h climbs => ?_) (fun _ t next rng h climbs => ?_) count rng
  · exact ⟨UInt32.lt_of_lt_of_le h.issued (le_of_climbs climbs), h.blocked, h.absent⟩
  · refine ⟨UInt32.lt_of_lt_of_le h.issued (le_of_climbs climbs), h.blocked, fun e member => ?_⟩
    rcases List.mem_append.1 member with old | new
    · exact h.absent e old
    · rw [List.mem_singleton] at new
      rw [new]
      exact (UInt32.ne_of_lt h.issued).symm

/-- A rotation drops the marks of the key it wipes, and of no other. -/
theorem Shut.rotateKem (shut : Shut s id) (valid : Valid p s) (identity : Identity) (rng : Rng) :
    Shut (s.rotateKem p identity rng).1 id := by
  rcases rotateKem_cases p s identity rng with same | ⟨next, climbs, -, rotated⟩
  · rw [same]
    exact shut
  rw [rotated]
  generalize (mintKem p identity rng).1 = minted
  refine ⟨UInt32.lt_of_lt_of_le shut.issued (le_of_climbs climbs), fun live => ?_, shut.absent⟩
  have old : id ≠ s.nextId := UInt32.ne_of_lt shut.issued
  have retired : id = s.kemId := by
    simpa [PrekeyStore.isLastResort, PrekeyStore.previousKemId, old] using live
  have marked := shut.blocked (by simp [PrekeyStore.isLastResort, retired])
  simp only [PrekeyStore.pruned]
  cases previous : s.previousKem with
  | none => exact marked
  | some wiped =>
      refine List.mem_filter.2 ⟨marked, ?_⟩
      have ne := valid.kemId_ne_previous previous
      simpa [retired] using ne

/-- **Every operation keeps an identifier shut.** -/
theorem Shut.step (shut : Shut s id) (ok : Restorable p s) (op : Op) :
    Shut (Store.step p s op) id := by
  cases op with
  | publish => exact shut
  | reload => simpa [Store.step, reloaded_eq ok] using shut
  | replenish identity count rng => exact shut.replenish identity count rng
  | rotateSignedPrekey identity rng =>
      rw [Store.step]
      rcases rotateSignedPrekey_cases p s identity rng with same | ⟨next, climbs, -, rotated⟩
      · rw [same]
        exact shut
      · rw [rotated]
        generalize (mintSignedPrekey p identity rng).1 = minted
        exact ⟨UInt32.lt_of_lt_of_le shut.issued (le_of_climbs climbs), shut.blocked, shut.absent⟩
  | rotateKem identity rng => exact shut.rotateKem ok.valid identity rng
  | establishResponder identity message rng =>
      rw [Store.step]
      obtain ⟨e, rng', refused⟩ | ⟨r, session, plaintext, rng', responded, -, opened⟩ :=
        Session.establishResponder_cases p identity s message rng
      · rw [refused]
        exact shut
      · rw [opened]
        exact shut.spend responded

theorem Shut.not_acceptedAlong (correct : p.xed.Correct p.dh) (honest : p.kem.Honest)
    (ok : Restorable p s) (shut : Shut s id) (ops : List Op) :
    ∀ a ∈ acceptedAlong p s ops, a.kemPrekeyId ≠ id := by
  induction ops generalizing s with
  | nil => simp [acceptedAlong]
  | cons op rest ih =>
      intro a member
      rcases List.mem_append.1 member with now | later
      · obtain ⟨r, responded, named, -, -⟩ := acceptedBy_some (Option.mem_toList.1 now)
        rw [named]
        exact shut.refuses responded
      · exact ih (restorable_step correct honest ok op) (shut.step ok op) a later

/-! ## The store on storage -/

/-- The stores the operations and the loads reach. -/
inductive Reached (p : Primitives Secret) : PrekeyStore Secret → Prop where
  | created (identity : Identity) (count : Nat) (rng : Rng) :
      Reached p (createPrekeys p identity count rng).1
  | loaded {bytes : Bytes} {s : PrekeyStore Secret} (accepted : PrekeyStore.fromBytes p bytes = .ok s) :
      Reached p s
  | stepped {s : PrekeyStore Secret} (before : Reached p s) (op : Op) : Reached p (step p s op)

theorem Reached.restorable (dhHonest : p.dh.Honest) (correct : p.xed.Correct p.dh)
    (honest : p.kem.Honest) (reached : Reached p s) : Restorable p s := by
  induction reached with
  | created identity count rng => exact createPrekeys_restorable dhHonest correct honest identity count rng
  | loaded accepted => exact (fromBytes_ok accepted).choose_spec.2.1
  | stepped _ op ih => exact restorable_step correct honest ih op

/-- **The store on storage.**  A store the operations and the loads reach is
restored as it was.  Bytes of the current version that `from_bytes` accepts are
what their store is written as.  Accepted bytes of an older version give a store
that satisfies its invariant and that the bytes lay out, field by field, in
their version; and if they held a replay entry, no run from that store accepts a
handshake naming a last-resort key alive in it. -/
theorem store_storage (dhHonest : p.dh.Honest) (correct : p.xed.Correct p.dh)
    (honest : p.kem.Honest) :
    (∀ s, Reached p s → PrekeyStore.fromBytes p s.toBytes = .ok s) ∧
    (∀ bytes s, PrekeyStore.fromBytes p bytes = .ok s → bytes.head? = some prekeyStoreVersion →
      s.toBytes = bytes) ∧
    (∀ bytes s version, PrekeyStore.fromBytes p bytes = .ok s → bytes.head? = some version →
      version ≠ prekeyStoreVersion →
        (s.invariant p = true ∧ s.signaturesVerify p = true) ∧ bytes = writeOld version s ∧
          (s.lastResortSeen ≠ [] → ∀ ops, ∀ a ∈ acceptedAlong p s ops,
            s.isLastResort a.kemPrekeyId = false)) := by
  refine ⟨fun s reached => fromBytes_toBytes (reached.restorable dhHonest correct honest), ?_, ?_⟩
  · intro bytes s loaded head
    obtain ⟨version, decoded, -, canonical⟩ := fromBytes_ok loaded
    exact canonical (Option.some.inj (decoded.head.symm.trans head))
  · intro bytes s version loaded head older
    obtain ⟨found, decoded, ok, -⟩ := fromBytes_ok loaded
    have same : found = version := Option.some.inj (decoded.head.symm.trans head)
    subst same
    refine ⟨⟨invariant_iff.2 ok.valid, signaturesVerify_iff.2 ok.signed⟩, decoded.older older, ?_⟩
    intro recorded ops a member
    by_contra live
    rw [Bool.not_eq_false] at live
    exact (decoded.shut ok.valid older recorded live).not_acceptedAlong correct honest ok ops a member
      rfl

namespace Migrated

def store : PrekeyStore Secret :=
  (createPrekeys Sample.primitives ⟨Vector.replicate 32 7⟩ 0 fun _ => 1).1

/-- The store as the second version laid it out, one handshake on record. -/
def bytes : Bytes :=
  writeOld prekeyStoreVersionV2
    { store with lastResortSeen := [(store.kemId, Vector.replicate 32 1)] }

theorem loads : ∃ s, PrekeyStore.fromBytes Sample.primitives bytes = .ok s ∧
    s.lastResortSeen ≠ [] := by
  have found : (PrekeyStore.fromBytes Sample.primitives bytes).toOption.map
      (fun s => decide (s.lastResortSeen ≠ [])) = some true := by decide +kernel
  cases h : PrekeyStore.fromBytes Sample.primitives bytes with
  | error e => simp [h, Except.toOption] at found
  | ok s => exact ⟨s, rfl, by simpa [h, Except.toOption] using found⟩

/-- The store those bytes give accepts nothing under its last-resort key again. -/
theorem store_storage_old : ∃ s, PrekeyStore.fromBytes Sample.primitives bytes = .ok s ∧
    ∀ ops, ∀ a ∈ acceptedAlong Sample.primitives s ops, s.isLastResort a.kemPrekeyId = false := by
  obtain ⟨s, loaded, recorded⟩ := loads
  have storage := @store_storage Sample.primitives (Sample.dh_honest id) (Sample.xed_correct id)
    (Sample.kem_honest id)
  have older := storage.2.2 bytes s prekeyStoreVersionV2 loaded rfl (by decide)
  exact ⟨s, loaded, older.2.2 recorded⟩

end Migrated

end Store

end Tacenta
