/-
# Tacenta.Session.Exchange -- two sessions and a network nobody trusts

An initiator's session and the responder's it leads to, over a network that may
drop, reorder, repeat, reflect and forge: each party encrypts what it likes and
is handed whatever bytes.  What each did is logged as the AEAD calls behind it.

A party's keys are its own affair (`Keyed`): none serves twice and none it opens
with is one it sealed with, whatever it was handed.  So if nothing opens that was
not sealed, what a party opens the other one sealed, and only once
(`session_agreement`).
-/
import Tacenta.Session.Calls
import Tacenta.Session.Opening
import Tacenta.Spqr.Keys
import Tacenta.Triple.Inductive

set_option autoImplicit false

namespace Tacenta.Session

open Tacenta.Wire (Composite DecodedMessage decodeMessage concatAd)

variable {K : Type} {p : Primitives K} {s s' : Session K}

/-! ## The AEAD calls of a session -/

/-- An AEAD call: its keys and IV, the associated data, the ciphertext. -/
structure Sealing (K : Type) where
  keys : K × K × Bytes
  ad : Bytes
  ciphertext : Bytes

/-- The AEAD call that seals a plaintext under a message key. -/
def sealUnder (p : Primitives K) (key : K) (plaintext ad : Bytes) : Sealing K :=
  let keys := Ratchet.messageKeys p.kdf key .tacenta
  ⟨keys, ad, p.aead.encrypt keys.1 keys.2.1 keys.2.2 plaintext ad⟩

/-- What a session sealed, or opened, with the plaintext. -/
inductive Exchanged (K : Type) where
  | sealed (call : Sealing K) (plaintext : Bytes)
  | opened (call : Sealing K) (plaintext : Bytes)

def Exchanged.call : Exchanged K → Sealing K
  | .sealed call _ => call
  | .opened call _ => call

/-- The AEAD call an `encrypt` makes. -/
def sealing (p : Primitives K) (s : Session K) (plaintext : Bytes) (rng : Rng) :
    Option (Sealing K) :=
  let (agMsg, sendingEpoch, output, _, _) := s.braid.send p.kdf p.incKem rng
  match (s.triple.send p.kdf sendingEpoch (output.map spqrOutput)).2 with
  | .error _ => none
  | .ok (header, key) =>
      some (sealUnder p key plaintext (concatAd s.identityAd (compositeOf header agMsg)))

/-- The AEAD call a `decryptRatchet` makes, if it comes to that. -/
def openingRatchet (p : Primitives K) (s : Session K) (message : Bytes) (rng : Rng) :
    Option (Sealing K) :=
  match decodeMessage message with
  | .error _ => none
  | .ok decoded =>
      let output := (s.braid.receive p.kdf p.incKem (msgOf decoded.header)).2.1
      match p.dh.agree s.ratchetPrivate decoded.header.dh with
      | none => none
      | some dhOutRecv =>
          match p.dh.agree (randomSecret rng).1 decoded.header.dh with
          | none => none
          | some dhOutSend =>
              match receiveWithEviction p.kdf s.triple decoded.header
                  (tripleHeaderOf decoded.header) dhOutRecv dhOutSend
                  (p.dh.publicKey (randomSecret rng).1) (output.map spqrOutput) with
              | .error _ => none
              | .ok (_, key) =>
                  some ⟨Ratchet.messageKeys p.kdf key .tacenta, concatAd s.identityAd decoded.header,
                    decoded.ciphertext⟩

/-- The AEAD call a `decrypt` makes, if it comes to that. -/
def opening [DecidableEq K] (p : Primitives K) (s : Session K) (message : Bytes) (rng : Rng) :
    Option (Sealing K) :=
  match s.innerMessage p message with
  | .error _ => none
  | .ok inner => s.openingRatchet p inner rng

/-- The AEAD call behind an `establish_responder`. -/
def accepting [DecidableEq K] (p : Primitives K) (identity : Store.Identity)
    (store : Store.PrekeyStore K)
    (message : Bytes) (rng : Rng) : Option (Sealing K) :=
  match respond p identity store message with
  | .error _ => none
  | .ok r => (responderSession p identity r).openingRatchet p r.decoded.message rng

/-- The session a call leaves, and the AEAD call of one that succeeds. -/
def exchange [DecidableEq K] (p : Primitives K) : Machine (Session K) Call (Exchanged K)
  | s, .encrypt plaintext rng =>
      match s.encrypt p plaintext rng with
      | (s', .ok _, _) => (s', ((s.sealing p plaintext rng).map (Exchanged.sealed · plaintext)).toList)
      | (s', .error _, _) => (s', [])
  | s, .decrypt message rng =>
      match s.decrypt p message rng with
      | (s', .ok plaintext, _) =>
          (s', ((s.opening p message rng).map (Exchanged.opened · plaintext)).toList)
      | (s', .error _, _) => (s', [])

theorem openingRatchet_of_opens {message : Bytes} {rng : Rng} {decoded : DecodedMessage}
    {output : Option (Braid.Output K)} {braid : Braid.Braid K} {dhOutRecv dhOutSend : K}
    {triple : Triple.State K} {key : K} {plaintext : Bytes}
    (opens : Opens p s message rng decoded output braid dhOutRecv dhOutSend triple key plaintext) :
    s.openingRatchet p message rng = some ⟨Ratchet.messageKeys p.kdf key .tacenta,
      concatAd s.identityAd decoded.header, decoded.ciphertext⟩ := by
  have agreement : (s.braid.receive p.kdf p.incKem (msgOf decoded.header)).2.1 = output :=
    congrArg Prod.fst opens.agreement
  unfold openingRatchet
  rw [opens.read]
  simp only [opens.agreed, opens.fresh, agreement, opens.received]

/-- **What returns `Ok` is logged**: an encrypt as the sealing of its plaintext, a
decrypt as the opening of what it returned. -/
theorem exchange_logs [DecidableEq K] (p : Primitives K) (s : Session K) :
    (∀ plaintext rng wire, (s.encrypt p plaintext rng).2.1 = .ok wire →
      ∃ call, (exchange p s (.encrypt plaintext rng)).2 = [.sealed call plaintext]) ∧
    (∀ message rng plaintext, (s.decrypt p message rng).2.1 = .ok plaintext →
      ∃ call, (exchange p s (.decrypt message rng)).2 = [.opened call plaintext]) := by
  constructor
  · intro plaintext rng wire sent
    have ends := encrypt_ends p s plaintext rng
    rw [exchange]
    revert sent
    generalize s.encrypt p plaintext rng = result at ends ⊢
    obtain ⟨after, outcome, rng'⟩ := result
    intro sent
    simp only at ends sent
    cases ends with
    | ended | kemFailed | refused => simp at sent
    | sent alive ran survived drew =>
        simp only [sealing, ran, drew]
        exact ⟨_, rfl⟩
  · intro message rng plaintext opened
    rw [exchange]
    obtain ⟨e, rng', refused⟩ | ⟨inner, decoded, output, braid, dhOutRecv, dhOutSend, triple, key,
      plaintext', unwrapped, opens, adopts⟩ := decrypt_cases p s message rng
    · rw [refused] at opened
      simp at opened
    · rw [adopts] at opened ⊢
      obtain rfl : plaintext' = plaintext := Except.ok.inj opened
      simp only [opening, unwrapped, openingRatchet_of_opens opens]
      exact ⟨_, rfl⟩

/-- How a call of one session is logged. -/
inductive Exchanges (p : Primitives K) (s : Session K) : List (Exchanged K) → Session K → Prop where
  | quiet {s' : Session K} (same : s'.triple = s.triple) : Exchanges p s [] s'
  | sealed {s' : Session K} {epoch : UInt64} {output : Option (Spqr.Output K)}
      {header : Triple.Header} {key : K}
      (drew : s.triple.send p.kdf epoch output = (s'.triple, .ok (header, key)))
      (plaintext ad : Bytes) :
      Exchanges p s [.sealed (sealUnder p key plaintext ad) plaintext] s'
  | opened {s' : Session K} {message : Bytes} {rng : Rng} {decoded : DecodedMessage}
      {output : Option (Braid.Output K)} {braid : Braid.Braid K} {dhOutRecv dhOutSend : K}
      {triple : Triple.State K} {key : K} {plaintext : Bytes}
      (opens : Opens p s message rng decoded output braid dhOutRecv dhOutSend triple key plaintext)
      (left : s'.triple = triple) :
      Exchanges p s [.opened ⟨Ratchet.messageKeys p.kdf key .tacenta,
        concatAd s.identityAd decoded.header, decoded.ciphertext⟩ plaintext] s'

/-- **Every call is logged in one of these ways.** -/
theorem exchange_exchanges [DecidableEq K] (p : Primitives K) (s : Session K) (c : Call) :
    Exchanges p s (exchange p s c).2 (exchange p s c).1 := by
  cases c with
  | encrypt plaintext rng =>
      have ends := encrypt_ends p s plaintext rng
      rw [exchange]
      generalize s.encrypt p plaintext rng = result at ends ⊢
      obtain ⟨after, outcome, rng'⟩ := result
      simp only at ends
      cases ends with
      | ended | kemFailed | refused => exact .quiet rfl
      | @sent agMsg epoch output braid rng' triple header key alive ran survived drew =>
          simp only [sealing, ran, drew]
          exact .sealed drew plaintext _
  | decrypt message rng =>
      rw [exchange]
      obtain ⟨e, rng', refused⟩ | ⟨inner, decoded, output, braid, dhOutRecv, dhOutSend, triple, key,
        plaintext, unwrapped, opens, adopts⟩ := decrypt_cases p s message rng
      · rw [refused]
        exact .quiet rfl
      · rw [adopts]
        simp only [opening, unwrapped, openingRatchet_of_opens opens]
        exact .opened opens rfl

/-- A responder starts with the one message it opened. -/
theorem accepting_exchanges [DecidableEq K] {identity : Store.Identity}
    {store after : Store.PrekeyStore K}
    {message plaintext : Bytes} {rng rng' : Rng}
    (established : establishResponder p identity store message rng =
      (after, .ok (s, plaintext), rng')) :
    ∃ r call, accepting p identity store message rng = some call ∧
      Exchanges p (responderSession p identity r) [.opened call plaintext] s := by
  obtain ⟨r, decoded, output, braid, dhOutRecv, dhOutSend, triple, key, responded, -, opens, rfl⟩ :=
    establishResponder_ok established
  have made := openingRatchet_of_opens opens
  refine ⟨r, _, ?_, .opened opens rfl⟩
  rw [accepting, responded]
  exact made

/-- What the AEAD answered: a sealing is its encryption, an opening its decryption. -/
def Exchanged.Genuine (p : Primitives K) : Exchanged K → Prop
  | .sealed call plaintext =>
      p.aead.encrypt call.keys.1 call.keys.2.1 call.keys.2.2 plaintext call.ad = call.ciphertext
  | .opened call plaintext =>
      p.aead.decrypt call.keys.1 call.keys.2.1 call.keys.2.2 call.ciphertext call.ad =
        some plaintext

variable {past now : List (Exchanged K)}

theorem Exchanges.genuine (exchanges : Exchanges p s now s') : ∀ event ∈ now, event.Genuine p := by
  intro event member
  cases exchanges with
  | quiet => simp at member
  | sealed =>
      rw [List.mem_singleton.1 member]
      rfl
  | opened opens =>
      rw [List.mem_singleton.1 member]
      exact opens.opened

/-! ## One party's keys -/

/-- The AEAD keys come of this key of the sparse ratchet. -/
def Under (kdf : Kdf K) (event : Exchanged K) (drawn : Spqr.Event K) : Prop :=
  ∃ mkEc mkPq, drawn.key = some mkPq ∧
    event.call.keys = Ratchet.messageKeys kdf (Triple.combine kdf mkEc mkPq) .tacenta

/-- Each AEAD call so far was under a key of its own of the sparse ratchet. -/
def Keyed (p : Primitives K) (past : List (Exchanged K)) (s : Session K) : Prop :=
  ∃ drawn, Spqr.State.Keyed p.kdf drawn s.triple.postQuantum ∧
    List.Forall₂ (Under p.kdf) past drawn

/-- **Every call keeps the record of keys.** -/
theorem Exchanges.keyed (exchanges : Exchanges p s now s') (keyed : Keyed p past s) :
    Keyed p (past ++ now) s' := by
  obtain ⟨drawn, sparse, under⟩ := keyed
  cases exchanges with
  | quiet same =>
      rw [List.append_nil]
      exact ⟨drawn, same ▸ sparse, under⟩
  | sealed drew plaintext ad =>
      obtain ⟨dr, mkEc, pqN, mkPq, -, took, -, rfl⟩ := Triple.State.send_ok drew
      exact ⟨_, sparse.send took, List.rel_append under (.cons ⟨mkEc, mkPq, rfl, rfl⟩ .nil)⟩
  | opened opens left =>
      obtain ⟨w, thinned, received⟩ := receiveWithEviction_ok opens.received
      obtain ⟨kept, sub, same⟩ := thinned.postQuantum
      obtain ⟨mkEc, mkPq, -, answered, combined⟩ := Triple.State.receive_ok received
      have thinner := sparse.of_sublist sub
      rw [← same] at thinner
      have next := thinner.receive answered
      rw [← left] at next
      refine ⟨_, next, List.rel_append under (.cons ⟨mkEc, mkPq, rfl, ?_⟩ .nil)⟩
      rw [← combined]
      rfl

/-- **No two AEAD calls of a party share their keys.** -/
theorem Keyed.pairwise (ideal : p.kdf.Ideal) (keyed : Keyed p past s) :
    past.Pairwise fun a b => a.call.keys ≠ b.call.keys := by
  obtain ⟨drawn, sparse, under⟩ := keyed
  have once := sparse.keys_nodup ideal
  rw [List.Nodup, List.pairwise_filterMap] at once
  apply pairwise_of_forall₂ under ?_ once
  rintro a b drawn drawn' ⟨mkEc, mkPq, key, keys⟩ ⟨mkEc', mkPq', key', keys'⟩ apart same
  rw [keys, keys'] at same
  obtain ⟨-, combined, -⟩ := ideal.hkdf_inj (by omega) (by omega) (congrArg Prod.fst same)
  obtain ⟨salts, -, -⟩ := ideal.hkdf_inj (by omega) (by omega) (ideal.bytes_inj combined)
  exact apart mkPq key mkPq' key' (ideal.bytes_inj salts)

/-! ## Two parties -/

inductive Party where
  | initiator
  | responder
  deriving DecidableEq

def Party.other : Party → Party
  | .initiator => .responder
  | .responder => .initiator

/-- Both ends; the responder's session is there once it has accepted. -/
structure Link (K : Type) where
  initiator : Session K
  responder : Option (Session K)

/-- One call at one end, with whatever bytes the network hands over. -/
inductive LinkCall (K : Type) where
  | initiator (call : Call)
  | accept (identity : Store.Identity) (store : Store.PrekeyStore K) (message : Bytes) (rng : Rng)
  | responder (call : Call)

namespace Link

/-- The link a call leaves, and the AEAD call of one that succeeds. -/
def call [DecidableEq K] (p : Primitives K) : Machine (Link K) (LinkCall K) (Party × Exchanged K)
  | l, .initiator c =>
      let (session, now) := exchange p l.initiator c
      ({ l with initiator := session }, now.map (Prod.mk .initiator))
  | l, .accept identity store message rng =>
      match l.responder, establishResponder p identity store message rng with
      | none, (_, .ok (session, plaintext), _) =>
          ({ l with responder := some session },
            ((accepting p identity store message rng).map
              fun call => (.responder, .opened call plaintext)).toList)
      | _, _ => (l, [])
  | l, .responder c =>
      match l.responder with
      | none => (l, [])
      | some s =>
          let (session, now) := exchange p s c
          ({ l with responder := some session }, now.map (Prod.mk .responder))

/-- What one party did. -/
def of (x : Party) (log : List (Party × Exchanged K)) : List (Exchanged K) :=
  log.filterMap fun entry => if entry.1 = x then some entry.2 else none

theorem of_append (x : Party) (log now : List (Party × Exchanged K)) :
    of x (log ++ now) = of x log ++ of x now := List.filterMap_append

theorem of_map_self (x : Party) (now : List (Exchanged K)) : of x (now.map (Prod.mk x)) = now := by
  simp [of, List.filterMap_map]

theorem of_map_other {x y : Party} (apart : x ≠ y) (now : List (Exchanged K)) :
    of y (now.map (Prod.mk x)) = [] := by
  simp [of, List.filterMap_map, apart]

/-- Each party's AEAD calls so far were under keys of its own, and as logged. -/
structure Kept (p : Primitives K) (log : List (Party × Exchanged K)) (l : Link K) : Prop where
  initiator : Keyed p (of .initiator log) l.initiator
  responder : ∀ s ∈ l.responder, Keyed p (of .responder log) s
  silent : l.responder = none → of .responder log = []
  genuine : ∀ entry ∈ log, entry.2.Genuine p

theorem Kept.start (keyed : Keyed p [] s) : Kept p [] ⟨s, none⟩ :=
  ⟨keyed, by simp, fun _ => rfl, by simp⟩

/-- What one party does leaves the other's record alone. -/
theorem genuine_append {log : List (Party × Exchanged K)} {x : Party} {now : List (Exchanged K)}
    (before : ∀ entry ∈ log, entry.2.Genuine p) (after : ∀ event ∈ now, event.Genuine p) :
    ∀ entry ∈ log ++ now.map (Prod.mk x), entry.2.Genuine p := by
  intro entry member
  rcases List.mem_append.1 member with old | new
  · exact before entry old
  · obtain ⟨event, here, rfl⟩ := List.mem_map.1 new
    exact after event here

/-- **Every call keeps both parties' records.** -/
theorem Kept.call [DecidableEq K] {log : List (Party × Exchanged K)} {l : Link K}
    (kept : Kept p log l)
    (c : LinkCall K) : Kept p (log ++ (Link.call p l c).2) (Link.call p l c).1 := by
  have still : Kept p (log ++ []) l := by
    rw [List.append_nil]
    exact kept
  obtain ⟨initiator, responder, silent, genuine⟩ := kept
  have apart : Party.initiator ≠ Party.responder := by decide
  -- The responder's own calls, the one that starts its session included.
  have responds : ∀ {s s' : Session K} {now : List (Exchanged K)}, Exchanges p s now s' →
      Keyed p (of .responder log) s →
        Kept p (log ++ now.map (Prod.mk .responder)) { l with responder := some s' } := by
    intro s s' now exchanges keyed
    refine ⟨?_, ?_, fun none_ => by simp at none_, genuine_append genuine exchanges.genuine⟩
    · rw [of_append, of_map_other apart.symm, List.append_nil]
      exact initiator
    · intro s'' here
      obtain rfl : s' = s'' := Option.some.inj here
      rw [of_append, of_map_self]
      exact exchanges.keyed keyed
  cases c with
  | initiator c =>
      have exchanges := exchange_exchanges p l.initiator c
      refine ⟨?_, ?_, ?_, genuine_append genuine exchanges.genuine⟩
      · rw [of_append, Link.call, of_map_self]
        exact exchanges.keyed initiator
      · rw [of_append, Link.call, of_map_other apart, List.append_nil]
        exact responder
      · rw [of_append, Link.call, of_map_other apart, List.append_nil]
        exact silent
  | accept identity store message rng =>
      cases waiting : l.responder with
      | some s =>
          simp only [Link.call, waiting]
          exact still
      | none =>
          cases ran : establishResponder p identity store message rng with
          | mk after rest =>
              obtain ⟨outcome, rng'⟩ := rest
              cases outcome with
              | error e =>
                  simp only [Link.call, waiting, ran]
                  exact still
              | ok answer =>
                  obtain ⟨s, plaintext⟩ := answer
                  obtain ⟨r, call, made, exchanges⟩ := accepting_exchanges ran
                  simp only [Link.call, waiting, ran, made, Option.map_some, Option.toList_some]
                  apply responds exchanges
                  rw [silent waiting]
                  exact ⟨[], Spqr.State.init_keyed _ _ _, .nil⟩
  | responder c =>
      cases waiting : l.responder with
      | none =>
          simp only [Link.call, waiting]
          exact still
      | some s =>
          simp only [Link.call, waiting]
          exact responds (exchange_exchanges p s c) (responder s waiting)

/-- What both ends did along a run from an initiator's session. -/
def log [DecidableEq K] (p : Primitives K) (s : Session K) (calls : List (LinkCall K)) :
    List (Party × Exchanged K) :=
  ((Link.call p).run ⟨s, none⟩ calls).2

theorem log_kept [DecidableEq K] {identity : Store.Identity} {bundle : Store.PublishedBundle}
    {expected : Arr 32}
    {rng rng' : Rng}
    (established : establishInitiatorFor p identity bundle expected rng = (.ok s, rng'))
    (calls : List (LinkCall K)) : ∃ l, Kept p (log p s calls) l := by
  have start : Kept p [] ⟨s, none⟩ := by
    obtain ⟨_, _, _, _, _, _, -, rfl⟩ := establishInitiatorFor_ok established
    exact .start ⟨[], Spqr.State.init_keyed _ _ _, .nil⟩
  have keeps : (Link.call p).Keeps (fun _ => True) (Kept p) := fun past l c _ here => here.call c
  exact ⟨_, keeps.run start fun _ _ => trivial⟩

/-- **No two AEAD calls at one end share their keys.** -/
theorem Kept.pairwise {log : List (Party × Exchanged K)} {l : Link K} (ideal : p.kdf.Ideal)
    (kept : Kept p log l) :
    log.Pairwise fun a b => a.1 = b.1 → a.2.call.keys ≠ b.2.call.keys := by
  have both : ∀ x, (of x log).Pairwise fun a b => a.call.keys ≠ b.call.keys := by
    intro x
    cases x with
    | initiator => exact kept.initiator.pairwise ideal
    | responder =>
        cases here : l.responder with
        | none =>
            rw [kept.silent here]
            exact .nil
        | some session => exact (kept.responder session here).pairwise ideal
  have initiator := both .initiator
  have responder := both .responder
  rw [of, List.pairwise_filterMap] at initiator responder
  refine (initiator.and responder).imp ?_
  rintro ⟨x, a⟩ ⟨y, b⟩ ⟨first, second⟩ same
  obtain rfl : x = y := same
  cases x with
  | initiator => exact first a rfl b rfl
  | responder => exact second a rfl b rfl

/-- At one end, equal keys are one AEAD call. -/
theorem Kept.index_inj {log : List (Party × Exchanged K)} {l : Link K} (ideal : p.kdf.Ideal)
    (kept : Kept p log l) {x : Party} {a b : Exchanged K} {i j : Nat}
    (left : log[i]? = some (x, a)) (right : log[j]? = some (x, b))
    (same : a.call.keys = b.call.keys) : i = j := by
  have apart := List.pairwise_iff_getElem.1 (kept.pairwise ideal)
  obtain ⟨hi, atI⟩ := List.getElem?_eq_some_iff.1 left
  obtain ⟨hj, atJ⟩ := List.getElem?_eq_some_iff.1 right
  rcases lt_trichotomy i j with before | here | after
  · have other := apart i j hi hj before
    rw [atI, atJ] at other
    exact absurd same (other rfl)
  · exact here
  · have other := apart j i hj hi after
    rw [atI, atJ] at other
    exact absurd same.symm (other rfl)

/-- Nothing opens that was not sealed, at either end. -/
def Authentic (log : List (Party × Exchanged K)) : Prop :=
  ∀ x call plaintext, (x, Exchanged.opened call plaintext) ∈ log →
    ∃ y plaintext', (y, Exchanged.sealed call plaintext') ∈ log

/-- The `i`-th event opens what the other party sealed as the `j`-th, and reads
its plaintext. -/
def Delivers (log : List (Party × Exchanged K)) (i j : Nat) : Prop :=
  ∃ (x : Party) (call : Sealing K) (plaintext : Bytes),
    log[i]? = some (x, .opened call plaintext) ∧
    log[j]? = some (x.other, .sealed call plaintext)

/-- Every call that returns `Ok` is logged, with the plaintext it was given or
returned. -/
structure Logged [DecidableEq K] (p : Primitives K) : Prop where
  encrypts : ∀ (s : Session K) plaintext rng wire, (s.encrypt p plaintext rng).2.1 = .ok wire →
    ∃ call, (exchange p s (.encrypt plaintext rng)).2 = [.sealed call plaintext]
  decrypts : ∀ (s : Session K) message rng plaintext,
    (s.decrypt p message rng).2.1 = .ok plaintext →
      ∃ call, (exchange p s (.decrypt message rng)).2 = [.opened call plaintext]
  accepts : ∀ (l : Link K) identity store message rng session plaintext, l.responder = none →
    (establishResponder p identity store message rng).2.1 = .ok (session, plaintext) →
      ∃ call, (Link.call p l (.accept identity store message rng)).2 =
        [(.responder, .opened call plaintext)]

theorem logged [DecidableEq K] (p : Primitives K) : Logged p := by
  refine ⟨(exchange_logs p · |>.1), (exchange_logs p · |>.2), ?_⟩
  intro l identity store message rng session plaintext waiting accepted
  cases ran : establishResponder p identity store message rng with
  | mk after rest =>
      obtain ⟨outcome, rng'⟩ := rest
      rw [ran] at accepted
      obtain rfl : outcome = .ok (session, plaintext) := accepted
      obtain ⟨r, call, made, -⟩ := accepting_exchanges ran
      simp only [Link.call, waiting, ran, made, Option.map_some, Option.toList_some]
      exact ⟨call, rfl⟩

/-- **The two sessions agree.**  An initiator answers a bundle; after that both
ends call what they like, the responder starting from whichever message it
accepts, and the network hands over whatever bytes it likes.  If nothing opens
that was not sealed, then everything a party opens is exactly the plaintext of
one sealing of the other party's, and no sealing is opened twice. -/
theorem session_agreement [DecidableEq K] (ideal : p.kdf.Ideal) (inverts : p.aead.Inverts)
    {identity : Store.Identity} {bundle : Store.PublishedBundle} {expected : Arr 32}
    {rng rng' : Rng}
    (established : establishInitiatorFor p identity bundle expected rng = (.ok s, rng'))
    (calls : List (LinkCall K)) (authentic : Authentic (log p s calls)) :
    Logged p ∧
    (∀ (i : Nat) x call plaintext, (log p s calls)[i]? = some (x, .opened call plaintext) →
      ∃ j, Delivers (log p s calls) i j ∧ ∀ j', Delivers (log p s calls) i j' → j' = j) ∧
    ∀ i i' j, Delivers (log p s calls) i j → Delivers (log p s calls) i' j → i = i' := by
  obtain ⟨l, kept⟩ := log_kept established calls
  generalize log p s calls = log at *
  refine ⟨logged p, ?_, ?_⟩
  · intro i x call plaintext opened
    obtain ⟨y, plaintext', sealed⟩ := authentic x call plaintext (List.mem_of_getElem? opened)
    obtain ⟨j, inside, here⟩ := List.getElem_of_mem sealed
    have here' : log[j]? = some (y, .sealed call plaintext') := by
      rw [List.getElem?_eq_getElem inside, here]
    -- Its own sealings are under other keys.
    have other : y = x.other := by
      by_contra own
      obtain rfl : y = x := by
        cases x <;> cases y <;> simp [Party.other] at own ⊢
      obtain rfl := kept.index_inj ideal opened here' rfl
      rw [opened] at here'
      simp at here'
    subst other
    have read : plaintext' = plaintext := by
      have answered := kept.genuine _ (List.mem_of_getElem? opened)
      have made := kept.genuine _ sealed
      simp only [Exchanged.Genuine] at answered made
      rw [← made, inverts] at answered
      exact Option.some.inj answered
    subst read
    refine ⟨j, ⟨x, call, plaintext', opened, here'⟩, ?_⟩
    rintro j' ⟨x', call', plaintext, opened', sealed'⟩
    rw [opened, Option.some.injEq, Prod.mk.injEq, Exchanged.opened.injEq] at opened'
    obtain ⟨rfl, rfl, rfl⟩ := opened'
    exact kept.index_inj ideal sealed' here' rfl
  · rintro i i' j ⟨x, call, plaintext, opened, sealed⟩ ⟨x', call', plaintext', opened', sealed'⟩
    rw [sealed, Option.some.injEq, Prod.mk.injEq, Exchanged.sealed.injEq] at sealed'
    obtain ⟨parties, rfl, rfl⟩ := sealed'
    obtain rfl : x = x' := by
      cases x <;> cases x' <;> simp [Party.other] at parties ⊢
    exact kept.index_inj ideal opened opened' rfl

/-- **No AEAD keys are used twice.**  Whatever the network hands over, two calls of
one party that sealed or opened, the responder's first included, were under
different keys and IVs. -/
theorem keys_used_once [DecidableEq K] (ideal : p.kdf.Ideal)
    {identity : Store.Identity} {bundle : Store.PublishedBundle} {expected : Arr 32}
    {rng rng' : Rng}
    (established : establishInitiatorFor p identity bundle expected rng = (.ok s, rng'))
    (calls : List (LinkCall K)) {x : Party} {a b : Exchanged K} {i j : Nat}
    (left : (log p s calls)[i]? = some (x, a)) (right : (log p s calls)[j]? = some (x, b))
    (same : a.call.keys = b.call.keys) : i = j := by
  obtain ⟨l, kept⟩ := log_kept established calls
  exact kept.index_inj ideal left right same

end Link

/-! ## The first message, end to end -/

section First

variable {owner initiator : Store.Identity} {b : Store.PublishedBundle} {keys : BundleKeys}
  {ephemeral ratchetPrivate : Arr 32} {kemCiphertext : Bytes} {ss sk dhOut : K}

/-- The AEAD call of a first message. -/
def firstSealing (p : Primitives K) (identityAd : Bytes) (sk dhOut : K) (ratchetPublic : Arr 32)
    (agMsg : Braid.Msg) (plaintext : Bytes) : Sealing K :=
  sealUnder p (firstKey p.kdf (p.kdf.bytes sk) dhOut) plaintext
    (concatAd identityAd (compositeOf (firstHeader ratchetPublic) agMsg))

theorem initiatorSession_seals (incHonest : p.incKem.Honest) (initiator : Store.Identity)
    (b : Store.PublishedBundle) (sk : K) (ephemeral ratchetPrivate : Arr 32) (dhOut : K)
    (kemCiphertext plaintext : Bytes) (rng : Rng) :
    ∃ sent agMsg rng',
      (initiatorSession p initiator b sk ephemeral ratchetPrivate dhOut kemCiphertext).encrypt p
          plaintext rng =
        (sent, .ok (initialMessage p initiator b ephemeral ratchetPrivate kemCiphertext sk dhOut
          agMsg plaintext), rng') ∧
      (initiatorSession p initiator b sk ephemeral ratchetPrivate dhOut kemCiphertext).sealing p
          plaintext rng =
        some (firstSealing p (Handshake.identityAd (initiator.public p) b.bundle.identityKey) sk
          dhOut (p.dh.publicKey ratchetPrivate) agMsg plaintext) := by
  obtain ⟨agMsg, next, rng', agreed, alive⟩ := initiator_send incHonest (p.kdf.bytes sk) rng
  have drew := initSender_send p.kdf (p.kdf.bytes sk) (p.dh.publicKey ratchetPrivate)
    b.bundle.signedPrekey dhOut
  unfold encrypt sealing
  rw [if_neg (by simp [initiatorSession, Braid.Braid.initiator, Braid.Braid.failed])]
  simp only [initiatorSession, agreed, alive, Option.map_none, Bool.false_eq_true, if_false]
  generalize Triple.State.send p.kdf _ 0 none = drawn at drew ⊢
  obtain ⟨candidate, _⟩ := drawn
  simp only at drew
  subst drew
  exact ⟨_, agMsg, rng', rfl, rfl⟩

theorem responderSession_opens (honest : p.dh.Honest) (agrees : p.dh.Agrees) (r : Responded K)
    (agreed : p.dh.agree ratchetPrivate (p.dh.publicKey r.signedPrekeySecret) = some dhOut)
    (agMsg : Braid.Msg) (plaintext : Bytes) (rng : Rng) :
    (responderSession p owner r).openingRatchet p
        (firstMessage p (Handshake.identityAd r.initiatorIdentity (owner.public p)) r.sk dhOut
          (p.dh.publicKey ratchetPrivate) agMsg plaintext) rng =
      some (firstSealing p (Handshake.identityAd r.initiatorIdentity (owner.public p)) r.sk dhOut
        (p.dh.publicKey ratchetPrivate) agMsg plaintext) := by
  set composite := compositeOf (firstHeader (p.dh.publicKey ratchetPrivate)) agMsg with hcomposite
  have canonical : Curve.isCanonicalX25519 composite.dh = true := honest.publicKey_canonical _
  have none_ := responder_receive (p := p) (p.kdf.bytes r.sk) agMsg
  obtain ⟨dhOutSend, answers⟩ := agrees.contributory (randomSecret rng).1 ratchetPrivate
  obtain ⟨next, received⟩ := initReceiver_receive p.kdf (p.kdf.bytes r.sk)
    (p.dh.publicKey r.signedPrekeySecret) (p.dh.publicKey ratchetPrivate)
    (p.dh.publicKey (randomSecret rng).1) dhOut dhOutSend
  rw [agrees.symmetric] at agreed
  unfold openingRatchet
  simp only [firstMessage, ← hcomposite, Wire.decodeMessage_encodeMessage _ _ canonical]
  have braid : (responderSession p owner r).braid = Braid.Braid.responder p.kdf (p.kdf.bytes r.sk) :=
    rfl
  have start : (responderSession p owner r).triple = Triple.State.initReceiver p.kdf
      (p.kdf.bytes r.sk) (p.dh.publicKey r.signedPrekeySecret) .tacenta := rfl
  have private_ : (responderSession p owner r).ratchetPrivate = r.signedPrekeySecret := rfl
  have dh : composite.dh = p.dh.publicKey ratchetPrivate := rfl
  have message : msgOf composite = agMsg := msgOf_compositeOf _ _
  have header : tripleHeaderOf composite = firstHeader (p.dh.publicKey ratchetPrivate) := rfl
  rw [braid, start, private_, dh, message, header]
  simp only [agreed, answers, none_, Option.map_none]
  unfold receiveWithEviction
  rw [received]
  rfl

/-- An `encrypt` of the initiator's, logged. -/
theorem call_encrypt [DecidableEq K] {s sent : Session K} {plaintext wire : Bytes} {rng rng' : Rng}
    {call : Sealing K} (encrypted : s.encrypt p plaintext rng = (sent, .ok wire, rng'))
    (sealed : s.sealing p plaintext rng = some call) :
    Link.call p ⟨s, none⟩ (.initiator (.encrypt plaintext rng)) =
      (⟨sent, none⟩, [(.initiator, .sealed call plaintext)]) := by
  simp only [Link.call, exchange, encrypted, sealed, Option.map_some, Option.toList_some,
    List.map_cons, List.map_nil]

/-- The message the responder starts from, logged. -/
theorem call_accept [DecidableEq K] {s session : Session K} {store after : Store.PrekeyStore K}
    {message plaintext : Bytes} {rng rng' : Rng} {call : Sealing K}
    (established : establishResponder p owner store message rng =
      (after, .ok (session, plaintext), rng'))
    (made : accepting p owner store message rng = some call) :
    Link.call p ⟨s, none⟩ (.accept owner store message rng) =
      (⟨s, some session⟩, [(.responder, .opened call plaintext)]) := by
  simp only [Link.call, established, made, Option.map_some, Option.toList_some]

theorem log_accepted [DecidableEq K] {s sent session : Session K}
    {store after : Store.PrekeyStore K}
    {plaintext wire message opened : Bytes} {rng rng' drawn drawn' : Rng} {call call' : Sealing K}
    (encrypted : s.encrypt p plaintext rng = (sent, .ok wire, drawn))
    (sealed : s.sealing p plaintext rng = some call)
    (established : establishResponder p owner store message rng' =
      (after, .ok (session, opened), drawn'))
    (made : accepting p owner store message rng' = some call') :
    Link.log p s [.initiator (.encrypt plaintext rng), .accept owner store message rng'] =
      [(.initiator, .sealed call plaintext), (.responder, .opened call' opened)] := by
  rw [Link.log, Machine.run_cons, call_encrypt encrypted sealed, Machine.run_cons,
    call_accept established made, Machine.run_nil]
  rfl

theorem accepting_answers [DecidableEq K] (honest : p.dh.Honest) (agrees : p.dh.Agrees)
    (inverts : p.aead.Inverts)
    (offers : Offers p owner b keys)
    (initiated : Initiated p initiator b keys ephemeral ratchetPrivate kemCiphertext ss sk dhOut)
    {store : Store.PrekeyStore K} {slot : KemKeySlot} {lastResort : Bool}
    (answers : Answers store b keys slot lastResort) {fingerprint : Option K}
    (fresh : responderReplayFingerprint p store b.kemPrekeyId sk lastResort = .ok fingerprint)
    (agMsg : Braid.Msg) (plaintext : Bytes) (rng : Rng) :
    accepting p owner store (initialMessage p initiator b ephemeral ratchetPrivate kemCiphertext sk
        dhOut agMsg plaintext) rng =
      some (firstSealing p (Handshake.identityAd (initiator.public p) b.bundle.identityKey) sk dhOut
        (p.dh.publicKey ratchetPrivate) agMsg plaintext) := by
  obtain ⟨r, session, rng', responded, -, -⟩ := establishResponder_answers honest agrees
    inverts offers initiated answers fresh agMsg plaintext rng
  have facts := respond_answers honest agrees offers initiated answers agMsg plaintext
  rw [fresh, responded] at facts
  obtain rfl := Except.ok.inj facts
  have agreed : p.dh.agree ratchetPrivate (p.dh.publicKey keys.signed) = some dhOut := by
    rw [← initiated.agreed, offers.signedPrekey]
  have accepts := @responderSession_opens K p owner _ _ honest agrees
    (openedInitial p initiator b keys lastResort ephemeral ratchetPrivate kemCiphertext sk dhOut
      agMsg plaintext fingerprint) agreed agMsg plaintext rng
  have message : (openedInitial p initiator b keys lastResort ephemeral ratchetPrivate kemCiphertext
      sk dhOut agMsg plaintext fingerprint).decoded.message =
        firstMessage p (Handshake.identityAd (initiator.public p) (owner.public p)) sk dhOut
          (p.dh.publicKey ratchetPrivate) agMsg plaintext := by
    rw [← offers.identity]
    rfl
  rw [accepting, responded]
  show (responderSession p owner (openedInitial p initiator b keys lastResort ephemeral
    ratchetPrivate kemCiphertext sk dhOut agMsg plaintext fingerprint)).openingRatchet p _ rng = _
  rw [message, offers.identity]
  exact accepts

/-- **What the initiator seals first is what the responder opens first**, under
the same AEAD keys and associated data. -/
theorem first_log [DecidableEq K] (honest : p.dh.Honest) (agrees : p.dh.Agrees)
    (inverts : p.aead.Inverts)
    (incHonest : p.incKem.Honest) (offers : Offers p owner b keys)
    (initiated : Initiated p initiator b keys ephemeral ratchetPrivate kemCiphertext ss sk dhOut)
    {store : Store.PrekeyStore K} {slot : KemKeySlot} {lastResort : Bool}
    (answers : Answers store b keys slot lastResort) {fingerprint : Option K}
    (fresh : responderReplayFingerprint p store b.kemPrekeyId sk lastResort = .ok fingerprint)
    (plaintext : Bytes) (rng rng' : Rng) :
    ∃ message call, Link.log p
        (initiatorSession p initiator b sk ephemeral ratchetPrivate dhOut kemCiphertext)
        [.initiator (.encrypt plaintext rng), .accept owner store message rng'] =
      [(.initiator, .sealed call plaintext), (.responder, .opened call plaintext)] := by
  obtain ⟨sent, agMsg, drawn, encrypted, sealed⟩ := initiatorSession_seals incHonest initiator
    b sk ephemeral ratchetPrivate dhOut kemCiphertext plaintext rng
  obtain ⟨r, session, rng'', -, opened, -⟩ := establishResponder_answers honest agrees
    inverts offers initiated answers fresh agMsg plaintext rng'
  have made := accepting_answers honest agrees inverts offers initiated answers fresh agMsg
    plaintext rng'
  exact ⟨_, _, log_accepted encrypted sealed opened made⟩

/-- The private halves behind a new store's multi-use bundle. -/
def multiUseKeys (s : Store.PrekeyStore K) : BundleKeys := ⟨s.signedPrekeySecret, none, s.kem⟩

/-- A new store's multi-use bundle is an offer of its owner's. -/
theorem createPrekeys_offers (correct : p.xed.Correct p.dh) (owner : Store.Identity) (count : Nat)
    (rng : Rng) :
    Offers p owner ((Store.createPrekeys p owner count rng).1.publishMultiUse p)
      (multiUseKeys (Store.createPrekeys p owner count rng).1) := by
  have signed := Store.createPrekeys_signed correct owner count rng
  have generated : ∃ rng', (Store.createPrekeys p owner count rng).1.kem = (p.kem.generate rng').1 :=
    ⟨_, rfl⟩
  exact ⟨rfl, rfl, signed.signedPrekey, rfl, signed.kem, generated, rfl, by
    simp [Store.PrekeyStore.publishMultiUse, multiUseKeys]⟩

/-- A new store finds the keys of its multi-use bundle. -/
theorem createPrekeys_answers (owner : Store.Identity) (count : Nat) (rng : Rng) :
    Answers (Store.createPrekeys p owner count rng).1
      ((Store.createPrekeys p owner count rng).1.publishMultiUse p)
      (multiUseKeys (Store.createPrekeys p owner count rng).1) .current true := by
  refine ⟨if_pos rfl, ?_, rfl, if_pos rfl⟩
  have named : ((Store.createPrekeys p owner count rng).1.publishMultiUse p).kemPrekeyId =
      (Store.createPrekeys p owner count rng).1.kemId := rfl
  unfold responderKemSlot
  rw [if_pos named]
  rfl

/-- Its record is empty. -/
theorem createPrekeys_fresh [DecidableEq K] (owner : Store.Identity) (count : Nat) (rng : Rng)
    (id : UInt32)
    (sk : K) :
    responderReplayFingerprint p (Store.createPrekeys p owner count rng).1 id sk true =
      .ok (some (Store.lastResortFingerprint p.kdf sk)) := rfl

end First

namespace Delivered

/-- The sample primitives over ideal secrets. -/
def primitives : Primitives Bytes where
  kdf := Sample.idealKdf
  dh := Sample.dh Vector.toList
  kem := Sample.kem Vector.toList
  incKem := Sample.incKem Vector.toList
  xed := Sample.xed
  aead := Sample.aead

def host : Store.Identity := ⟨Vector.replicate 32 7⟩
def guest : Store.Identity := ⟨Vector.replicate 32 5⟩

def store : Store.PrekeyStore Bytes := (Store.createPrekeys primitives host 0 fun _ => 1).1

def bundle : Store.PublishedBundle := store.publishMultiUse primitives

/-- An initiator's first message, opened. -/
theorem first_opened : ∃ s rng rng' calls call,
    establishInitiatorFor primitives guest bundle bundle.bundle.identityKey rng = (.ok s, rng') ∧
    Link.log primitives s calls = [(.initiator, .sealed call [0x68, 0x69]),
      (.responder, .opened call [0x68, 0x69])] := by
  have offers : Offers primitives host bundle (multiUseKeys store) :=
    createPrekeys_offers (Sample.xed_correct _) host 0 fun _ => 1
  have answers : Answers store bundle (multiUseKeys store) .current true :=
    createPrekeys_answers host 0 fun _ => 1
  obtain ⟨ephemeral, ratchetPrivate, kemCiphertext, ss, sk, dhOut, rest, initiated, established⟩ :=
    establishInitiatorFor_offers offers (Sample.dh_honest _) (Sample.dh_agrees _)
      (Sample.kem_honest _) guest fun _ => 6
  have fresh := @createPrekeys_fresh Bytes primitives _ host 0 (fun _ => 1) bundle.kemPrekeyId sk
  obtain ⟨message, call, log⟩ := first_log (Sample.dh_honest _) (Sample.dh_agrees _)
    Sample.aead_inverts (Sample.incKem_honest _) offers initiated answers fresh
    [0x68, 0x69] (fun _ => 7) fun _ => 8
  exact ⟨_, _, _, _, call, established, log⟩

/-- The responder's reading is the initiator's, and no other is. -/
theorem session_agreement_sample : ∃ s calls, Link.Delivers (Link.log primitives s calls) 1 0 ∧
    ∀ i, Link.Delivers (Link.log primitives s calls) i 0 → i = 1 := by
  obtain ⟨s, rng, rng', calls, call, established, log⟩ := first_opened
  have authentic : Link.Authentic (Link.log primitives s calls) := by
    rw [log]
    intro x call' plaintext member
    simp only [List.mem_cons, Prod.mk.injEq, reduceCtorEq, and_false, false_or,
      Exchanged.opened.injEq, List.not_mem_nil, or_false] at member
    obtain ⟨-, rfl, rfl⟩ := member
    exact ⟨.initiator, [0x68, 0x69], List.mem_cons_self⟩
  obtain ⟨-, -, once⟩ := Link.session_agreement Sample.idealKdf_ideal Sample.aead_inverts established
    calls authentic
  have delivered : Link.Delivers (Link.log primitives s calls) 1 0 := by
    rw [log]
    exact ⟨.responder, call, _, rfl, rfl⟩
  exact ⟨s, calls, delivered, fun i again => once i 1 0 again delivered⟩

/-- The initiator seals under its first keys once. -/
theorem keys_used_once_sample : ∃ s calls call plaintext,
    (Link.log primitives s calls)[0]? = some (.initiator, .sealed call plaintext) ∧
    ∀ j b, (Link.log primitives s calls)[j]? = some (.initiator, b) → b.call.keys = call.keys →
      j = 0 := by
  obtain ⟨s, rng, rng', calls, call, established, log⟩ := first_opened
  have sealed : (Link.log primitives s calls)[0]? =
      some (.initiator, .sealed call [0x68, 0x69]) := by
    rw [log]
    rfl
  exact ⟨s, calls, call, _, sealed, fun j b here same =>
    Link.keys_used_once Sample.idealKdf_ideal established calls here sealed same⟩

end Delivered

end Tacenta.Session
