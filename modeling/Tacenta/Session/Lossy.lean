/-
# Tacenta.Session.Lossy -- two sessions over a lossy link

An initiator answers an honest bundle (`Introduction`).  From there on both ends
send what they like, and the link hands each end the messages of the other in the
order they were sent, losing any of them (`Channel`).  The owner of the bundle has
no session yet: the first message it is handed opens one.

`Kept` ties both ends to the record of `Tacenta.Session.InOrder`, the one that has
no session standing where its first message will find it.  Every call keeps it
(`Kept.call`), and so nothing is ever refused (`session_completeness`).
-/
import Tacenta.Sample
import Tacenta.Session.Exchange
import Tacenta.Session.InOrder

set_option autoImplicit false

namespace Tacenta.Session

open Tacenta.Handshake (encodeEc decodeEc_eq_some)
open Tacenta.Store (Identity PrekeyStore PublishedBundle)
open Tacenta.Wire (encodeInitial encodeMessage)

variable {K : Type} {p : Primitives K}

/-! ## An honest start -/

/-- **An honest start**: a bundle its owner offers, and what an initiator drew and
derived to answer it. -/
structure Introduction (p : Primitives K) where
  owner : Identity
  initiator : Identity
  bundle : PublishedBundle
  keys : BundleKeys
  ephemeral : Arr 32
  ratchetPrivate : Arr 32
  kemCiphertext : Bytes
  ss : K
  sk : K
  dhOut : K
  rng : Rng
  rest : Rng
  offers : Offers p owner bundle keys
  initiated : Initiated p initiator bundle keys ephemeral ratchetPrivate kemCiphertext ss sk dhOut
  established : establishInitiatorFor p initiator bundle (owner.public p) rng =
    (.ok (initiatorSession p initiator bundle sk ephemeral ratchetPrivate dhOut kemCiphertext), rest)

namespace Introduction

/-- Every initiator has an honest start from an offered bundle. -/
theorem exists_of_offers {owner : Identity} {b : PublishedBundle} {keys : BundleKeys}
    (offers : Offers p owner b keys) (honest : p.dh.Honest) (agrees : p.dh.Agrees)
    (kemHonest : p.kem.Honest) (initiator : Identity) (rng : Rng) :
    ∃ h : Introduction p, h.owner = owner ∧ h.initiator = initiator ∧ h.bundle = b ∧
      h.keys = keys ∧ h.rng = rng := by
  obtain ⟨ephemeral, ratchetPrivate, kemCiphertext, ss, sk, dhOut, rest, initiated, established⟩ :=
    establishInitiatorFor_offers offers honest agrees kemHonest initiator rng
  exact ⟨⟨owner, initiator, b, keys, ephemeral, ratchetPrivate, kemCiphertext, ss, sk, dhOut, rng,
    rest, offers, initiated, established⟩, rfl, rfl, rfl, rfl, rfl⟩

variable (h : Introduction p)

/-- The session the initiator starts with. -/
def session : Session K :=
  initiatorSession p h.initiator h.bundle h.sk h.ephemeral h.ratchetPrivate h.dhOut h.kemCiphertext

/-- What the initiator repeats until it hears from its peer. -/
def pending : PendingInitial where
  ephemeralPublic := p.dh.publicKey h.ephemeral
  kemCiphertext := h.kemCiphertext
  signedPrekeyId := h.bundle.signedPrekeyId
  oneTimePrekeyId := h.bundle.oneTimePrekeyId
  kemPrekeyId := h.bundle.kemPrekeyId

/-- A ratchet message inside the initial message. -/
def wrap (message : Bytes) : Bytes :=
  encodeInitial (encodeEc (h.initiator.public p)) (encodeEc (p.dh.publicKey h.ephemeral))
    h.kemCiphertext h.bundle.signedPrekeyId h.bundle.oneTimePrekeyId h.bundle.kemPrekeyId message

def ad : Bytes := Handshake.identityAd (h.initiator.public p) (h.owner.public p)

/-- What the owner holds of the initial message that wraps `message`. -/
def held (lastResort : Bool) (message : Bytes) (fingerprint : Option K) : Responded K :=
  heldInitial p h.initiator h.bundle h.keys lastResort h.ephemeral h.kemCiphertext h.sk message
    fingerprint

/-- Where the owner will stand when the first message reaches it. -/
def waiting : Session K := responderSession p h.owner (h.held false [] none)

/-- The store still has what the bundle names, and no record refuses the
handshake. -/
def AnsweredBy [DecidableEq K] (store : PrekeyStore K) : Prop :=
  ∃ slot lastResort fingerprint, Answers store h.bundle h.keys slot lastResort ∧
    responderReplayFingerprint p store h.bundle.kemPrekeyId h.sk lastResort = .ok fingerprint

theorem decodeInitial_wrap (honest : p.dh.Honest) (message : Bytes) :
    Wire.decodeInitial (h.wrap message) = .ok (h.held false message none).decoded :=
  decodeInitial_wraps honest h.initiated false message none

theorem respond_wrap [DecidableEq K] (honest : p.dh.Honest) (agrees : p.dh.Agrees)
    {store : PrekeyStore K} {slot : KemKeySlot} {lastResort : Bool}
    (answers : Answers store h.bundle h.keys slot lastResort) (message : Bytes) :
    respond p h.owner store (h.wrap message) =
      (responderReplayFingerprint p store h.bundle.kemPrekeyId h.sk lastResort).map
        (h.held lastResort message) :=
  respond_wraps honest agrees h.offers h.initiated answers message

/-- The line of ratchet keys: the signed prekey, then the initiator's. -/
def line : Ratchet.Line K where
  kdf := p.kdf
  dh := p.dh
  rootSecret := (Triple.splitSecret p.kdf (p.kdf.bytes h.sk)).1
  secret k := if k = 0 then h.keys.signed else h.ratchetPrivate

/-- Both ends before anything was sent. -/
def start : Bool → Session K
  | true => h.session
  | false => h.waiting

/-- The record before anything was sent. -/
def blank : Record p where
  line := h.line
  count _ := 0
  place := Bool.toNat
  used := [p.dh.publicKey h.ratchetPrivate, p.dh.publicKey h.keys.signed]
  ledger := Braid.blank p.kdf p.incKem (p.kdf.bytes h.sk)
  past _ := []
  stamp _ _ := 0
  drawn _ _ := 0
  current _ := 0
  last _ := 0
  within _ := 0
  issued _ := 0
  passed _ := 0

theorem start_joint (agrees : p.dh.Agrees)
    (apart : p.dh.publicKey h.ratchetPrivate ≠ h.bundle.bundle.signedPrekey) :
    Joint p (p.kdf.bytes h.sk) h.blank h.start := by
  have signed := h.offers.signedPrekey
  have agreed := h.initiated.agreed
  rw [signed] at apart agreed
  have parties : party ∘ h.start = Ratchet.start h.line h.dhOut .tacenta := by
    funext x
    cases x
    · rfl
    · simp only [Function.comp_apply, start, party, session, initiatorSession, Ratchet.start, signed]
      rfl
  have chains : Triple.State.postQuantum ∘ triple ∘ h.start = fun x => Spqr.State.init p.kdf
      (p.kdf.bytes (Triple.splitSecret p.kdf (p.kdf.bytes h.sk)).2) (Spqr.State.side x) := by
    funext x
    cases x <;> rfl
  have ends : braid ∘ h.start = Braid.start p.kdf (p.kdf.bytes h.sk) := by
    funext x
    cases x <;> rfl
  refine ⟨rfl, rfl, ?_, ?_, ?_, fun x => ?_, fun _ => Nat.zero_le _⟩
  · rw [parties]
    exact Ratchet.start_conversation h.line agrees agreed apart
  · rw [chains]
    exact Spqr.State.start_conversation ..
  · rw [ends]
    exact Braid.start_conversation ..
  · cases x <;> rfl

end Introduction

/-! ## The link -/

/-- Both ends and what is under way between them; the initiator is `true`. -/
structure Channel (K : Type) where
  /-- The owner of the bundle has none before a first message opens it. -/
  session : Bool → Option (Session K)
  /-- What each sent that was neither handed over nor lost, oldest first, behind its
  plaintext. -/
  flight : Bool → List (Bytes × Bytes)
  /-- How many of each one's messages were lost since one was handed over. -/
  lost : Bool → Nat
  /-- The ratchet keys drawn so far. -/
  keys : List (Arr 32)

/-- One thing that happens: `x` sends, its oldest message is lost, or its peer is
handed it. -/
inductive ChannelCall (K : Type) where
  | send (x : Bool) (plaintext : Bytes) (rng : Rng)
  | lose (x : Bool)
  | deliver (x : Bool) (store : PrekeyStore K) (rng : Rng)

/-- What an end answered: `x` to a call of its own, or to a message of this
plaintext. -/
inductive Report where
  | sent (x : Bool) (result : Except Error Bytes)
  | opened (x : Bool) (plaintext : Bytes) (result : Except Error Bytes)

/-- Nothing was refused, and what was opened is what was sent. -/
def Report.Answered : Report → Prop
  | .sent _ result => ∃ wire, result = .ok wire
  | .opened _ plaintext result => result = .ok plaintext

instance : ∀ report : Report, Decidable report.Answered
  | .sent _ (.ok wire) => isTrue ⟨wire, rfl⟩
  | .sent _ (.error _) => isFalse fun ⟨_, same⟩ => by cases same
  | .opened _ plaintext (.ok got) =>
      decidable_of_iff (got = plaintext) (by simp only [Report.Answered, Except.ok.injEq])
  | .opened _ _ (.error _) => isFalse fun same => by cases same

namespace Channel

/-- A message handed to an end: without a session it is taken for a first one. -/
def handed [DecidableEq K] (p : Primitives K) (owner : Identity) (store : PrekeyStore K)
    (wire : Bytes) (rng : Rng) : Option (Session K) → Option (Session K) × Except Error Bytes
  | some s =>
      let (s', result, _) := s.decrypt p wire rng
      (some s', result)
  | none =>
      match establishResponder p owner store wire rng with
      | (_, .ok (s, plaintext), _) => (some s, .ok plaintext)
      | (_, .error e, _) => (none, .error e)

/-- The link after a call, and what an end answered to it. -/
def call [DecidableEq K] (p : Primitives K) (owner : Identity) :
    Machine (Channel K) (ChannelCall K) Report
  | l, .send x plaintext rng =>
      match l.session x with
      | none => (l, [])
      | some s =>
          match s.encrypt p plaintext rng with
          | (s', .ok wire, _) =>
              ({ l with
                  session := Function.update l.session x (some s')
                  flight := Function.update l.flight x (l.flight x ++ [(plaintext, wire)]) },
                [.sent x (.ok wire)])
          | (s', .error e, _) =>
              ({ l with session := Function.update l.session x (some s') }, [.sent x (.error e)])
  | l, .lose x =>
      match l.flight x with
      | [] => (l, [])
      | _ :: rest =>
          ({ l with
              flight := Function.update l.flight x rest
              lost := Function.update l.lost x (l.lost x + 1) }, [])
  | l, .deliver x store rng =>
      match l.flight x with
      | [] => (l, [])
      | (plaintext, wire) :: rest =>
          let (after, result) := handed p owner store wire rng (l.session !x)
          ({ session := Function.update l.session (!x) after
             flight := Function.update l.flight x rest
             lost := Function.update l.lost x 0
             keys := p.dh.publicKey (randomSecret rng).1 :: l.keys },
            [.opened (!x) plaintext result])

/-- The link after an honest start. -/
def start (h : Introduction p) : Channel K where
  session x := if x then some h.session else none
  flight _ := []
  lost _ := 0
  keys := [p.dh.publicKey h.ratchetPrivate, h.bundle.bundle.signedPrekey]

/-- What is asked of a call: both sessions are below their ceilings, fewer than a
thousand messages are lost in a row, and the store a first message meets still
answers it. -/
def Fair [DecidableEq K] (h : Introduction p) (l : Channel K) : ChannelCall K → Prop
  | .send x _ _ => ∀ s, l.session x = some s → Clear s
  | .lose x => l.lost x + 1 < 1000
  | .deliver x store _ =>
      (∀ s, l.session (!x) = some s → s.braid.epoch.toNat + 2 < 2 ^ 64) ∧
        (l.session (!x) = none → h.AnsweredBy store)

/-- No ratchet key is drawn again. -/
def Fresh (p : Primitives K) (l : Channel K) : ChannelCall K → Prop
  | .deliver _ _ rng => p.dh.publicKey (randomSecret rng).1 ∉ l.keys
  | _ => True

/-! ## What every call keeps -/

/-- What the handshake left in both sessions, and no message changes. -/
structure Introduced (h : Introduction p) (s : Bool → Session K) : Prop where
  ad : ∀ x, (s x).identityAd = h.ad
  ours : (s true).ourIdentityPublic = h.initiator.public p
  pending : (s true).pendingInitial = none ∨ (s true).pendingInitial = some h.pending
  answering : (s false).pendingInitial = none
  ephemeral : (s false).establishedEphemeral = some (encodeEc (p.dh.publicKey h.ephemeral))
  peer : (s false).peerIdentityPublic = h.initiator.public p

/-- The owner has no session yet: it stands where the first message will find it,
and the initiator has heard nothing. -/
structure Waits (h : Introduction p) (s : Bool → Session K) (l : Channel K) : Prop where
  absent : l.session false = none
  stands : s false = h.waiting
  pending : (s true).pendingInitial = some h.pending
  silent : l.flight false = []

/-- The `i`-th message of `x`, as it is under way: itself, or inside the initial
message, as every one is that an owner without a session is to be handed. -/
def Carried (h : Introduction p) (g : Record p) (l : Channel K) (x : Bool) (i : Nat)
    (entry : Bytes × Bytes) : Prop :=
  ∃ message header agMsg mkEc,
    Sent p (p.kdf.bytes h.sk) h.ad g x i entry.1 message header agMsg mkEc ∧
      (entry.2 = message ∧ (x = true → l.session false ≠ none) ∨ x = true ∧ entry.2 = h.wrap message)

/-- **Both ends are where the record has them.** -/
structure Kept (h : Introduction p) (g : Record p) (s : Bool → Session K) (l : Channel K) :
    Prop where
  joint : Joint p (p.kdf.bytes h.sk) g s
  introduced : Introduced h s
  initiator : l.session true = some (s true) ∧ 1 ≤ g.place true
  responder : l.session false = some (s false) ∧ 1 ≤ g.place false ∨ Waits h s l
  keys : g.used = l.keys
  issued : ∀ x, g.issued x = g.passed x + l.lost x + (l.flight x).length
  near : ∀ x, l.lost x < 1000
  flight : ∀ x i entry, (l.flight x)[i]? = some entry →
    Carried h g l x (g.passed x + l.lost x + i) entry

variable {h : Introduction p} {g : Record p} {s : Bool → Session K} {l : Channel K}

theorem start_kept (agrees : p.dh.Agrees)
    (apart : p.dh.publicKey h.ratchetPrivate ≠ h.bundle.bundle.signedPrekey) :
    Kept h h.blank h.start (start h) where
  joint := h.start_joint agrees apart
  introduced :=
    { ad := fun x => by
        cases x
        · rfl
        · show Handshake.identityAd _ _ = _
          rw [h.offers.identity]
          rfl
      ours := rfl
      pending := .inr rfl
      answering := rfl
      ephemeral := rfl
      peer := rfl }
  initiator := ⟨rfl, le_rfl⟩
  responder := .inr ⟨rfl, rfl, rfl, rfl⟩
  keys := by
    rw [start, h.offers.signedPrekey]
    rfl
  issued _ := rfl
  near _ := by
    show 0 < 1000
    decide
  flight x i entry none_ := by simp [start] at none_

theorem Introduced.update (introduced : Introduced h s) {x : Bool} {s' : Session K}
    (ad : s'.identityAd = (s x).identityAd)
    (ours : s'.ourIdentityPublic = (s x).ourIdentityPublic)
    (peer : s'.peerIdentityPublic = (s x).peerIdentityPublic)
    (ephemeral : s'.establishedEphemeral = (s x).establishedEphemeral)
    (pending : s'.pendingInitial = none ∨ s'.pendingInitial = (s x).pendingInitial) :
    Introduced h (Function.update s x s') := by
  obtain ⟨ads, theirs, wrapping, answering, ephemeral', peer'⟩ := introduced
  have ads' : ∀ y, (Function.update s x s' y).identityAd = h.ad := by
    intro y
    by_cases it : y = x
    · subst it
      rw [Function.update_self, ad]
      exact ads y
    · rw [Function.update_of_ne it]
      exact ads y
  cases x
  · refine ⟨ads', theirs, wrapping, ?_, ephemeral.trans ephemeral', peer.trans peer'⟩
    rw [Function.update_self]
    obtain pending | pending := pending
    · exact pending
    · exact pending.trans answering
  · refine ⟨ads', ours.trans theirs, ?_, answering, ephemeral', peer'⟩
    rw [Function.update_self]
    obtain pending | pending := pending
    · exact .inl pending
    · rw [pending]
      exact wrapping

theorem Kept.present (kept : Kept h g s l) {x : Bool} {now : Session K}
    (found : l.session x = some now) : now = s x ∧ 1 ≤ g.place x := by
  cases x
  · obtain ⟨here, placed⟩ | waits := kept.responder
    · rw [here] at found
      exact ⟨(Option.some.inj found).symm, placed⟩
    · rw [waits.absent] at found
      cases found
  · rw [kept.initiator.1] at found
    exact ⟨(Option.some.inj found).symm, kept.initiator.2⟩

/-- A message stays the one it was, while more are sent and handed over. -/
theorem Carried.mono {g' : Record p} {l' : Channel K} {x : Bool} {i : Nat} {entry : Bytes × Bytes}
    (carried : Carried h g l x i entry)
    (stands : ∀ {ad y i plaintext message header agMsg mkEc},
      Sent p (p.kdf.bytes h.sk) ad g y i plaintext message header agMsg mkEc →
        Sent p (p.kdf.bytes h.sk) ad g' y i plaintext message header agMsg mkEc)
    (stays : l.session false ≠ none → l'.session false ≠ none) : Carried h g' l' x i entry := by
  obtain ⟨message, header, agMsg, mkEc, sent, bare | wrapped⟩ := carried
  · exact ⟨message, header, agMsg, mkEc, stands sent, .inl ⟨bare.1, fun it => stays (bare.2 it)⟩⟩
  · exact ⟨message, header, agMsg, mkEc, stands sent, .inr wrapped⟩

/-- What a session sends goes out bare, or inside the initial message while the
initiator has heard nothing. -/
theorem Kept.outgoing (kept : Kept h g s l) (x : Bool) (message : Bytes) :
    (s x).outgoing message = message ∧ (x = true → l.session false ≠ none) ∨
      x = true ∧ (s x).outgoing message = h.wrap message := by
  cases x
  · refine .inl ⟨?_, fun other => by cases other⟩
    simp only [Session.outgoing, kept.introduced.answering]
  · obtain quiet | pending := kept.introduced.pending
    · refine .inl ⟨by simp only [Session.outgoing, quiet], fun _ absent => ?_⟩
      obtain ⟨here, -⟩ | waits := kept.responder
      · rw [here] at absent
        cases absent
      · rw [waits.pending] at quiet
        cases quiet
    · refine .inr ⟨rfl, ?_⟩
      simp only [Session.outgoing, pending, wrapInitial, kept.introduced.ours]
      rfl

/-- Both ends after `x` has moved. -/
theorem Kept.moves (kept : Kept h g s l) (g' : Record p) (l' : Channel K) {x : Bool}
    {now : Session K}
    (session : l'.session = Function.update l.session x (some now)) (placed : 1 ≤ g'.place x)
    (other : g'.place (!x) = g.place (!x))
    (waits : Waits h s l → x = true → Waits h (Function.update s x now) l') :
    (l'.session true = some (Function.update s x now true) ∧ 1 ≤ g'.place true) ∧
      (l'.session false = some (Function.update s x now false) ∧ 1 ≤ g'.place false ∨
        Waits h (Function.update s x now) l') := by
  cases x
  · refine ⟨⟨?_, other ▸ kept.initiator.2⟩, .inl ⟨?_, placed⟩⟩
    · rw [session]
      exact kept.initiator.1
    · rw [session, Function.update_self, Function.update_self]
  · refine ⟨⟨?_, placed⟩, ?_⟩
    · rw [session, Function.update_self, Function.update_self]
    · obtain ⟨here, before⟩ | waiting := kept.responder
      · refine .inl ⟨?_, other ▸ before⟩
        rw [session]
        exact here
      · exact .inr (waits waiting rfl)

theorem session_stays (l : Channel K) (x : Bool) (now : Session K)
    (there : l.session false ≠ none) : Function.update l.session x (some now) false ≠ none := by
  by_cases it : false = x
  · subst it
    simp
  · rw [Function.update_of_ne it]
    exact there

/-- **A send is answered.** -/
theorem Kept.send [DecidableEq K] (kept : Kept h g s l) (honest : p.incKem.Honest) {x : Bool}
    (present : l.session x = some (s x)) (placed : 1 ≤ g.place x) (clear : Clear (s x))
    (plaintext : Bytes) (rng : Rng) :
    ∃ g' s' wire, (call p h.owner l (.send x plaintext rng)).2 = [.sent x (.ok wire)] ∧
      Kept h g' s' (call p h.owner l (.send x plaintext rng)).1 := by
  obtain ⟨g', triple, braid, message, header, agMsg, mkEc, rng', encrypted, joint, sent, stands, place,
    used, issued, passed⟩ := kept.joint.encrypt honest placed clear plaintext rng
  rw [kept.introduced.ad x] at sent
  set now : Session K := { s x with triple := triple, braid := braid } with hnow
  have called : call p h.owner l (.send x plaintext rng) =
      ({ l with
          session := Function.update l.session x (some now)
          flight := Function.update l.flight x (l.flight x ++ [(plaintext, (s x).outgoing message)]) },
        [.sent x (.ok ((s x).outgoing message))]) := by
    simp only [call, present, encrypted]
  have stays := session_stays l x now
  rw [called]
  have ends := kept.moves g' { l with
      session := Function.update l.session x (some now)
      flight := Function.update l.flight x (l.flight x ++ [(plaintext, (s x).outgoing message)]) }
    rfl (place ▸ placed) (by rw [place]) fun waits it => by
      subst it
      exact ⟨waits.absent, waits.stands, waits.pending, waits.silent⟩
  refine ⟨g', Function.update s x now, _, rfl, joint,
    kept.introduced.update rfl rfl rfl rfl (.inr rfl), ends.1, ends.2, used.trans kept.keys, fun y => ?_, kept.near, fun y i entry found => ?_⟩
  · rw [issued, passed]
    have before := kept.issued y
    by_cases it : y = x
    · subst it
      simp only [Function.update_self, List.length_append, List.length_singleton]
      omega
    · simp only [Function.update_of_ne it]
      exact before
  · rw [passed]
    by_cases it : y = x
    · subst it
      simp only [Function.update_self] at found
      rw [List.getElem?_append] at found
      split at found
      · exact (kept.flight y i entry found).mono stands stays
      · rename_i beyond
        rw [List.getElem?_singleton] at found
        split at found
        · rename_i last
          obtain rfl := Option.some.inj found
          have before := kept.issued y
          rw [show g.passed y + l.lost y + i = g.issued y by omega]
          refine ⟨message, header, agMsg, mkEc, sent, ?_⟩
          obtain bare | wrapped := kept.outgoing y message
          · exact .inl ⟨bare.1, fun it => stays (bare.2 it)⟩
          · exact .inr wrapped
        · cases found
    · simp only [Function.update_of_ne it] at found
      exact (kept.flight y i entry found).mono stands stays

/-- A repeat of the first message, or a message without it, is the ratchet message
it carries. -/
theorem Introduced.innerMessage_wrap [DecidableEq K] (introduced : Introduced h s)
    (honest : p.dh.Honest) (agrees : p.dh.Agrees) (message : Bytes) :
    (s false).innerMessage p (h.wrap message) = .ok message := by
  obtain ⟨shared, agreed⟩ := agrees.contributory (s false).ratchetPrivate h.ephemeral
  have read := decodeEc_eq_some.2
    ⟨rfl, (honest.publicKey_canonical h.ephemeral : Curve.isCanonicalX25519 _ = true)⟩
  have same : sameEphemeralAgreement p.dh (s false).ratchetPrivate
      (encodeEc (p.dh.publicKey h.ephemeral)) (encodeEc (p.dh.publicKey h.ephemeral)) = true := by
    simp only [sameEphemeralAgreement, read, agreed, beq_self_eq_true]
  have kind : Wire.messageType (h.wrap message) = some .initial :=
    Wire.messageType_encodeInitial ..
  simp only [Session.innerMessage, kind, h.decodeInitial_wrap honest, introduced.ephemeral,
    introduced.peer]
  rw [if_pos]
  · rfl
  · simp only [Introduction.held, heldInitial, same, decide_true, Bool.and_self]

theorem innerMessage_sealedWith [DecidableEq K] (now : Session K) (ad : Bytes)
    (composite : Wire.Composite) (key : K) (plaintext : Bytes) :
    now.innerMessage p (sealedWith p ad composite key plaintext) =
      .ok (sealedWith p ad composite key plaintext) := by
  have kind : Wire.messageType (sealedWith p ad composite key plaintext) = some .ratchet :=
    Wire.messageType_encodeMessage ..
  simp only [Session.innerMessage, kind]

theorem establishResponder_wrap [DecidableEq K] (honest : p.dh.Honest) (agrees : p.dh.Agrees)
    {store : PrekeyStore K} (answered : h.AnsweredBy store) {message plaintext : Bytes}
    {rng rest : Rng} {now : Session K} (opened : h.waiting.decryptRatchet p message rng = (now, .ok plaintext, rest)) :
    handed p h.owner store (h.wrap message) rng none = (some now, .ok plaintext) := by
  obtain ⟨slot, lastResort, fingerprint, answers, fresh⟩ := answered
  have responded := h.respond_wrap honest agrees answers message
  rw [fresh] at responded
  have opened' : (responderSession p h.owner (h.held lastResort message fingerprint)).decryptRatchet p
      (h.held lastResort message fingerprint).decoded.message rng = (now, .ok plaintext, rest) := opened
  have responded' : respond p h.owner store (h.wrap message) =
      .ok (h.held lastResort message fingerprint) := responded
  simp only [handed, establishResponder, responded', opened']

/-- **The next message handed over opens**, whichever session meets it. -/
theorem Kept.opens [DecidableEq K] (kept : Kept h g s l) (honest : p.dh.Honest)
    (agrees : p.dh.Agrees) (incHonest : p.incKem.Honest) (sized : p.kdf.Sized) (inverts : p.aead.Inverts) {y : Bool}
    {plaintext wire : Bytes} {store : PrekeyStore K} {rng : Rng}
    (head : Carried h g l (!y) (g.passed (!y) + l.lost (!y)) (plaintext, wire))
    (fresh : p.dh.publicKey (randomSecret rng).1 ∉ l.keys)
    (below : ∀ now, l.session y = some now → now.braid.epoch.toNat + 2 < 2 ^ 64)
    (answered : l.session y = none → h.AnsweredBy store) :
    ∃ g' now, handed p h.owner store wire rng (l.session y) = (some now, .ok plaintext) ∧
      Joint p (p.kdf.bytes h.sk) g' (Function.update s y now) ∧
      Introduced h (Function.update s y now) ∧
      (∀ {ad x i plaintext message header agMsg mkEc},
        Sent p (p.kdf.bytes h.sk) ad g x i plaintext message header agMsg mkEc →
          Sent p (p.kdf.bytes h.sk) ad g' x i plaintext message header agMsg mkEc) ∧
      1 ≤ g'.place y ∧ g'.place (!y) = g.place (!y) ∧
      g'.used = p.dh.publicKey (randomSecret rng).1 :: g.used ∧ g'.issued = g.issued ∧
      g'.passed = Function.update g.passed (!y) (g.passed (!y) + l.lost (!y) + 1) := by
  obtain ⟨message, header, agMsg, mkEc, sent, form⟩ := head
  have met : l.session y = some (s y) ∨ y = false ∧ Waits h s l := by
    cases y
    · obtain here | waits := kept.responder
      · exact .inl here.1
      · exact .inr ⟨rfl, waits⟩
    · exact .inl kept.initiator.1
  have room : (s y).braid.epoch.toNat + 2 < 2 ^ 64 := by
    obtain here | ⟨rfl, waits⟩ := met
    · exact below _ here
    · rw [waits.stands]
      show (1 : UInt64).toNat + 2 < 2 ^ 64
      decide
  obtain ⟨g', triple, braid, opened, joint, stands, placed, other, used, issued, passed⟩ :=
    kept.joint.decryptRatchet honest agrees incHonest sized inverts room
      (by rw [kept.introduced.ad y]; exact sent) rfl (kept.near !y) rng (by rw [kept.keys]; exact fresh)
  obtain here | ⟨rfl, waits⟩ := met
  · have inner : (s y).innerMessage p wire = .ok message := by
      obtain ⟨rfl, -⟩ | ⟨initial, rfl⟩ := form
      · have ratchet : wire = _ := sent.sealed_
        rw [ratchet]
        exact innerMessage_sealedWith (s y) ..
      · obtain rfl : y = false := by simpa using initial
        exact kept.introduced.innerMessage_wrap honest agrees message
    refine ⟨g', { (s y).adopted (randomSecret rng).1 triple braid with pendingInitial := none }, ?_,
      joint.congr fun x => ?_, kept.introduced.update rfl rfl rfl rfl (.inl rfl), stands, placed, other,
      used, issued, passed⟩
    · rw [here]
      simp only [handed, Session.decrypt, inner, opened]
    · by_cases it : x = y
      · rw [it, Function.update_self, Function.update_self]
        exact ⟨rfl, rfl, rfl⟩
      · rw [Function.update_of_ne it, Function.update_of_ne it]
        exact ⟨rfl, rfl, rfl⟩
  · obtain ⟨-, there⟩ | ⟨-, wrapped⟩ := form
    · exact absurd waits.absent (there rfl)
    · refine ⟨g', (s false).adopted (randomSecret rng).1 triple braid, ?_, joint,
        kept.introduced.update rfl rfl rfl rfl (.inr rfl), stands, placed, other, used, issued, passed⟩
      rw [waits.stands] at opened ⊢
      rw [show wire = h.wrap message from wrapped, waits.absent]
      exact establishResponder_wrap honest agrees (answered waits.absent) opened

/-- **A delivery is answered**, with the plaintext of the message. -/
theorem Kept.deliver [DecidableEq K] (kept : Kept h g s l) (honest : p.dh.Honest)
    (agrees : p.dh.Agrees) (incHonest : p.incKem.Honest) (sized : p.kdf.Sized) (inverts : p.aead.Inverts) {y : Bool}
    {plaintext wire : Bytes} {rest : List (Bytes × Bytes)} {store : PrekeyStore K} {rng : Rng}
    (next : l.flight (!y) = (plaintext, wire) :: rest) (fair : Fair h l (.deliver (!y) store rng))
    (fresh : p.dh.publicKey (randomSecret rng).1 ∉ l.keys) :
    ∃ g' s', (call p h.owner l (.deliver (!y) store rng)).2 = [.opened y plaintext (.ok plaintext)] ∧
      ((call p h.owner l (.deliver (!y) store rng)).1.session y).isSome ∧
      Kept h g' s' (call p h.owner l (.deliver (!y) store rng)).1 := by
  obtain ⟨below, answered⟩ := fair
  rw [Bool.not_not] at below answered
  have head := kept.flight (!y) 0 (plaintext, wire) (by rw [next]; rfl)
  obtain ⟨g', now, opened, joint, introduced, stands, placed, other, used, issued, passed⟩ :=
    kept.opens honest agrees incHonest sized inverts head fresh below answered
  have called : call p h.owner l (.deliver (!y) store rng) =
      ({ session := Function.update l.session y (some now)
         flight := Function.update l.flight (!y) rest
         lost := Function.update l.lost (!y) 0
         keys := p.dh.publicKey (randomSecret rng).1 :: l.keys },
        [.opened y plaintext (.ok plaintext)]) := by
    simp only [call, next, Bool.not_not, opened]
  have stays := session_stays l y now
  have ends := kept.moves g' (call p h.owner l (.deliver (!y) store rng)).1
    (by rw [called]) placed other fun waits it => by
      subst it
      have silent : l.flight (!true) = [] := waits.silent
      rw [silent] at next
      cases next
  rw [called] at ends ⊢
  refine ⟨g', Function.update s y now, rfl, ?_, joint, introduced, ends.1, ends.2, ?_, fun x => ?_,
    fun x => ?_, fun x i entry found => ?_⟩
  · simp
  · rw [used, kept.keys]
  · rw [issued, passed]
    have before := kept.issued x
    by_cases it : x = !y
    · subst it
      rw [next] at before
      simp only [Function.update_self, List.length_cons] at before ⊢
      omega
    · simp only [Function.update_of_ne it]
      exact before
  · by_cases it : x = !y
    · subst it
      simp only [Function.update_self]
      decide
    · simp only [Function.update_of_ne it]
      exact kept.near x
  · rw [passed]
    by_cases it : x = !y
    · subst it
      simp only [Function.update_self] at found ⊢
      have carried := kept.flight (!y) (i + 1) entry (by rw [next]; exact found)
      rw [show g.passed (!y) + l.lost (!y) + 1 + 0 + i = g.passed (!y) + l.lost (!y) + (i + 1) by omega]
      exact carried.mono stands stays
    · simp only [Function.update_of_ne it] at found ⊢
      exact (kept.flight x i entry found).mono stands stays

/-- Losing the oldest message leaves both ends where they are. -/
theorem Kept.lose [DecidableEq K] (kept : Kept h g s l) {x : Bool} (fair : Fair h l (.lose x)) :
    (call p h.owner l (.lose x)).2 = [] ∧ Kept h g s (call p h.owner l (.lose x)).1 := by
  have fair : l.lost x + 1 < 1000 := fair
  cases next : l.flight x with
  | nil =>
      simp only [call, next]
      exact ⟨trivial, kept⟩
  | cons first rest =>
      simp only [call, next]
      refine ⟨trivial, kept.joint, kept.introduced, kept.initiator, ?_, kept.keys, fun y => ?_,
        fun y => ?_, fun y i entry found => ?_⟩
      · obtain here | waits := kept.responder
        · exact .inl here
        · refine .inr ⟨waits.absent, waits.stands, waits.pending, ?_⟩
          have silent := waits.silent
          by_cases it : false = x
          · subst it
            rw [next] at silent
            cases silent
          · simp only [Function.update_of_ne it]
            exact silent
      · have before := kept.issued y
        by_cases it : y = x
        · subst it
          rw [next] at before
          simp only [Function.update_self, List.length_cons] at before ⊢
          omega
        · simp only [Function.update_of_ne it]
          exact before
      · by_cases it : y = x
        · subst it
          simp only [Function.update_self]
          exact fair
        · simp only [Function.update_of_ne it]
          exact kept.near y
      · by_cases it : y = x
        · subst it
          simp only [Function.update_self] at found ⊢
          rw [show g.passed y + (l.lost y + 1) + i = g.passed y + l.lost y + (i + 1) by omega]
          exact kept.flight y (i + 1) entry (by rw [next]; exact found)
        · simp only [Function.update_of_ne it] at found ⊢
          exact kept.flight y i entry found

/-- An end that opened a message has a session. -/
def Heard (l : Channel K) : Report → Prop
  | .sent _ _ => True
  | .opened x _ _ => (l.session x).isSome

/-- A session once there stays. -/
theorem call_present [DecidableEq K] (owner : Identity) (c : ChannelCall K) {x : Bool}
    (present : (l.session x).isSome) : ((call p owner l c).1.session x).isSome := by
  have moved : ∀ y now, (Function.update l.session y (some now) x).isSome := by
    intro y now
    by_cases it : x = y
    · rw [it, Function.update_self]
      rfl
    · rw [Function.update_of_ne it]
      exact present
  cases c with
  | send y plaintext rng =>
      simp only [call]
      split
      · exact present
      · split <;> exact moved y _
  | lose y =>
      simp only [call]
      split <;> exact present
  | deliver y store rng =>
      simp only [call]
      split
      · exact present
      · cases there : l.session !y with
        | some now => exact moved (!y) _
        | none =>
            have other : x ≠ !y := by
              rintro rfl
              rw [there] at present
              cases present
            simp only [Function.update_of_ne other]
            exact present

/-- Both ends are where a record has them, and every call so far was answered. -/
def Served (h : Introduction p) (past : List Report) (l : Channel K) : Prop :=
  (∃ g s, Kept h g s l) ∧ ∀ report ∈ past, report.Answered ∧ Heard l report

/-- **Every call is answered**, and leaves both ends where a record has them. -/
theorem Kept.call [DecidableEq K] (kept : Kept h g s l) (honest : p.dh.Honest)
    (agrees : p.dh.Agrees) (incHonest : p.incKem.Honest) (sized : p.kdf.Sized)
    (inverts : p.aead.Inverts) (c : ChannelCall K) (fair : Fair h l c) (fresh : Fresh p l c) :
    Served h (call p h.owner l c).2 (call p h.owner l c).1 := by
  cases c with
  | send x plaintext rng =>
      cases found : l.session x with
      | none =>
          simp only [Channel.call, found]
          exact ⟨⟨g, s, kept⟩, fun report none_ => by cases none_⟩
      | some now =>
          obtain ⟨rfl, placed⟩ := kept.present found
          obtain ⟨g', s', wire, answer, kept'⟩ :=
            kept.send incHonest found placed (fair _ found) plaintext rng
          refine ⟨⟨g', s', kept'⟩, fun report member => ?_⟩
          rw [answer, List.mem_singleton] at member
          subst member
          exact ⟨⟨wire, rfl⟩, trivial⟩
  | lose x =>
      obtain ⟨quiet, kept'⟩ := kept.lose fair
      refine ⟨⟨g, s, kept'⟩, fun report member => ?_⟩
      rw [quiet] at member
      cases member
  | deliver x store rng =>
      obtain ⟨y, rfl⟩ : ∃ y, x = !y := ⟨!x, (Bool.not_not x).symm⟩
      cases next : l.flight (!y) with
      | nil =>
          simp only [Channel.call, next]
          exact ⟨⟨g, s, kept⟩, fun report none_ => by cases none_⟩
      | cons first rest =>
          obtain ⟨plaintext, wire⟩ := first
          obtain ⟨g', s', answer, there, kept'⟩ :=
            kept.deliver honest agrees incHonest sized inverts next fair fresh
          refine ⟨⟨g', s', kept'⟩, fun report member => ?_⟩
          rw [answer, List.mem_singleton] at member
          subst member
          exact ⟨rfl, there⟩

/-- **A session is complete under loss.**  After an honest start, whatever both
ends send, however their calls are interleaved and whichever messages are lost,
fewer than a thousand in a row, and as long as no ratchet key is drawn twice: no
`encrypt` is refused, every message handed over opens with its plaintext, the
first one by opening a session, and the agreement fails at neither end. -/
theorem session_completeness [DecidableEq K] (honest : p.dh.Honest) (agrees : p.dh.Agrees)
    (incHonest : p.incKem.Honest) (sized : p.kdf.Sized) (inverts : p.aead.Inverts)
    (h : Introduction p) (apart : p.dh.publicKey h.ratchetPrivate ≠ h.bundle.bundle.signedPrekey)
    (calls : List (ChannelCall K))
    (fair : (call p h.owner).AllCalls (fun _ l c => Fair h l c ∧ Fresh p l c) [] (start h) calls) :
    (∀ report ∈ ((call p h.owner).run (start h) calls).2,
      report.Answered ∧ Heard ((call p h.owner).run (start h) calls).1 report) ∧
    ∀ x s, ((call p h.owner).run (start h) calls).1.session x = some s →
      s.agreementFailed = false := by
  have served : Served h ([] ++ ((call p h.owner).run (start h) calls).2)
      ((call p h.owner).run (start h) calls).1 :=
    fair.keeps (fun past l c ⟨fair, fresh⟩ ⟨⟨g, s, kept⟩, before⟩ => by
        obtain ⟨kept', now⟩ := kept.call honest agrees incHonest sized inverts c fair fresh
        refine ⟨kept', fun report member => ?_⟩
        obtain old | new := List.mem_append.1 member
        · refine ⟨(before report old).1, ?_⟩
          have heard := (before report old).2
          cases report with
          | sent => trivial
          | opened => exact call_present _ _ heard
        · exact now report new)
      ⟨⟨_, _, start_kept agrees apart⟩, fun report none_ => by cases none_⟩
  rw [List.nil_append] at served
  obtain ⟨⟨g, s, kept⟩, answered⟩ := served
  refine ⟨answered, fun x now found => ?_⟩
  rw [(kept.present found).1]
  exact kept.joint.alive x

/-! An initiator answers a new store's multi-use bundle. -/

namespace Dropping

def host : Identity := ⟨Vector.replicate 32 7⟩
def guest : Identity := ⟨Vector.replicate 32 5⟩

def store : PrekeyStore (Arr 32) := (Store.createPrekeys Sample.primitives host 0 fun _ => 1).1

def bundle : PublishedBundle := store.publishMultiUse Sample.primitives

/-- The link after the initiator has its session. -/
def opening : Option (Channel (Arr 32)) :=
  match establishInitiatorFor Sample.primitives guest bundle (host.public Sample.primitives)
      fun _ => 6 with
  | (.ok s, _) => some
      { session := fun x => if x then some s else none
        flight := fun _ => []
        lost := fun _ => 0
        keys := [Sample.primitives.dh.publicKey s.ratchetPrivate, bundle.bundle.signedPrekey] }
  | (.error _, _) => none

theorem opening_start : ∃ h : Introduction Sample.primitives,
    h.owner = host ∧ opening = some (start h) ∧ h.AnsweredBy store := by
  obtain ⟨h, owner, initiator, named, keys, drawn⟩ := Introduction.exists_of_offers
    (createPrekeys_offers (p := Sample.primitives) (Sample.xed_correct id) host 0 fun _ => 1)
    (Sample.dh_honest id) (Sample.dh_agrees id) (Sample.kem_honest id) guest fun _ => 6
  refine ⟨h, owner, ?_, .current, true, some (Store.lastResortFingerprint Sample.primitives.kdf h.sk),
    ?_, createPrekeys_fresh host 0 (fun _ => 1) _ _⟩
  · have established := h.established
    rw [owner, initiator, named, drawn] at established
    unfold opening
    rw [show bundle = (Store.createPrekeys Sample.primitives host 0 fun _ => 1).1.publishMultiUse
      Sample.primitives from rfl, established, start, Introduction.session, initiator, named]
    rfl
  · rw [named, keys]
    exact createPrekeys_answers host 0 fun _ => 1

/-- What is asked of a call, the store apart, as it can be run. -/
def Steady (l : Channel (Arr 32)) : ChannelCall (Arr 32) → Prop
  | .send x _ _ => ∀ s ∈ l.session x, Clear s
  | .lose x => l.lost x + 1 < 1000
  | .deliver x _ _ => ∀ s ∈ l.session !x, s.braid.epoch.toNat + 2 < 2 ^ 64

instance (l : Channel (Arr 32)) : ∀ c, Decidable (Steady l c)
  | .send x _ _ => inferInstanceAs (Decidable (∀ s ∈ l.session x, Clear s))
  | .lose x => inferInstanceAs (Decidable (l.lost x + 1 < 1000))
  | .deliver x _ _ =>
      inferInstanceAs (Decidable (∀ s ∈ l.session !x, s.braid.epoch.toNat + 2 < 2 ^ 64))

instance (l : Channel (Arr 32)) : ∀ c, Decidable (Fresh Sample.primitives l c)
  | .send .. => isTrue trivial
  | .lose _ => isTrue trivial
  | .deliver .. => inferInstanceAs (Decidable (_ ∉ l.keys))

/-- Whatever is handed over meets the new store. -/
def Meets : ChannelCall (Arr 32) → Prop
  | .deliver _ given _ => given = store
  | _ => True

theorem Steady.fair {h : Introduction Sample.primitives} (answered : h.AnsweredBy store)
    {l : Channel (Arr 32)} {c : ChannelCall (Arr 32)} (steady : Steady l c) (meets : Meets c) :
    Fair h l c := by
  cases c with
  | send => exact steady
  | lose => exact steady
  | deliver x given rng => exact ⟨steady, fun _ => meets ▸ answered⟩

/-- The first message is lost, the second opens the responder, the third repeats
the handshake, and an answer comes back. -/
def lossy : List (ChannelCall (Arr 32)) :=
  [.send true [1] fun _ => 2, .send true [2] fun _ => 3, .send true [3] fun _ => 4, .lose true,
    .deliver true store fun _ => 8, .deliver true store fun _ => 9, .send false [4] fun _ => 10,
    .deliver false store fun _ => 11]

theorem session_completeness_sample : ∃ h : Introduction Sample.primitives,
    ((call Sample.primitives h.owner).run (start h) lossy).2.length = 7 ∧
      ∀ report ∈ ((call Sample.primitives h.owner).run (start h) lossy).2, report.Answered := by
  obtain ⟨h, owner, opens, answered⟩ := opening_start
  have checked : (opening.all fun l => decide (l.keys.Nodup ∧
      ((call Sample.primitives host).run l lossy).2.length = 7 ∧
      (call Sample.primitives host).AllCalls
        (fun _ l c => Steady l c ∧ Fresh Sample.primitives l c) [] l lossy)) = true := by
    decide +kernel
  rw [opens, Option.all_some, decide_eq_true_eq, ← owner] at checked
  obtain ⟨apart, count, steady⟩ := checked
  have meets : ∀ c ∈ lossy, Meets c := by simp [lossy, Meets]
  refine ⟨h, count, fun report member => ?_⟩
  exact ((session_completeness (Sample.dh_honest id) (Sample.dh_agrees id) (Sample.incKem_honest id)
    Sample.kdf_sized Sample.aead_inverts h
    (fun same => (List.nodup_cons.1 apart).1 (List.mem_singleton.2 same)) lossy
    (steady.imp fun _ _ c here ⟨steady, fresh⟩ =>
      ⟨steady.fair answered (meets c here), fresh⟩)).1 report member).1

/-- The responder draws the secret of its signed prekey again. -/
def again : List (ChannelCall (Arr 32)) :=
  [.send true [1] fun _ => 2, .deliver true store fun _ => 1, .send false [2] fun _ => 3,
    .deliver false store fun _ => 4]

/-- A ratchet key drawn again does not open: the initiator takes the first answer
for a message of the chain it has not seen begin. -/
theorem drawn_again_refused : ∃ h : Introduction Sample.primitives,
    Sample.primitives.dh.publicKey h.ratchetPrivate ≠ h.bundle.bundle.signedPrekey ∧
      (call Sample.primitives h.owner).AllCalls (fun _ => Fair h) [] (start h) again ∧
      ∃ report ∈ ((call Sample.primitives h.owner).run (start h) again).2, ¬ report.Answered := by
  obtain ⟨h, owner, opens, answered⟩ := opening_start
  have checked : (opening.all fun l => decide (l.keys.Nodup ∧
      (call Sample.primitives host).AllCalls (fun _ => Steady) [] l again ∧
      ∃ report ∈ ((call Sample.primitives host).run l again).2, ¬ report.Answered)) = true := by
    decide +kernel
  rw [opens, Option.all_some, decide_eq_true_eq, ← owner] at checked
  obtain ⟨apart, steady, refused⟩ := checked
  have meets : ∀ c ∈ again, Meets c := by simp [again, Meets]
  exact ⟨h, fun same => (List.nodup_cons.1 apart).1 (List.mem_singleton.2 same),
    steady.imp fun _ _ c here steady => steady.fair answered (meets c here), refused⟩

end Dropping

end Channel

end Tacenta.Session
