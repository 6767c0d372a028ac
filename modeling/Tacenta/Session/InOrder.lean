/-
# Tacenta.Session.InOrder -- two sessions on messages in order

What a reader of both sessions would have written down (`Record`) ties them
together: the line of ratchet keys, the numbers drawn in each epoch, the ledger of
the agreement, and how many messages each has sent and come past.  `Joint` says
that all three layers of both sessions are where the record has them, and `Sent`
what the `i`-th message of either is.

An encrypt is then never refused below the ceilings (`Joint.encrypt`), and a
message that comes in order, with fewer than `MAX_SKIP` lost before it, opens with
its plaintext (`Joint.decryptRatchet`).
-/
import Tacenta.Braid.InOrder
import Tacenta.Ratchet.InOrder
import Tacenta.Session.Epochs
import Tacenta.Session.Eviction
import Tacenta.Session.Exchange
import Tacenta.Spqr.InOrder

set_option autoImplicit false

namespace Tacenta

variable {K : Type} {p : Primitives K}

theorem Triple.State.send_of {kdf : Kdf K} {s : Triple.State K} {epoch : UInt64}
    {output : Option (Spqr.Output K)} {classical : Ratchet.State K} {postQuantum : Spqr.State K}
    {dr : Ratchet.Header} {pqN : UInt64} {mkEc mkPq : K}
    (drew : Ratchet.send kdf s.classical = (classical, .ok (dr, mkEc)))
    (drew' : s.postQuantum.send kdf epoch output = (postQuantum, .ok (pqN, mkPq))) :
    s.send kdf epoch output = ({ classical := classical, postQuantum := postQuantum },
      .ok ({ dr := dr, epoch := epoch, pqN := pqN }, combine kdf mkEc mkPq)) := by
  simp only [Triple.State.send, drew, drew']

/-- A full store is the answer of the half that has it. -/
theorem Triple.State.receive_full {kdf : Kdf K} {s : Triple.State K} {header : Triple.Header}
    {dhOutRecv dhOutSend : K} {newDhsPub : Arr 32} {output : Option (Spqr.Output K)}
    (full : (Ratchet.receive kdf s.classical header.dr dhOutRecv dhOutSend newDhsPub).2 =
        .error .skippedStoreFull ∨
      ((∃ left mk, Ratchet.receive kdf s.classical header.dr dhOutRecv dhOutSend newDhsPub =
          (left, .ok mk)) ∧
        (s.postQuantum.receive kdf header.epoch output header.pqN).2 = .error .skippedStoreFull)) :
    ∃ half, Session.Full half
      (s.receive kdf header dhOutRecv dhOutSend newDhsPub output) := by
  unfold Triple.State.receive
  obtain full | ⟨⟨left, mk, took⟩, full⟩ := full
  · refine ⟨.classical, .classical .skippedStoreFull, ?_, rfl⟩
    generalize Ratchet.receive kdf s.classical header.dr dhOutRecv dhOutSend newDhsPub = result
      at full ⊢
    obtain ⟨left, outcome⟩ := result
    simp only at full
    rw [full]
  · refine ⟨.postQuantum, .postQuantum .skippedStoreFull, ?_, rfl⟩
    rw [took]
    generalize s.postQuantum.receive kdf header.epoch output header.pqN = result at full ⊢
    obtain ⟨left, outcome⟩ := result
    simp only at full
    rw [full]

theorem Triple.State.receive_of {kdf : Kdf K} {s : Triple.State K} {header : Triple.Header}
    {dhOutRecv dhOutSend : K} {newDhsPub : Arr 32} {output : Option (Spqr.Output K)}
    {classical : Ratchet.State K} {postQuantum : Spqr.State K} {mkEc mkPq : K}
    (took : Ratchet.receive kdf s.classical header.dr dhOutRecv dhOutSend newDhsPub =
      (classical, .ok mkEc))
    (took' : s.postQuantum.receive kdf header.epoch output header.pqN = (postQuantum, .ok mkPq)) :
    s.receive kdf header dhOutRecv dhOutSend newDhsPub output =
      .ok ({ classical := classical, postQuantum := postQuantum }, combine kdf mkEc mkPq) := by
  simp only [Triple.State.receive, took, took']

namespace Session

open Tacenta.Triple (Thinned splitSecret)
open Tacenta.Wire (Composite concatAd encodeMessage decodeMessage)

/-! ## Eviction -/

theorem evicted_thinned (state : Triple.State K) (i j : Nat) : Thinned state (evicted state i j) :=
  ⟨⟨_, Ratchet.eraseIdx_evictOldest_sublist i _, rfl⟩, ⟨_, List.drop_sublist _ _, rfl⟩⟩

/-- Where only a full store can refuse, a receive with eviction answers. -/
theorem receiveWithEviction_answers {kdf : Kdf K} {state : Triple.State K} {composite : Composite}
    {header : Triple.Header} {dhOutRecv dhOutSend : K} {newDhsPub : Arr 32}
    {output : Option (Spqr.Output K)} {good : Triple.State K × K → Prop}
    (only : ∀ w, Thinned state w →
      (∃ value, w.receive kdf header dhOutRecv dhOutSend newDhsPub output = .ok value ∧
        good value) ∨
        ∃ half, Full half (w.receive kdf header dhOutRecv dhOutSend newDhsPub output)) :
    ∃ value, receiveWithEviction kdf state composite header dhOutRecv dhOutSend newDhsPub output =
      .ok value ∧ good value := by
  obtain ⟨last, answer, ends⟩ := receiveWithEviction_rounds kdf state composite header dhOutRecv
    dhOutSend newDhsPub output
  obtain ⟨thinned, room⟩ : Thinned state last ∧
      ∀ half, ¬ Full half (last.receive kdf header dhOutRecv dhOutSend newDhsPub output) := by
    obtain ⟨room, -, rfl⟩ | ⟨half, -, retried⟩ := ends
    · exact ⟨.refl last, room⟩
    · refine ⟨?_, retried.room⟩
      rw [retried.last_eq]
      exact evicted_thinned ..
  obtain ⟨value, received, here⟩ | ⟨half, full⟩ := only last thinned
  · exact ⟨value, answer.trans received, here⟩
  · exact absurd full (room half)

/-! ## The record of both sessions -/

/-- A classical ratchet and the private half of its sending key. -/
def party (s : Session K) : Ratchet.Party K := ⟨s.triple.classical, s.ratchetPrivate⟩

/-- What a reader of both sessions would have written down. -/
structure Record (p : Primitives K) where
  line : Ratchet.Line K
  /-- How many messages went out on each chain of the line. -/
  count : Nat → Nat
  place : Bool → Nat
  /-- The ratchet keys drawn so far. -/
  used : List (Arr 32)
  ledger : Braid.Ledger p.incKem
  past : Bool → List (Braid.Event K)
  /-- The stage of the agreement at which a message went out. -/
  stamp : Bool → Nat → Nat
  /-- How many numbers each drew in each epoch, and in which one last. -/
  drawn : Bool → Nat → Nat
  current : Bool → Nat
  /-- The epoch and number of the last message each was handed. -/
  last : Bool → Nat
  within : Bool → Nat
  /-- How many messages each sent, and how many of them its peer has come past. -/
  issued : Bool → Nat
  passed : Bool → Nat

/-- The key both sessions share of an epoch and a number. -/
def Record.sparseKey {p : Primitives K} (g : Record p) (sk : Bytes) (x : Bool) (e n : UInt64) : K :=
  Spqr.messageKeyOf p.kdf (p.kdf.bytes (splitSecret p.kdf sk).2) (g.ledger.keyOf p.kdf)
    (Spqr.State.side x) e n

/-- **Both sessions are where the record has them.** -/
structure Joint (p : Primitives K) (sk : Bytes) (g : Record p) (s : Bool → Session K) : Prop where
  kdf : g.line.kdf = p.kdf
  dh : g.line.dh = p.dh
  classical : Ratchet.Conversation g.line g.count g.place (party ∘ s) g.issued g.passed g.used
  sparse : Spqr.State.Conversation p.kdf (p.kdf.bytes (splitSecret p.kdf sk).2)
    (g.ledger.keyOf p.kdf) g.drawn g.current g.last g.within (Triple.State.postQuantum ∘ triple ∘ s)
    g.issued g.passed
  agreement : Braid.Conversation p.kdf sk g.ledger g.past (braid ∘ s) g.stamp g.issued g.passed
  coupled : ∀ x, (s x).braid.state.emitted = (s x).triple.postQuantum.epoch.toNat
  current : ∀ x, g.current x ≤ (s x).braid.state.epoch.toNat - 1

/-- A ratchet message under a key. -/
def sealedWith (p : Primitives K) (ad : Bytes) (composite : Composite) (key : K)
    (plaintext : Bytes) : Bytes :=
  encodeMessage composite (sealUnder p key plaintext (concatAd ad composite)).ciphertext

/-- **The `i`-th message of `x`**, by its header, its part of the agreement and its keys. -/
structure Sent (p : Primitives K) (sk ad : Bytes) (g : Record p) (x : Bool) (i : Nat)
    (plaintext message : Bytes) (header : Triple.Header) (agMsg : Braid.Msg) (mkEc : K) : Prop where
  issued : i < g.issued x
  classical : Ratchet.Numbered g.line g.count (g.place x) i header.dr mkEc
  sparse : Spqr.State.Numbered (g.drawn x) (g.current x) i header.epoch header.pqN
  agreement : Braid.Numbered p.kdf sk g.ledger x (g.stamp x) i agMsg header.epoch
  sealed_ : message = sealedWith p ad (compositeOf header agMsg)
    (Triple.combine p.kdf mkEc (g.sparseKey sk x header.epoch header.pqN)) plaintext

/-- A session that one more message takes to none of its ceilings. -/
structure Clear (s : Session K) : Prop where
  sending : s.triple.classical.ns.toNat + 1 < 2 ^ 32
  numbers : ∀ c ∈ s.triple.postQuantum.chains, ∀ ch ∈ c.2.send, ch.n.toNat + 1 < 2 ^ 64
  epochs : s.braid.epoch.toNat + 2 < 2 ^ 64

instance (s : Session K) : Decidable (Clear s) :=
  decidable_of_iff (s.triple.classical.ns.toNat + 1 < 2 ^ 32 ∧
      (∀ c ∈ s.triple.postQuantum.chains, ∀ ch ∈ c.2.send, ch.n.toNat + 1 < 2 ^ 64) ∧
      s.braid.epoch.toNat + 2 < 2 ^ 64)
    ⟨fun ⟨sending, numbers, epochs⟩ => ⟨sending, numbers, epochs⟩,
      fun ⟨sending, numbers, epochs⟩ => ⟨sending, numbers, epochs⟩⟩

variable {sk ad : Bytes} {g : Record p} {s : Bool → Session K} {i : Nat} {plaintext message : Bytes}
  {header : Triple.Header} {agMsg : Braid.Msg} {mkEc : K} {x y : Bool}

theorem Joint.alive (joint : Joint p sk g s) (x : Bool) : (s x).braid.failed = false :=
  Braid.alive_iff.2 (joint.agreement.holds x).agrees.alive

/-- The keys of the epochs a session has come to stand whatever is added. -/
theorem Joint.keyOf_extends (joint : Joint p sk g s) {L' : Braid.Ledger p.incKem}
    (ext : Braid.Ledger.Extends y g.ledger L') {e : UInt64}
    (known : e.toNat ≤ (s x).triple.postQuantum.epoch.toNat) :
    g.ledger.keyOf p.kdf e = L'.keyOf p.kdf e :=
  (joint.agreement.holds x).keyOf_extends ext (by
    rw [show ((braid ∘ s) x).state.emitted = _ from joint.coupled x]
    exact known)

/-- The key of a message sent stands too. -/
theorem Joint.sparseKey_extends (joint : Joint p sk g s) (g' : Record p)
    (ext : Braid.Ledger.Extends y g.ledger g'.ledger) {e n : UInt64}
    (known : e.toNat ≤ g.current x) : g'.sparseKey sk x e n = g.sparseKey sk x e n := by
  have behind : g.current x ≤ (s x).triple.postQuantum.epoch.toNat := joint.sparse.behind x
  exact (Spqr.messageKeyOf_congr (fun j le => joint.keyOf_extends ext (le.trans behind)) known).symm

/-- What else a session holds does not matter. -/
theorem Joint.congr (joint : Joint p sk g s) {s' : Bool → Session K}
    (same : ∀ x, (s' x).triple = (s x).triple ∧ (s' x).braid = (s x).braid ∧
      (s' x).ratchetPrivate = (s x).ratchetPrivate) : Joint p sk g s' := by
  have parties : party ∘ s' = party ∘ s := funext fun x => by
    simp only [Function.comp_apply, party, (same x).1, (same x).2.2]
  have triples : triple ∘ s' = triple ∘ s := funext fun x => (same x).1
  have braids : braid ∘ s' = braid ∘ s := funext fun x => (same x).2.1
  refine ⟨joint.kdf, joint.dh, ?_, ?_, ?_, fun x => ?_, fun x => ?_⟩
  · rw [parties]
    exact joint.classical
  · rw [triples]
    exact joint.sparse
  · rw [braids]
    exact joint.agreement
  · rw [(same x).1, (same x).2.1]
    exact joint.coupled x
  · rw [(same x).2.1]
    exact joint.current x

/-- What the agreement emits is what the sparse ratchet is to be fed. -/
theorem fed_output {ledger : Braid.Ledger p.incKem} {output : Option (Braid.Output K)}
    (emitted : ∀ o, output = some o → o.key = ledger.keyOf p.kdf o.keyEpoch) :
    ∀ o, output.map spqrOutput = some o → Spqr.State.Fed (ledger.keyOf p.kdf) o := by
  intro o found
  obtain ⟨o', here, rfl⟩ := Option.map_eq_some_iff.1 found
  exact emitted o' here

/-! ## Sending -/

/-- The record after `x` has sent in epoch `e`. -/
def Record.sends (g : Record p) (x : Bool) (ledger : Braid.Ledger p.incKem)
    (past : Bool → List (Braid.Event K)) (stage e : Nat) : Record p :=
  { g with
    count := Function.update g.count (g.place x) (g.count (g.place x) + 1)
    ledger := ledger
    past := past
    stamp := Function.update g.stamp x (Function.update (g.stamp x) (g.issued x) stage)
    drawn := Function.update g.drawn x (Function.update (g.drawn x) e (g.drawn x e + 1))
    current := Function.update g.current x e
    issued := Function.update g.issued x (g.issued x + 1) }

/-- A message sent before is the message it was. -/
theorem Sent.sends (joint : Joint p sk g s) (opened : 1 ≤ g.place x)
    {ledger : Braid.Ledger p.incKem}
    (ext : Braid.Ledger.Extends x g.ledger ledger) (past : Bool → List (Braid.Event K))
    (stage : Nat) {e : Nat} (onward : g.current x ≤ e)
    (sent : Sent p sk ad g y i plaintext message header agMsg mkEc) :
    Sent p sk ad (g.sends x ledger past stage e) y i plaintext message header agMsg mkEc := by
  have key := joint.sparseKey_extends (g.sends x ledger past stage e) ext (x := y)
    (n := header.pqN) sent.sparse.begun
  have issued := sent.issued
  refine ⟨?_, sent.classical.grow opened ?_, ?_, ?_, by rw [key]; exact sent.sealed_⟩
  · by_cases it : y = x
    · subst it
      simp only [Record.sends, Function.update_self]
      omega
    · simp only [Record.sends, Function.update_of_ne it]
      exact issued
  · obtain rfl | rfl := Bool.eq_or_eq_not y x
    · exact .inl rfl
    · exact .inr (joint.classical.next_to x).1.symm
  · by_cases it : y = x
    · subst it
      simp only [Record.sends, Function.update_self]
      exact sent.sparse.grow onward
    · simp only [Record.sends, Function.update_of_ne it]
      exact sent.sparse
  · have agreement := sent.agreement.mono ext
    by_cases it : y = x
    · subst it
      obtain ⟨carries, low, high⟩ := agreement
      have old : i ≠ g.issued y := by omega
      refine ⟨carries, ?_, ?_⟩
      · simp only [Record.sends, Function.update_self, Function.update_of_ne old]
        exact low
      · simp only [Record.sends, Function.update_self, Function.update_of_ne old]
        exact high
    · simp only [Record.sends]
      rw [Function.update_of_ne it]
      exact agreement

/-- **An encrypt below the ceilings is not refused.**  It numbers the next message
and leaves what was sent as it was. -/
theorem Joint.encrypt (joint : Joint p sk g s) (honest : p.incKem.Honest) (opened : 1 ≤ g.place x)
    (clear : Clear (s x)) (plaintext : Bytes) (rng : Rng) :
    ∃ g' triple braid message header agMsg mkEc rng',
      (s x).encrypt p plaintext rng =
        ({ s x with triple := triple, braid := braid }, .ok ((s x).outgoing message), rng') ∧
      Joint p sk g' (Function.update s x { s x with triple := triple, braid := braid }) ∧
      Sent p sk (s x).identityAd g' x (g.issued x) plaintext message header agMsg mkEc ∧
      (∀ {ad y i plaintext message header agMsg mkEc},
        Sent p sk ad g y i plaintext message header agMsg mkEc →
          Sent p sk ad g' y i plaintext message header agMsg mkEc) ∧
      g'.place = g.place ∧ g'.used = g.used ∧
      g'.issued = Function.update g.issued x (g.issued x + 1) ∧ g'.passed = g.passed := by
  obtain ⟨L', past', ext, agreement, numbered, fed⟩ := joint.agreement.send honest x rng
  have alive := joint.alive x
  cases ran : (s x).braid.send p.kdf p.incKem rng with
  | mk agMsg rest =>
  obtain ⟨epoch, output, next, rng'⟩ := rest
  simp only [Function.comp_apply, ran] at agreement numbered fed
  have holds : Braid.Holds p.kdf sk x g.ledger (g.past x) (s x).braid := joint.agreement.holds x
  have holds' := agreement.holds x
  rw [Function.update_self] at holds'
  have survived : next.failed = false := Braid.alive_iff.2 holds'.agrees.alive
  have positive : 1 ≤ (s x).braid.state.epoch :=
    UInt64.le_iff_toNat_le.2 (by rw [UInt64.toNat_one]; exact holds.positive)
  obtain ⟨-, fits, count, inside⟩ := send_reports positive (joint.coupled x) ran survived
  -- The epoch reported is the one before the agreement's, which stays.
  obtain ⟨named, stays⟩ : epoch.toNat + 1 = next.state.epoch.toNat ∧
      (s x).braid.state.epoch.toNat ≤ next.state.epoch.toNat := by
    have stage := ext.stage x
    rw [holds.stage, holds'.stage] at stage
    have reported := numbered.reported
    rw [Function.update_self] at reported
    have before := Braid.stage_le (s x).braid.state
    have after := Braid.stage_le next.state
    omega
  have emitted := (Braid.State.emitted_bounds holds.agrees.alive).2
  have ceiling := clear.epochs
  have coupled := joint.coupled x
  simp only [Braid.Braid.epoch] at ceiling
  obtain ⟨postQuantum, n, drew', sparse, counted⟩ :=
    (joint.sparse.congr fun _ _ le => joint.keyOf_extends ext le).send (x := x) (e := epoch)
      (fed_output fed) fits (by simp only [Function.comp_apply]; omega)
      (fun e ch chain => by
        obtain ⟨cs, found, sending⟩ := Option.bind_eq_some_iff.1 chain
        exact clear.numbers _ (Spqr.State.mem_of_findChains found) ch sending)
      inside (by have := joint.current x; omega)
  obtain ⟨classical, dr, mkEc, drew, line, chained⟩ :=
    joint.classical.send (x := x) opened clear.sending
  rw [joint.kdf] at drew
  have sent : (s x).triple.send p.kdf epoch (output.map spqrOutput) = _ :=
    Triple.State.send_of drew drew'
  refine ⟨g.sends x L' past' next.state.stage epoch.toNat,
    { classical := classical, postQuantum := postQuantum }, next,
    sealedWith p (s x).identityAd (compositeOf { dr := dr, epoch := epoch, pqN := n } agMsg) _
      plaintext, { dr := dr, epoch := epoch, pqN := n }, agMsg, mkEc, rng', ?_, ?_,
    ⟨?_, chained, ?_, ?_, rfl⟩, fun old => old.sends joint opened ext past' _ (by
      have := joint.current x
      omega), rfl, rfl, rfl, rfl⟩
  · unfold Session.encrypt
    simp only [alive, Bool.false_eq_true, if_false, ran, survived, sent, outgoing]
    cases (s x).pendingInitial <;> rfl
  · refine ⟨joint.kdf, joint.dh, ?_, ?_, ?_, fun y => ?_, fun y => ?_⟩
    · rw [Function.comp_update]
      exact line
    · rw [Function.comp_update, Function.comp_update]
      exact sparse
    · rw [Function.comp_update]
      exact agreement
    · by_cases it : y = x
      · rw [it, Function.update_self]
        exact count.trans (Spqr.State.send_frame drew').1.symm
      · rw [Function.update_of_ne it]
        exact joint.coupled y
    · by_cases it : y = x
      · subst it
        simp only [Record.sends, Function.update_self]
        omega
      · simp only [Record.sends]
        rw [Function.update_of_ne it, Function.update_of_ne it]
        exact joint.current y
  · simp only [Record.sends, Function.update_self]
    omega
  · simp only [Record.sends, Function.update_self]
    exact counted
  · simp only [Record.sends, Function.update_self]
    exact numbered

/-! ## Receiving -/

/-- The record after `y` has been handed the `i`-th message of its peer, under
this epoch and number, and has drawn a key. -/
def Record.receives (g : Record p) (y : Bool) (ledger : Braid.Ledger p.incKem)
    (past : Bool → List (Braid.Event K)) (newSecret : Arr 32) (place i e n : Nat) : Record p :=
  { g with
    line := g.line.adopt (Ratchet.newest g.place + 1) newSecret
    place := Function.update g.place y place
    used := p.dh.publicKey newSecret :: g.used
    ledger := ledger
    past := past
    last := Function.update g.last y e
    within := Function.update g.within y n
    passed := Function.update g.passed (!y) (i + 1) }

/-- A message sent before is the message it was. -/
theorem Sent.receives (joint : Joint p sk g s) {ledger : Braid.Ledger p.incKem}
    (ext : Braid.Ledger.Extends x g.ledger ledger) (past : Bool → List (Braid.Event K))
    (newSecret : Arr 32) {place : Nat} (onward : g.place x ≤ place) (parity : place % 2 = g.place x % 2)
    (j e n : Nat) (sent : Sent p sk ad g y i plaintext message header agMsg mkEc) :
    Sent p sk ad (g.receives x ledger past newSecret place j e n) y i plaintext message header agMsg
      mkEc := by
  have key := joint.sparseKey_extends (g.receives x ledger past newSecret place j e n) ext
    (x := y) (n := header.pqN) sent.sparse.begun
  have top := Ratchet.le_newest g.place y
  refine ⟨sent.issued, ?_, sent.sparse, sent.agreement.mono ext, by rw [key]; exact sent.sealed_⟩
  have line : Ratchet.Numbered (g.line.adopt (Ratchet.newest g.place + 1) newSecret) g.count
      (g.place y) i header.dr mkEc := sent.classical.adopt (by omega)
  by_cases it : y = x
  · subst it
    simp only [Record.receives, Function.update_self]
    exact line.mono onward parity.symm
  · simp only [Record.receives]
    rw [Function.update_of_ne it]
    exact line

/-- The ratchet key of a message sent is one X25519 computed. -/
theorem Sent.dh (joint : Joint p sk g s)
    (sent : Sent p sk ad g x i plaintext message header agMsg mkEc) :
    ∃ secret, header.dr.dh = p.dh.publicKey secret := by
  obtain ⟨j, -, -, -, genuine⟩ := sent.classical
  exact ⟨g.line.secret j, by rw [genuine.dh, Ratchet.Line.pub, joint.dh]⟩

/-- Where a delivery of the `i`-th message of its peer leaves the ratchets of `y`. -/
structure Reaches (p : Primitives K) (sk : Bytes) (g : Record p) (s : Bool → Session K) (y : Bool)
    (ledger : Braid.Ledger p.incKem) (newSecret : Arr 32) (i : Nat) (header : Triple.Header)
    (place : Nat) (triple : Triple.State K) : Prop where
  positive : 1 ≤ place
  onward : g.place y ≤ place
  parity : place % 2 = g.place y % 2
  classical : Ratchet.Conversation (g.line.adopt (Ratchet.newest g.place + 1) newSecret) g.count
    (Function.update g.place y place)
    (Function.update (party ∘ s) y ((party (s y)).adopt triple.classical newSecret)) g.issued
    (Function.update g.passed (!y) (i + 1)) (p.dh.publicKey newSecret :: g.used)
  sparse : Spqr.State.Conversation p.kdf (p.kdf.bytes (splitSecret p.kdf sk).2) (ledger.keyOf p.kdf)
    g.drawn g.current (Function.update g.last y header.epoch.toNat)
    (Function.update g.within y header.pqN.toNat)
    (Function.update (Triple.State.postQuantum ∘ Session.triple ∘ s) y triple.postQuantum) g.issued
    (Function.update g.passed (!y) (i + 1))

/-- **Both halves answer a message in order**, or meet a full store, whatever was
evicted. -/
theorem Joint.receive (joint : Joint p sk g s) (agrees : p.dh.Agrees)
    (sent : Sent p sk ad g (!y) i plaintext message header agMsg mkEc) {lost : Nat}
    (order : i = g.passed (!y) + lost) (near : lost < 1000) {newSecret : Arr 32}
    (fresh : p.dh.publicKey newSecret ∉ g.used) {dhOutRecv dhOutSend : K}
    (agreed : p.dh.agree (s y).ratchetPrivate header.dr.dh = some dhOutRecv)
    (answered : p.dh.agree newSecret header.dr.dh = some dhOutSend)
    {ledger : Braid.Ledger p.incKem} (ext : Braid.Ledger.Extends y g.ledger ledger)
    {output : Option (Spqr.Output K)}
    (fed : ∀ o, output = some o → Spqr.State.Fed (ledger.keyOf p.kdf) o)
    (fits : (s y).triple.postQuantum.FitsNext output)
    (below : (s y).triple.postQuantum.epoch.toNat + 1 < 2 ^ 64 - 1)
    (inside : header.epoch.toNat ≤ (s y).triple.postQuantum.epoch.toNat + output.toList.length ∧
      (s y).triple.postQuantum.epoch.toNat + output.toList.length ≤ header.epoch.toNat + 1)
    {w : Triple.State K} (thinned : Thinned (s y).triple w) :
    (∃ value, w.receive p.kdf header dhOutRecv dhOutSend (p.dh.publicKey newSecret) output =
        .ok value ∧
      value.2 = Triple.combine p.kdf mkEc (g.sparseKey sk (!y) header.epoch header.pqN) ∧
      ∃ place, Reaches p sk g s y ledger newSecret i header place value.1) ∨
    ∃ half, Full half
      (w.receive p.kdf header dhOutRecv dhOutSend (p.dh.publicKey newSecret) output) := by
  obtain ⟨⟨left, sub, classical⟩, ⟨left', sub', postQuantum⟩⟩ := thinned
  have line := joint.classical.receive (y := y) (joint.dh ▸ agrees) sent.classical order
    (show lost ≤ Ratchet.maxSkip.toNat from near.le)
    (show g.line.dh.publicKey newSecret ∉ g.used by rw [joint.dh]; exact fresh)
    (by rw [joint.dh]; exact agreed) (by rw [joint.dh]; exact answered) sub
  have chain := (joint.sparse.congr fun _ _ le => joint.keyOf_extends ext le).receive (y := y) fed
    fits below sent.sparse order (show lost ≤ Spqr.maxSkip.toNat from near.le) inside sub'
  have key := joint.sparseKey_extends { g with ledger := ledger } ext (n := header.pqN)
    sent.sparse.begun
  rw [joint.kdf, joint.dh] at line
  obtain ⟨c, m, took, positive, onward, parity, -, conv⟩ | full := line
  · obtain ⟨q, took', conv'⟩ | full := chain
    · refine .inl ⟨_, Triple.State.receive_of (classical ▸ took) (postQuantum ▸ took'), ?_, m, positive,
        onward, parity, conv, conv'⟩
      rw [← key]
      rfl
    · exact .inr (Triple.State.receive_full (.inr ⟨⟨c, mkEc, classical ▸ took⟩, postQuantum ▸ full⟩))
  · exact .inr (Triple.State.receive_full (.inl (classical ▸ full)))

/-- **A message in order opens with its plaintext.** -/
theorem Joint.decryptRatchet (joint : Joint p sk g s) (honest : p.dh.Honest) (agrees : p.dh.Agrees)
    (incHonest : p.incKem.Honest) (sized : p.kdf.Sized) (inverts : p.aead.Inverts)
    (below : (s y).braid.epoch.toNat + 2 < 2 ^ 64)
    (sent : Sent p sk (s y).identityAd g (!y) i plaintext message header agMsg mkEc) {lost : Nat}
    (order : i = g.passed (!y) + lost) (near : lost < 1000) (rng : Rng)
    (fresh : p.dh.publicKey (randomSecret rng).1 ∉ g.used) :
    ∃ g' triple braid,
      (s y).decryptRatchet p message rng =
        ((s y).adopted (randomSecret rng).1 triple braid, .ok plaintext, (randomSecret rng).2) ∧
      Joint p sk g' (Function.update s y ((s y).adopted (randomSecret rng).1 triple braid)) ∧
      (∀ {ad x i plaintext message header agMsg mkEc},
        Sent p sk ad g x i plaintext message header agMsg mkEc →
          Sent p sk ad g' x i plaintext message header agMsg mkEc) ∧
      1 ≤ g'.place y ∧ g'.place (!y) = g.place (!y) ∧
      g'.used = p.dh.publicKey (randomSecret rng).1 :: g.used ∧ g'.issued = g.issued ∧
      g'.passed = Function.update g.passed (!y) (i + 1) := by
  obtain ⟨secret, dh⟩ := sent.dh joint
  have canonical : Curve.isCanonicalX25519 (compositeOf header agMsg).dh = true := by
    show Curve.isCanonicalX25519 header.dr.dh = true
    rw [dh]
    exact honest.publicKey_canonical _
  obtain ⟨dhOutRecv, agreed⟩ := agrees.contributory (s y).ratchetPrivate secret
  obtain ⟨dhOutSend, answered⟩ := agrees.contributory (randomSecret rng).1 secret
  rw [← dh] at agreed answered
  obtain ⟨L', past', ext, agreement, epochs, fed⟩ := joint.agreement.receive (y := y) incHonest sized
    below sent.agreement (by omega) sent.issued
  have alive := joint.alive y
  cases ran : (s y).braid.receive p.kdf p.incKem agMsg with
  | mk epoch rest =>
  obtain ⟨output, next⟩ := rest
  simp only [Function.comp_apply, ran] at agreement epochs fed
  have holds : Braid.Holds p.kdf sk y g.ledger (g.past y) (s y).braid := joint.agreement.holds y
  have holds' := agreement.holds y
  rw [Function.update_self] at holds'
  have positive : 1 ≤ (s y).braid.state.epoch :=
    UInt64.le_iff_toNat_le.2 (by rw [UInt64.toNat_one]; exact holds.positive)
  have steps := congrArg Prod.snd ran
  rw [Braid.receive_snd, Prod.mk.injEq] at steps
  obtain ⟨emits, after⟩ := steps
  have after : (Braid.stepReceive p.kdf p.incKem agMsg (s y).braid.state).2 = next.state :=
    congrArg Braid.Braid.state after
  obtain ⟨climbs, emitted'⟩ := Braid.stepReceive_emitted positive agMsg
    (show (Braid.stepReceive p.kdf p.incKem agMsg _).2 ≠ .failed by
      rw [after]
      exact holds'.agrees.alive)
  obtain ⟨fits, count⟩ := emitsNext_fits emitted' (joint.coupled y)
  rw [emits] at fits count
  rw [after] at climbs count
  have emitted := (Braid.State.emitted_bounds holds.agrees.alive).2
  have coupled := joint.coupled y
  simp only [Braid.Braid.epoch] at below
  obtain ⟨⟨triple, key⟩, answer, rfl, place, reaches⟩ : ∃ value,
      receiveWithEviction p.kdf (s y).triple (compositeOf header agMsg) header dhOutRecv dhOutSend
        (p.dh.publicKey (randomSecret rng).1) (output.map spqrOutput) = .ok value ∧
      value.2 = Triple.combine p.kdf mkEc (g.sparseKey sk (!y) header.epoch header.pqN) ∧
      ∃ place, Reaches p sk g s y L' (randomSecret rng).1 i header place value.1 :=
    receiveWithEviction_answers fun w thinned => joint.receive agrees sent order near fresh agreed
      answered ext (fed_output fed) fits (by omega) (by rw [← count]; exact epochs) thinned
  obtain ⟨w, thinned, received⟩ := receiveWithEviction_ok answer
  obtain ⟨_, _, -, sparse, -⟩ := Triple.State.receive_ok received
  obtain ⟨left, -, hw⟩ := thinned.postQuantum
  have folded := (Spqr.State.receive_frame sparse).1
  rw [hw] at folded
  have opens : Opens p (s y) message rng ⟨compositeOf header agMsg, _⟩ output next dhOutRecv
      dhOutSend triple _ plaintext :=
    { alive := alive
      read := by rw [sent.sealed_]; exact Wire.decodeMessage_encodeMessage _ _ canonical
      agreement := by rw [msgOf_compositeOf, ran]
      agreed := agreed
      fresh := answered
      received := answer
      opened := inverts _ _ _ _ _ }
  refine ⟨g.receives y L' past' (randomSecret rng).1 place i header.epoch.toNat header.pqN.toNat,
    triple, next, opens.decryptRatchet_eq, ⟨joint.kdf, joint.dh, ?_, ?_, ?_, fun x => ?_, fun x => ?_⟩,
    fun old => old.receives joint ext past' _ reaches.onward reaches.parity _ _ _, ?_, ?_, rfl, rfl,
    rfl⟩
  · rw [Function.comp_update]
    exact reaches.classical
  · rw [Function.comp_update, Function.comp_update]
    exact reaches.sparse
  · rw [Function.comp_update]
    exact agreement
  · by_cases it : x = y
    · rw [it, Function.update_self]
      exact count.trans folded.symm
    · rw [Function.update_of_ne it]
      exact joint.coupled x
  · by_cases it : x = y
    · subst it
      rw [Function.update_self]
      have := joint.current x
      exact this.trans (Nat.sub_le_sub_right climbs 1)
    · rw [Function.update_of_ne it]
      exact joint.current x
  · simp only [Record.receives, Function.update_self]
    exact reaches.positive
  · simp only [Record.receives]
    exact Function.update_of_ne (Network.not_ne y) ..

end Session

end Tacenta
