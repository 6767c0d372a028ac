/-
# Tacenta.Ratchet.Agreement -- two classical ratchets over an unreliable wire

A sender and a receiver share a root secret and pass each other headers, in any
order, any number of times.  A delivery runs `receive` with the true agreements
of the receiver's ratchet keys, and its state is adopted exactly when the key is
the one the sender derived for that header, as authentication decides it.

`Joint` places both parties on one `Line`, one step apart.  A delivery of a
header whose chain the receiver has left, with nothing stored for it, derives
from an agreement between two other keys of the line.  Where its key comes out as
the sender's by accident it is adopted, and the two part (`Collided`); along every
run without such a call (`Straight`) the places hold.
-/
import Tacenta.Ratchet.Line
import Tacenta.Runs
import Tacenta.Sample

set_option autoImplicit false

namespace Tacenta.Ratchet

variable {K : Type}

/-! ## The two parties -/

/-- Which constructor a party was set up with. -/
inductive Side where
  | sender
  | receiver
  deriving DecidableEq

def Side.other : Side → Side
  | .sender => .receiver
  | .receiver => .sender

/-- The sender holds the odd keys of the line, the receiver the even ones. -/
def Side.parity : Side → Nat
  | .sender => 1
  | .receiver => 0

@[simp] theorem Side.other_other (p : Side) : p.other.other = p := by
  cases p <;> rfl

theorem Side.other_ne (p : Side) : p.other ≠ p := by
  cases p <;> simp [Side.other]

theorem Side.eq_or_other (p q : Side) : q = p ∨ q = p.other := by
  cases p <;> cases q <;> simp [Side.other]

theorem Side.parity_other (p : Side) : p.other.parity ≠ p.parity := by
  cases p <;> simp [Side.other, Side.parity]

/-- A ratchet and the private half of its sending key. -/
structure Party (K : Type) where
  state : State K
  secret : Arr 32

/-- Both parties, and what each has sent. -/
structure Pair (K : Type) where
  party : Side → Party K
  sent : Side → List (Header × K)

inductive Call where
  | send (p : Side)
  | deliver (p : Side) (header : Header) (newSecret : Arr 32)
  | evict (p : Side) (count : Nat)

inductive Event (K : Type) where
  | sent (p : Side) (header : Header) (key : K)
  /-- A delivery was answered, and its state adopted. -/
  | accepted (p : Side) (header : Header)
  /-- A delivery took a Diffie-Hellman step onto `dh`, under a new key. -/
  | entered (p : Side) (dh newSecret : Arr 32)
  | evicted (p : Side) (dh : Arr 32) (n : UInt32)
  | aged (p : Side) (dh : Arr 32) (n : UInt32)
  deriving DecidableEq

/-- The private key a step adopted. -/
def Event.newSecret : Event K → Option (Arr 32)
  | .entered _ _ secret => some secret
  | _ => none

/-- Both parties as the constructors leave them. -/
def Pair.start (kdf : Kdf K) (dh : Dh K) (sk : K) (first second : Arr 32) (dhOut : K)
    (labels : LabelSet) : Pair K where
  party
    | .sender =>
        ⟨initSender kdf sk (dh.publicKey first) (dh.publicKey second) dhOut labels, first⟩
    | .receiver => ⟨initReceiver sk (dh.publicKey second) labels, second⟩
  sent _ := []

/-- One party moves. -/
def Pair.setParty (sys : Pair K) (p : Side) (q : Party K) : Pair K :=
  { sys with party := Function.update sys.party p q }

/-- One party has sent a message. -/
def Pair.logSent (sys : Pair K) (p : Side) (message : Header × K) : Pair K :=
  { sys with sent := Function.update sys.sent p (message :: sys.sent p) }

@[simp] theorem Pair.setParty_self (sys : Pair K) (p : Side) (q : Party K) :
    (sys.setParty p q).party p = q := Function.update_self ..

@[simp] theorem Pair.setParty_other (sys : Pair K) (p : Side) (q : Party K) :
    (sys.setParty p q).party p.other = sys.party p.other :=
  Function.update_of_ne p.other_ne ..

@[simp] theorem Pair.logSent_party (sys : Pair K) (p : Side) (message : Header × K) :
    (sys.logSent p message).party = sys.party := rfl

theorem Pair.mem_logSent {sys : Pair K} {p q : Side} {message entry : Header × K} :
    entry ∈ (sys.logSent p message).sent q ↔ (q = p ∧ entry = message) ∨ entry ∈ sys.sent q := by
  by_cases same : q = p
  · subst same
    simp [Pair.logSent]
  · simp [Pair.logSent, same]

/-- The party after an adopted delivery. -/
def Party.adopt (q : Party K) (s : State K) (newSecret : Arr 32) : Party K where
  state := s
  secret := if s.sendingPublic ≠ q.state.sendingPublic then newSecret else q.secret

/-- What an adopted delivery is remembered by. -/
def acceptedEvents (p : Side) (before after : State K) (header : Header) (newSecret : Arr 32) :
    List (Event K) :=
  .accepted p header ::
    ((if after.dhrPub ≠ before.dhrPub then [.entered p header.dh newSecret] else []) ++
      (before.skipped.filter (SkippedKey.aged after.events)).map fun k => .aged p k.dh k.n)

section Machine

/-- What an eviction is remembered by. -/
def evictedEvents [DecidableEq K] (p : Side) (before after : State K) : List (Event K) :=
  (before.skipped.filter fun k => decide (k ∉ after.skipped)).map fun k => .evicted p k.dh k.n

/-- What a call does to the two parties. -/
def call [DecidableEq K] (kdf : Kdf K) (dh : Dh K) : Machine (Pair K) Call (Event K)
  | sys, .send p =>
      match send kdf (sys.party p).state with
      | (s, .ok (header, key)) =>
          ((sys.setParty p { sys.party p with state := s }).logSent p (header, key),
            [.sent p header key])
      | (_, .error _) => (sys, [])
  | sys, .deliver p header newSecret =>
      match dh.agree (sys.party p).secret header.dh, dh.agree newSecret header.dh with
      | some dhOutRecv, some dhOutSend =>
          match receive kdf (sys.party p).state header dhOutRecv dhOutSend
              (dh.publicKey newSecret) with
          | (s, .ok key) =>
              if (header, key) ∈ sys.sent p.other then
                (sys.setParty p ((sys.party p).adopt s newSecret),
                  acceptedEvents p (sys.party p).state s header newSecret)
              else (sys, [])
          | (_, .error _) => (sys, [])
      | _, _ => (sys, [])
  | sys, .evict p count =>
      let s := ((sys.party p).state.evictOldest count).1
      (sys.setParty p { sys.party p with state := s },
        evictedEvents p (sys.party p).state s)

end Machine

/-- The party has left this header's chain, and holds no key for it. -/
def LeftBehind (past : List (Event K)) (p : Side) (s : State K) (header : Header) : Prop :=
  (∃ secret, Event.entered p header.dh secret ∈ past) ∧ s.dhrPub ≠ some header.dh ∧
    trySkipped s.skipped header = none

/-- No delivery on a chain its receiver has left, with nothing stored for it,
derives the key the sender derived: none is adopted. -/
def Straight [DecidableEq K] (kdf : Kdf K) (dh : Dh K) (past : List (Event K)) (sys : Pair K)
    (c : Call) : Prop :=
  ∀ p header, Event.accepted p header ∈ (call kdf dh sys c).2 →
    ¬ LeftBehind past p (sys.party p).state header

/-! ## The line of a run -/

/-- The private keys adopted along a run, in order. -/
def secretsAlong (first second : Arr 32) (events : List (Event K)) : List (Arr 32) :=
  second :: first :: events.filterMap Event.newSecret

/-- The line of a run; past its last key stands `spare`. -/
def lineOf (kdf : Kdf K) (dh : Dh K) (sk : K) (first second : Arr 32) (events : List (Event K))
    (spare : Arr 32) : Line K where
  kdf := kdf
  dh := dh
  rootSecret := sk
  secret k := (secretsAlong first second events).getD k spare

/-- A pair of key and number was answered, evicted, aged out, or is stored. -/
def AccountedFor (past : List (Event K)) (p : Side) (s : State K) (dh : Arr 32) (n : UInt32) :
    Prop :=
  (∃ header, Event.accepted p header ∈ past ∧ header.dh = dh ∧ header.n = n) ∨
    Event.evicted p dh n ∈ past ∨ Event.aged p dh n ∈ past ∨
      ∃ k ∈ s.skipped, k.dh = dh ∧ k.n = n

/-- Both parties on the line, after the events `past`: party `p` at `place p`,
and `count k` messages sent on chain `k`. -/
structure Joint (line : Line K) (past : List (Event K)) (sys : Pair K) (count : Nat → Nat)
    (place : Side → Nat) : Prop where
  parity : ∀ p, place p % 2 = p.parity
  close : ∀ p, place p ≤ place p.other + 1
  keys : ∀ p, place p ≤ (past.filterMap Event.newSecret).length + 1
  newest : ∃ p, place p = (past.filterMap Event.newSecret).length + 1
  at_ : ∀ p, At line count (place p) (sys.party p).state
  secret : ∀ p, (sys.party p).secret = line.secret (place p)
  unsent : ∀ k, (∀ p, place p < k) → count k = 0
  logged : ∀ p header key, (header, key) ∈ sys.sent p →
    ∃ j, j ≤ place p ∧ j % 2 = p.parity ∧ Genuine line count j header key
  log : ∀ p header key, Event.sent p header key ∈ past → (header, key) ∈ sys.sent p
  answered : ∀ p header, Event.accepted p header ∈ past → ∃ key, (header, key) ∈ sys.sent p.other
  accounted : ∀ p j n, Passed count (place p) (sys.party p).state j n.toNat →
    AccountedFor past p (sys.party p).state (line.pub j) n
  entered : ∀ p j, 1 ≤ j → j < place p → j % 2 ≠ p.parity →
    ∃ secret, Event.entered p (line.pub j) secret ∈ past

variable {line : Line K} {past now : List (Event K)} {sys : Pair K} {count : Nat → Nat}
  {place : Side → Nat}

/-- What was accounted for stays so, if its key does when it is stored. -/
theorem AccountedFor.keep {p : Side} {s s' : State K} {dh : Arr 32} {n : UInt32}
    (account : AccountedFor past p s dh n)
    (kept : ∀ k ∈ s.skipped, k.dh = dh → k.n = n → AccountedFor now p s' dh n) :
    AccountedFor (past ++ now) p s' dh n := by
  have later : AccountedFor now p s' dh n → AccountedFor (past ++ now) p s' dh n := by
    rintro (⟨header, here, named⟩ | gone | old | still)
    · exact .inl ⟨header, List.mem_append_right _ here, named⟩
    · exact .inr (.inl (List.mem_append_right _ gone))
    · exact .inr (.inr (.inl (List.mem_append_right _ old)))
    · exact .inr (.inr (.inr still))
  rcases account with ⟨header, here, named⟩ | gone | old | ⟨k, member, dh_eq, n_eq⟩
  · exact .inl ⟨header, List.mem_append_left _ here, named⟩
  · exact .inr (.inl (List.mem_append_left _ gone))
  · exact .inr (.inr (.inl (List.mem_append_left _ old)))
  · exact later (kept k member dh_eq n_eq)

theorem AccountedFor.stay {p : Side} {s s' : State K} {dh : Arr 32} {n : UInt32}
    (account : AccountedFor past p s dh n) (same : s'.skipped = s.skipped) :
    AccountedFor (past ++ now) p s' dh n :=
  account.keep fun k member dh_eq n_eq => .inr (.inr (.inr ⟨k, same ▸ member, dh_eq, n_eq⟩))

/-- The other party's place is within one step, and of the other parity. -/
theorem Joint.place_other (joint : Joint line past sys count place) (p : Side) :
    place p ≤ place p.other + 1 ∧ place p.other ≤ place p + 1 ∧
      place p.other % 2 ≠ place p % 2 := by
  have back := joint.close p.other
  rw [Side.other_other] at back
  refine ⟨joint.close p, back, ?_⟩
  rw [joint.parity, joint.parity]
  exact p.parity_other

theorem Joint.le_newest (joint : Joint line past sys count place) (p q : Side) :
    place q ≤ place p + 1 := by
  rcases p.eq_or_other q with rfl | rfl
  · exact Nat.le_succ _
  · exact (joint.place_other p).2.1

/-- Nothing is sent yet on the chain after the next. -/
theorem Joint.unsent_next (joint : Joint line past sys count place) (p : Side) :
    count (place p + 2) = 0 :=
  joint.unsent _ fun q => by
    have := joint.le_newest p q
    omega

/-- A header the other party logged is genuine, on a chain in reach. -/
theorem Joint.reach (joint : Joint line past sys count place) {p : Side} {header : Header} {key : K}
    (logged : (header, key) ∈ sys.sent p.other) :
    ∃ j, j ≤ place p + 1 ∧ j ≤ (past.filterMap Event.newSecret).length + 1 ∧
      j % 2 ≠ place p % 2 ∧
      (j = place p + 1 → place p.other = j ∧ j = (past.filterMap Event.newSecret).length + 1) ∧
      Genuine line count j header key := by
  obtain ⟨j, below, parity, genuine⟩ := joint.logged p.other header key logged
  obtain ⟨-, ahead, parities⟩ := joint.place_other p
  have known := joint.keys p.other
  refine ⟨j, below.trans ahead, below.trans known, ?_, ?_, genuine⟩
  · rw [parity, joint.parity]
    exact p.parity_other
  · intro next
    obtain ⟨q, newest⟩ := joint.newest
    have := joint.keys p
    rcases p.eq_or_other q with rfl | rfl
    · omega
    · omega

/-- One more message on the holder's chain leaves every genuine header so. -/
theorem Genuine.grow {j m : Nat} {header : Header} {key : K}
    (genuine : Genuine line count j header key) (apart : j - 2 ≠ m) :
    Genuine line (Function.update count m (count m + 1)) j header key := by
  refine ⟨genuine.positive, genuine.dh, ?_, ?_, genuine.last, genuine.key_eq⟩
  · rw [Function.update_of_ne apart]
    exact genuine.before
  · refine genuine.sent.trans_le ?_
    by_cases same : j = m
    · rw [same, Function.update_self]
      exact Nat.le_succ _
    · rw [Function.update_of_ne same]

/-- **Sending keeps both places.** -/
theorem Joint.send (joint : Joint line past sys count place) {p : Side} {s : State K}
    {header : Header} {key : K}
    (sent : send line.kdf (sys.party p).state = (s, .ok (header, key))) :
    Joint line (past ++ [.sent p header key])
      ((sys.setParty p { sys.party p with state := s }).logSent p (header, key))
      (Function.update count (place p) (count (place p) + 1)) place := by
  obtain ⟨positive, there, genuine⟩ := (joint.at_ p).send sent
  obtain ⟨ck, next, -, -, -, -, after⟩ := send_ok sent
  have parities := (joint.place_other p).2.2
  have silent : (past ++ [Event.sent p header key]).filterMap Event.newSecret =
      past.filterMap Event.newSecret := by
    rw [List.filterMap_append]
    exact List.append_nil _
  refine ⟨joint.parity, joint.close, ?_, ?_, ?_, ?_, ?_, ?_, ?_, ?_, ?_, ?_⟩
  · rw [silent]
    exact joint.keys
  · rw [silent]
    exact joint.newest
  · intro q
    rcases p.eq_or_other q with rfl | rfl
    · rw [Pair.logSent_party, Pair.setParty_self]
      exact there
    · rw [Pair.logSent_party, Pair.setParty_other]
      refine (joint.at_ p.other).grow ?_ ?_ ?_ ?_
      · intro k
        by_cases same : k = place p
        · rw [same, Function.update_self]
          exact Nat.le_succ _
        · rw [Function.update_of_ne same]
      · exact Function.update_of_ne (fun same => parities (by rw [same])) _ _
      · refine Function.update_of_ne ?_ _ _
        have := (joint.place_other p).1
        omega
      · intro j below _
        refine Function.update_of_ne ?_ _ _
        have := (joint.place_other p).2.1
        omega
  · intro q
    rcases p.eq_or_other q with rfl | rfl
    · rw [Pair.logSent_party, Pair.setParty_self]
      exact joint.secret q
    · rw [Pair.logSent_party, Pair.setParty_other]
      exact joint.secret p.other
  · intro k above
    rw [Function.update_of_ne (above p).ne']
    exact joint.unsent k above
  · intro q header' key' logged
    rcases Pair.mem_logSent.1 logged with ⟨rfl, same⟩ | old
    · rw [Prod.mk.injEq] at same
      obtain ⟨rfl, rfl⟩ := same
      exact ⟨place q, le_rfl, joint.parity q, genuine⟩
    · obtain ⟨j, below, parity, was⟩ := joint.logged q header' key' old
      refine ⟨j, below, parity, was.grow ?_⟩
      have first := was.positive
      rw [← joint.parity q] at parity
      rcases p.eq_or_other q with rfl | rfl
      · omega
      · omega
  · intro q header' key' member
    rcases List.mem_append.1 member with old | new
    · exact Pair.mem_logSent.2 (.inr (joint.log q header' key' old))
    · rw [List.mem_singleton, Event.sent.injEq] at new
      obtain ⟨rfl, rfl, rfl⟩ := new
      exact Pair.mem_logSent.2 (.inl ⟨rfl, rfl⟩)
  · intro q header' member
    rw [List.mem_append, List.mem_singleton] at member
    obtain ⟨key', logged⟩ := joint.answered q header' (member.resolve_right (by simp))
    exact ⟨key', Pair.mem_logSent.2 (.inr logged)⟩
  · intro q j n passed
    obtain ⟨first, below, odd, behind⟩ := passed
    rw [Pair.logSent_party] at behind ⊢
    rcases p.eq_or_other q with rfl | rfl
    · rw [Pair.setParty_self] at behind ⊢
      rw [Function.update_of_ne (by omega)] at behind
      refine (joint.accounted q j n ⟨first, below, odd, ?_⟩).stay (by rw [after])
      rw [after] at behind
      exact behind
    · rw [Pair.setParty_other] at behind ⊢
      refine (joint.accounted p.other j n ⟨first, below, odd, ?_⟩).stay rfl
      by_cases current : j + 1 = place p.other
      · rw [if_pos current] at behind ⊢
        exact behind
      · rw [if_neg current] at behind ⊢
        have := (joint.place_other p).2.1
        rw [Function.update_of_ne (by omega)] at behind
        exact behind
  · intro q j first below odd
    obtain ⟨secret, here⟩ := joint.entered q j first below odd
    exact ⟨secret, List.mem_append_left _ here⟩

/-- A party moves along the line, or stays and loses stored keys. -/
theorem Joint.move (joint : Joint line past sys count place) {p : Side} {q : Party K} {m : Nat}
    (at_ : At line count m q.state) (secret : q.secret = line.secret m)
    (onward : (m = place p ∧ now.filterMap Event.newSecret = []) ∨
      (m = place p + 2 ∧ place p.other = place p + 1 ∧
        place p + 1 = (past.filterMap Event.newSecret).length + 1 ∧
        (now.filterMap Event.newSecret).length = 1 ∧
        ∃ secret, Event.entered p (line.pub (place p + 1)) secret ∈ now))
    (silent : ∀ q header key, Event.sent q header key ∉ now)
    (answered : ∀ q header, Event.accepted q header ∈ now →
      ∃ key, (header, key) ∈ sys.sent q.other)
    (accounted : ∀ j n, Passed count m q.state j n.toNat →
      AccountedFor (past ++ now) p q.state (line.pub j) n) :
    Joint line (past ++ now) (sys.setParty p q) count (Function.update place p m) := by
  have parity : m % 2 = p.parity := by
    rw [← joint.parity p]
    rcases onward with ⟨rfl, -⟩ | ⟨rfl, -⟩ <;> omega
  have atOther : Function.update place p m p.other = place p.other :=
    Function.update_of_ne p.other_ne ..
  have length : ((past ++ now).filterMap Event.newSecret).length =
      (past.filterMap Event.newSecret).length + (now.filterMap Event.newSecret).length := by
    rw [List.filterMap_append, List.length_append]
  obtain ⟨near, ahead, -⟩ := joint.place_other p
  refine ⟨?_, ?_, ?_, ?_, ?_, ?_, ?_, ?_, ?_, ?_, ?_, ?_⟩
  · intro r
    rcases p.eq_or_other r with rfl | rfl
    · rw [Function.update_self]
      exact parity
    · rw [atOther]
      exact joint.parity _
  · intro r
    rcases p.eq_or_other r with rfl | rfl
    · rw [Function.update_self, atOther]
      rcases onward with ⟨rfl, -⟩ | ⟨rfl, other, -⟩ <;> omega
    · rw [Side.other_other, Function.update_self, atOther]
      rcases onward with ⟨rfl, -⟩ | ⟨rfl, other, -⟩ <;> omega
  · intro r
    rw [length]
    rcases p.eq_or_other r with rfl | rfl
    · rw [Function.update_self]
      have := joint.keys r
      rcases onward with ⟨rfl, -⟩ | ⟨rfl, other, known, one, -⟩ <;> omega
    · rw [atOther]
      exact (joint.keys _).trans (by omega)
  · rw [length]
    rcases onward with ⟨rfl, none_⟩ | ⟨rfl, other, known, one, -⟩
    · obtain ⟨r, newest⟩ := joint.newest
      refine ⟨r, ?_⟩
      rw [Function.update_eq_self, none_]
      exact newest
    · exact ⟨p, by rw [Function.update_self]; omega⟩
  · intro r
    rcases p.eq_or_other r with rfl | rfl
    · rw [Function.update_self, Pair.setParty_self]
      exact at_
    · rw [atOther, Pair.setParty_other]
      exact joint.at_ _
  · intro r
    rcases p.eq_or_other r with rfl | rfl
    · rw [Function.update_self, Pair.setParty_self]
      exact secret
    · rw [atOther, Pair.setParty_other]
      exact joint.secret _
  · intro k above
    have own := above p
    have others := above p.other
    rw [Function.update_self] at own
    rw [atOther] at others
    refine joint.unsent k fun r => ?_
    rcases p.eq_or_other r with rfl | rfl
    · rcases onward with ⟨rfl, -⟩ | ⟨rfl, -⟩ <;> omega
    · exact others
  · intro r header key logged
    obtain ⟨j, below, odd, genuine⟩ := joint.logged r header key logged
    refine ⟨j, ?_, odd, genuine⟩
    rcases p.eq_or_other r with rfl | rfl
    · rw [Function.update_self]
      rcases onward with ⟨rfl, -⟩ | ⟨rfl, -⟩ <;> omega
    · rw [atOther]
      exact below
  · intro r header key member
    exact joint.log r header key ((List.mem_append.1 member).resolve_right (silent r header key))
  · intro r header member
    rcases List.mem_append.1 member with old | new
    · exact joint.answered r header old
    · exact answered r header new
  · intro r j n passed
    rcases p.eq_or_other r with rfl | rfl
    · rw [Function.update_self, Pair.setParty_self] at passed
      rw [Pair.setParty_self]
      exact accounted j n passed
    · rw [atOther, Pair.setParty_other] at passed
      rw [Pair.setParty_other]
      exact (joint.accounted _ j n passed).stay rfl
  · intro r j first below odd
    rcases p.eq_or_other r with rfl | rfl
    · rw [Function.update_self] at below
      by_cases before : j < place r
      · obtain ⟨secret, here⟩ := joint.entered r j first before odd
        exact ⟨secret, List.mem_append_left _ here⟩
      · have own := joint.parity r
        rcases onward with ⟨rfl, -⟩ | ⟨rfl, -, -, -, secret, here⟩
        · exact absurd below before
        · have place_eq : j = place r + 1 := by omega
          rw [place_eq]
          exact ⟨secret, List.mem_append_right _ here⟩
    · rw [atOther] at below
      obtain ⟨secret, here⟩ := joint.entered _ j first below odd
      exact ⟨secret, List.mem_append_left _ here⟩

/-- **An eviction keeps both places**: the keys it takes are remembered. -/
theorem Joint.evict [DecidableEq K] (joint : Joint line past sys count place) (p : Side)
    (n : Nat) :
    Joint line
      (past ++ evictedEvents p (sys.party p).state ((sys.party p).state.evictOldest n).1)
      (sys.setParty p { sys.party p with state := ((sys.party p).state.evictOldest n).1 }) count
      place := by
  have noEvent : ∀ event : Event K, (∀ dh n, event ≠ .evicted p dh n) →
      event ∉ evictedEvents p (sys.party p).state ((sys.party p).state.evictOldest n).1 := by
    intro event other member
    obtain ⟨k, -, rfl⟩ := List.mem_map.1 member
    exact other _ _ rfl
  have quiet : (evictedEvents p (sys.party p).state
      ((sys.party p).state.evictOldest n).1).filterMap Event.newSecret = [] := by
    rw [List.filterMap_eq_nil_iff]
    intro event member
    obtain ⟨k, -, rfl⟩ := List.mem_map.1 member
    rfl
  have moved := joint.move (p := p) (q := { sys.party p with
      state := ((sys.party p).state.evictOldest n).1 })
    ((joint.at_ p).of_sublist (eraseIdx_evictOldest_sublist n _)) (joint.secret p)
    (.inl ⟨rfl, quiet⟩) (fun q header key => noEvent _ (by simp))
    (fun q header member => absurd member (noEvent _ (by simp))) ?_
  · rw [Function.update_eq_self] at moved
    exact moved
  · intro j number passed
    refine (joint.accounted p j number passed).keep fun k member dh_eq n_eq => ?_
    by_cases still : k ∈ ((sys.party p).state.evictOldest n).1.skipped
    · exact .inr (.inr (.inr ⟨k, still, dh_eq, n_eq⟩))
    · refine .inr (.inl (List.mem_map.2 ⟨k, List.mem_filter.2 ⟨member, by simpa using still⟩, ?_⟩))
      rw [dh_eq, n_eq]

theorem acceptedEvents_newSecret (p : Side) (s s' : State K) (header : Header)
    (newSecret : Arr 32) :
    (acceptedEvents p s s' header newSecret).filterMap Event.newSecret =
      if s'.dhrPub ≠ s.dhrPub then [newSecret] else [] := by
  have aged : ((s.skipped.filter (SkippedKey.aged s'.events)).map fun k =>
      (Event.aged p k.dh k.n : Event K)).filterMap Event.newSecret = [] := by
    rw [List.filterMap_eq_nil_iff]
    intro event member
    obtain ⟨k, -, rfl⟩ := List.mem_map.1 member
    rfl
  rw [acceptedEvents, List.filterMap_cons_none (by rfl), List.filterMap_append, aged,
    List.append_nil]
  by_cases stepped : s'.dhrPub ≠ s.dhrPub
  · rw [if_pos stepped, if_pos stepped]
    rfl
  · rw [if_neg stepped, if_neg stepped]
    rfl

theorem mem_acceptedEvents {p : Side} {s s' : State K} {header : Header} {newSecret : Arr 32}
    {event : Event K} (member : event ∈ acceptedEvents p s s' header newSecret) :
    event = .accepted p header ∨ event = .entered p header.dh newSecret ∨
      ∃ dh n, event = .aged p dh n := by
  rcases List.mem_cons.1 member with rfl | rest
  · exact .inl rfl
  rcases List.mem_append.1 rest with entered | aged
  · split at entered
    · exact .inr (.inl (List.mem_singleton.1 entered))
    · simp at entered
  · obtain ⟨k, -, rfl⟩ := List.mem_map.1 aged
    exact .inr (.inr ⟨_, _, rfl⟩)

/-- What a delivery goes past is accounted for. -/
theorem Joint.delivered (joint : Joint line past sys count place) {p : Side} {m j : Nat}
    {header : Header} {key : K} {s' : State K} {newSecret : Arr 32}
    (genuine : Genuine line count j header key)
    (delivers : Delivers line count (place p) m j header (sys.party p).state s') {i : Nat}
    {n : UInt32} (passed : Passed count m s' i n.toNat) :
    AccountedFor (past ++ acceptedEvents p (sys.party p).state s' header newSecret) p s'
      (line.pub i) n := by
  have here : Event.accepted p header ∈
      acceptedEvents p (sys.party p).state s' header newSecret := List.mem_cons_self
  rcases delivers.covered i n.toNat passed with before | ⟨rfl, number⟩ | ⟨k, still, dh, number⟩
  · refine (joint.accounted p i n before).keep fun k member dh number => ?_
    rcases delivers.kept k member with named | still | old
    · rw [SkippedKey.named, decide_eq_true_eq] at named
      exact .inl ⟨header, here, named.1.symm.trans dh, named.2.symm.trans number⟩
    · exact .inr (.inr (.inr ⟨k, still, dh, number⟩))
    · refine .inr (.inr (.inl (List.mem_cons_of_mem _ (List.mem_append_right _ ?_))))
      rw [← dh, ← number]
      exact List.mem_map.2 ⟨k, List.mem_filter.2 ⟨member, old⟩, rfl⟩
  · exact .inl ⟨header, List.mem_append_right _ here, genuine.dh, (UInt32.toNat_inj.1 number).symm⟩
  · exact .inr (.inr (.inr ⟨k, still, dh, UInt32.toNat_inj.1 number⟩))

/-- A delivery of a header on the next chain takes a step. -/
theorem Joint.stepped (joint : Joint line past sys count place) {top : Nat}
    (distinct : line.DistinctTo top) {p : Side} (hm : place p + 1 ≤ top) {header : Header}
    {key key' : K} (genuine : Genuine line count (place p + 1) header key) {s' : State K}
    {dhOutRecv dhOutSend : K} {newDhsPub : Arr 32}
    (received : receive line.kdf (sys.party p).state header dhOutRecv dhOutSend newDhsPub =
      (s', .ok key')) :
    s'.dhrPub = some header.dh ∧ (sys.party p).state.dhrPub ≠ some header.dh := by
  have absent := (joint.at_ p).absent_next distinct hm genuine
  refine ⟨receive_dhrPub absent received, fun same => ?_⟩
  have := ((joint.at_ p).current_iff distinct (by omega) hm genuine).1 same
  omega

/-- A header of an earlier chain with nothing stored for it was left behind. -/
theorem Joint.leftBehind (joint : Joint line past sys count place) {top : Nat}
    (distinct : line.DistinctTo top) {p : Side} (hm : place p ≤ top) {j : Nat} {header : Header}
    {key : K} (genuine : Genuine line count j header key) (parity : j % 2 ≠ place p % 2)
    (left : j + 1 < place p) (absent : trySkipped (sys.party p).state.skipped header = none) :
    LeftBehind past p (sys.party p).state header := by
  refine ⟨?_, ?_, absent⟩
  · obtain ⟨secret, entered⟩ := joint.entered p j genuine.positive (by omega)
      (by rw [← joint.parity p]; exact parity)
    exact ⟨secret, genuine.dh ▸ entered⟩
  · rw [Ne, (joint.at_ p).current_iff distinct hm (by omega) genuine]
    omega

/-- **An adopted delivery keeps both places**, or moves its party two keys on. -/
theorem Joint.deliver (joint : Joint line past sys count place) (agrees : line.dh.Agrees)
    {p : Side} {header : Header} {key : K} {newSecret : Arr 32} {s' : State K}
    {dhOutRecv dhOutSend : K} (straight : ¬ LeftBehind past p (sys.party p).state header)
    (distinct : line.DistinctTo
      (((past ++ acceptedEvents p (sys.party p).state s' header newSecret).filterMap
        Event.newSecret).length + 1))
    (next : s'.dhrPub ≠ (sys.party p).state.dhrPub →
      newSecret = line.secret ((past.filterMap Event.newSecret).length + 2))
    (agreed : line.dh.agree (sys.party p).secret header.dh = some dhOutRecv)
    (fresh : line.dh.agree newSecret header.dh = some dhOutSend)
    (received : receive line.kdf (sys.party p).state header dhOutRecv dhOutSend
      (line.dh.publicKey newSecret) = (s', .ok key))
    (logged : (header, key) ∈ sys.sent p.other) :
    ∃ m, Joint line (past ++ acceptedEvents p (sys.party p).state s' header newSecret)
      (sys.setParty p ((sys.party p).adopt s' newSecret)) count (Function.update place p m) := by
  rw [List.filterMap_append, List.length_append, acceptedEvents_newSecret] at distinct
  obtain ⟨j, reach, known, parity, newest, genuine⟩ := joint.reach logged
  have here := joint.at_ p
  have within := joint.keys p
  have near : line.DistinctTo ((past.filterMap Event.newSecret).length + 1) :=
    distinct.mono (by omega)
  have step : j = place p + 1 →
      s'.dhrPub = some header.dh ∧ (sys.party p).state.dhrPub ≠ some header.dh := by
    rintro rfl
    exact joint.stepped near known genuine received
  have secret : j = place p + 1 → newSecret = line.secret (place p + 2) := by
    intro onward
    obtain ⟨after, before⟩ := step onward
    have last := (newest onward).2
    rw [next (by rw [after]; exact before.symm)]
    congr 1
    omega
  rw [joint.secret p] at agreed
  have silent : ∀ q header' key', Event.sent q header' key' ∉
      acceptedEvents p (sys.party p).state s' header newSecret := by
    intro q header' key' member
    rcases mem_acceptedEvents member with same | same | ⟨_, _, same⟩ <;> simp at same
  have answered : ∀ q header', Event.accepted q header' ∈
      acceptedEvents p (sys.party p).state s' header newSecret →
        ∃ key, (header', key) ∈ sys.sent q.other := by
    intro q header' member
    rcases mem_acceptedEvents member with same | same | ⟨_, _, same⟩
    · rw [Event.accepted.injEq] at same
      obtain ⟨rfl, rfl⟩ := same
      exact ⟨key, logged⟩
    · simp at same
    · simp at same
  rcases here.receive agrees near within known reach parity genuine (joint.unsent_next p) secret
    agreed fresh received with
    ⟨-, delivers, own, peer⟩ | ⟨onward, -, delivers⟩ | ⟨left, absent, -⟩
  · -- The party stays where it is.
    refine ⟨place p, joint.move (q := (sys.party p).adopt s' newSecret) delivers.at_ ?_ (.inl ⟨rfl, ?_⟩) silent answered
      fun i n passed => joint.delivered genuine delivers passed⟩
    · rw [Party.adopt, State.sendingPublic, State.sendingPublic, if_neg (by simpa using own)]
      exact joint.secret p
    · rw [acceptedEvents_newSecret, if_neg (by simpa using peer)]
  · -- It steps onto the next key and adopts the one after.
    obtain ⟨after, before⟩ := step onward
    obtain ⟨ahead, last⟩ := newest onward
    have moved : s'.dhrPub ≠ (sys.party p).state.dhrPub := by
      rw [after]
      exact before.symm
    rw [if_pos moved, List.length_singleton] at distinct
    have dh : header.dh = line.pub (place p + 1) := by rw [genuine.dh, onward]
    refine ⟨place p + 2, joint.move (q := (sys.party p).adopt s' newSecret) delivers.at_ ?_
      (.inr ⟨rfl, by omega, by omega, ?_, newSecret, ?_⟩) silent answered
      fun i n passed => joint.delivered genuine delivers passed⟩
    · have changed : s'.sendingPublic ≠ (sys.party p).state.sendingPublic := by
        rw [State.sendingPublic, State.sendingPublic, delivers.at_.own, here.own]
        intro same
        have := distinct (place p + 2) (place p) (by omega) (by omega) same
        omega
      rw [Party.adopt, if_pos changed]
      exact secret onward
    · rw [acceptedEvents_newSecret, if_pos moved]
      rfl
    · rw [acceptedEvents, if_pos moved, ← dh]
      exact List.mem_cons_of_mem _ (List.mem_append_left _ (List.mem_singleton.2 rfl))
  · exact absurd (joint.leftBehind near within genuine parity left absent) straight

/-! ## Runs -/

section Runs

variable {kdf : Kdf K} {dh : Dh K} {sk : K} {first second spare : Arr 32}

/-- The key adopted after the events `past` is the line's next one. -/
theorem lineOf_next {all : List (Event K)} {newSecret : Arr 32} (onward : past ++ now <+: all)
    (adopts : now.filterMap Event.newSecret = [newSecret]) :
    (lineOf kdf dh sk first second all spare).secret
      ((past.filterMap Event.newSecret).length + 2) = newSecret := by
  obtain ⟨later, rfl⟩ := onward
  rw [lineOf, secretsAlong, List.filterMap_append, List.filterMap_append, adopts]
  simp [List.getD_eq_getElem?_getD]

/-- Past the last key adopted stands the spare one. -/
theorem lineOf_spare (all : List (Event K)) :
    (lineOf kdf dh sk first second all spare).secret
      ((all.filterMap Event.newSecret).length + 2) = spare := by
  simp [lineOf, secretsAlong, List.getD_eq_getElem?_getD]

/-- Fresh keys make a line of distinct ones. -/
theorem lineOf_distinct {all : List (Event K)}
    (fresh : ((secretsAlong first second all).map dh.publicKey).Nodup) {top : Nat}
    (le : top ≤ (all.filterMap Event.newSecret).length + 1) :
    (lineOf kdf dh sk first second all spare).DistinctTo top := by
  intro i j hi hj same
  have length : ((secretsAlong first second all).map dh.publicKey).length =
      (all.filterMap Event.newSecret).length + 2 := by
    rw [List.length_map, secretsAlong, List.length_cons, List.length_cons]
  have key : ∀ k, k ≤ top → ((secretsAlong first second all).map dh.publicKey)[k]? =
      some ((lineOf kdf dh sk first second all spare).pub k) := by
    intro k hk
    have inside : k < (secretsAlong first second all).length := by
      rw [← List.length_map dh.publicKey, length]
      omega
    rw [List.getElem?_map, List.getElem?_eq_getElem inside, Line.pub]
    simp only [lineOf, List.getD_eq_getElem?_getD, List.getElem?_eq_getElem inside,
      Option.map_some, Option.getD_some]
  refine (List.getElem?_inj (by omega) fresh).1 ?_
  rw [key i hi, key j hj, same]

/-- The parties as set up: the receiver at the line's start, the sender a step on. -/
theorem Joint.start (agrees : dh.Agrees) {dhOut : K}
    (agreed : dh.agree first (dh.publicKey second) = some dhOut) (labels : LabelSet)
    (all : List (Event K)) :
    Joint (lineOf kdf dh sk first second all spare) []
      (Pair.start kdf dh sk first second dhOut labels) (fun _ => 0) Side.parity where
  parity := by
    intro p
    cases p <;> rfl
  close := by
    intro p
    cases p <;> simp [Side.parity, Side.other]
  keys := by
    intro p
    cases p <;> simp [Side.parity]
  newest := ⟨.sender, rfl⟩
  at_ := by
    intro p
    cases p with
    | sender =>
        exact @At.initSender K (lineOf kdf dh sk first second all spare) _ agrees _ labels agreed
          fun _ => rfl
    | receiver =>
        exact @At.initReceiver K (lineOf kdf dh sk first second all spare) _ labels fun _ => rfl
  secret := by
    intro p
    cases p <;> rfl
  unsent := fun _ _ => rfl
  logged := by
    intro p header key member
    simp [Pair.start] at member
  log := by
    intro p header key member
    simp at member
  answered := by
    intro p header member
    simp at member
  accounted := by
    rintro p j n ⟨positive, below, -⟩
    cases p <;> simp only [Side.parity] at below <;> omega
  entered := by
    intro p j positive below
    cases p <;> simp only [Side.parity] at below <;> omega

section Calls

/-- **What a call does**: nothing, a send, an adopted delivery, or an eviction. -/
theorem call_cases [DecidableEq K] (kdf : Kdf K) (dh : Dh K) (sys : Pair K) (c : Call) :
    Ratchet.call kdf dh sys c = (sys, []) ∨
      (∃ p s header key, Ratchet.send kdf (sys.party p).state = (s, .ok (header, key)) ∧
        Ratchet.call kdf dh sys c =
          ((sys.setParty p { sys.party p with state := s }).logSent p (header, key),
            [.sent p header key])) ∨
      (∃ p header newSecret dhOutRecv dhOutSend s key,
        dh.agree (sys.party p).secret header.dh = some dhOutRecv ∧
        dh.agree newSecret header.dh = some dhOutSend ∧
        receive kdf (sys.party p).state header dhOutRecv dhOutSend (dh.publicKey newSecret) =
          (s, .ok key) ∧
        (header, key) ∈ sys.sent p.other ∧
        Ratchet.call kdf dh sys c = (sys.setParty p ((sys.party p).adopt s newSecret),
          acceptedEvents p (sys.party p).state s header newSecret)) ∨
      ∃ p n, Ratchet.call kdf dh sys c =
        (sys.setParty p { sys.party p with state := ((sys.party p).state.evictOldest n).1 },
          evictedEvents p (sys.party p).state ((sys.party p).state.evictOldest n).1) := by
  cases c with
  | send p =>
      cases answer : Ratchet.send kdf (sys.party p).state with
      | mk s answered =>
          cases answered with
          | error => exact .inl (by simp only [Ratchet.call, answer])
          | ok sent => exact .inr (.inl ⟨p, s, sent.1, sent.2, answer, by
              simp only [Ratchet.call, answer]⟩)
  | evict p n => exact .inr (.inr (.inr ⟨p, n, rfl⟩))
  | deliver p header newSecret =>
      cases agreed : dh.agree (sys.party p).secret header.dh with
      | none => exact .inl (by simp only [Ratchet.call, agreed])
      | some dhOutRecv =>
          cases own : dh.agree newSecret header.dh with
          | none => exact .inl (by simp only [Ratchet.call, agreed, own])
          | some dhOutSend =>
              cases answer : receive kdf (sys.party p).state header dhOutRecv dhOutSend
                  (dh.publicKey newSecret) with
              | mk s answered =>
                  cases answered with
                  | error => exact .inl (by simp only [Ratchet.call, agreed, own, answer])
                  | ok key =>
                      by_cases logged : (header, key) ∈ sys.sent p.other
                      · exact .inr (.inr (.inl ⟨p, header, newSecret, dhOutRecv, dhOutSend, s, key,
                          agreed, own, answer, logged, by
                            simp only [Ratchet.call, agreed, own, answer, if_pos logged]⟩))
                      · exact .inl (by
                          simp only [Ratchet.call, agreed, own, answer, if_neg logged])

/-- **Every call keeps both places**, on the line its own key is part of. -/
theorem Joint.call [DecidableEq K] (agrees : dh.Agrees) {all : List (Event K)}
    (fresh : ((secretsAlong first second all).map dh.publicKey).Nodup)
    (joint : Joint (lineOf kdf dh sk first second all spare) past sys count place) {c : Call}
    (straight : Straight kdf dh past sys c) (onward : past ++ (Ratchet.call kdf dh sys c).2 <+: all) :
    ∃ count place, Joint (lineOf kdf dh sk first second all spare)
      (past ++ (Ratchet.call kdf dh sys c).2) (Ratchet.call kdf dh sys c).1 count place := by
  rcases call_cases kdf dh sys c with same | ⟨p, s, header, key, sent, same⟩ |
    ⟨p, header, newSecret, dhOutRecv, dhOutSend, s, key, agreed, own, received, logged, same⟩ |
    ⟨p, n, same⟩
  · rw [same, List.append_nil]
    exact ⟨count, place, joint⟩
  · rw [same]
    exact ⟨_, place, joint.send sent⟩
  · rw [same] at onward ⊢
    have short : ((past ++ acceptedEvents p (sys.party p).state s header newSecret).filterMap
        Event.newSecret).length ≤ (all.filterMap Event.newSecret).length :=
      (onward.sublist.filterMap _).length_le
    have next : s.dhrPub ≠ (sys.party p).state.dhrPub → newSecret =
        (lineOf kdf dh sk first second all spare).secret
          ((past.filterMap Event.newSecret).length + 2) := by
      intro stepped
      refine (lineOf_next onward ?_).symm
      rw [acceptedEvents_newSecret, if_pos stepped]
    have notLeft := straight p header (by rw [same]; exact List.mem_cons_self)
    obtain ⟨m, moved⟩ := joint.deliver agrees notLeft
      (lineOf_distinct fresh (Nat.succ_le_succ short)) next agreed own received logged
    exact ⟨count, _, moved⟩
  · rw [same]
    exact ⟨count, place, joint.evict p n⟩

/-- **Every straight run keeps both parties on one line.** -/
theorem run_joint [DecidableEq K] (agrees : dh.Agrees) {dhOut : K}
    (agreed : dh.agree first (dh.publicKey second) = some dhOut) (labels : LabelSet)
    (calls : List Call)
    (straight : (Ratchet.call kdf dh).AllCalls (Straight kdf dh) []
      (Pair.start kdf dh sk first second dhOut labels) calls)
    (fresh : ((secretsAlong first second ((Ratchet.call kdf dh).run
      (Pair.start kdf dh sk first second dhOut labels) calls).2).map dh.publicKey).Nodup)
    (spare : Arr 32) :
    ∃ count place, Joint
      (lineOf kdf dh sk first second ((Ratchet.call kdf dh).run
        (Pair.start kdf dh sk first second dhOut labels) calls).2 spare)
      ((Ratchet.call kdf dh).run (Pair.start kdf dh sk first second dhOut labels) calls).2
      ((Ratchet.call kdf dh).run (Pair.start kdf dh sk first second dhOut labels) calls).1
      count place := by
  have keeps : ∀ all : List (Event K),
      ((secretsAlong first second all).map dh.publicKey).Nodup → ∀ past sys c,
        Straight kdf dh past sys c →
          (past <+: all → ∃ count place,
            Joint (lineOf kdf dh sk first second all spare) past sys count place) →
          past ++ (Ratchet.call kdf dh sys c).2 <+: all → ∃ count place,
            Joint (lineOf kdf dh sk first second all spare)
              (past ++ (Ratchet.call kdf dh sys c).2) (Ratchet.call kdf dh sys c).1 count place := by
    intro all fresh past sys c straight kept onward
    obtain ⟨count, place, joint⟩ := kept ((List.prefix_append _ _).trans onward)
    exact joint.call agrees fresh straight onward
  have start : [] <+: ((Ratchet.call kdf dh).run
      (Pair.start kdf dh sk first second dhOut labels) calls).2 → ∃ count place,
        Joint (lineOf kdf dh sk first second ((Ratchet.call kdf dh).run
          (Pair.start kdf dh sk first second dhOut labels) calls).2 spare) []
          (Pair.start kdf dh sk first second dhOut labels) count place :=
    fun _ => ⟨_, _, Joint.start agrees agreed labels _⟩
  exact straight.keeps (keeps _ fresh) start (List.prefix_refl _)

/-- A stored key is found under its header. -/
theorem trySkipped_isSome {l : List (SkippedKey K)} {header : Header} {k : SkippedKey K}
    (member : k ∈ l) (dh_eq : k.dh = header.dh) (n_eq : k.n = header.n) :
    (trySkipped l header).isSome = true := by
  rw [Option.isSome_iff_ne_none, trySkipped, Ne, Option.map_eq_none_iff, takeFirst_eq_none]
  intro absent
  have other := absent k member
  rw [SkippedKey.named, decide_eq_false_iff_not] at other
  exact other ⟨dh_eq, n_eq⟩

/-- A genuine number passed but never answered, evicted or aged out is stored. -/
theorem Joint.stored (joint : Joint line past sys count place) {top : Nat}
    (distinct : line.DistinctTo top) (known : ∀ q, place q ≤ top) {p : Side} {j : Nat}
    {header : Header} {key : K} (genuine : Genuine line count j header key)
    (passed : Passed count (place p) (sys.party p).state j header.n.toNat)
    (unanswered : Event.accepted p header ∉ past)
    (held : Event.evicted p header.dh header.n ∉ past)
    (young : Event.aged p header.dh header.n ∉ past) :
    (trySkipped (sys.party p).state.skipped header).isSome = true := by
  have below := passed.2.1
  have within := known p
  rcases joint.accounted p j header.n passed with ⟨header', here, dh_eq, n_eq⟩ | gone | old | still
  · -- A header of this chain and number is this one.
    obtain ⟨key', logged⟩ := joint.answered p header' here
    obtain ⟨i, reach, -, genuine'⟩ := joint.logged p.other header' key' logged
    have same : i = j := distinct i j (reach.trans (known _)) (by omega)
      (genuine'.dh.symm.trans dh_eq)
    subst same
    have header_eq : header' = header := by
      have pn_eq := UInt32.toNat_inj.1 (genuine'.before.trans genuine.before.symm)
      cases header
      cases header'
      simp only [Header.mk.injEq]
      exact ⟨dh_eq.trans genuine.dh.symm, pn_eq, n_eq⟩
    exact absurd (header_eq ▸ here) unanswered
  · exact absurd (genuine.dh ▸ gone) held
  · exact absurd (genuine.dh ▸ old) young
  · obtain ⟨k, member, dh_eq, n_eq⟩ := still
    exact trySkipped_isSome member (dh_eq.trans genuine.dh.symm) n_eq

/-- **Two-party agreement of the classical ratchet.**  In every interleaving of
sends, deliveries and evictions, where deliveries take the true agreements, every
adopted key is fresh and no key on a chain left behind comes out as the sender's, a
receive of a header the peer sent answers the peer's key, unless its chain was left
with nothing stored for it; and it does answer, on its first delivery, while the
skips are within `maxSkip`, the store has room and its key was neither evicted nor
aged out. -/
theorem classical_agreement [DecidableEq K] (kdf : Kdf K) (dh : Dh K) (agrees : dh.Agrees) (sk : K)
    (first second : Arr 32) (dhOut : K)
    (agreed : dh.agree first (dh.publicKey second) = some dhOut) (labels : LabelSet)
    (calls : List Call)
    (straight : (call kdf dh).AllCalls (Straight kdf dh) []
      (Pair.start kdf dh sk first second dhOut labels) calls)
    (fresh : ((secretsAlong first second ((call kdf dh).run
      (Pair.start kdf dh sk first second dhOut labels) calls).2).map dh.publicKey).Nodup) :
    let run := (call kdf dh).run (Pair.start kdf dh sk first second dhOut labels) calls
    ∀ p header key, Event.sent p.other header key ∈ run.2 → ∀ newSecret,
      (∀ dhOutRecv dhOutSend s' key',
        dh.agree (run.1.party p).secret header.dh = some dhOutRecv →
        dh.agree newSecret header.dh = some dhOutSend →
        receive kdf (run.1.party p).state header dhOutRecv dhOutSend (dh.publicKey newSecret) =
          (s', .ok key') →
        ¬ LeftBehind run.2 p (run.1.party p).state header → key' = key) ∧
      (Event.accepted p header ∉ run.2 → Event.evicted p header.dh header.n ∉ run.2 →
        Event.aged p header.dh header.n ∉ run.2 →
        (skipCounts (run.1.party p).state header).1 ≤ maxSkip.toNat →
        (skipCounts (run.1.party p).state header).2 ≤ maxSkip.toNat →
        (run.1.party p).state.skipped.length + (skipCounts (run.1.party p).state header).1 +
          (skipCounts (run.1.party p).state header).2 ≤ maxSkippedStore →
        ∃ dhOutRecv dhOutSend s', dh.agree (run.1.party p).secret header.dh = some dhOutRecv ∧
          dh.agree newSecret header.dh = some dhOutSend ∧
          receive kdf (run.1.party p).state header dhOutRecv dhOutSend
            (dh.publicKey newSecret) = (s', .ok key)) := by
  intro run p header key sent newSecret
  obtain ⟨count, place, joint⟩ := run_joint agrees agreed labels calls straight fresh newSecret
  have distinct : (lineOf kdf dh sk first second run.2 newSecret).DistinctTo
      ((run.2.filterMap Event.newSecret).length + 1) := lineOf_distinct fresh le_rfl
  obtain ⟨j, reach, known, parity, newest, genuine⟩ :=
    joint.reach (joint.log p.other header key sent)
  have here := joint.at_ p
  have within := joint.keys p
  -- The key this delivery would adopt stands past the line's last one.
  have next : j = place p + 1 →
      newSecret = (lineOf kdf dh sk first second run.2 newSecret).secret (place p + 2) := by
    intro onward
    have last : place p + 2 = (run.2.filterMap Event.newSecret).length + 2 := by
      have : j = (run.2.filterMap Event.newSecret).length + 1 := (newest onward).2
      omega
    rw [last]
    exact (lineOf_spare run.2).symm
  have answers : ∀ dhOutRecv dhOutSend s' key',
      dh.agree (run.1.party p).secret header.dh = some dhOutRecv →
      dh.agree newSecret header.dh = some dhOutSend →
      receive kdf (run.1.party p).state header dhOutRecv dhOutSend (dh.publicKey newSecret) =
        (s', .ok key') →
      key' = key ∨ (j + 1 < place p ∧ trySkipped (run.1.party p).state.skipped header = none) := by
    intro dhOutRecv dhOutSend s' key' true_ own received
    rw [joint.secret p] at true_
    rcases here.receive agrees distinct within known reach parity genuine (joint.unsent_next p) next
      true_ own received with ⟨same, -⟩ | ⟨-, same, -⟩ | ⟨left, absent, -⟩
    · exact .inl same
    · exact .inl same
    · exact .inr ⟨left, absent⟩
  refine ⟨?_, ?_⟩
  · intro dhOutRecv dhOutSend s' key' true_ own received notLeft
    refine (answers dhOutRecv dhOutSend s' key' true_ own received).resolve_right ?_
    rintro ⟨left, absent⟩
    exact notLeft (joint.leftBehind distinct within genuine parity left absent)
  · intro unanswered held young old new room
    obtain ⟨dhOutRecv, true_⟩ := agrees.contributory (run.1.party p).secret
      ((lineOf kdf dh sk first second run.2 newSecret).secret j)
    obtain ⟨dhOutSend, own⟩ := agrees.contributory newSecret
      ((lineOf kdf dh sk first second run.2 newSecret).secret j)
    have dh_eq : header.dh =
        dh.publicKey ((lineOf kdf dh sk first second run.2 newSecret).secret j) := genuine.dh
    rw [← dh_eq] at true_ own
    have passed : Passed count (place p) (run.1.party p).state j header.n.toNat →
        (trySkipped (run.1.party p).state.skipped header).isSome = true := fun passed =>
      joint.stored distinct joint.keys genuine passed unanswered held young
    have opened : (run.1.party p).state.dhrPub = some header.dh →
        (trySkipped (run.1.party p).state.skipped header).isSome = true ∨
          ((run.1.party p).state.ckr.isSome = true ∧
            (run.1.party p).state.nr.toNat ≤ header.n.toNat) := by
      intro same
      have current := (here.current_iff distinct within known genuine).1 same
      have positive := genuine.positive
      by_cases due : (run.1.party p).state.nr.toNat ≤ header.n.toNat
      · refine .inr ⟨?_, due⟩
        rw [(here.opened (by omega)).1]
        rfl
      · refine .inl (passed ⟨positive, by omega, parity, ?_⟩)
        rw [if_pos current]
        omega
    obtain ⟨s', key', received⟩ := receive_answers kdf dhOutRecv dhOutSend (dh.publicKey newSecret)
      genuine.last opened old new room
    refine ⟨dhOutRecv, dhOutSend, s', true_, own, ?_⟩
    rcases answers dhOutRecv dhOutSend s' key' true_ own received with rfl | ⟨left, absent⟩
    · exact received
    · have stored := passed ⟨genuine.positive, by omega, parity, by
        rw [if_neg (by omega)]
        exact genuine.sent⟩
      rw [absent] at stored
      simp at stored

end Calls

end Runs

/-! ## Runs on the sample agreement -/

/-- A step onto the chain under `dh`. -/
def Event.entersOn (p : Side) (dh : Arr 32) : Event K → Bool
  | .entered q onto _ => decide (q = p ∧ onto = dh)
  | _ => false

instance leftBehindDecidable (past : List (Event K)) (p : Side) (s : State K) (header : Header) :
    Decidable (LeftBehind past p s header) :=
  decidable_of_iff (past.any (Event.entersOn p header.dh) = true ∧ s.dhrPub ≠ some header.dh ∧
    trySkipped s.skipped header = none) (and_congr_left' (by
      rw [List.any_eq_true]
      constructor
      · rintro ⟨e, member, enters⟩
        cases e with
        | entered q onto secret =>
            simp only [Event.entersOn, decide_eq_true_eq] at enters
            obtain ⟨rfl, rfl⟩ := enters
            exact ⟨secret, member⟩
        | _ => simp [Event.entersOn] at enters
      · rintro ⟨secret, member⟩
        exact ⟨_, member, by simp [Event.entersOn]⟩))

/-- An answer to a header its party had left behind. -/
def Event.astray (past : List (Event K)) (sys : Pair K) : Event K → Bool
  | .accepted p header => decide (LeftBehind past p (sys.party p).state header)
  | _ => false

instance straightDecidable [DecidableEq K] (kdf : Kdf K) (dh : Dh K) (past : List (Event K))
    (sys : Pair K) (c : Call) : Decidable (Straight kdf dh past sys c) :=
  decidable_of_iff (((call kdf dh sys c).2.any (Event.astray past sys)) = false) (by
    rw [List.any_eq_false]
    constructor
    · intro none_ p header member left
      exact none_ _ member (by simpa [Event.astray] using left)
    · intro straight e member
      cases e with
      | accepted p header => simpa [Event.astray] using straight p header member
      | _ => simp [Event.astray])

namespace Reply

/-- Alice sends, Bob steps onto her key, and answers. -/
def calls : List Call :=
  [.send .sender, .deliver .receiver ⟨Sample.publicKey (Vector.replicate 32 1), 0, 0⟩
    (Vector.replicate 32 3), .send .receiver]

/-- What Alice's key and Bob's agree on. -/
def dhOut : Bytes :=
  (Sample.mix (Sample.publicKey (Vector.replicate 32 1))
    (Sample.publicKey (Vector.replicate 32 2))).toList

/-- Both parties and what happened between them. -/
def run : Pair Bytes × List (Event Bytes) :=
  (call Sample.idealKdf (Sample.dh Vector.toList)).run
    (Pair.start Sample.idealKdf (Sample.dh Vector.toList) [7] (Vector.replicate 32 1)
      (Vector.replicate 32 2) dhOut .tacenta) calls

def header : Header := ⟨Sample.publicKey (Vector.replicate 32 3), 0, 0⟩

/-- The key Bob answered under. -/
def key : Bytes :=
  match run.2 with
  | [_, _, _, .sent _ _ key] => key
  | _ => []

end Reply

/-- Alice answers Bob's reply with the key he sent it under. -/
theorem classical_agreement_sample :
    Event.sent .receiver Reply.header Reply.key ∈ Reply.run.2 ∧ ∃ dhOutRecv dhOutSend s',
      receive Sample.idealKdf (Reply.run.1.party .sender).state Reply.header dhOutRecv dhOutSend
        (Sample.publicKey (Vector.replicate 32 4)) = (s', .ok Reply.key) := by
  have sent : Event.sent .receiver Reply.header Reply.key ∈ Reply.run.2 := by decide +kernel
  have straight : (call Sample.idealKdf (Sample.dh Vector.toList)).AllCalls
      (Straight Sample.idealKdf (Sample.dh Vector.toList)) []
      (Pair.start Sample.idealKdf (Sample.dh Vector.toList) [7] (Vector.replicate 32 1)
        (Vector.replicate 32 2) Reply.dhOut .tacenta) Reply.calls := by decide +kernel
  have answers := (classical_agreement Sample.idealKdf (Sample.dh Vector.toList)
    (Sample.dh_agrees _) [7] (Vector.replicate 32 1) (Vector.replicate 32 2) Reply.dhOut
    (by decide +kernel) .tacenta Reply.calls straight (by decide +kernel) .sender Reply.header
    Reply.key sent (Vector.replicate 32 4)).2
    (by decide +kernel) (by decide +kernel) (by decide +kernel) (by decide +kernel)
    (by decide +kernel) (by decide +kernel)
  obtain ⟨dhOutRecv, dhOutSend, s', -, -, received⟩ := answers
  exact ⟨sent, dhOutRecv, dhOutSend, s', received⟩

namespace Collided

/-- A derivation that adds its bytes up, modulo five. -/
def kdf : Kdf UInt8 where
  bytes k := [k]
  zero := 0
  hmac key data := UInt8.ofNat (((key ++ data).map UInt8.toNat).sum % 5)

def dh : Dh UInt8 := Sample.dh fun shared => shared.toList.headD 0

def secret (n : UInt8) : Arr 32 := Vector.replicate 32 n

def start : Pair UInt8 := Pair.start kdf dh 1 (secret 1) (secret 2) 3 .tacenta

/-- Alice and Bob exchange three messages, each on a new chain; then Alice's first
one arrives again, on a chain Bob has left, and Bob sends. -/
def calls : List Call :=
  [.send .sender, .deliver .receiver ⟨dh.publicKey (secret 1), 0, 0⟩ (secret 3), .send .receiver,
    .deliver .sender ⟨dh.publicKey (secret 3), 0, 0⟩ (secret 4), .send .sender,
    .deliver .receiver ⟨dh.publicKey (secret 4), 1, 0⟩ (secret 5),
    .deliver .receiver ⟨dh.publicKey (secret 1), 0, 0⟩ (secret 6), .send .receiver]

def run : Pair UInt8 × List (Event UInt8) := (call kdf dh).run start calls

/-- Bob's message after the repeat. -/
def header : Header := ⟨dh.publicKey (secret 6), 0, 0⟩

end Collided

/-- **A repeat on a chain left behind can part the two.**  Under a derivation whose
keys collide, the repeat's key comes out as the sender's and the repeat is adopted;
Bob's next message, new to Alice, then derives another key than Bob sent it under. -/
theorem classical_agreement_collision :
    Collided.dh.Agrees ∧
    Collided.dh.agree (Collided.secret 1) (Collided.dh.publicKey (Collided.secret 2)) = some 3 ∧
    ((secretsAlong (Collided.secret 1) (Collided.secret 2) Collided.run.2).map
      Collided.dh.publicKey).Nodup ∧
    Event.sent .receiver Collided.header 0 ∈ Collided.run.2 ∧
    Event.accepted .sender Collided.header ∉ Collided.run.2 ∧
    ¬ LeftBehind Collided.run.2 .sender (Collided.run.1.party .sender).state Collided.header ∧
    Collided.dh.agree (Collided.run.1.party .sender).secret Collided.header.dh = some 2 ∧
    Collided.dh.agree (Collided.secret 7) Collided.header.dh = some 1 ∧
    (receive Collided.kdf (Collided.run.1.party .sender).state Collided.header 2 1
      (Collided.dh.publicKey (Collided.secret 7))).2.toOption = some 4 := by
  refine ⟨Sample.dh_agrees _, ?_⟩
  decide +kernel

end Tacenta.Ratchet
