/-
# Tacenta.Triple.Invariant -- what a Triple Ratchet step does, and keeps

A success of either operation is a success of both halves (`State.send_ok`,
`State.receive_ok`).  `Valid` is the composition's invariant: both halves', and
one role between them.  Eviction only ever removes skipped keys (`Thinned`), so
it keeps all of it.
-/
import Tacenta.Ratchet.Invariant
import Tacenta.Spqr.Invariant
import Tacenta.Triple

set_option autoImplicit false

namespace Tacenta.Triple

variable {K : Type} {kdf : Kdf K}

/-! ## What a success of each operation found and left -/

theorem State.send_ok {s s' : State K} {epoch : UInt64} {output : Option (Spqr.Output K)}
    {header : Header} {key : K} (sent : s.send kdf epoch output = (s', .ok (header, key))) :
    ∃ dr mkEc pqN mkPq, Ratchet.send kdf s.classical = (s'.classical, .ok (dr, mkEc)) ∧
      s.postQuantum.send kdf epoch output = (s'.postQuantum, .ok (pqN, mkPq)) ∧
      header = { dr := dr, epoch := epoch, pqN := pqN } ∧ key = combine kdf mkEc mkPq := by
  unfold State.send at sent
  split at sent
  · simp at sent
  · rename_i classical dr mkEc hclassical
    split at sent
    · simp at sent
    · rename_i postQuantum pqN mkPq hpostQuantum
      simp only [Prod.mk.injEq, Except.ok.injEq] at sent
      obtain ⟨rfl, rfl, rfl⟩ := sent
      exact ⟨dr, mkEc, pqN, mkPq, hclassical, hpostQuantum, rfl, rfl⟩

theorem State.receive_ok {s s' : State K} {header : Header} {dhOutRecv dhOutSend : K}
    {newDhsPub : Arr 32} {output : Option (Spqr.Output K)} {key : K}
    (received : s.receive kdf header dhOutRecv dhOutSend newDhsPub output = .ok (s', key)) :
    ∃ mkEc mkPq,
      Ratchet.receive kdf s.classical header.dr dhOutRecv dhOutSend newDhsPub =
        (s'.classical, .ok mkEc) ∧
      s.postQuantum.receive kdf header.epoch output header.pqN = (s'.postQuantum, .ok mkPq) ∧
      key = combine kdf mkEc mkPq := by
  unfold State.receive at received
  split at received
  · simp at received
  · rename_i classical mkEc hclassical
    split at received
    · simp at received
    · rename_i postQuantum mkPq hpostQuantum
      simp only [Except.ok.injEq, Prod.mk.injEq] at received
      obtain ⟨rfl, rfl⟩ := received
      exact ⟨mkEc, mkPq, hclassical, hpostQuantum, rfl⟩

/-! ## Thinning -/

/-- `w` is `s` with fewer skipped keys. -/
structure Thinned (s w : State K) : Prop where
  classical : ∃ left, left.Sublist s.classical.skipped ∧
    w.classical = { s.classical with skipped := left }
  postQuantum : ∃ left, left.Sublist s.postQuantum.skipped ∧
    w.postQuantum = { s.postQuantum with skipped := left }

theorem Thinned.refl (s : State K) : Thinned s s :=
  ⟨⟨_, .refl _, rfl⟩, ⟨_, .refl _, rfl⟩⟩

theorem Thinned.trans {s t w : State K} (first : Thinned s t) (second : Thinned t w) :
    Thinned s w := by
  obtain ⟨⟨l, hl, ht⟩, ⟨m, hm, ht'⟩⟩ := first
  obtain ⟨⟨l', hl', hw⟩, ⟨m', hm', hw'⟩⟩ := second
  rw [ht] at hl' hw
  rw [ht'] at hm' hw'
  exact ⟨⟨l', hl'.trans hl, hw⟩, ⟨m', hm'.trans hm, hw'⟩⟩

theorem Thinned.sendingPublic {s w : State K} (thinned : Thinned s w) :
    w.sendingPublic = s.sendingPublic := by
  obtain ⟨left, -, h⟩ := thinned.classical
  rw [State.sendingPublic, h]
  rfl

/-! ## The invariant -/

/-- The composition's invariant. -/
structure Valid (s : State K) : Prop where
  classical : Ratchet.Valid s.classical
  postQuantum : Spqr.State.Valid s.postQuantum
  role : ∀ sender, s.startedAsSender = some sender →
    (s.direction = .a2b ↔ sender = true)

theorem invariant_iff {s : State K} : s.invariant = true ↔ Valid s := by
  simp only [State.invariant, Bool.and_eq_true]
  constructor
  · rintro ⟨⟨classical, sparse⟩, roles⟩
    refine ⟨Ratchet.invariant_iff.1 classical, Spqr.State.invariant_iff.1 sparse, ?_⟩
    intro sender started
    rw [show s.classical.startedAsSender = some sender from started] at roles
    cases sender <;> cases direction : s.postQuantum.direction <;>
      simp_all [State.direction]
  · intro valid
    refine ⟨⟨Ratchet.invariant_iff.2 valid.classical, Spqr.State.invariant_iff.2 valid.postQuantum⟩, ?_⟩
    have role := valid.role
    simp only [State.startedAsSender, State.direction] at role
    cases started : s.classical.startedAsSender with
    | none => rfl
    | some sender =>
        have := role sender started
        cases sender <;> cases direction : s.postQuantum.direction <;> simp_all

theorem Thinned.valid {s w : State K} (thinned : Thinned s w) (valid : Valid s) : Valid w := by
  obtain ⟨⟨l, hl, hc⟩, ⟨m, hm, hp⟩⟩ := thinned
  refine ⟨hc ▸ valid.classical.of_sublist hl, hp ▸ valid.postQuantum.of_sublist hm, ?_⟩
  intro sender started
  rw [State.direction, hp]
  refine valid.role sender ?_
  rw [State.startedAsSender, hc] at started
  exact started

/-- **Sending keeps the invariant.** -/
theorem Valid.send {s s' : State K} {epoch : UInt64} {output : Option (Spqr.Output K)}
    {header : Header} {key : K} (valid : Valid s)
    (sent : s.send kdf epoch output = (s', .ok (header, key))) :
    Valid s' ∧ s'.direction = s.direction := by
  obtain ⟨dr, mkEc, pqN, mkPq, classical, sparse, -, -⟩ := State.send_ok sent
  have direction := (Spqr.State.send_frame sparse).2.1
  refine ⟨⟨valid.classical.send classical, valid.postQuantum.send sparse, ?_⟩, direction⟩
  intro sender started
  obtain ⟨ck, next, hck, -, -, -, after⟩ := Ratchet.send_ok classical
  rw [State.direction, direction]
  refine valid.role sender ?_
  rw [State.startedAsSender, after] at started
  simp only [State.startedAsSender, Ratchet.State.startedAsSender, hck] at started ⊢
  cases ckr : s.classical.ckr <;> simpa only [ckr] using started

/-- **Receiving keeps the invariant**, on canonical keys. -/
theorem Valid.receive {s s' : State K} {header : Header} {dhOutRecv dhOutSend : K}
    {newDhsPub : Arr 32} {output : Option (Spqr.Output K)} {key : K} (valid : Valid s)
    (header_canonical : Curve.isCanonicalX25519 header.dr.dh = true)
    (new_canonical : Curve.isCanonicalX25519 newDhsPub = true)
    (received : s.receive kdf header dhOutRecv dhOutSend newDhsPub output = .ok (s', key)) :
    Valid s' ∧ s'.direction = s.direction := by
  obtain ⟨mkEc, mkPq, classical, sparse, -⟩ := State.receive_ok received
  have direction := (Spqr.State.receive_frame sparse).2.1
  refine ⟨⟨valid.classical.receive header_canonical new_canonical classical,
    valid.postQuantum.receive sparse, ?_⟩, direction⟩
  intro sender started
  rw [State.direction, direction]
  refine valid.role sender ?_
  obtain ⟨left, -, after⟩ | ⟨-, mid, -, advanced⟩ := Ratchet.receive_ok classical
  · rw [State.startedAsSender, after] at started
    exact started
  · -- Both chains are there now, so the classical half no longer shows a role.
    obtain ⟨_, _, _, -, -, -, -, -, after⟩ := Ratchet.advanceChain_ok advanced
    rw [State.startedAsSender, after] at started
    simp only [Ratchet.State.startedAsSender, Ratchet.ageStore_cks, Ratchet.ageStore_ckr] at started
    split at started <;> simp_all

theorem initSender_valid {sk : Bytes} {ourPub peerPub : Arr 32} {dhOut : K}
    {labels : Ratchet.LabelSet} (ours : Curve.isCanonicalX25519 ourPub = true)
    (theirs : Curve.isCanonicalX25519 peerPub = true) :
    Valid (State.initSender kdf sk ourPub peerPub dhOut labels) :=
  ⟨Ratchet.initSender_valid ours theirs, Spqr.State.init_valid _ _ _, fun sender started => by
    have : sender = true := (Option.some.inj started).symm
    simp [this, State.initSender, State.direction, Spqr.State.initAlice, Spqr.State.init]⟩

theorem initReceiver_valid {sk : Bytes} {ourPub : Arr 32} {labels : Ratchet.LabelSet}
    (ours : Curve.isCanonicalX25519 ourPub = true) :
    Valid (State.initReceiver kdf sk ourPub labels) :=
  ⟨Ratchet.initReceiver_valid ours, Spqr.State.init_valid _ _ _, fun sender started => by
    have : sender = false := (Option.some.inj started).symm
    simp [this, State.initReceiver, State.direction, Spqr.State.initBob, Spqr.State.init]⟩

end Tacenta.Triple
