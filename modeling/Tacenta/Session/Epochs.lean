/-
# Tacenta.Session.Epochs -- the agreement's epochs and the sparse ratchet's

The Braid and the sparse ratchet of one session count the same epochs.
`Coupled` is the invariant: the sparse ratchet's epoch is the number of keys the
Braid has emitted, and its window is open.  Every call keeps it
(`step_coupled`), because both halves are adopted together or not at all.

`epoch_coupling` draws the consequences over whole runs: the outputs folded are
those of epochs `1, 2, 3, …`, the epoch the Braid reports names an open sending
chain, and neither `encrypt` nor `decrypt` fails on an epoch's order.
-/
import Tacenta.Braid.Invariant
import Tacenta.Session.Calls
import Tacenta.Spqr.Window

set_option autoImplicit false

namespace Tacenta.Session

open Tacenta.Spqr.State (Open FitsNext)
open Tacenta.Triple (TripleError Thinned)
open Tacenta.Wire (decodeMessage)

variable {K : Type} {p : Primitives K} {s : Session K}

/-! ## One session -/

/-- The sparse ratchet is at the epoch of the last key the Braid emitted, with
its window open; after the agreement has failed, nothing is asked. -/
def Coupled (s : Session K) : Prop :=
  s.braid.failed = true ∨
    (1 ≤ s.braid.state.epoch ∧ s.braid.state.emitted = s.triple.postQuantum.epoch.toNat ∧
      s.triple.postQuantum.Open)

/-- What a Braid step emits fits the sparse ratchet at the epoch emitted so far,
and counts one epoch if it is there. -/
theorem emitsNext_fits {before after : Braid.State K} {output : Option (Braid.Output K)}
    (emits : Braid.EmitsNext before after output) {pq : Spqr.State K}
    (same : before.emitted = pq.epoch.toNat) :
    FitsNext pq (output.map spqrOutput) ∧
      after.emitted = pq.epoch.toNat + (output.map spqrOutput).toList.length := by
  obtain ⟨rfl, kept⟩ | ⟨o, rfl, next, climbs⟩ := emits
  · exact ⟨by simp [FitsNext], by rw [kept, same]; rfl⟩
  · refine ⟨?_, by rw [climbs, same]; rfl⟩
    rintro o' found
    rw [← Option.some.inj found, ← same]
    exact next

/-- What a send of the Braid reports: an epoch of the sparse ratchet's window
once the output is folded. -/
theorem send_reports {b braid : Braid.Braid K} {rng rng' : Rng} {agMsg : Braid.Msg} {epoch : UInt64}
    {output : Option (Braid.Output K)} {pq : Spqr.State K} (positive : 1 ≤ b.state.epoch)
    (same : b.state.emitted = pq.epoch.toNat)
    (ran : b.send p.kdf p.incKem rng = (agMsg, epoch, output, braid, rng'))
    (survived : braid.failed = false) :
    1 ≤ braid.state.epoch ∧ FitsNext pq (output.map spqrOutput) ∧
      braid.state.emitted = pq.epoch.toNat + (output.map spqrOutput).toList.length ∧
      epoch.toNat ≤ pq.epoch.toNat + (output.map spqrOutput).toList.length ∧
      pq.epoch.toNat + (output.map spqrOutput).toList.length ≤ epoch.toNat + 1 := by
  simp only [Braid.Braid.send, Prod.mk.injEq] at ran
  obtain ⟨-, reported, emitted, rfl, -⟩ := ran
  rw [Braid.alive_iff] at survived
  obtain ⟨sameEpoch, emits⟩ := Braid.stepSend_emitted positive rng survived
  rw [emitted] at emits
  obtain ⟨fits, count⟩ := emitsNext_fits emits same
  have bounds := Braid.State.emitted_bounds survived
  have one := UInt64.le_iff_toNat_le.1 positive
  rw [UInt64.toNat_one] at one
  simp only [sameEpoch] at bounds
  have named : epoch.toNat = b.state.epoch.toNat - 1 := by
    simp only [← reported, Braid.Braid.reported, sameEpoch, UInt64.toNat_saturatingSub,
      UInt64.toNat_one]
  refine ⟨sameEpoch ▸ positive, fits, count, ?_, ?_⟩
  · rw [← count, named]
    exact bounds.1
  · rw [← count, named]
    exact bounds.2.trans (by omega)

/-- Encrypting keeps the coupling, and folds one output or none. -/
theorem Encrypts.coupled {s' : Session K} {plaintext : Bytes} {rng rng' : Rng}
    {result : Except Error Bytes} (ends : Encrypts p s plaintext rng s' result rng')
    (coupled : Coupled s) : Coupled s' := by
  cases ends with
  | ended | refused => exact coupled
  | kemFailed => exact .inl rfl
  | sent alive ran survived sent =>
      obtain dead | ⟨positive, same, opened⟩ := coupled
      · rw [alive] at dead
        simp at dead
      · obtain ⟨positive', -, count, inside⟩ := send_reports positive same ran survived
        obtain ⟨_, _, _, _, -, sparse, -, -⟩ := Triple.State.send_ok sent
        exact .inr ⟨positive', by rw [count, (Spqr.State.send_frame sparse).1],
          opened.send inside sparse⟩

/-- A received message's fold fits, whatever the message. -/
theorem receive_fits {b : Braid.Braid K} {msg : Braid.Msg} {pq : Spqr.State K}
    (positive : 1 ≤ b.state.epoch) (same : b.state.emitted = pq.epoch.toNat) :
    FitsNext pq ((Braid.stepReceive p.kdf p.incKem msg b.state).1.map spqrOutput) := by
  intro o emitted
  obtain ⟨o', here, rfl⟩ := Option.map_eq_some_iff.1 emitted
  obtain ⟨-, alive⟩ := Braid.stepReceive_output here
  have fits := (emitsNext_fits (Braid.stepReceive_emitted positive msg alive).2 same).1
  exact fits _ (by rw [here]; rfl)

theorem Opens.coupled {message : Bytes} {rng : Rng} {decoded : Wire.DecodedMessage}
    {output : Option (Braid.Output K)} {braid : Braid.Braid K} {dhOutRecv dhOutSend : K}
    {triple : Triple.State K} {key : K} {plaintext : Bytes}
    (opens : Opens p s message rng decoded output braid dhOutRecv dhOutSend triple key plaintext)
    (coupled : Coupled s) (candidate : Arr 32) :
    Coupled (s.adopted candidate triple braid) ∧
      triple.postQuantum.epoch.toNat = s.triple.postQuantum.epoch.toNat + output.toList.length ∧
      ∀ o, output = some o → o.keyEpoch.toNat = s.triple.postQuantum.epoch.toNat + 1 := by
  obtain dead | ⟨positive, same, opened⟩ := coupled
  · rw [opens.alive] at dead
    simp at dead
  · have agreement := opens.agreement
    rw [Braid.receive_snd, Prod.mk.injEq] at agreement
    obtain ⟨hout, hbraid⟩ := agreement
    obtain ⟨w, thinned, received⟩ := receiveWithEviction_ok opens.received
    obtain ⟨_, _, -, sparse, -⟩ := Triple.State.receive_ok received
    obtain ⟨left, -, hw⟩ := thinned.postQuantum
    have openedW : w.postQuantum.Open := by
      rw [hw]
      exact opened
    have epochW : w.postQuantum.epoch = s.triple.postQuantum.epoch := by rw [hw]
    have after := openedW.receive sparse
    obtain ⟨epoch, -, fits⟩ := Spqr.State.receive_frame sparse
    rw [epochW] at epoch
    have count : (output.map spqrOutput).toList.length = output.toList.length := by
      cases output <;> rfl
    refine ⟨?_, by rw [epoch, count], fun o found => ?_⟩
    · by_cases lost : braid.failed = true
      · exact .inl lost
      · have alive := Braid.failed_iff.not.1 lost
        rw [← hbraid] at alive
        obtain ⟨climbs, emits⟩ := Braid.stepReceive_emitted positive _ alive
        rw [hout] at emits
        obtain ⟨-, counted⟩ := emitsNext_fits emits same
        refine .inr ⟨?_, ?_, after⟩
        · simp only [adopted, ← hbraid]
          exact UInt64.le_trans positive climbs
        · simp only [adopted, ← hbraid]
          rw [counted, epoch]
    · have := fits (spqrOutput o) (by rw [found]; rfl)
      rw [epochW] at this
      exact this

/-! ## What a call folds -/

/-- The epoch of the output a call folded into the sparse ratchet, if any. -/
def foldedBy [DecidableEq K] (p : Primitives K) (s : Session K) : Call → Option UInt64
  | .encrypt plaintext rng =>
      match s.encrypt p plaintext rng with
      | (_, .ok _, _) => (s.braid.send p.kdf p.incKem rng).2.2.1.map Braid.Output.keyEpoch
      | (_, .error _, _) => none
  | .decrypt message rng =>
      match s.decrypt p message rng, (s.innerMessage p message).toOption.bind fun inner =>
          (decodeMessage inner).toOption with
      | (_, .ok _, _), some decoded =>
          (s.braid.receive p.kdf p.incKem (msgOf decoded.header)).2.1.map Braid.Output.keyEpoch
      | _, _ => none

/-- The epochs of the outputs a run folded, in order. -/
def foldedAlong [DecidableEq K] (p : Primitives K) (s : Session K) : List Call → List UInt64
  | [] => []
  | call :: rest => (foldedBy p s call).toList ++ foldedAlong p (step p s call) rest

/-- **The step lemma**: a call keeps the coupling, and what it folds is the next
epoch's output or nothing. -/
theorem step_coupled [DecidableEq K] (coupled : Coupled s) (call : Call) :
    Coupled (step p s call) ∧
      (step p s call).triple.postQuantum.epoch.toNat =
        s.triple.postQuantum.epoch.toNat + (foldedBy p s call).toList.length ∧
      ∀ e, foldedBy p s call = some e → e.toNat = s.triple.postQuantum.epoch.toNat + 1 := by
  cases call with
  | encrypt plaintext rng =>
      have ends := encrypt_ends p s plaintext rng
      refine ⟨ends.coupled coupled, ?_⟩
      rw [step, foldedBy]
      generalize s.encrypt p plaintext rng = result at ends ⊢
      obtain ⟨after, outcome, rng'⟩ := result
      simp only at ends ⊢
      cases ends with
      | ended | refused | kemFailed => exact ⟨rfl, by simp⟩
      | sent alive ran survived sent =>
          rename_i output _ _ _ _
          obtain dead | ⟨positive, same, opened⟩ := coupled
          · rw [alive] at dead
            simp at dead
          · obtain ⟨-, fits, -, -⟩ := send_reports positive same ran survived
            obtain ⟨_, _, _, _, -, sparse, -, -⟩ := Triple.State.send_ok sent
            have epoch := (Spqr.State.send_frame sparse).1
            simp only [ran]
            refine ⟨?_, fun e found => ?_⟩
            · rw [epoch]
              cases output <;> rfl
            · obtain ⟨o, rfl, rfl⟩ := Option.map_eq_some_iff.1 found
              exact fits _ rfl
  | decrypt message rng =>
      rw [step, foldedBy]
      obtain ⟨e, rng', refused⟩ | ⟨inner, decoded, output, braid, dhOutRecv, dhOutSend, triple, key,
        plaintext, hinner, opens, opened⟩ := decrypt_cases p s message rng
      · rw [refused]
        exact ⟨coupled, rfl, by simp⟩
      · obtain ⟨after, epoch, next⟩ := opens.coupled coupled (randomSecret rng).1
        rw [opened, hinner]
        simp only [Except.toOption, Option.bind_some, opens.read, opens.agreement]
        refine ⟨after, ?_, fun e found => ?_⟩
        · simp only [adopted]
          rw [epoch]
          cases output <;> rfl
        · obtain ⟨o, here, rfl⟩ := Option.map_eq_some_iff.1 found
          exact next o here

theorem run_coupled [DecidableEq K] (coupled : Coupled s) (calls : List Call) :
    Coupled (run p s calls) :=
  run_induction (motive := Coupled) (fun _ call kept => (step_coupled kept call).1) coupled calls

/-- **The run lemma**: the outputs a run folds are those of the epochs after the
sparse ratchet's, without gap or repeat. -/
theorem foldedAlong_eq [DecidableEq K] (coupled : Coupled s) (calls : List Call) :
    ∃ n, (foldedAlong p s calls).map UInt64.toNat =
      List.range' (s.triple.postQuantum.epoch.toNat + 1) n := by
  induction calls generalizing s with
  | nil => exact ⟨0, rfl⟩
  | cons call rest ih =>
      obtain ⟨after, epoch, next⟩ := step_coupled (p := p) coupled call
      obtain ⟨n, later⟩ := ih after
      rw [foldedAlong, List.map_append, later, epoch]
      cases folded : foldedBy p s call with
      | none => exact ⟨n, rfl⟩
      | some e =>
          refine ⟨n + 1, ?_⟩
          simp only [Option.toList_some, List.map_cons, List.map_nil, List.length_singleton,
            List.cons_append, List.nil_append, List.range'_succ, next e folded]

/-! ## Establishment -/

theorem Established.coupled [DecidableEq K] (established : Established p s) :
    Coupled s ∧ s.triple.postQuantum.epoch = 0 := by
  cases established with
  | initiator established =>
      obtain ⟨ephemeral, ratchetPrivate, kemCiphertext, ss, sk, dhOut, -, rfl⟩ :=
        establishInitiatorFor_ok established
      exact ⟨.inr ⟨UInt64.le_refl _, rfl, Spqr.State.init_open _ _ _⟩, rfl⟩
  | @responder identity _ _ _ _ rng _ established =>
      obtain ⟨r, decoded, output, braid, dhOutRecv, dhOutSend, triple, key, -, -, opens, rfl⟩ :=
        establishResponder_ok established
      have start : Coupled (responderSession p identity r) :=
        .inr ⟨UInt64.le_refl _, rfl, Spqr.State.init_open _ _ _⟩
      obtain ⟨after, epoch, -⟩ := opens.coupled start (randomSecret rng).1
      refine ⟨after, ?_⟩
      -- A responder has received no header yet, so its first message completes no epoch.
      have silent : output = none := by
        have agreement := opens.agreement
        rw [Braid.receive_snd, Prod.mk.injEq] at agreement
        cases emitted : output with
        | none => rfl
        | some o =>
            rw [emitted] at agreement
            obtain ⟨⟨_, _, _, _, _, state⟩, -⟩ := Braid.stepReceive_output agreement.1
            simp [responderSession, Braid.Braid.responder] at state
      rw [silent] at epoch
      rw [← UInt64.toNat_inj]
      exact epoch

/-! ## What no call answers -/

/-- The three answers of the sparse ratchet that speak of epochs. -/
def epochErrors : List TripleError :=
  [.postQuantum .epochOutOfOrder, .postQuantum .noChain, .postQuantum .chainRetired]

theorem encrypt_error (coupled : Coupled s) (plaintext : Bytes) (rng : Rng) {e : TripleError}
    (refused : (s.encrypt p plaintext rng).2.1 = .error (.triple e)) : e ∉ epochErrors := by
  have ends := encrypt_ends p s plaintext rng
  generalize s.encrypt p plaintext rng = result at ends refused
  obtain ⟨after, outcome, rng'⟩ := result
  simp only at ends refused
  cases ends with
  | ended | kemFailed | sent => simp at refused
  | refused alive ran survived refusal =>
      obtain dead | ⟨positive, same, opened⟩ := coupled
      · rw [alive] at dead
        simp at dead
      · obtain ⟨-, fits, -, inside⟩ := send_reports positive same ran survived
        simp only [Except.error.injEq, Error.triple.injEq] at refused
        subst refused
        unfold Triple.State.send at refusal
        split at refusal
        · simp only [Prod.mk.injEq, Except.error.injEq] at refusal
          rw [← refusal.2]
          simp [epochErrors]
        · split at refusal
          · rename_i e' sparse
            simp only [Prod.mk.injEq, Except.error.injEq] at refusal
            have ceiling : e' = .chainExhausted := opened.send_error fits inside (by rw [sparse])
            rw [← refusal.2, ceiling]
            simp [epochErrors]
          · simp at refusal

/-- A refusal of the retry loop is a receive's, on some thinned state. -/
theorem evictLoop_error {kdf : Kdf K} {composite : Wire.Composite} {header : Triple.Header}
    {dhOutRecv dhOutSend : K} {newDhsPub : Arr 32} {output : Option (Spqr.Output K)}
    {state work : Triple.State K} {half : FullStore} {batch : Nat} {pending e : TripleError}
    (thinned : Thinned state work)
    (known : ∃ w, Thinned state w ∧
      w.receive kdf header dhOutRecv dhOutSend newDhsPub output = .error pending)
    (refused : evictLoop kdf composite header dhOutRecv dhOutSend newDhsPub output work half batch
      pending = .error e) :
    ∃ w, Thinned state w ∧
      w.receive kdf header dhOutRecv dhOutSend newDhsPub output = .error e := by
  have further := thinned.trans (evictForRetry_thinned work half batch)
  rw [evictLoop] at refused
  split at refused
  · rw [← Except.error.inj refused]
    exact known
  · split at refused
    · simp at refused
    · rename_i error again
      split at refused
      · rw [← Except.error.inj refused]
        exact ⟨_, further, again⟩
      · exact evictLoop_error further ⟨_, further, again⟩ refused
termination_by storedKeys work
decreasing_by exact storedKeys_evictForRetry ‹_›

theorem receiveWithEviction_error {kdf : Kdf K} {composite : Wire.Composite}
    {header : Triple.Header} {dhOutRecv dhOutSend : K} {newDhsPub : Arr 32}
    {output : Option (Spqr.Output K)} {state : Triple.State K} {e : TripleError}
    (refused : receiveWithEviction kdf state composite header dhOutRecv dhOutSend newDhsPub output =
      .error e) :
    ∃ w, Thinned state w ∧
      w.receive kdf header dhOutRecv dhOutSend newDhsPub output = .error e := by
  unfold receiveWithEviction at refused
  split at refused
  · simp at refused
  · rename_i first again
    split at refused
    · rw [← Except.error.inj refused]
      exact ⟨state, .refl state, again⟩
    · exact evictLoop_error (.refl state) ⟨state, .refl state, again⟩ refused

theorem decryptRatchet_error (coupled : Coupled s) (message : Bytes) (rng : Rng) :
    (s.decryptRatchet p message rng).2.1 ≠ .error (.triple (.postQuantum .epochOutOfOrder)) := by
  unfold decryptRatchet
  split
  · simp
  rename_i alive
  split
  · simp
  rename_i decoded hdecoded
  have agreement := Braid.receive_snd p.kdf p.incKem s.braid (msgOf decoded.header)
  cases hbraid : s.braid.receive p.kdf p.incKem (msgOf decoded.header) with
  | mk epoch rest =>
      obtain ⟨output, braid⟩ := rest
      rw [hbraid, Prod.mk.injEq] at agreement
      simp only
      split
      · simp
      split
      · simp
      split
      · rename_i e refused
        rw [hbraid] at refused
        intro same
        simp only [Except.error.injEq, Error.triple.injEq] at same
        subst same
        obtain ⟨w, thinned, again⟩ := receiveWithEviction_error refused
        obtain dead | ⟨positive, counted, -⟩ := coupled
        · exact alive dead
        have fits : FitsNext _ ((Braid.stepReceive p.kdf p.incKem (msgOf decoded.header) _).1.map
          spqrOutput) := receive_fits positive counted
        rw [← agreement.1] at fits
        obtain ⟨left, -, hw⟩ := thinned.postQuantum
        have fitsW : FitsNext w.postQuantum (output.map spqrOutput) := by
          rw [hw]
          exact fits
        unfold Triple.State.receive at again
        split at again
        · simp at again
        · split at again
          · rename_i e' sparse
            simp only [Except.error.injEq, Triple.TripleError.postQuantum.injEq] at again
            subst again
            exact Spqr.State.receive_ne_epochOutOfOrder fitsW (by rw [sparse])
          · simp at again
      · split <;> simp

theorem decrypt_error [DecidableEq K] (coupled : Coupled s) (message : Bytes) (rng : Rng) :
    (s.decrypt p message rng).2.1 ≠ .error (.triple (.postQuantum .epochOutOfOrder)) := by
  have refuses := decryptRatchet_error (p := p) coupled
  unfold decrypt
  cases hinner : s.innerMessage p message with
  | error e =>
      unfold innerMessage at hinner
      intro same
      simp only [Except.error.injEq] at same
      subst same
      repeat' split at hinner
      all_goals simp at hinner
  | ok inner =>
      simp only
      split
      · rename_i e rng' refused
        have := refuses inner rng
        rw [refused] at this
        exact this
      · simp

/-- What the coupling means for a run `calls` from `s`, and for the session `t`
it reaches. -/
structure Follows [DecidableEq K] (p : Primitives K) (s : Session K) (calls : List Call)
    (t : Session K) : Prop where
  /-- The outputs folded are those of epochs `1, 2, 3, …`. -/
  folded : ∃ n, (foldedAlong p s calls).map UInt64.toNat = List.range' 1 n
  /-- The epoch a send reports has its sending chain, once the output is folded. -/
  reported : ∀ rng agMsg epoch output braid rng' mid, t.braid.failed = false →
    t.braid.send p.kdf p.incKem rng = (agMsg, epoch, output, braid, rng') → braid.failed = false →
    t.triple.postQuantum.maybeAdvance p.kdf (output.map spqrOutput) = (mid, .ok ()) →
    ∃ cs ch, mid.findChains epoch = some cs ∧ cs.send = some ch
  encrypts : ∀ plaintext rng e, (t.encrypt p plaintext rng).2.1 = .error (.triple e) →
    e ∉ epochErrors
  folds : ∀ msg, t.braid.failed = false →
    (t.triple.postQuantum.maybeAdvance p.kdf
      ((t.braid.receive p.kdf p.incKem msg).2.1.map spqrOutput)).2 ≠ .error .epochOutOfOrder
  decrypts : ∀ message rng,
    (t.decrypt p message rng).2.1 ≠ .error (.triple (.postQuantum .epochOutOfOrder))

/-- **Epoch coupling.**  Over every run of calls on an established session, the
Braid's outputs folded into the sparse ratchet are those of epochs `1, 2, 3, …`
without gap or repeat.  In the state reached, the epoch the Braid reports at an
`encrypt` names, after its output is folded, a chain pair whose sending chain is
there; `encrypt` never answers that an epoch is out of order, unknown or
retired, and the fold inside `decrypt` is never out of order. -/
theorem epoch_coupling [DecidableEq K] (established : Established p s) (calls : List Call) :
    Follows p s calls (run p s calls) := by
  obtain ⟨start, zero⟩ := established.coupled
  have coupled := run_coupled (p := p) start calls
  refine ⟨?_, ?_, fun plaintext rng e => encrypt_error coupled plaintext rng, ?_,
    fun message rng => decrypt_error coupled message rng⟩
  · have along := foldedAlong_eq (p := p) start calls
    rw [zero] at along
    exact along
  · intro rng agMsg epoch output braid rng' mid alive ran survived folds
    obtain dead | ⟨positive, same, opened⟩ := coupled
    · rw [alive] at dead
      simp at dead
    · obtain ⟨-, -, -, inside⟩ := send_reports positive same ran survived
      have count := (Spqr.State.maybeAdvance_frame folds).1
      obtain ⟨send, receive, found⟩ := opened.maybeAdvance folds epoch
        (by rw [Spqr.State.InWindow, count]; exact inside)
      exact ⟨_, send, found, rfl⟩
  · intro msg alive refused
    obtain dead | ⟨positive, same, -⟩ := coupled
    · rw [alive] at dead
      simp at dead
    · have fits : FitsNext _ ((Braid.stepReceive p.kdf p.incKem msg _).1.map spqrOutput) :=
        receive_fits positive same
      rw [Braid.receive_snd] at refused
      have := Spqr.State.maybeAdvance_error fits refused
      simp at this

namespace Answering

def host : Store.Identity := ⟨Vector.replicate 32 7⟩

def store : Store.PrekeyStore Secret := (Store.createPrekeys Sample.primitives host 1 fun _ => 1).1

def initiator : Option (Session Secret) :=
  (establishInitiator Sample.primitives ⟨Vector.replicate 32 5⟩ (store.publish Sample.primitives)
    fun _ => 6).1.toOption

/-- A session after it has encrypted once more, and what it sends next. -/
def next (s : Session Secret) : Session Secret :=
  step Sample.primitives s (.encrypt [0x68] fun _ => 2)

def wire (s : Session Secret) : Option Bytes :=
  (s.encrypt Sample.primitives [0x68] fun _ => 2).2.1.toOption

/-- The same session without the wrapper of its initial messages. -/
def bare (s : Session Secret) : Session Secret := { s with pendingInitial := none }

/-- An initiator's first three messages, a header codeword on each; the second and
the third out of their wrappers. -/
def first : Bytes := (initiator.bind wire).getD []
def second : Bytes := (initiator.bind fun s => wire (bare (next s))).getD []
def third : Bytes := (initiator.bind fun s => wire (bare (next (next s)))).getD []

def answer : Except Error (Session Secret × Bytes) :=
  (establishResponder Sample.primitives host store first fun _ => 8).2.1

/-- The responder reads the two it did not open itself from, and answers. -/
def calls : List Call :=
  [.decrypt second fun _ => 3, .decrypt third fun _ => 3, .encrypt [0x69] fun _ => 4]

theorem answer_folds : answer.toOption.map (fun opened =>
    foldedAlong Sample.primitives opened.1 calls) = some [1] := by decide +kernel

/-- The header is complete, and the answer opens the first epoch. -/
theorem epoch_coupling_sample : ∃ s, Established Sample.primitives s ∧
    foldedAlong Sample.primitives s calls = [1] ∧
    Follows Sample.primitives s calls (run Sample.primitives s calls) := by
  have folds := answer_folds
  cases ran : establishResponder Sample.primitives host store first fun _ => 8 with
  | mk after rest =>
      obtain ⟨outcome, rng⟩ := rest
      rw [answer, ran] at folds
      cases outcome with
      | error e => cases folds
      | ok opened =>
          have established : Established Sample.primitives opened.1 := .responder ran
          exact ⟨opened.1, established, Option.some.inj folds, epoch_coupling established calls⟩

end Answering

end Tacenta.Session
