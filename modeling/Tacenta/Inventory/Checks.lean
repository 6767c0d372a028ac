/-
# Tacenta.Inventory.Checks -- the seven checks of acceptance

What a verifier requires of a signed statement is said here without the order of
the code: seven checks, each a condition on the statement, the signature and the
policy, with the error it refuses with.  `accept_outcome` says the code makes
them in their order and stops at the first that fails.
-/
import Tacenta.Inventory.Accept
import Tacenta.Inventory.Canonical
import Tacenta.Sample

set_option autoImplicit false

namespace Tacenta.Inventory

open Error

variable {K : Type}

/-! ## Computations that call hooks -/

namespace Consulting

variable {α β : Type}

@[simp] theorem lift_ok_bind (a : α) (f : α → Consulting β) : (lift (.ok a) >>= f) = f a := rfl

@[simp] theorem lift_error_bind (e : Error) (f : α → Consulting β) :
    (lift (.error e) >>= f) = fail e := rfl

@[simp] theorem ask_bind (call : Consultation) (a : α) (f : α → Consulting β) :
    (ask call a >>= f) = { result := (f a).result, calls := call :: (f a).calls } := rfl

@[simp] theorem fail_result (e : Error) : (fail e : Consulting α).result = .error e := rfl
@[simp] theorem fail_calls (e : Error) : (fail e : Consulting α).calls = [] := rfl
@[simp] theorem pure_result (a : α) : (pure a : Consulting α).result = .ok a := rfl
@[simp] theorem pure_calls (a : α) : (pure a : Consulting α).calls = [] := rfl

end Consulting

/-- A call of the binding hook or of the statement hook. -/
def Consultation.Judges : Consultation → Prop
  | .issuer _ _ => False
  | .generation _ _ => False
  | .binding _ _ _ => True
  | .statement _ => True

/-! ## The checks -/

/-- The checks, under the numbers the code documents them with. -/
inductive Check where
  | account
  | issuer
  | signature
  | generation
  | devices
  | identityKeys
  | policy
  deriving DecidableEq, Repr

def Check.number : Check → Nat
  | .account => 1
  | .issuer => 2
  | .signature => 3
  | .generation => 4
  | .devices => 5
  | .identityKeys => 6
  | .policy => 7

theorem Check.number_inj {c d : Check} (same : c.number = d.number) : c = d := by
  cases c <;> cases d <;> first | rfl | cases same

/-- A canonical, contributory key of the prime-order subgroup. -/
def IdentityKey (dh : Dh K) (key : Arr 32) : Prop :=
  Curve.isCanonicalX25519 key = true ∧ (dh.agree probe key).isSome = true ∧
    dh.isTorsionFree key = true

/-- The class of a key that is not one. -/
def KeyRefusal (dh : Dh K) (key : Arr 32) (e : Error) : Prop :=
  (Curve.isCanonicalX25519 key = false ∧ e = nonCanonical) ∨
  (Curve.isCanonicalX25519 key = true ∧ dh.agree probe key = none ∧ e = nonContributory) ∨
  (Curve.isCanonicalX25519 key = true ∧ (dh.agree probe key).isSome = true ∧
    dh.isTorsionFree key = false ∧ e = notPrimeOrder)

/-- What a check asks of a statement and a signature, for an account under a policy. -/
def Check.Holds (dh : Dh K) (xed : XEdDsa) (policy : InventoryPolicy) (expectedAccount : String)
    (s : InventoryStatement) (signature : Arr 64) : Check → Prop
  | .account => s.accountHandle = expectedAccount
  | .issuer => ∃ key, policy.issuerPublicKey s.issuerKeyId s.accountHandle = some key
  | .signature => ∃ key, policy.issuerPublicKey s.issuerKeyId s.accountHandle = some key ∧
      xed.verify key (signingInput s.preimage) signature = true
  | .generation => policy.generationIsCurrent s.accountHandle s.inventoryGeneration = true
  | .devices => (s.active.map DeviceBinding.deviceId).Nodup
  | .identityKeys => ∀ b ∈ s.bindings, IdentityKey dh b.1.identityPublicKey
  | .policy => (∀ b ∈ s.bindings, policy.bindingIsAllowed s.accountHandle b.1 b.2 = true) ∧
      policy.statementIsAllowed s = true

/-- The errors a check refuses with: one each, but for the keys, where the first
key that is not one decides. -/
def Check.Refuses (dh : Dh K) (s : InventoryStatement) : Check → Error → Prop
  | .account, e => e = wrongAccount
  | .issuer, e => e = issuerUnbound
  | .signature, e => e = badSignature
  | .generation, e => e = stale
  | .devices, e => e = duplicateDevice
  | .identityKeys, e => ∃ before b after, s.bindings = before ++ b :: after ∧
      (∀ c ∈ before, IdentityKey dh c.1.identityPublicKey) ∧ KeyRefusal dh b.1.identityPublicKey e
  | .policy, e => e = refused

/-- `c` fails, and every check before it holds. -/
def FirstFailing (holds : Check → Prop) (c : Check) : Prop :=
  ¬ holds c ∧ ∀ d : Check, d.number < c.number → holds d

theorem FirstFailing.unique {holds : Check → Prop} {c d : Check} (first : FirstFailing holds c)
    (second : FirstFailing holds d) : c = d := by
  rcases Nat.lt_trichotomy c.number d.number with before | same | after
  · exact absurd (second.2 c before) first.1
  · exact Check.number_inj same
  · exact absurd (first.2 d after) second.1

theorem KeyRefusal.unique {dh : Dh K} {key : Arr 32} {e e' : Error} (first : KeyRefusal dh key e)
    (second : KeyRefusal dh key e') : e = e' := by
  rcases first with ⟨c, rfl⟩ | ⟨c, a, rfl⟩ | ⟨c, a, t, rfl⟩ <;>
    rcases second with ⟨c', rfl⟩ | ⟨c', a', rfl⟩ | ⟨c', a', t', rfl⟩ <;> simp_all

theorem KeyRefusal.not_identityKey {dh : Dh K} {key : Arr 32} {e : Error}
    (refusal : KeyRefusal dh key e) : ¬ IdentityKey dh key := by
  rintro ⟨canonical, contributory, torsion⟩
  rcases refusal with ⟨c, -⟩ | ⟨-, a, -⟩ | ⟨-, -, t, -⟩ <;> simp_all

/-- The first entry that fails a condition is where it is. -/
theorem first_unique {α : Type} {P : α → Prop} {before before' after after' : List α} {a a' : α}
    (same : before ++ a :: after = before' ++ a' :: after') (fine : ∀ b ∈ before, P b)
    (bad : ¬ P a) (fine' : ∀ b ∈ before', P b) (bad' : ¬ P a') : a = a' := by
  induction before generalizing before' with
  | nil =>
      cases before' with
      | nil => exact (List.cons.inj same).1
      | cons b before' =>
          have head : a = b := (List.cons.inj same).1
          exact absurd (head ▸ fine' b (by simp)) bad
  | cons b before ih =>
      cases before' with
      | nil =>
          have head : b = a' := (List.cons.inj same).1
          exact absurd (head ▸ fine b (by simp)) bad'
      | cons b' before' =>
          have tail := (List.cons.inj same).2
          exact ih tail (fun c here => fine c (by simp [here])) fun c here =>
            fine' c (by simp [here])

theorem Check.Refuses.unique {dh : Dh K} {s : InventoryStatement} {c : Check} {e e' : Error}
    (first : c.Refuses dh s e) (second : c.Refuses dh s e') : e = e' := by
  cases c with
  | identityKeys =>
      obtain ⟨before, b, after, split_, fine, bad⟩ := first
      obtain ⟨before', b', after', split', fine', bad'⟩ := second
      have here : b = b' := first_unique (P := fun c => IdentityKey dh c.1.identityPublicKey)
        (split_.symm.trans split') fine bad.not_identityKey fine' bad'.not_identityKey
      subst here
      exact bad.unique bad'
  | account => exact first.trans second.symm
  | issuer => exact first.trans second.symm
  | signature => exact first.trans second.symm
  | generation => exact first.trans second.symm
  | devices => exact first.trans second.symm
  | policy => exact first.trans second.symm

/-! ## What each loop decides -/

theorem validateIdentityKey_ok {dh : Dh K} {key : Arr 32} :
    validateIdentityKey dh key = .ok () ↔ IdentityKey dh key := by
  unfold validateIdentityKey IdentityKey
  cases Curve.isCanonicalX25519 key <;> cases dh.agree probe key <;>
    cases dh.isTorsionFree key <;> simp

theorem validateIdentityKey_error {dh : Dh K} {key : Arr 32} {e : Error} :
    validateIdentityKey dh key = .error e ↔ KeyRefusal dh key e := by
  unfold validateIdentityKey KeyRefusal
  cases Curve.isCanonicalX25519 key <;> cases dh.agree probe key <;>
    cases dh.isTorsionFree key <;> simp [eq_comm]

theorem uniqueDevices_eq (seen : List UInt32) (l : List DeviceBinding) (distinct : seen.Nodup) :
    uniqueDevices seen l =
      if (seen ++ l.map DeviceBinding.deviceId).Nodup then .ok () else .error duplicateDevice := by
  induction l generalizing seen with
  | nil => simp [uniqueDevices, distinct]
  | cons b rest ih =>
      unfold uniqueDevices
      by_cases known : b.deviceId ∈ seen
      · rw [if_pos (by simpa using known), if_neg]
        intro all
        exact (List.nodup_append.1 all).2.2 _ known _ (by simp) rfl
      · rw [if_neg (by simpa using known), ih]
        · simp
        · exact List.nodup_append.2 ⟨distinct, by simp, by
            intro a here c there same
            have : c = b.deviceId := by simpa using there
            exact known (this ▸ same ▸ here)⟩

theorem checkUniqueDevices_eq (s : InventoryStatement) :
    s.checkUniqueDevices =
      if (s.active.map DeviceBinding.deviceId).Nodup then .ok () else .error duplicateDevice :=
  uniqueDevices_eq [] s.active List.nodup_nil

theorem identityKeys_ok {dh : Dh K} {l : List (DeviceBinding × BindingStatus)} :
    identityKeys dh l = .ok () ↔ ∀ b ∈ l, IdentityKey dh b.1.identityPublicKey := by
  induction l with
  | nil => simp [identityKeys]
  | cons b rest ih =>
      rw [identityKeys, bind_eq_ok, List.forall_mem_cons, ← ih, ← validateIdentityKey_ok]
      exact ⟨fun ⟨_, first, later⟩ => ⟨first, later⟩, fun ⟨first, later⟩ => ⟨(), first, later⟩⟩

theorem identityKeys_error {dh : Dh K} {l : List (DeviceBinding × BindingStatus)} {e : Error}
    (failed : identityKeys dh l = .error e) :
    ∃ before b after, l = before ++ b :: after ∧
      (∀ c ∈ before, IdentityKey dh c.1.identityPublicKey) ∧
      KeyRefusal dh b.1.identityPublicKey e := by
  induction l with
  | nil => cases failed
  | cons b rest ih =>
      rw [identityKeys] at failed
      cases first : validateIdentityKey dh b.1.identityPublicKey with
      | error e' =>
          rw [first] at failed
          obtain ⟨rfl⟩ := failed
          exact ⟨[], b, rest, rfl, by simp, validateIdentityKey_error.1 first⟩
      | ok u =>
          rw [first] at failed
          obtain ⟨before, c, after, rfl, fine, bad⟩ := ih failed
          refine ⟨b :: before, c, after, rfl, ?_, bad⟩
          intro d here
          rcases List.mem_cons.1 here with rfl | later
          · exact validateIdentityKey_ok.1 first
          · exact fine d later

theorem allowBindings_result (s : InventoryStatement) (policy : InventoryPolicy)
    (l : List (DeviceBinding × BindingStatus)) :
    (s.allowBindings policy l).result =
      if ∀ b ∈ l, policy.bindingIsAllowed s.accountHandle b.1 b.2 = true then .ok ()
      else .error refused := by
  induction l with
  | nil => simp [InventoryStatement.allowBindings]
  | cons b rest ih =>
      rw [InventoryStatement.allowBindings, Consulting.ask_bind]
      cases allowed : policy.bindingIsAllowed s.accountHandle b.1 b.2 with
      | false => simp [allowed]
      | true =>
          rw [if_pos rfl, ih]
          by_cases later : ∀ c ∈ rest, policy.bindingIsAllowed s.accountHandle c.1 c.2 = true
          · rw [if_pos later, if_pos]
            exact List.forall_mem_cons.2 ⟨allowed, later⟩
          · rw [if_neg later, if_neg]
            exact fun all => later (List.forall_mem_cons.1 all).2

/-! ## The checks in order -/

section Accept

variable (dh : Dh K) (xed : XEdDsa) (policy : InventoryPolicy) (expectedAccount : String)
  (s : InventoryStatement) (signature : Arr 64)

/-- What `accept` may come to: the refusal of the first check that fails, with
no judging hook called before the seventh, or the statement when all hold. -/
def Outcome (x : Consulting AcceptedInventory) : Prop :=
  (∃ c e, FirstFailing (Check.Holds dh xed policy expectedAccount s signature) c ∧
    c.Refuses dh s e ∧ x.result = .error e ∧ (c = .policy ∨ ∀ call ∈ x.calls, ¬ call.Judges)) ∨
  ((∀ c, Check.Holds dh xed policy expectedAccount s signature c) ∧
    x.result = .ok { statement := s })

variable {dh xed policy expectedAccount s signature}

theorem Outcome.fail {c : Check} {e : Error}
    (first : FirstFailing (Check.Holds dh xed policy expectedAccount s signature) c)
    (refuses : c.Refuses dh s e) :
    Outcome dh xed policy expectedAccount s signature (.fail e) :=
  .inl ⟨c, e, first, refuses, rfl, .inr (by simp)⟩

/-- Hooks that judge nothing may be called before. -/
theorem Outcome.ask {x : Consulting AcceptedInventory} {call : Consultation}
    (quiet : ¬ call.Judges) (outcome : Outcome dh xed policy expectedAccount s signature x) :
    Outcome dh xed policy expectedAccount s signature
      { result := x.result, calls := call :: x.calls } := by
  rcases outcome with ⟨c, e, first, refuses, failed, judged⟩ | ⟨all, accepted⟩
  · refine .inl ⟨c, e, first, refuses, failed, ?_⟩
    rcases judged with last | none_
    · exact .inl last
    · exact .inr (List.forall_mem_cons.2 ⟨quiet, none_⟩)
  · exact .inr ⟨all, accepted⟩

/-- The seventh check: every binding, then the statement. -/
theorem outcome_policy (earlier : ∀ d : Check, d.number < Check.policy.number →
      Check.Holds dh xed policy expectedAccount s signature d) :
    Outcome dh xed policy expectedAccount s signature (do
      s.allowBindings policy s.bindings
      let allowed ← .ask (.statement s) (policy.statementIsAllowed s)
      if allowed then pure { statement := s } else .fail refused) := by
  have bindings := allowBindings_result s policy s.bindings
  by_cases allowed : ∀ b ∈ s.bindings, policy.bindingIsAllowed s.accountHandle b.1 b.2 = true
  · rw [if_pos allowed] at bindings
    cases judged : policy.statementIsAllowed s with
    | false =>
        refine .inl ⟨.policy, refused, ⟨?_, earlier⟩, rfl, ?_, .inl rfl⟩
        · rintro ⟨-, fine⟩
          rw [judged] at fine
          cases fine
        · simp [Bind.bind, bindings, Consulting.ask]
    | true =>
        refine .inr ⟨?_, ?_⟩
        · intro d
          by_cases last : d = .policy
          · subst last
            exact ⟨allowed, judged⟩
          · apply earlier
            cases d <;> simp_all [Check.number]
        · simp [Bind.bind, bindings, Consulting.ask]
  · rw [if_neg allowed] at bindings
    refine .inl ⟨.policy, refused, ⟨fun judged => allowed judged.1, earlier⟩, rfl, ?_, .inl rfl⟩
    simp only [Bind.bind, bindings]

/-- **`accept` makes the checks in order**, stops at the first that fails with
its error, and judges bindings and statement only when the six before hold. -/
theorem accept_outcome (written : s.encodeUnsigned = .ok s.preimage) :
    Outcome dh xed policy expectedAccount s signature
      (s.accept dh xed expectedAccount signature policy) := by
  unfold InventoryStatement.accept
  rw [written, Consulting.lift_ok_bind]
  by_cases account : s.accountHandle = expectedAccount
  swap
  · rw [if_pos account]
    apply Outcome.fail (c := .account) ⟨account, ?_⟩ rfl
    intro d before
    cases d <;> simp [Check.number] at before
  rw [if_neg (not_not.2 account), Consulting.ask_bind]
  apply Outcome.ask
  · exact fun judges => judges
  cases found : policy.issuerPublicKey s.issuerKeyId s.accountHandle with
  | none =>
      apply Outcome.fail (c := .issuer) ⟨?_, ?_⟩ rfl
      · rintro ⟨key, bound⟩
        rw [found] at bound
        cases bound
      · intro d before
        cases d <;> simp [Check.number] at before
        exact account
  | some key =>
  have issuer : Check.Holds dh xed policy expectedAccount s signature .issuer := ⟨key, found⟩
  dsimp only
  cases verified : xed.verify key (signingInput s.preimage) signature with
  | false =>
      rw [verifySignature, verified, if_neg (by decide), Consulting.lift_error_bind]
      apply Outcome.fail (c := .signature) ⟨?_, ?_⟩ rfl
      · rintro ⟨key', bound, verified'⟩
        rw [found] at bound
        obtain ⟨rfl⟩ := bound
        rw [verified] at verified'
        cases verified'
      · intro d before
        cases d <;> simp [Check.number] at before
        · exact account
        · exact issuer
  | true =>
  have signed : Check.Holds dh xed policy expectedAccount s signature .signature :=
    ⟨key, found, verified⟩
  rw [verifySignature, verified, if_pos rfl, Consulting.lift_ok_bind, Consulting.ask_bind]
  apply Outcome.ask
  · exact fun judges => judges
  cases current : policy.generationIsCurrent s.accountHandle s.inventoryGeneration with
  | false =>
      apply Outcome.fail (c := .generation) ⟨?_, ?_⟩ rfl
      · rw [Check.Holds, current]
        decide
      · intro d before
        cases d <;> simp [Check.number] at before
        · exact account
        · exact issuer
        · exact signed
  | true =>
  have fresh : Check.Holds dh xed policy expectedAccount s signature .generation := current
  rw [if_neg (by decide), checkUniqueDevices_eq]
  by_cases devices : (s.active.map DeviceBinding.deviceId).Nodup
  swap
  · rw [if_neg devices, Consulting.lift_error_bind]
    apply Outcome.fail (c := .devices) ⟨devices, ?_⟩ rfl
    intro d before
    cases d <;> simp [Check.number] at before
    · exact account
    · exact issuer
    · exact signed
    · exact fresh
  rw [if_pos devices, Consulting.lift_ok_bind]
  cases keyed : s.checkIdentityKeys dh with
  | error e =>
      obtain ⟨before, b, after, split_, fine, bad⟩ := identityKeys_error keyed
      rw [Consulting.lift_error_bind]
      apply Outcome.fail (c := .identityKeys) ⟨?_, ?_⟩ ⟨before, b, after, split_, fine, bad⟩
      · intro all
        exact bad.not_identityKey (all b (by rw [split_]; simp))
      · intro d before
        cases d <;> simp [Check.number] at before
        · exact account
        · exact issuer
        · exact signed
        · exact fresh
        · exact devices
  | ok u =>
  have keys : Check.Holds dh xed policy expectedAccount s signature .identityKeys :=
    identityKeys_ok.1 keyed
  rw [Consulting.lift_ok_bind]
  apply outcome_policy
  intro d before
  cases d <;> simp [Check.number] at before
  · exact account
  · exact issuer
  · exact signed
  · exact fresh
  · exact devices
  · exact keys

end Accept

/-! ## Signed bytes -/

/-- The bytes are a statement's canonical preimage, then the signature. -/
def Splits (bytes : Bytes) (s : InventoryStatement) (signature : Arr 64) : Prop :=
  ∃ unsigned, bytes = unsigned ++ signature.toList ∧ decodeUnsigned unsigned = .ok s

/-- What bytes that do not split are refused with: too short for a signature, or
an unsigned part that does not decode. -/
def SplitRefusal (bytes : Bytes) (e : Error) : Prop :=
  (bytes.length < 64 ∧ e = malformed) ∨
  (64 ≤ bytes.length ∧ decodeUnsigned (bytes.take (bytes.length - 64)) = .error e)

theorem splitSigned_ok {bytes : Bytes} {s : InventoryStatement} {signature : Arr 64} :
    splitSigned bytes = .ok (s, signature) ↔ Splits bytes s signature := by
  unfold splitSigned Splits
  constructor
  · intro accepted
    by_cases short : bytes.length < 64
    · rw [if_pos short] at accepted
      cases accepted
    · rw [if_neg short] at accepted
      obtain ⟨s', decoded, last⟩ := bind_eq_ok.1 accepted
      cases tail : Arr.ofBytes? 64 (bytes.drop (bytes.length - 64)) with
      | none =>
          rw [tail] at last
          cases last
      | some signature' =>
          rw [tail] at last
          obtain ⟨rfl, rfl⟩ := Prod.mk.inj (Except.ok.inj last)
          refine ⟨_, ?_, decoded⟩
          rw [← Arr.ofBytes?_eq_some.1 tail, List.take_append_drop]
  · rintro ⟨unsigned, rfl, decoded⟩
    have len : (unsigned ++ signature.toList).length = unsigned.length + 64 := by simp
    rw [if_neg (by omega)]
    have front : (unsigned ++ signature.toList).take ((unsigned ++ signature.toList).length - 64) =
        unsigned := List.take_left' (by omega)
    have back : (unsigned ++ signature.toList).drop ((unsigned ++ signature.toList).length - 64) =
        signature.toList := List.drop_left' (by omega)
    refine bind_eq_ok.2 ⟨s, by rw [front]; exact decoded, ?_⟩
    rw [back, Arr.ofBytes?_toList]

theorem splitSigned_error {bytes : Bytes} {e : Error} :
    splitSigned bytes = .error e ↔ SplitRefusal bytes e := by
  unfold splitSigned SplitRefusal
  by_cases short : bytes.length < 64
  · rw [if_pos short]
    simp only [Except.error.injEq, short, true_and, eq_comm, Nat.not_le.2 short, false_and, or_false]
  · rw [if_neg short]
    have long : (bytes.drop (bytes.length - 64)).length = 64 := by
      rw [List.length_drop]
      omega
    obtain ⟨signature, tail⟩ : ∃ signature, Arr.ofBytes? 64 (bytes.drop (bytes.length - 64)) =
        some signature := by
      rw [Arr.ofBytes?, dif_pos long]
      exact ⟨_, rfl⟩
    dsimp only
    rw [tail]
    cases decoded : decodeUnsigned (bytes.take (bytes.length - 64)) with
    | error e' => simp [bind, Except.bind, short, Nat.not_lt.1 short]
    | ok s => simp [bind, Except.bind, short]

theorem Splits.unique {bytes : Bytes} {s s' : InventoryStatement} {signature signature' : Arr 64}
    (first : Splits bytes s signature) (second : Splits bytes s' signature') :
    s = s' ∧ signature = signature' := by
  have one := splitSigned_ok.2 first
  rw [splitSigned_ok.2 second] at one
  exact Prod.mk.inj (Except.ok.inj one.symm)

/-- A statement that splits off can be written. -/
theorem Splits.written {bytes : Bytes} {s : InventoryStatement} {signature : Arr 64}
    (splits : Splits bytes s signature) : s.encodeUnsigned = .ok s.preimage := by
  obtain ⟨unsigned, -, decoded⟩ := splits
  obtain ⟨w, -⟩ := decodeUnsigned_ok.1 decoded
  exact encodeUnsigned_ok.2 ⟨w, rfl⟩

/-! ## The issuer's own checks -/

/-- **What an issuer signs** is what keeps the format's rules and checks five and six. -/
theorem checkForSigning_ok {dh : Dh K} {s : InventoryStatement} :
    s.checkForSigning dh = .ok () ↔ s.fields.Wellformed ∧
      (s.active.map DeviceBinding.deviceId).Nodup ∧
      ∀ b ∈ s.bindings, IdentityKey dh b.1.identityPublicKey := by
  unfold InventoryStatement.checkForSigning
  simp only [bind_eq_ok, checkUniqueDevices_eq]
  constructor
  · rintro ⟨bytes, written, u, devices, keys⟩
    refine ⟨(encodeUnsigned_ok.1 written).1, ?_, identityKeys_ok.1 keys⟩
    by_contra shared
    rw [if_neg shared] at devices
    cases devices
  · rintro ⟨w, devices, keys⟩
    exact ⟨_, encodeUnsigned_ok.2 ⟨w, rfl⟩, (), if_pos devices, identityKeys_ok.2 keys⟩

/-- What `encode_signed` returns is the preimage and a signature over it, of a
statement that passed the issuer's checks. -/
theorem encodeSigned_ok {dh : Dh K} {xed : XEdDsa} {s : InventoryStatement} {secret : Arr 32}
    {rng rng' : Rng} {bytes : Bytes} (signed : s.encodeSigned dh xed secret rng = (.ok bytes, rng')) :
    s.checkForSigning dh = .ok () ∧ ∃ z : Arr 64,
      bytes = s.preimage ++ (xed.signWith secret (signingInput s.preimage) z).toList := by
  unfold InventoryStatement.encodeSigned InventoryStatement.sign at signed
  cases written : s.encodeUnsigned with
  | error e =>
      rw [written] at signed
      cases (Prod.mk.inj signed).1
  | ok unsigned =>
      obtain ⟨-, rfl⟩ := encodeUnsigned_ok.1 written
      rw [written] at signed
      cases checked : s.checkForSigning dh with
      | error e =>
          rw [checked] at signed
          cases (Prod.mk.inj signed).1
      | ok u =>
          rw [checked] at signed
          refine ⟨rfl, (fillBytes 64 rng).1, ?_⟩
          simp only [InventoryStatement.signUnchecked, written, XEdDsa.sign, Except.map,
            Prod.mk.injEq, Except.ok.injEq] at signed
          exact signed.1.symm

/-! ## Acceptance -/

/-- **Acceptance is the seven checks, in order, and issuer and verifier agree.**
Signed bytes are accepted exactly when they split into a canonical preimage and a
signature and all seven checks hold of what was split off; otherwise they are
refused as they fail to split, or with the error of the first check that fails;
and no binding or statement is judged unless the first six checks hold.  Of a
statement its issuer signed, with the key the policy binds, the first six hold
exactly when the account and the generation do. -/
theorem inventory_acceptance_exact (dh : Dh K) (xed : XEdDsa) (correct : xed.Correct dh)
    (policy : InventoryPolicy) (expectedAccount : String) :
    (∀ (bytes : Bytes) (accepted : AcceptedInventory),
      (acceptSigned dh xed bytes expectedAccount policy).result = .ok accepted ↔
        ∃ s signature, Splits bytes s signature ∧
          (∀ c, Check.Holds dh xed policy expectedAccount s signature c) ∧
          accepted = { statement := s }) ∧
    (∀ (bytes : Bytes) (e : Error),
      (acceptSigned dh xed bytes expectedAccount policy).result = .error e ↔
        SplitRefusal bytes e ∨
        ∃ s signature c, Splits bytes s signature ∧
          FirstFailing (Check.Holds dh xed policy expectedAccount s signature) c ∧
          c.Refuses dh s e) ∧
    (∀ (bytes : Bytes), ∀ call ∈ (acceptSigned dh xed bytes expectedAccount policy).calls,
      call.Judges → ∃ s signature, Splits bytes s signature ∧
        ∀ c, c ≠ .policy → Check.Holds dh xed policy expectedAccount s signature c) ∧
    (∀ (s : InventoryStatement) (secret : Arr 32) (rng rng' : Rng) (bytes : Bytes),
      s.encodeSigned dh xed secret rng = (.ok bytes, rng') →
      policy.issuerPublicKey s.issuerKeyId s.accountHandle = some (dh.publicKey secret) →
      ∃ signature, Splits bytes s signature ∧
        ((∀ c, c ≠ .policy → Check.Holds dh xed policy expectedAccount s signature c) ↔
          s.accountHandle = expectedAccount ∧
          policy.generationIsCurrent s.accountHandle s.inventoryGeneration = true)) := by
  have computed : ∀ {bytes : Bytes} {s : InventoryStatement} {signature : Arr 64},
      Splits bytes s signature → acceptSigned dh xed bytes expectedAccount policy =
        s.accept dh xed expectedAccount signature policy := by
    intro bytes s signature splits
    rw [acceptSigned, splitSigned_ok.2 splits, Consulting.lift_ok_bind]
  have stopped : ∀ {bytes : Bytes} {e : Error}, splitSigned bytes = .error e →
      acceptSigned dh xed bytes expectedAccount policy = .fail e := by
    intro bytes e failed
    rw [acceptSigned, failed, Consulting.lift_error_bind]
  refine ⟨?_, ?_, ?_, ?_⟩
  · intro bytes accepted
    constructor
    · intro returned
      cases split_ : splitSigned bytes with
      | error e =>
          rw [stopped split_] at returned
          cases returned
      | ok found =>
          obtain ⟨s, signature⟩ := found
          have splits := splitSigned_ok.1 split_
          rw [computed splits] at returned
          rcases accept_outcome splits.written with ⟨c, e, -, -, failed, -⟩ | ⟨all, result⟩
          · rw [failed] at returned
            cases returned
          · refine ⟨s, signature, splits, all, ?_⟩
            rw [result] at returned
            exact (Except.ok.inj returned).symm
    · rintro ⟨s, signature, splits, all, rfl⟩
      rw [computed splits]
      rcases accept_outcome splits.written with ⟨c, e, first, -⟩ | ⟨-, result⟩
      · exact absurd (all c) first.1
      · exact result
  · intro bytes e
    constructor
    · intro returned
      cases split_ : splitSigned bytes with
      | error e' =>
          rw [stopped split_] at returned
          obtain ⟨rfl⟩ := returned
          exact .inl (splitSigned_error.1 split_)
      | ok found =>
          obtain ⟨s, signature⟩ := found
          have splits := splitSigned_ok.1 split_
          rw [computed splits] at returned
          rcases accept_outcome splits.written with ⟨c, e', first, refuses, failed, -⟩ | ⟨-, result⟩
          · rw [failed] at returned
            obtain ⟨rfl⟩ := returned
            exact .inr ⟨s, signature, c, splits, first, refuses⟩
          · rw [result] at returned
            cases returned
    · rintro (refusal | ⟨s, signature, c, splits, first, refuses⟩)
      · rw [stopped (splitSigned_error.2 refusal)]
        rfl
      · rw [computed splits]
        rcases accept_outcome splits.written with ⟨c', e', first', refuses', failed, -⟩ | ⟨all, -⟩
        · have same := first.unique first'
          subst same
          rw [failed, refuses.unique refuses']
        · exact absurd (all c) first.1
  · intro bytes call here judges
    cases split_ : splitSigned bytes with
    | error e =>
        rw [stopped split_] at here
        cases here
    | ok found =>
        obtain ⟨s, signature⟩ := found
        have splits := splitSigned_ok.1 split_
        rw [computed splits] at here
        refine ⟨s, signature, splits, ?_⟩
        intro d notLast
        rcases accept_outcome splits.written with ⟨c, e, first, -, -, rfl | quiet⟩ | ⟨all, -⟩
        · apply first.2
          cases d <;> simp_all [Check.number]
        · exact absurd judges (quiet call here)
        · exact all d
  · intro s secret rng rng' bytes signed bound
    obtain ⟨checked, z, rfl⟩ := encodeSigned_ok signed
    obtain ⟨w, devices, keys⟩ := checkForSigning_ok.1 checked
    refine ⟨_, ⟨s.preimage, rfl, decodeUnsigned_ok.2 ⟨w, rfl⟩⟩, ?_⟩
    constructor
    · intro holds
      exact ⟨holds .account (by decide), holds .generation (by decide)⟩
    · rintro ⟨account, current⟩ c notLast
      cases c with
      | account => exact account
      | issuer => exact ⟨_, bound⟩
      | signature => exact ⟨_, bound, correct secret _ z⟩
      | generation => exact current
      | devices => exact devices
      | identityKeys => exact keys
      | policy => exact absurd rfl notLast

/-- One issuer, one current generation, and two devices. -/
def samplePolicy : InventoryPolicy where
  issuerPublicKey id _ := if id = 1 then some (Sample.publicKey (Vector.replicate 32 9)) else none
  generationIsCurrent _ generation := decide (generation = 3)
  bindingIsAllowed _ binding _ := decide (binding.deviceId ≤ 2)
  statementIsAllowed statement := decide (statement.active.length = 2)

/-- What the issuer signs of it, its verifier accepts. -/
theorem inventory_acceptance_exact_sample :
    ∃ bytes rng, sampleStatement.encodeSigned (Sample.dh id) Sample.xed (Vector.replicate 32 9)
        (fun _ => 0) = (.ok bytes, rng) ∧
      (acceptSigned (Sample.dh id) Sample.xed bytes "acme/alice" samplePolicy).result =
        .ok { statement := sampleStatement } := by
  have exact_ := inventory_acceptance_exact (Sample.dh id) Sample.xed (Sample.xed_correct id)
    samplePolicy "acme/alice"
  have written : sampleStatement.encodeUnsigned = .ok sampleStatement.preimage := by
    decide +kernel
  have signed : ∃ bytes rng, sampleStatement.encodeSigned (Sample.dh id) Sample.xed
      (Vector.replicate 32 9) (fun _ => 0) = (.ok bytes, rng) := by
    unfold InventoryStatement.encodeSigned InventoryStatement.sign
    rw [written]
    have checked : sampleStatement.checkForSigning (Sample.dh id) = .ok () := by
      rw [checkForSigning_ok]
      refine ⟨(encodeUnsigned_ok.1 written).1, by decide, ?_⟩
      intro b here
      simp only [sampleStatement, InventoryStatement.bindings, List.map_cons, List.map_nil,
        List.cons_append, List.nil_append, List.mem_cons, List.not_mem_nil, or_false] at here
      rcases here with rfl | rfl | rfl
      · exact ⟨by decide, rfl, rfl⟩
      · exact ⟨by decide, rfl, rfl⟩
      · exact ⟨by decide, rfl, rfl⟩
    rw [checked]
    simp only [InventoryStatement.signUnchecked, written]
    exact ⟨_, _, rfl⟩
  obtain ⟨bytes, rng, signed⟩ := signed
  obtain ⟨signature, splits, agree⟩ := exact_.2.2.2 sampleStatement _ _ rng bytes signed rfl
  refine ⟨bytes, rng, signed, (exact_.1 bytes _).2 ⟨_, signature, splits, ?_, rfl⟩⟩
  have six := agree.2 ⟨rfl, rfl⟩
  intro c
  by_cases last : c = .policy
  · subst last
    exact ⟨by decide, by decide⟩
  · exact six c last

end Tacenta.Inventory
