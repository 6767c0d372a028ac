/-
# Tacenta.Inventory.Canonical -- one preimage for each statement

The format is stated over bytes, in the order it lays them out: `Fields` are the
parts of an input, a binding being any byte string, and `Fields.Wellformed` are
the rules, among them that both lists ascend as byte strings.  The code compares
bindings field by field and looks for overlaps by halving; the encodings keep the
derived orders (`putBinding_keeps`), so the two agree.
-/
import Tacenta.Inventory.Statement

set_option autoImplicit false

namespace Tacenta.Inventory

open Error

/-! ## The format, over bytes -/

/-- Bit 0 of a capability word is set and no other is. -/
def GroupEpochOnly (c : UInt64) : Prop := c ≠ 0 ∧ ∀ i, c.toNat.testBit i = true → i = 0

/-- An encoded device binding. -/
def IsBinding (e : Bytes) : Prop :=
  ∃ (deviceId : UInt32) (key : Arr 32) (capabilities : UInt64) (predecessor : Bytes),
    e = be32 deviceId ++ key.toList ++ be64 capabilities ++ predecessor ∧
    GroupEpochOnly capabilities ∧
    (predecessor = [0x00] ∨ ∃ commitment : Arr 32, predecessor = 0x01 :: commitment.toList)

/-- The parts of a preimage, every entry as the bytes it is written in. -/
structure Fields where
  issuerKeyId : UInt64
  account : Bytes
  inventoryGeneration : UInt64
  active : List Bytes
  revocationFloorGeneration : UInt64
  revoked : List (Bytes × UInt64)

namespace Fields

variable (f : Fields)

/-- A revoked entry: its binding, then its terminal generation. -/
def entry (r : Bytes × UInt64) : Bytes := r.1 ++ be64 r.2

/-- The parts in order. -/
def bytes : Bytes :=
  ascii "Tacenta Inventory Statement v1" ++ be64 f.issuerKeyId ++
    (be32 (UInt32.ofNat f.account.length) ++ f.account) ++
    be64 f.inventoryGeneration ++
    (be32 (UInt32.ofNat f.active.length) ++ f.active.flatten) ++
    be64 f.revocationFloorGeneration ++
    (be32 (UInt32.ofNat f.revoked.length) ++ (f.revoked.map entry).flatten)

/-- **The rules of the format.** -/
structure Wellformed : Prop where
  account_nonempty : f.account ≠ []
  account_short : f.account.length ≤ 256
  account_utf8 : ByteArray.IsValidUTF8 ⟨f.account.toArray⟩
  active_few : f.active.length ≤ 8
  revoked_few : f.revoked.length ≤ 8
  floor : f.revocationFloorGeneration ≤ f.inventoryGeneration
  active_bindings : ∀ e ∈ f.active, IsBinding e
  revoked_bindings : ∀ r ∈ f.revoked, IsBinding r.1
  active_ascending : f.active.Pairwise (· < ·)
  revoked_ascending : (f.revoked.map entry).Pairwise (· < ·)
  apart : ∀ e ∈ f.active, ∀ r ∈ f.revoked, e ≠ r.1
  terminal : ∀ r ∈ f.revoked, f.revocationFloorGeneration < r.2 ∧ r.2 ≤ f.inventoryGeneration

end Fields

/-- A statement's parts. -/
def InventoryStatement.fields (s : InventoryStatement) : Fields where
  issuerKeyId := s.issuerKeyId
  account := asBytes s.accountHandle
  inventoryGeneration := s.inventoryGeneration
  active := s.active.map putBinding
  revocationFloorGeneration := s.revocationFloorGeneration
  revoked := s.revoked.map fun r => (putBinding r.binding, r.terminalGeneration)

theorem preimage_eq_fields (s : InventoryStatement) : s.preimage = s.fields.bytes := by
  have entries : (s.revoked.map fun r => Fields.entry (putBinding r.binding, r.terminalGeneration))
      = s.revoked.map putRevocation := rfl
  simp only [InventoryStatement.preimage, Fields.bytes, InventoryStatement.fields, lenPrefix,
    List.flatMap_def, List.length_map, List.map_map, Function.comp_def, entries]
  rfl

/-! ## Account handles -/

theorem fromUTF8_asBytes (s : String) : String.fromUTF8? ⟨(asBytes s).toArray⟩ = some s := by
  simp [asBytes, String.fromUTF8?, String.fromUTF8, s.isValidUTF8]

theorem asBytes_valid (s : String) : ByteArray.IsValidUTF8 ⟨(asBytes s).toArray⟩ := by
  simpa [asBytes] using s.isValidUTF8

theorem exists_asBytes {l : Bytes} (valid : ByteArray.IsValidUTF8 ⟨l.toArray⟩) :
    ∃ s, asBytes s = l :=
  ⟨String.fromUTF8 _ valid, by simp [asBytes, String.fromUTF8]⟩

/-! ## Bindings -/

/-- The mask leaves nothing exactly when no bit but bit 0 is set. -/
theorem masked_iff (c : UInt64) :
    c &&& ~~~groupEpochV1 = 0 ↔ ∀ i, c.toNat.testBit i = true → i = 0 := by
  have halves : c &&& ~~~groupEpochV1 = 0 ↔ c.toNat / 2 = 0 := by
    constructor
    · intro none_
      have half : (c &&& ~~~groupEpochV1).toNat / 2 = 0 := by
        rw [none_]
        rfl
      have mask : (~~~groupEpochV1).toNat / 2 = 2 ^ 63 - 1 := by decide
      have small := c.toNat_lt
      rw [UInt64.toNat_and, Nat.and_div_two, mask, Nat.and_two_pow_sub_one_eq_mod,
        Nat.mod_eq_of_lt (by omega)] at half
      exact half
    · intro none_
      have low : c.toNat = 0 ∨ c.toNat = 1 := by omega
      rcases low with zero | one
      · have same : c = 0 := UInt64.toNat_inj.1 zero
        rw [same]
        decide
      · have same : c = 1 := UInt64.toNat_inj.1 one
        rw [same]
        decide
  rw [halves]
  constructor
  · intro none_ i set_
    cases i with
    | zero => rfl
    | succ i => simp [Nat.testBit_succ, none_] at set_
  · intro only
    apply Nat.eq_of_testBit_eq
    intro i
    rw [← Nat.testBit_succ, Nat.zero_testBit]
    by_contra set_
    have := only (i + 1) (by simpa using set_)
    omega

theorem bindingOk_iff (b : DeviceBinding) : bindingOk b = .ok () ↔ GroupEpochOnly b.capabilities := by
  unfold bindingOk GroupEpochOnly
  rw [← masked_iff]
  by_cases zero : b.capabilities = 0
  · simp [zero]
  · by_cases masked : b.capabilities &&& ~~~groupEpochV1 = 0
    · simp [zero, masked]
    · simp [masked]

/-- Bindings compare as their encodings do. -/
theorem putBinding_keeps : Keeps DeviceBinding.cmp putBinding := by
  have id := Keeps.be32.on DeviceBinding.deviceId
  have key := (Keeps.arr 32).on DeviceBinding.identityPublicKey
  have word := Keeps.be64.on DeviceBinding.capabilities
  have tail := (Keeps.arr 32).tagged.on DeviceBinding.replacementPredecessor
  have whole := id.append (key.append (word.append tail))
  have written : putBinding = fun b => be32 b.deviceId ++ (b.identityPublicKey.toList ++
      (be64 b.capabilities ++ writeTagged Vector.toList b.replacementPredecessor)) := by
    funext b
    simp only [putBinding, List.append_assoc]
  rw [written]
  exact whole

/-- Revocations compare as their encodings do. -/
theorem putRevocation_keeps : Keeps Revocation.cmp putRevocation :=
  (putBinding_keeps.on Revocation.binding).append (Keeps.be64.on Revocation.terminalGeneration)

theorem reads_binding (b : DeviceBinding) : Reads takeBinding (putBinding b) b := by
  unfold takeBinding putBinding
  rw [List.append_assoc, List.append_assoc]
  refine (Reads.u32 malformed _).bind ?_
  refine (Reads.arr malformed _).bind ?_
  refine (Reads.u64 malformed _).bind ?_
  refine Reads.bind_last (Reads.tagged malformed (Reads.arr malformed) _) ?_
  exact Reads.of_pure _

theorem reads_revocation (r : Revocation) : Reads takeRevocation (putRevocation r) r := by
  unfold takeRevocation putRevocation
  refine (reads_binding r.binding).bind ?_
  exact Reads.bind_last (Reads.u64 malformed _) (Reads.of_pure _)

theorem putBinding_injective : Function.Injective putBinding := by
  intro a b same
  have one := (reads_binding a).all
  have two := (reads_binding b).all
  rw [same, two] at one
  exact (Prod.mk.inj (Except.ok.inj one)).1.symm

/-- The encoded bindings are what `putBinding` writes of the bindings it may. -/
theorem isBinding_iff (e : Bytes) : IsBinding e ↔ ∃ b, putBinding b = e ∧ bindingOk b = .ok () := by
  constructor
  · rintro ⟨deviceId, key, capabilities, predecessor, rfl, only, absent | ⟨commitment, present⟩⟩
    · refine ⟨⟨deviceId, key, capabilities, none⟩, ?_, (bindingOk_iff _).2 only⟩
      rw [absent]
      rfl
    · refine ⟨⟨deviceId, key, capabilities, some commitment⟩, ?_, (bindingOk_iff _).2 only⟩
      rw [present]
      rfl
  · rintro ⟨b, rfl, fine⟩
    refine ⟨b.deviceId, b.identityPublicKey, b.capabilities, _, rfl, (bindingOk_iff b).1 fine, ?_⟩
    cases b.replacementPredecessor with
    | none => exact .inl rfl
    | some commitment => exact .inr ⟨commitment, rfl⟩

/-! ## Order -/

instance : Trans (fun a b : DeviceBinding => a.cmp b = .lt) (fun a b => a.cmp b = .lt)
    (fun a b => a.cmp b = .lt) := ⟨putBinding_keeps.lt_trans⟩

instance : Trans (fun a b : Revocation => a.cmp b = .lt) (fun a b => a.cmp b = .lt)
    (fun a b => a.cmp b = .lt) := ⟨putRevocation_keeps.lt_trans⟩

/-- Ascending in a kept order is ascending as byte strings. -/
theorem ascending_map_iff {α : Type} {cmp : α → α → Ordering} {encode : α → Bytes}
    (keeps : Keeps cmp encode) (l : List α) :
    (l.map encode).Pairwise (· < ·) ↔ Ascending cmp l := by
  rw [List.pairwise_map, Ascending]
  simp only [keeps.lt_iff]

/-- What the loop over the active bindings accepts. -/
theorem canonicalBindings_ok {previous : Option DeviceBinding} {l : List DeviceBinding} :
    canonicalBindings previous l = .ok () ↔ (∀ b ∈ l, bindingOk b = .ok ()) ∧
      (previous.toList ++ l).IsChain fun a b => a.cmp b = .lt := by
  induction l generalizing previous with
  | nil => cases previous <;> simp [canonicalBindings]
  | cons b rest ih =>
      rw [canonicalBindings, bind_eq_ok]
      have unit : (∃ u, bindingOk b = .ok u) ↔ bindingOk b = .ok () :=
        ⟨fun ⟨_, fine⟩ => fine, fun fine => ⟨(), fine⟩⟩
      cases previous with
      | none => simp [ih, unit, and_assoc]
      | some prior => by_cases below : prior.cmp b = .lt <;> simp [below, ih, unit, and_assoc]

/-- What the loop over the revoked entries accepts. -/
theorem canonicalRevocations_ok {s : InventoryStatement} {previous : Option Revocation}
    {l : List Revocation} :
    s.canonicalRevocations previous l = .ok () ↔
      (∀ r ∈ l, s.revocationFloorGeneration < r.terminalGeneration ∧
        r.terminalGeneration ≤ s.inventoryGeneration) ∧
      (∀ r ∈ l, bindingOk r.binding = .ok ()) ∧
      (∀ r ∈ l, binarySearch (fun b => b.cmp r.binding) s.active = false) ∧
      (previous.toList ++ l).IsChain fun a b => a.cmp b = .lt := by
  induction l generalizing previous with
  | nil => cases previous <;> simp [InventoryStatement.canonicalRevocations]
  | cons r rest ih =>
      rw [InventoryStatement.canonicalRevocations]
      by_cases late : s.revocationFloorGeneration < r.terminalGeneration
      · by_cases early : r.terminalGeneration ≤ s.inventoryGeneration
        · rw [if_neg (by simp [UInt64.not_le, UInt64.not_lt, late, early]), bind_eq_ok]
          by_cases found : binarySearch (fun b => b.cmp r.binding) s.active = true
          · cases previous with
            | none => simp [found]
            | some prior => by_cases below : prior.cmp r = .lt <;> simp [below, found]
          · cases previous with
            | none => simp [found, late, early, ih]; tauto
            | some prior =>
                by_cases below : prior.cmp r = .lt
                · simp [below, found, late, early, ih]; tauto
                · simp [below]
        · simp [early, UInt64.not_le.1 early]
      · simp [late, UInt64.not_lt.1 late]

/-- Between ordered active bindings, halving finds an overlap where there is one. -/
theorem overlap_iff {active : List DeviceBinding} (sorted : Ascending DeviceBinding.cmp active)
    (target : DeviceBinding) :
    binarySearch (fun b => b.cmp target) active = false ↔
      ∀ b ∈ active, putBinding b ≠ putBinding target := by
  rw [← Bool.not_eq_true, binarySearch_iff putBinding_keeps sorted]
  simp only [putBinding_keeps.eq_iff putBinding_injective, putBinding_injective.ne_iff, not_exists,
    not_and]

/-! ## Writing -/

/-- The rules, as the two loops check them. -/
theorem wellformed_iff (s : InventoryStatement) :
    s.fields.Wellformed ↔
      asBytes s.accountHandle ≠ [] ∧ (asBytes s.accountHandle).length ≤ maxAccountBytes ∧
      s.active.length ≤ maxActiveBindings ∧ s.revoked.length ≤ maxRecentRevocations ∧
      s.revocationFloorGeneration ≤ s.inventoryGeneration ∧
      canonicalBindings none s.active = .ok () ∧ s.canonicalRevocations none s.revoked = .ok () := by
  rw [canonicalBindings_ok, canonicalRevocations_ok, List.isChain_iff_pairwise,
    List.isChain_iff_pairwise]
  have encoded : (s.fields.revoked.map Fields.entry) = s.revoked.map putRevocation := by
    rw [InventoryStatement.fields, List.map_map]
    rfl
  have allowed : ∀ b : DeviceBinding, IsBinding (putBinding b) ↔ bindingOk b = .ok () := by
    intro b
    rw [isBinding_iff]
    exact ⟨fun ⟨c, same, fine⟩ => putBinding_injective same ▸ fine, fun fine => ⟨b, rfl, fine⟩⟩
  constructor
  · intro w
    have sorted : Ascending DeviceBinding.cmp s.active :=
      (ascending_map_iff putBinding_keeps _).1 w.active_ascending
    refine ⟨w.account_nonempty, w.account_short, ?_, ?_, w.floor, ⟨?_, sorted⟩, ?_, ?_, ?_, ?_⟩
    · have few := w.active_few
      rwa [InventoryStatement.fields, List.length_map] at few
    · have few := w.revoked_few
      rwa [InventoryStatement.fields, List.length_map] at few
    · intro b here
      exact (allowed b).1 (w.active_bindings _ (List.mem_map_of_mem here))
    · intro r here
      exact w.terminal _ (List.mem_map_of_mem here)
    · intro r here
      exact (allowed _).1 (w.revoked_bindings _ (List.mem_map_of_mem here))
    · intro r here
      rw [overlap_iff sorted]
      intro b inside
      exact w.apart _ (List.mem_map_of_mem inside) _ (List.mem_map_of_mem here)
    · have ascending := w.revoked_ascending
      rw [encoded, ascending_map_iff putRevocation_keeps] at ascending
      exact ascending
  · rintro ⟨nonempty, short, few, few', floor, ⟨fine, sorted⟩, terminal, fine', overlap, ascending⟩
    constructor
    · exact nonempty
    · exact short
    · exact asBytes_valid _
    · rwa [InventoryStatement.fields, List.length_map]
    · rwa [InventoryStatement.fields, List.length_map]
    · exact floor
    · intro e here
      obtain ⟨b, inside, rfl⟩ := List.mem_map.1 here
      exact (allowed b).2 (fine b inside)
    · intro e here
      obtain ⟨r, inside, rfl⟩ := List.mem_map.1 here
      exact (allowed _).2 (fine' r inside)
    · exact (ascending_map_iff putBinding_keeps _).2 sorted
    · rw [encoded, ascending_map_iff putRevocation_keeps]
      exact ascending
    · intro e here p there
      obtain ⟨b, inside, rfl⟩ := List.mem_map.1 here
      obtain ⟨r, listed, rfl⟩ := List.mem_map.1 there
      exact (overlap_iff sorted _).1 (overlap r listed) b inside
    · intro p there
      obtain ⟨r, listed, rfl⟩ := List.mem_map.1 there
      exact terminal r listed

/-- **What is written keeps the rules**, and is the preimage. -/
theorem encodeUnsigned_ok {s : InventoryStatement} {bytes : Bytes} :
    s.encodeUnsigned = .ok bytes ↔ s.fields.Wellformed ∧ bytes = s.preimage := by
  rw [wellformed_iff]
  unfold InventoryStatement.encodeUnsigned
  dsimp only
  by_cases account : asBytes s.accountHandle = [] ∨ (asBytes s.accountHandle).length > maxAccountBytes
  · rw [if_pos account]
    simp only [reduceCtorEq, false_iff]
    rintro ⟨⟨nonempty, short, -⟩, -⟩
    rcases account with empty | long
    · exact nonempty empty
    · omega
  rw [if_neg account]
  by_cases many : s.active.length > maxActiveBindings ∨ s.revoked.length > maxRecentRevocations
  · rw [if_pos many]
    simp only [reduceCtorEq, false_iff]
    rintro ⟨⟨-, -, few, few', -⟩, -⟩
    omega
  rw [if_neg many]
  by_cases floor : s.revocationFloorGeneration > s.inventoryGeneration
  · rw [if_pos floor]
    simp only [reduceCtorEq, false_iff]
    rintro ⟨⟨-, -, -, -, below, -⟩, -⟩
    exact UInt64.not_le.2 floor below
  rw [if_neg floor]
  rw [not_or, Nat.not_lt] at account many
  rw [Nat.not_lt] at many
  simp only [bind_eq_ok, Except.ok.injEq]
  constructor
  · rintro ⟨⟨⟩, first, ⟨⟩, second, rfl⟩
    exact ⟨⟨account.1, account.2, many.1, many.2, UInt64.not_lt.1 floor, first, second⟩, rfl⟩
  · rintro ⟨⟨-, -, -, -, -, first, second⟩, rfl⟩
    exact ⟨(), first, (), second, rfl⟩

/-! ## Reading -/

theorem reads_takeExact (expected : Bytes) : Reads (takeExact expected) expected () := by
  unfold takeExact
  refine Reads.bind_last (Reads.bytes malformed rfl) ?_
  exact Reads.require malformed (by simp)

theorem reads_takeAccount {s : String} (small : (asBytes s).length < 2 ^ 32) :
    Reads takeAccount (lenPrefix (asBytes s)) s := by
  unfold takeAccount
  refine Reads.bind_last (Reads.lenPrefixed malformed small) ?_
  exact Reads.orRefuse malformed (fromUTF8_asBytes s)

/-- A statement that keeps the rules is read back from its preimage. -/
theorem takeStatement_preimage {s : InventoryStatement} (w : s.fields.Wellformed) :
    takeStatement.value s.preimage = .ok s := by
  obtain ⟨-, short, few, few', -⟩ := (wellformed_iff s).1 w
  apply ReadsAll.value
  unfold takeStatement InventoryStatement.preimage
  simp only [List.append_assoc]
  refine ReadsAll.bind (reads_takeExact _) ?_
  refine ReadsAll.bind (Reads.u64 malformed _) ?_
  refine ReadsAll.bind (reads_takeAccount (Nat.lt_of_le_of_lt short (by decide))) ?_
  refine ReadsAll.bind (Reads.u64 malformed _) ?_
  rw [← List.append_assoc (be32 (UInt32.ofNat s.active.length))]
  refine ReadsAll.bind (Reads.upTo malformed few (by decide) reads_binding) ?_
  refine ReadsAll.bind (Reads.u64 malformed _) ?_
  refine ReadsAll.bind_last (Reads.upTo malformed few' (by decide) reads_revocation) ?_
  exact ReadsAll.atEnd malformed rfl

/-- **What is read keeps the rules**, and is read from its preimage alone. -/
theorem decodeUnsigned_ok {s : InventoryStatement} {bytes : Bytes} :
    decodeUnsigned bytes = .ok s ↔ s.fields.Wellformed ∧ bytes = s.preimage := by
  unfold decodeUnsigned
  constructor
  · intro decoded
    obtain ⟨s', -, later⟩ := bind_eq_ok.1 decoded
    obtain ⟨again, written, last⟩ := bind_eq_ok.1 later
    split at last
    · cases last
    · rename_i same
      obtain ⟨rfl⟩ := last
      rw [not_not] at same
      subst same
      exact encodeUnsigned_ok.1 written
  · rintro ⟨w, rfl⟩
    refine bind_eq_ok.2 ⟨s, takeStatement_preimage w, ?_⟩
    refine bind_eq_ok.2 ⟨s.preimage, encodeUnsigned_ok.2 ⟨w, rfl⟩, ?_⟩
    rw [if_neg (by simp)]

/-- Wellformed parts are some statement's. -/
theorem Fields.Wellformed.statement {f : Fields} (w : f.Wellformed) :
    ∃ s : InventoryStatement, s.fields = f := by
  obtain ⟨account, spelled⟩ := exists_asBytes w.account_utf8
  have first : ∀ l : List Bytes, (∀ e ∈ l, IsBinding e) → ∃ l' : List DeviceBinding, l'.map putBinding = l := by
    intro l each
    induction l with
    | nil => exact ⟨[], rfl⟩
    | cons e rest ih =>
        obtain ⟨b, written, -⟩ := (isBinding_iff e).1 (each e (by simp))
        obtain ⟨l', rest'⟩ := ih fun e' here => each e' (by simp [here])
        exact ⟨b :: l', by rw [List.map_cons, written, rest']⟩
  obtain ⟨active, listed⟩ := first f.active w.active_bindings
  obtain ⟨bindings, listed'⟩ := first (f.revoked.map Prod.fst) (by
    intro e here
    obtain ⟨r, inside, rfl⟩ := List.mem_map.1 here
    exact w.revoked_bindings r inside)
  refine ⟨⟨f.issuerKeyId, account, f.inventoryGeneration, active, f.revocationFloorGeneration,
    List.zipWith Revocation.mk bindings (f.revoked.map Prod.snd)⟩, ?_⟩
  have revoked : (List.zipWith Revocation.mk bindings (f.revoked.map Prod.snd)).map
      (fun r => (putBinding r.binding, r.terminalGeneration)) = f.revoked := by
    rw [List.map_zipWith]
    have paired : f.revoked = List.zip (bindings.map putBinding) (f.revoked.map Prod.snd) := by
      rw [listed', ← List.unzip_fst, ← List.unzip_snd, List.zip_unzip]
    conv_rhs => rw [paired]
    rw [List.zip_map_left, List.zip, List.map_zipWith]
    rfl
  simp only [InventoryStatement.fields, spelled, listed, revoked]

/-- **An inventory statement has one preimage.**  A statement that is written is
read back; input that is read is what the statement read from it is written as;
what is written has both lists in ascending order as byte strings, no binding in
both, and every terminal generation after the floor and up to the generation; and
input that is not made of parts keeping the rules is refused. -/
theorem inventory_codec_canonical :
    (∀ (s : InventoryStatement) (bytes : Bytes),
      s.encodeUnsigned = .ok bytes → decodeUnsigned bytes = .ok s) ∧
    (∀ (bytes : Bytes) (s : InventoryStatement),
      decodeUnsigned bytes = .ok s → s.encodeUnsigned = .ok bytes) ∧
    (∀ (s : InventoryStatement) (bytes : Bytes), s.encodeUnsigned = .ok bytes →
      (s.active.map putBinding).Pairwise (· < ·) ∧
      (s.revoked.map putRevocation).Pairwise (· < ·) ∧
      (∀ b ∈ s.active, ∀ r ∈ s.revoked, b ≠ r.binding) ∧
      ∀ r ∈ s.revoked, s.revocationFloorGeneration < r.terminalGeneration ∧
        r.terminalGeneration ≤ s.inventoryGeneration) ∧
    (∀ bytes : Bytes, (¬ ∃ f : Fields, f.Wellformed ∧ f.bytes = bytes) →
      ∃ e, decodeUnsigned bytes = .error e) := by
  refine ⟨?_, ?_, ?_, ?_⟩
  · intro s bytes written
    exact decodeUnsigned_ok.2 (encodeUnsigned_ok.1 written)
  · intro bytes s read
    exact encodeUnsigned_ok.2 (decodeUnsigned_ok.1 read)
  · intro s bytes written
    obtain ⟨w, -⟩ := encodeUnsigned_ok.1 written
    obtain ⟨-, -, -, -, -, first, second⟩ := (wellformed_iff s).1 w
    obtain ⟨-, ascending⟩ := canonicalBindings_ok.1 first
    obtain ⟨terminal, -, -, ascending'⟩ := canonicalRevocations_ok.1 second
    rw [List.isChain_iff_pairwise] at ascending ascending'
    refine ⟨(ascending_map_iff putBinding_keeps _).2 ascending,
      (ascending_map_iff putRevocation_keeps _).2 ascending', ?_, terminal⟩
    intro b here r there same
    exact w.apart _ (List.mem_map_of_mem here) _ (List.mem_map_of_mem there)
      (congrArg putBinding same)
  · intro bytes broken
    cases decoded : decodeUnsigned bytes with
    | error e => exact ⟨e, rfl⟩
    | ok s =>
        obtain ⟨w, layout⟩ := decodeUnsigned_ok.1 decoded
        exact absurd ⟨s.fields, w, by rw [layout, preimage_eq_fields]⟩ broken

def device (id : UInt32) (key : UInt8) : DeviceBinding where
  deviceId := id
  identityPublicKey := Vector.replicate 32 key
  capabilities := groupEpochV1
  replacementPredecessor := none

/-- An account with two devices, the second in place of one that was revoked. -/
def sampleStatement : InventoryStatement where
  issuerKeyId := 1
  accountHandle := "acme/alice"
  inventoryGeneration := 3
  active := [device 1 4, { device 2 5 with
    replacementPredecessor := some (Vector.replicate 32 6) }]
  revocationFloorGeneration := 2
  revoked := [⟨device 2 6, 3⟩]

/-- Its preimage is read back as it was. -/
theorem inventory_codec_canonical_sample :
    sampleStatement.encodeUnsigned = .ok sampleStatement.preimage ∧
      decodeUnsigned sampleStatement.preimage = .ok sampleStatement := by
  have written : sampleStatement.encodeUnsigned = .ok sampleStatement.preimage := by
    decide +kernel
  exact ⟨written, inventory_codec_canonical.1 _ _ written⟩

/-- The other way round: input made of parts that keep the rules is read. -/
theorem decodeUnsigned_wellformed {f : Fields} (w : f.Wellformed) :
    ∃ s : InventoryStatement, s.fields = f ∧ decodeUnsigned f.bytes = .ok s := by
  obtain ⟨s, parts⟩ := w.statement
  refine ⟨s, parts, decodeUnsigned_ok.2 ⟨?_, ?_⟩⟩
  · rwa [parts]
  · rw [preimage_eq_fields, parts]

end Tacenta.Inventory
