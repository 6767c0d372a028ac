/-
# Tacenta.Inventory.Statement -- hosted device-inventory statements

An issuer states which devices an account has: the active bindings, and the
recently revoked ones with the generation each ended at.  A statement has one
encoding, its preimage, and only a statement that keeps the format's rules has
it: `encodeUnsigned` checks the rules and writes, `decodeUnsigned` reads and then
writes again what it read.
-/
import Tacenta.Kdf
import Tacenta.Ordered

set_option autoImplicit false

namespace Tacenta.Inventory

def inventoryDomain : Bytes := ascii "Tacenta Inventory Statement v1"
def groupEpochV1 : UInt64 := 1
def maxAccountBytes : Nat := 256
def maxActiveBindings : Nat := 8
def maxRecentRevocations : Nat := 8

inductive Error where
  | malformed
  | nonCanonical
  | unsupported
  | nonContributory
  | notPrimeOrder
  | wrongAccount
  | issuerUnbound
  | badSignature
  | stale
  | duplicateDevice
  | refused
  deriving DecidableEq, Repr

open Error

structure DeviceBinding where
  deviceId : UInt32
  identityPublicKey : Arr 32
  capabilities : UInt64
  replacementPredecessor : Option (Arr 32)
  deriving DecidableEq

structure Revocation where
  binding : DeviceBinding
  terminalGeneration : UInt64
  deriving DecidableEq

structure InventoryStatement where
  issuerKeyId : UInt64
  accountHandle : String
  inventoryGeneration : UInt64
  active : List DeviceBinding
  revocationFloorGeneration : UInt64
  revoked : List Revocation
  deriving DecidableEq

/-! ## The derived orders -/

/-- `[u8; 32]`'s order. -/
def compareKeys (k l : Arr 32) : Ordering := compare k.toList l.toList

/-- `DeviceBinding`'s derived order: field by field. -/
def DeviceBinding.cmp (a b : DeviceBinding) : Ordering :=
  (compare a.deviceId b.deviceId).then <|
    (compareKeys a.identityPublicKey b.identityPublicKey).then <|
      (compare a.capabilities b.capabilities).then <|
        compareOption compareKeys a.replacementPredecessor b.replacementPredecessor

/-- `Revocation`'s derived order. -/
def Revocation.cmp (a b : Revocation) : Ordering :=
  (a.binding.cmp b.binding).then (compare a.terminalGeneration b.terminalGeneration)

/-! ## Writing -/

def putBinding (b : DeviceBinding) : Bytes :=
  be32 b.deviceId ++ b.identityPublicKey.toList ++ be64 b.capabilities ++
    writeTagged Vector.toList b.replacementPredecessor

def putRevocation (r : Revocation) : Bytes :=
  putBinding r.binding ++ be64 r.terminalGeneration

/-- `account_handle.as_bytes()`. -/
def asBytes (s : String) : Bytes := s.toByteArray.data.toList

def bindingOk (b : DeviceBinding) : Except Error Unit :=
  if b.capabilities &&& ~~~groupEpochV1 ≠ 0 ∨ b.capabilities = 0 then .error unsupported else .ok ()

/-- The loop of `canonical_bindings`, `previous` being the entry before. -/
def canonicalBindings : Option DeviceBinding → List DeviceBinding → Except Error Unit
  | _, [] => .ok ()
  | previous, b :: rest => do
      bindingOk b
      if previous.any fun prior => prior.cmp b ≠ .lt then .error nonCanonical
      else canonicalBindings (some b) rest

namespace InventoryStatement

variable (s : InventoryStatement)

/-- The loop of `encode_unsigned` over the revoked entries. -/
def canonicalRevocations : Option Revocation → List Revocation → Except Error Unit
  | _, [] => .ok ()
  | previous, r :: rest =>
      if r.terminalGeneration ≤ s.revocationFloorGeneration ∨
          r.terminalGeneration > s.inventoryGeneration then .error malformed
      else do
        bindingOk r.binding
        if previous.any fun prior => prior.cmp r ≠ .lt then .error nonCanonical
        else if binarySearch (fun b => b.cmp r.binding) s.active then .error nonCanonical
        else canonicalRevocations (some r) rest

/-- What `encode_unsigned` writes. -/
def preimage : Bytes :=
  inventoryDomain ++ be64 s.issuerKeyId ++
    lenPrefix (asBytes s.accountHandle) ++
    be64 s.inventoryGeneration ++
    (be32 (UInt32.ofNat s.active.length) ++ s.active.flatMap putBinding) ++
    be64 s.revocationFloorGeneration ++
    (be32 (UInt32.ofNat s.revoked.length) ++ s.revoked.flatMap putRevocation)

def encodeUnsigned : Except Error Bytes :=
  let account := asBytes s.accountHandle
  if account = [] ∨ account.length > maxAccountBytes then .error malformed
  else if s.active.length > maxActiveBindings ∨ s.revoked.length > maxRecentRevocations then
    .error malformed
  else if s.revocationFloorGeneration > s.inventoryGeneration then .error malformed
  else do
    canonicalBindings none s.active
    s.canonicalRevocations none s.revoked
    .ok s.preimage

end InventoryStatement

/-! ## Reading -/

def takeExact (expected : Bytes) : Reader Error Unit := do
  let value ← Reader.bytes malformed expected.length
  Reader.require (value == expected) malformed

def takeBinding : Reader Error DeviceBinding := do
  let deviceId ← Reader.u32 malformed
  let identityPublicKey ← Reader.arr malformed 32
  let capabilities ← Reader.u64 malformed
  let replacementPredecessor ← Reader.tagged malformed (Reader.arr malformed 32)
  pure { deviceId, identityPublicKey, capabilities, replacementPredecessor }

def takeRevocation : Reader Error Revocation := do
  let binding ← takeBinding
  let terminalGeneration ← Reader.u64 malformed
  pure { binding, terminalGeneration }

/-- `String::from_utf8` of a length-prefixed field. -/
def takeAccount : Reader Error String := do
  let field ← Reader.lenPrefixed malformed
  Reader.orRefuse (String.fromUTF8? ⟨field.toArray⟩) malformed

/-- The fields of a statement, up to the end of the input. -/
def takeStatement : Reader Error InventoryStatement := do
  takeExact inventoryDomain
  let issuerKeyId ← Reader.u64 malformed
  let accountHandle ← takeAccount
  let inventoryGeneration ← Reader.u64 malformed
  let active ← Reader.upTo malformed maxActiveBindings takeBinding
  let revocationFloorGeneration ← Reader.u64 malformed
  let revoked ← Reader.upTo malformed maxRecentRevocations takeRevocation
  Reader.atEnd malformed
  pure
    { issuerKeyId, accountHandle, inventoryGeneration, active, revocationFloorGeneration, revoked }

def decodeUnsigned (bytes : Bytes) : Except Error InventoryStatement := do
  let s ← takeStatement.value bytes
  let again ← s.encodeUnsigned
  if again ≠ bytes then .error nonCanonical else .ok s

end Tacenta.Inventory
