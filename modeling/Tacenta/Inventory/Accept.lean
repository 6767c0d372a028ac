/-
# Tacenta.Inventory.Accept -- signing a statement, and accepting a signed one

An issuer signs a statement after checks of its own; a verifier approves it for
one account under a policy, the product's four hooks.  A verifier here is a
`Consulting` computation: its result, and the hooks it called on the way, in
order.
-/
import Tacenta.Boundary
import Tacenta.Inventory.Statement

set_option autoImplicit false

namespace Tacenta.Inventory

open Error

variable {K : Type}

inductive BindingStatus where
  | active
  | revoked
  deriving DecidableEq, Repr

/-- The product's hooks. -/
structure InventoryPolicy where
  issuerPublicKey : UInt64 → String → Option (Arr 32)
  generationIsCurrent : String → UInt64 → Bool
  bindingIsAllowed : String → DeviceBinding → BindingStatus → Bool
  statementIsAllowed : InventoryStatement → Bool

/-- A statement `accept` approved. -/
structure AcceptedInventory where
  statement : InventoryStatement
  deriving DecidableEq

/-! ## Computations that call hooks -/

/-- One call of a hook. -/
inductive Consultation where
  | issuer (issuerKeyId : UInt64) (account : String)
  | generation (account : String) (generation : UInt64)
  | binding (account : String) (binding : DeviceBinding) (status : BindingStatus)
  | statement (s : InventoryStatement)

/-- A result, and the hooks called for it. -/
structure Consulting (α : Type) where
  result : Except Error α
  calls : List Consultation

namespace Consulting

variable {α β : Type}

def lift (x : Except Error α) : Consulting α := { result := x, calls := [] }

def fail (e : Error) : Consulting α := lift (.error e)

/-- Call a hook that answers `a`. -/
def ask (call : Consultation) (a : α) : Consulting α := { result := .ok a, calls := [call] }

instance : Monad Consulting where
  pure a := lift (.ok a)
  bind x f :=
    match x.result with
    | .error e => { result := .error e, calls := x.calls }
    | .ok a => { result := (f a).result, calls := x.calls ++ (f a).calls }

end Consulting

/-! ## Keys, devices and signatures -/

def inventorySigningLabel : Bytes := ascii "Tacenta:inventory-statement:v1" ++ [0xff]

def signingInput (unsigned : Bytes) : Bytes := inventorySigningLabel ++ unsigned

def verifySignature (xed : XEdDsa) (unsigned : Bytes) (issuerPublic : Arr 32) (signature : Arr 64) :
    Except Error Unit :=
  if xed.verify issuerPublic (signingInput unsigned) signature then .ok () else .error badSignature

/-- The secret of the agreement that finds low-order keys. -/
def probe : Arr 32 := Vector.replicate 32 7

def validateIdentityKey (dh : Dh K) (key : Arr 32) : Except Error Unit :=
  if !Curve.isCanonicalX25519 key then .error nonCanonical
  else if (dh.agree probe key).isNone then .error nonContributory
  else if dh.isTorsionFree key then .ok ()
  else .error notPrimeOrder

/-- The loop of `check_unique_devices`. -/
def uniqueDevices : List UInt32 → List DeviceBinding → Except Error Unit
  | _, [] => .ok ()
  | seen, b :: rest =>
      if seen.contains b.deviceId then .error duplicateDevice
      else uniqueDevices (seen ++ [b.deviceId]) rest

/-- The loop of `check_identity_keys`. -/
def identityKeys (dh : Dh K) : List (DeviceBinding × BindingStatus) → Except Error Unit
  | [] => .ok ()
  | (b, _) :: rest => do
      validateIdentityKey dh b.identityPublicKey
      identityKeys dh rest

namespace InventoryStatement

variable (s : InventoryStatement)

/-- Every binding with its status, the active ones first. -/
def bindings : List (DeviceBinding × BindingStatus) :=
  (s.active.map fun b => (b, .active)) ++ (s.revoked.map fun r => (r.binding, .revoked))

def checkUniqueDevices : Except Error Unit := uniqueDevices [] s.active

def checkIdentityKeys (dh : Dh K) : Except Error Unit := identityKeys dh s.bindings

/-! ## The issuer -/

def checkForSigning (dh : Dh K) : Except Error Unit := do
  let _ ← s.encodeUnsigned
  s.checkUniqueDevices
  s.checkIdentityKeys dh

def signUnchecked (xed : XEdDsa) (issuerSecret : Arr 32) (rng : Rng) : Except Error (Arr 64) × Rng :=
  match s.encodeUnsigned with
  | .error e => (.error e, rng)
  | .ok unsigned =>
      let (signature, rng) := xed.sign issuerSecret (signingInput unsigned) rng
      (.ok signature, rng)

def sign (dh : Dh K) (xed : XEdDsa) (issuerSecret : Arr 32) (rng : Rng) :
    Except Error (Arr 64) × Rng :=
  match s.checkForSigning dh with
  | .error e => (.error e, rng)
  | .ok () => s.signUnchecked xed issuerSecret rng

def encodeSigned (dh : Dh K) (xed : XEdDsa) (issuerSecret : Arr 32) (rng : Rng) :
    Except Error Bytes × Rng :=
  match s.encodeUnsigned with
  | .error e => (.error e, rng)
  | .ok bytes =>
      let (signed, rng) := s.sign dh xed issuerSecret rng
      (signed.map fun signature => bytes ++ signature.toList, rng)

/-! ## The verifier -/

/-- The loop of `accept` over the bindings. -/
def allowBindings (policy : InventoryPolicy) :
    List (DeviceBinding × BindingStatus) → Consulting Unit
  | [] => pure ()
  | (b, status) :: rest => do
      let allowed ← .ask (.binding s.accountHandle b status)
        (policy.bindingIsAllowed s.accountHandle b status)
      if allowed then allowBindings policy rest else .fail refused

def accept (dh : Dh K) (xed : XEdDsa) (expectedAccount : String) (signature : Arr 64)
    (policy : InventoryPolicy) : Consulting AcceptedInventory := do
  let unsigned ← .lift s.encodeUnsigned
  if s.accountHandle ≠ expectedAccount then .fail wrongAccount
  else do
    let found ← .ask (.issuer s.issuerKeyId s.accountHandle)
      (policy.issuerPublicKey s.issuerKeyId s.accountHandle)
    match found with
    | none => .fail issuerUnbound
    | some issuerPublic => do
        .lift (verifySignature xed unsigned issuerPublic signature)
        let current ← .ask (.generation s.accountHandle s.inventoryGeneration)
          (policy.generationIsCurrent s.accountHandle s.inventoryGeneration)
        if !current then .fail stale
        else do
          .lift s.checkUniqueDevices
          -- Every key is examined before any binding or statement hook runs.
          .lift (s.checkIdentityKeys dh)
          s.allowBindings policy s.bindings
          let allowed ← .ask (.statement s) (policy.statementIsAllowed s)
          if allowed then pure { statement := s } else .fail refused

end InventoryStatement

/-- The statement, and the sixty-four bytes behind it. -/
def splitSigned (bytes : Bytes) : Except Error (InventoryStatement × Arr 64) :=
  if bytes.length < 64 then .error malformed
  else do
    let unsignedLen := bytes.length - 64
    let s ← decodeUnsigned (bytes.take unsignedLen)
    match Arr.ofBytes? 64 (bytes.drop unsignedLen) with
    | none => .error malformed
    | some signature => .ok (s, signature)

def acceptSigned (dh : Dh K) (xed : XEdDsa) (bytes : Bytes) (expectedAccount : String)
    (policy : InventoryPolicy) : Consulting AcceptedInventory := do
  let (s, signature) ← .lift (splitSigned bytes)
  s.accept dh xed expectedAccount signature policy

end Tacenta.Inventory
