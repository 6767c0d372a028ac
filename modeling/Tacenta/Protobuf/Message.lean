/-
# Tacenta.Protobuf.Message -- the two messages of the protobuf profile

The parse of a message is a bounded loop over fields: each turn reads a tag,
records its number, and hands the field's value to the place in the body the
number names.  The two messages of the profile differ in their places and in
which fields must appear, and in nothing else (`oneFieldWith`, `parseWith`).
-/
import Tacenta.Protobuf.Reader

set_option autoImplicit false

namespace Tacenta.Protobuf

open ProtoError

/-- Where a field's value goes, with the wire type the field has. -/
inductive Slot (B : Type) where
  | bytes (put : Bytes → B)
  | varint (put : UInt32 → B)

/-- One turn of a parse: what is left to read, the fields seen, what they made,
and any refusal.  Nothing is read of a parse that has refused but the refusal. -/
structure Parse (B : Type) where
  rest : Bytes
  seen : FieldSet
  body : B
  error : Option ProtoError

variable {B : Type}

/-- Read one field into the state, `slot` naming the places of the body. -/
def oneFieldWith (slot : B → UInt32 → Option (Slot B)) (st : Parse B) : Parse B :=
  match tag st.rest with
  | .error e => { st with error := some e }
  | .ok (t, rest) =>
      match st.seen.admit_ t.field with
      | (seen, some e) => { st with rest, seen, error := some e }
      | (seen, none) =>
          match slot st.body t.field with
          | none => { st with rest, seen, error := some notInProfile }
          | some (.bytes put) =>
              if t.wire ≠ .lengthDelimited then { st with rest, seen, error := some notInProfile }
              else
                match lengthDelimited rest with
                | .ok (v, rest) => { st with rest, seen, body := put v }
                | .error e => { st with rest, seen, error := some e }
          | some (.varint put) =>
              if t.wire ≠ .varint then { st with rest, seen, error := some notInProfile }
              else
                match varint rest with
                | .ok (v, rest) => { st with rest, seen, body := put v }
                | .error e => { st with rest, seen, error := some e }

/-- The loop over fields, bounded by a count of turns. -/
def parseLoop (slot : B → UInt32 → Option (Slot B)) : Nat → Parse B → Parse B
  | 0, st => st
  | turns + 1, st =>
      if st.error.isNone && decide (st.rest.length > 0) then
        parseLoop slot turns (oneFieldWith slot st)
      else st

def parseWith (slot : B → UInt32 → Option (Slot B)) (required : List UInt32) (initial : B)
    (bytes : Bytes) : Except ProtoError B :=
  if bytes.length > maxMessageLen then .error tooLong
  else
    let st := parseLoop slot maxFields
      { rest := bytes, seen := .new, body := initial, error := none }
    match st.error with
    | some e => .error e
    | none =>
        if st.rest.length > 0 then .error tooLong
        else if required.any fun field => !st.seen.contains field then .error truncated
        else .ok st.body

/-! ## The ratchet message -/

structure RatchetBody where
  ratchetKey : Bytes
  counter : UInt32
  previousCounter : UInt32
  ciphertext : Bytes
  pq : Bytes
  deriving DecidableEq, Repr

def fieldRatchetKey : UInt32 := 1
def fieldCounter : UInt32 := 2
def fieldPreviousCounter : UInt32 := 3
def fieldCiphertext : UInt32 := 4
def fieldPq : UInt32 := 5

def RatchetBody.slot (body : RatchetBody) (field : UInt32) : Option (Slot RatchetBody) :=
  if field = fieldRatchetKey then some (.bytes fun v => { body with ratchetKey := v })
  else if field = fieldCounter then some (.varint fun v => { body with counter := v })
  else if field = fieldPreviousCounter then
    some (.varint fun v => { body with previousCounter := v })
  else if field = fieldCiphertext then some (.bytes fun v => { body with ciphertext := v })
  else if field = fieldPq then some (.bytes fun v => { body with pq := v })
  else none

def oneField : Parse RatchetBody → Parse RatchetBody := oneFieldWith RatchetBody.slot

def RatchetBody.required : List UInt32 :=
  [fieldRatchetKey, fieldCounter, fieldPreviousCounter, fieldCiphertext, fieldPq]

def RatchetBody.initial : RatchetBody :=
  { ratchetKey := [], counter := 0, previousCounter := 0, ciphertext := [], pq := [] }

def parseRatchetBody : Bytes → Except ProtoError RatchetBody :=
  parseWith RatchetBody.slot RatchetBody.required RatchetBody.initial

def encodeRatchetBody (body : RatchetBody) : Except ProtoError Bytes := do
  let out ← encodeTag [] fieldRatchetKey .lengthDelimited
  let out ← encodeLengthDelimited out body.ratchetKey
  let out ← encodeTag out fieldCounter .varint
  let out ← encodeVarint out body.counter
  let out ← encodeTag out fieldPreviousCounter .varint
  let out ← encodeVarint out body.previousCounter
  let out ← encodeTag out fieldCiphertext .lengthDelimited
  let out ← encodeLengthDelimited out body.ciphertext
  let out ← encodeTag out fieldPq .lengthDelimited
  encodeLengthDelimited out body.pq

/-! ## The prekey envelope -/

/-- `prekeyId` is the one optional field of the profile. -/
structure PrekeyBody where
  prekeyId : Option UInt32
  baseKey : Bytes
  identityKey : Bytes
  message : Bytes
  registrationId : UInt32
  signedPrekeyId : UInt32
  pqPrekeyId : UInt32
  kem : Bytes
  deriving DecidableEq, Repr

def fieldPrekeyId : UInt32 := 1
def fieldBaseKey : UInt32 := 2
def fieldIdentityKey : UInt32 := 3
def fieldMessage : UInt32 := 4
def fieldRegistrationId : UInt32 := 5
def fieldSignedPrekeyId : UInt32 := 6
def fieldPqPrekeyId : UInt32 := 7
def fieldKem : UInt32 := 8

def PrekeyBody.slot (body : PrekeyBody) (field : UInt32) : Option (Slot PrekeyBody) :=
  if field = fieldBaseKey then some (.bytes fun v => { body with baseKey := v })
  else if field = fieldIdentityKey then some (.bytes fun v => { body with identityKey := v })
  else if field = fieldMessage then some (.bytes fun v => { body with message := v })
  else if field = fieldKem then some (.bytes fun v => { body with kem := v })
  else if field = fieldPrekeyId then some (.varint fun v => { body with prekeyId := some v })
  else if field = fieldRegistrationId then
    some (.varint fun v => { body with registrationId := v })
  else if field = fieldSignedPrekeyId then
    some (.varint fun v => { body with signedPrekeyId := v })
  else if field = fieldPqPrekeyId then some (.varint fun v => { body with pqPrekeyId := v })
  else none

def oneEnvelopeField : Parse PrekeyBody → Parse PrekeyBody := oneFieldWith PrekeyBody.slot

def PrekeyBody.required : List UInt32 :=
  [fieldBaseKey, fieldIdentityKey, fieldMessage, fieldRegistrationId, fieldSignedPrekeyId,
    fieldPqPrekeyId, fieldKem]

def PrekeyBody.initial : PrekeyBody :=
  { prekeyId := none, baseKey := [], identityKey := [], message := [], registrationId := 0,
    signedPrekeyId := 0, pqPrekeyId := 0, kem := [] }

def parsePrekeyBody : Bytes → Except ProtoError PrekeyBody :=
  parseWith PrekeyBody.slot PrekeyBody.required PrekeyBody.initial

def encodePrekeyBody (body : PrekeyBody) : Except ProtoError Bytes := do
  let out ← match body.prekeyId with
    | some id => do
        let o ← encodeTag [] fieldPrekeyId .varint
        encodeVarint o id
    | none => .ok []
  let out ← encodeTag out fieldBaseKey .lengthDelimited
  let out ← encodeLengthDelimited out body.baseKey
  let out ← encodeTag out fieldIdentityKey .lengthDelimited
  let out ← encodeLengthDelimited out body.identityKey
  let out ← encodeTag out fieldMessage .lengthDelimited
  let out ← encodeLengthDelimited out body.message
  let out ← encodeTag out fieldRegistrationId .varint
  let out ← encodeVarint out body.registrationId
  let out ← encodeTag out fieldSignedPrekeyId .varint
  let out ← encodeVarint out body.signedPrekeyId
  let out ← encodeTag out fieldPqPrekeyId .varint
  let out ← encodeVarint out body.pqPrekeyId
  let out ← encodeTag out fieldKem .lengthDelimited
  encodeLengthDelimited out body.kem

/-! ## The grammar -/

/-- A field's value, of its wire type. -/
inductive Payload where
  | varint (v : UInt32)
  | bytes (l : Bytes)
  deriving DecidableEq, Repr

namespace Payload

def wire : Payload → WireType
  | varint _ => .varint
  | bytes _ => .lengthDelimited

/-- A minimal integer, or a minimal length and exactly that many bytes. -/
def spell : Payload → Bytes
  | varint v => Base128.spell v.toNat
  | bytes l => Base128.spell l.length ++ l

end Payload

/-- One field of a message. -/
structure Item where
  field : UInt32
  payload : Payload
  deriving DecidableEq, Repr

namespace Item

def tag (i : Item) : Tag := { field := i.field, wire := i.payload.wire }

def spell (i : Item) : Bytes := i.tag.spell ++ i.payload.spell

end Item

/-- What a message type's fields are, and how a body is made of them. -/
structure Profile (B : Type) where
  wire : UInt32 → Option WireType
  required : List UInt32
  items : B → List Item

/-- **The bytes are a message**: within the limit, a concatenation of fields of
the profile, each of its own wire type and at most once, the required ones all
there. -/
structure Profile.Grammar (p : Profile B) (bytes : Bytes) (items : List Item) : Prop where
  short : bytes.length ≤ maxMessageLen
  spelled : bytes = items.flatMap Item.spell
  once : (items.map Item.field).Nodup
  own : ∀ i ∈ items, p.wire i.field = some i.payload.wire
  complete : ∀ field ∈ p.required, field ∈ items.map Item.field

/-- In ascending order of their numbers. -/
def Ascending (items : List Item) : Prop := items.Pairwise fun i j => i.field < j.field

def RatchetBody.items (body : RatchetBody) : List Item :=
  [⟨fieldRatchetKey, .bytes body.ratchetKey⟩, ⟨fieldCounter, .varint body.counter⟩,
    ⟨fieldPreviousCounter, .varint body.previousCounter⟩, ⟨fieldCiphertext, .bytes body.ciphertext⟩,
    ⟨fieldPq, .bytes body.pq⟩]

def ratchetProfile : Profile RatchetBody where
  wire field :=
    if field = fieldRatchetKey ∨ field = fieldCiphertext ∨ field = fieldPq then
      some .lengthDelimited
    else if field = fieldCounter ∨ field = fieldPreviousCounter then some .varint
    else none
  required := RatchetBody.required
  items := RatchetBody.items

def PrekeyBody.items (body : PrekeyBody) : List Item :=
  (body.prekeyId.toList.map fun id => ⟨fieldPrekeyId, .varint id⟩) ++
    [⟨fieldBaseKey, .bytes body.baseKey⟩, ⟨fieldIdentityKey, .bytes body.identityKey⟩,
      ⟨fieldMessage, .bytes body.message⟩, ⟨fieldRegistrationId, .varint body.registrationId⟩,
      ⟨fieldSignedPrekeyId, .varint body.signedPrekeyId⟩,
      ⟨fieldPqPrekeyId, .varint body.pqPrekeyId⟩, ⟨fieldKem, .bytes body.kem⟩]

def prekeyProfile : Profile PrekeyBody where
  wire field :=
    if field = fieldBaseKey ∨ field = fieldIdentityKey ∨ field = fieldMessage ∨ field = fieldKem then
      some .lengthDelimited
    else if field = fieldPrekeyId ∨ field = fieldRegistrationId ∨ field = fieldSignedPrekeyId ∨
        field = fieldPqPrekeyId then some .varint
    else none
  required := PrekeyBody.required
  items := PrekeyBody.items

end Tacenta.Protobuf
