/-
# Tacenta.Erasure.Code -- the systematic erasure code over GF(2^16)

`tacenta-erasure`: a value is cut into 32-byte chunks, sixteen lanes of one
field element each; codeword `i` is the value at `i` of the polynomial through
the chunks at `0, 1, …, k-1`.  Any `k` codewords at distinct indices give the
value back.  The arithmetic, the interpolation and the two coders are the
crate's; that the arithmetic is a field's and the decoder inverts the encoder is
`Tacenta.Erasure.Field` and `Tacenta.Erasure.Recovery`.
-/
import Tacenta.Words

set_option autoImplicit false

namespace Tacenta.Erasure

/-! ## The field -/

namespace gf

/-- `x^16 + x^12 + x^3 + x + 1`. -/
def reducer : UInt32 := 0x1100B

def add (a b : UInt16) : UInt16 := a ^^^ b

/-- Carry-less product. -/
def clmul (a b : UInt16) : UInt32 :=
  (List.range 16).foldl
    (fun acc i =>
      if (b >>> UInt16.ofNat i) &&& 1 = 1 then acc ^^^ (a.toUInt32 <<< UInt32.ofNat i) else acc) 0

/-- Clear the bits from 31 down to 16, one multiple of the reducer each. -/
def reduce (v : UInt32) : UInt16 :=
  ((List.range 16).foldl
    (fun v j =>
      let i := 31 - j
      if (v >>> UInt32.ofNat i) &&& 1 = 1 then v ^^^ (reducer <<< UInt32.ofNat (i - 16)) else v)
    v).toUInt16

def mul (a b : UInt16) : UInt16 := reduce (clmul a b)

/-- The loop of `pow`, over the bits of the exponent. -/
def powLoop : Nat → UInt16 → Nat → UInt16 → UInt16
  | 0, _, _, acc => acc
  | fuel + 1, base, e, acc =>
      if e = 0 then acc
      else powLoop fuel (mul base base) (e / 2) (if e % 2 = 1 then mul acc base else acc)

/-- Square and multiply; a 32-bit exponent has at most 32 bits. -/
def pow (a : UInt16) (n : Nat) : UInt16 := powLoop 32 a n 1

def inv (a : UInt16) : UInt16 := if a = 0 then 0 else pow a 65534

end gf

/-! ## Interpolation -/

def chunkBytes : Nat := 32
def lanes : Nat := 16
def maxCodewords : Nat := 65536

structure Chunk where
  index : UInt16
  data : Arr 32
  deriving DecidableEq

/-- `size.div_ceil(CHUNK_BYTES)`. -/
def chunkCount (size : Nat) : Nat := (size + 31) / 32

/-- Lane `j` of a chunk: its `j`-th big-endian field element. -/
def lane (data : Arr 32) (j : Nat) : UInt16 :=
  (((data.toList.getD (2 * j) 0).toUInt16) <<< 8) ||| (data.toList.getD (2 * j + 1) 0).toUInt16

/-- The product over every node but the `i`-th of `f`. -/
def prodExcept (nodes : List UInt16) (i : Nat) (f : UInt16 → UInt16) : UInt16 :=
  (List.range nodes.length).foldl
    (fun acc j => if j ≠ i then gf.mul acc (f (nodes.getD j 0)) else acc) 1

/-- The denominators of the Lagrange weights, inverted. -/
def weights (nodes : List UInt16) : List UInt16 :=
  (List.range nodes.length).map fun i =>
    gf.inv (prodExcept nodes i fun xj => gf.add (nodes.getD i 0) xj)

/-- The Lagrange coefficients at `x`. -/
def coefficients (nodes weights : List UInt16) (x : UInt16) : List UInt16 :=
  (List.range nodes.length).map fun i =>
    gf.mul (weights.getD i 0) (prodExcept nodes i fun xj => gf.add x xj)

def evaluate (coeffs vals : List UInt16) : UInt16 :=
  (List.range coeffs.length).foldl
    (fun acc i =>
      if i < vals.length then gf.add acc (gf.mul (coeffs.getD i 0) (vals.getD i 0)) else acc) 0

/-- Sixteen lane values as a chunk. -/
def ofLanes (v : Nat → UInt16) : Arr 32 :=
  Vector.ofFn fun b =>
    if b.val % 2 = 0 then (v (b.val / 2) >>> 8).toUInt8 else (v (b.val / 2)).toUInt8

/-! ## The encoder -/

structure Encoder where
  chunks : List (Arr 32)
  next : UInt16
  exhausted : Bool
  deriving DecidableEq

namespace Encoder

/-- Chunk `t` of a message, zero-padded. -/
def chunkOf (message : Bytes) (t : Nat) : Arr 32 :=
  Vector.ofFn fun b => message.getD (t * 32 + b.val) 0

def new (message : Bytes) : Encoder where
  chunks := (List.range (min (chunkCount message.length) maxCodewords)).map (chunkOf message)
  next := 0
  exhausted := false

def needed (enc : Encoder) : Nat := enc.chunks.length

def invariant (enc : Encoder) : Bool :=
  decide (enc.chunks.length ≤ maxCodewords) && (!enc.exhausted || enc.next == 65535)

/-- The codeword at `index`: a chunk of the message, or the polynomials' value. -/
def codeword (chunks : List (Arr 32)) (index : UInt16) : Arr 32 :=
  if index.toNat < chunks.length then chunks.getD index.toNat (Vector.replicate 32 0)
  else
    let nodes := (List.range chunks.length).map UInt16.ofNat
    let c := coefficients nodes (weights nodes) index
    ofLanes fun j => evaluate c (chunks.map fun chunk => lane chunk j)

/-- The next codeword of the stream, and the stream after it. -/
def nextChunk (enc : Encoder) : Option Chunk × Encoder :=
  if enc.exhausted then (none, enc)
  else
    (some ⟨enc.next, codeword enc.chunks enc.next⟩,
      if enc.next = 65535 then { enc with exhausted := true }
      else { enc with next := enc.next + 1 })

end Encoder

/-! ## The decoder -/

structure Decoder where
  size : Nat
  needed : Nat
  held : List Chunk
  deriving DecidableEq

namespace Decoder

def new (size : Nat) : Decoder := { size := size, needed := chunkCount size, held := [] }

/-- Keep a chunk, unless enough are held or its index is. -/
def addChunk (dec : Decoder) (chunk : Chunk) : Decoder × Bool :=
  if dec.held.length ≥ dec.needed then (dec, false)
  else if dec.held.any fun c => c.index == chunk.index then (dec, false)
  else ({ dec with held := dec.held ++ [chunk] }, true)

def hasMessage (dec : Decoder) : Bool := decide (dec.held.length ≥ dec.needed)

def invariant (dec : Decoder) : Bool :=
  decide (dec.needed = chunkCount dec.size) && decide (dec.needed ≤ maxCodewords) &&
    decide (dec.held.length ≤ dec.needed) &&
    decide (dec.held.Pairwise fun a b => a.index ≠ b.index)

/-- Chunk `t` of the value: the held one at that index, or interpolated. -/
def recovered (held : List Chunk) (t : Nat) : Arr 32 :=
  match (held.filter fun c => c.index == UInt16.ofNat t).getLast? with
  | some c => c.data
  | none =>
      let nodes := held.map Chunk.index
      let c := coefficients nodes (weights nodes) (UInt16.ofNat t)
      ofLanes fun j => evaluate c (held.map fun chunk => lane chunk.data j)

/-- The value, once enough chunks are held. -/
def message (dec : Decoder) : Option Bytes :=
  if !dec.hasMessage then none
  else
    let held := dec.held.take dec.needed
    some (((List.range dec.needed).flatMap fun t => (recovered held t).toList).take dec.size)

end Decoder

end Tacenta.Erasure
