import Mathlib.Data.UInt
import Mathlib.Data.List.Basic

/-
  SipHash-2-4, the keyed hash function of byte strings, in
  its published form: 64-bit little-endian words, two rounds
  per word and four rounds at the end.  `Hasher` is the
  streaming interface over any hash of byte strings: bytes
  are appended by `write` and hashed by `finish`.

  Key definitions include:
    * `SipHash.sipHash24`
    * `SipHash.Hasher`
-/

------------------------------------------------------------
-- SipHash-2-4
------------------------------------------------------------

namespace SipHash

/- Rotate a word left by `n` bits, `0 < n < 64`. -/
def rotl
    (x n : UInt64) : UInt64 :=
  (x <<< n) ||| (x >>> (64 - n))

/- The four internal words. -/
structure Core where
  v0 : UInt64
  v1 : UInt64
  v2 : UInt64
  v3 : UInt64

namespace Core

def new (k0 k1 : UInt64) : Core where
  v0 := k0 ^^^ 0x736f6d6570736575
  v1 := k1 ^^^ 0x646f72616e646f6d
  v2 := k0 ^^^ 0x6c7967656e657261
  v3 := k1 ^^^ 0x7465646279746573

/- One round of additions, rotations and exclusive ors. -/
def round (s : Core) : Core :=
  let v0 := s.v0 + s.v1
  let v1 := rotl s.v1 13 ^^^ v0
  let v0 := rotl v0 32
  let v2 := s.v2 + s.v3
  let v3 := rotl s.v3 16 ^^^ v2
  let v0 := v0 + v3
  let v3 := rotl v3 21 ^^^ v0
  let v2 := v2 + v1
  let v1 := rotl v1 17 ^^^ v2
  let v2 := rotl v2 32
  ⟨v0, v1, v2, v3⟩

/- Absorb one message word with two rounds. -/
def absorb (s : Core) (m : UInt64) : Core :=
  let t := (Core.round { s with v3 := s.v3 ^^^ m }).round
  { t with v0 := t.v0 ^^^ m }

/- Four closing rounds. -/
def finish (s : Core) : UInt64 :=
  let t := (Core.round { s with v2 := s.v2 ^^^ 0xff })
  let t := t.round.round.round
  t.v0 ^^^ t.v1 ^^^ t.v2 ^^^ t.v3

end Core

/- Read at most eight bytes as a little-endian word. -/
def leWord : List UInt8 → UInt64
| [] => 0
| b :: bs => b.toUInt64 ||| (leWord bs <<< 8)

/- Absorb whole words; the rest carries the length byte. -/
def absorbAll
    (len : UInt64) :
    Core → List UInt8 → Core
| s, b0 :: b1 :: b2 :: b3 :: b4 :: b5 :: b6 :: b7 :: bs =>
    absorbAll len
      (s.absorb (leWord [b0, b1, b2, b3, b4, b5, b6, b7]))
      bs
| s, bs => s.absorb (leWord bs ||| (len <<< 56))

/- SipHash-2-4 of a byte string under the key `k0, k1`. -/
def sipHash24
    (k0 k1 : UInt64)
    (bytes : List UInt8) : UInt64 :=
  (absorbAll (UInt64.ofNat bytes.length)
    (Core.new k0 k1) bytes).finish

-- The first and the ninth of the published test vectors.
example :
    sipHash24 0x0706050403020100 0x0f0e0d0c0b0a0908 [] =
      0x726fdb47dd0e0e31 := by
  decide +kernel

example :
    sipHash24 0x0706050403020100 0x0f0e0d0c0b0a0908
        [0, 1, 2, 3, 4, 5, 6, 7] =
      0x93f5f5799a932462 := by
  decide +kernel

end SipHash

------------------------------------------------------------
-- Streaming Hashers
------------------------------------------------------------

namespace SipHash

/-
  A hasher remembers the bytes written to it: how they were
  cut into writes is not visible in the result.
-/
structure Hasher where
  bytes : List UInt8

namespace Hasher

def new : Hasher where
  bytes := []

def write (hasher : Hasher) (data : List UInt8) : Hasher where
  bytes := hasher.bytes ++ data

def finish
    (hash : List UInt8 → UInt64)
    (hasher : Hasher) : UInt64 :=
  hash hasher.bytes

@[simp] theorem new_bytes : new.bytes = [] := rfl

@[simp] theorem write_bytes
    (hasher : Hasher)
    (data : List UInt8) :
    (hasher.write data).bytes = hasher.bytes ++ data := rfl

@[simp] theorem finish_eq
    (hash : List UInt8 → UInt64)
    (hasher : Hasher) :
    hasher.finish hash = hash hasher.bytes := rfl

end Hasher

end SipHash
