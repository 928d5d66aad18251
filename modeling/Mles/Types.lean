import Mles.Library.SipHash
import Mathlib.Data.List.AList

/-
  The data of the WebSocket side of the server
  (`src/types.rs`), with the messages of `warp::ws`.

  The types that carry messages or queue handles are generic
  in them: the event loop never looks into a message and
  knows a client's queue only as something to send to.

  Key definitions include:
    * `Message`
    * `MlesHeader`
    * `MlesHeader.hash`
    * `ChannelInfo`
    * `WsEvent`
    * `usizeAdd`
    * `usizeSub`
-/

------------------------------------------------------------
-- Frames
------------------------------------------------------------

namespace Mles

/- The five kinds of frame of a WebSocket (`warp::ws`). -/
inductive Message where
| text (s : String)
| binary (data : List UInt8)
| ping (data : List UInt8)
| pong (data : List UInt8)
| close (frame : Option (UInt16 × String))
deriving DecidableEq, Repr

namespace Message

def isPong : Message → Bool
| .pong _ => true
| _ => false

def isClose : Message → Bool
| .close _ => true
| _ => false

/- The text of a text frame; an error for the others. -/
def toStr : Message → Option String
| .text s => some s
| _ => none

end Message

end Mles

------------------------------------------------------------
-- Headers
------------------------------------------------------------

namespace Mles

/- The bytes of a Rust string. -/
def asBytes (s : String) : List UInt8 :=
  s.toUTF8.data.toList

@[simp] theorem asBytes_append
    (s t : String) :
    asBytes (s ++ t) = asBytes s ++ asBytes t := by
  simp [asBytes, String.toByteArray_append]

theorem asBytes_injective :
    Function.Injective asBytes := by
  intro s t hEq
  apply String.toByteArray_inj.mp
  apply ByteArray.ext
  exact Array.toList_inj.mp hEq

/- `str::is_ascii`. -/
def isAscii (s : String) : Bool :=
  s.toList.all (fun c => c.toNat < 128)

/- An ASCII character is one byte. -/
theorem utf8EncodeChar_of_ascii
    {c : Char}
    (hAscii : c.toNat < 128) :
    String.utf8EncodeChar c = [c.val.toUInt8] := by
  apply String.utf8EncodeChar_eq_singleton
  have hSmall : c.val ≤ 0x7f := by
    rw [UInt32.le_iff_toNat_le]
    exact Nat.lt_succ_iff.mp hAscii
  exact if_pos hSmall

theorem asBytes_of_isAscii
    {s : String}
    (hAscii : isAscii s = true) :
    asBytes s = s.toList.map (fun c => c.val.toUInt8) := by
  have hBytes :
      asBytes s = s.toList.flatMap String.utf8EncodeChar := by
    unfold asBytes
    rw [String.toUTF8, ← String.utf8Encode_toList]
    simp [List.utf8Encode]
  have hChars : ∀ c ∈ s.toList, c.toNat < 128 := by
    simpa [isAscii] using hAscii
  rw [hBytes, List.map_eq_flatMap]
  apply List.flatMap_congr
  intro c hMem
  exact utf8EncodeChar_of_ascii (hChars c hMem)

structure MlesHeader where
  uid : String
  channel : String
  auth : Option String
deriving DecidableEq, Repr

namespace MlesHeader

/- A string writes its bytes and the byte `0xff`. -/
def hashStr
    (hasher : SipHash.Hasher)
    (s : String) : SipHash.Hasher :=
  (hasher.write (asBytes s)).write [0xff]

/- The eight bytes of an enumeration's discriminant. -/
def hashDiscriminant
    (hasher : SipHash.Hasher)
    (tag : UInt8) : SipHash.Hasher :=
  hasher.write [tag, 0, 0, 0, 0, 0, 0, 0]

/- The derived `Hash`: the fields in order. -/
def hash
    (hasher : SipHash.Hasher)
    (hdr : MlesHeader) : SipHash.Hasher :=
  let hasher := hashStr hasher hdr.uid
  let hasher := hashStr hasher hdr.channel
  match hdr.auth with
  | none => hashDiscriminant hasher 0
  | some auth => hashStr (hashDiscriminant hasher 1) auth

end MlesHeader

end Mles

------------------------------------------------------------
-- Channels and Events
------------------------------------------------------------

namespace Mles

/- `SystemTime`, in nanoseconds from the epoch. -/
abbrev Time := Int

structure ChannelInfo (M : Type) where
  messages : List M
  lastActivity : Time
deriving DecidableEq, Repr

/-
  What the tasks of a connection tell the event loop.  `T`
  is the handle of the client's own queue and `E` that of
  its confirmation.
-/
inductive WsEvent (T E M : Type) where
| init (h ch : UInt64) (tx2 : T) (errTx : E) (msg : M)
| msg (h ch : UInt64) (msg : M)
| logoff (h ch : UInt64)
deriving DecidableEq, Repr

/- A `HashMap<u64, V>`. -/
abbrev Db (V : Type) := AList (fun _ : UInt64 => V)

end Mles

------------------------------------------------------------
-- Checked Arithmetic
------------------------------------------------------------

namespace Mles

/- A sum, unless it is too large for `usize`. -/
def usizeAdd (a b : Nat) : Option Nat :=
  if a + b < 2 ^ 64 then some (a + b) else none

/- A difference, unless it is negative. -/
def usizeSub (a b : Nat) : Option Nat :=
  if b ≤ a then some (a - b) else none

theorem usizeAdd_of_lt
    {a b : Nat}
    (hLess : a + b < 2 ^ 64) :
    usizeAdd a b = some (a + b) :=
  if_pos hLess

theorem usizeSub_of_le
    {a b : Nat}
    (hLe : b ≤ a) :
    usizeSub a b = some (a - b) :=
  if_pos hLe

end Mles
