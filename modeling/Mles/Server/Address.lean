import Mles.Types

/-
  Addresses of peers (`std::net`), as far as the server and
  the proxy use them: the canonical form of an address, its
  segments, and its text.

  The listener is dual-stack, so that an IPv4 peer arrives
  as the IPv6 address `::ffff:a.b.c.d`.

  Key definitions include:
    * `IpAddr`
    * `Ipv6Addr.toIpv4Mapped`
    * `IpAddr.toCanonical`
    * `Ipv6Addr.segments`
    * `IpAddr.toString`

  Key theorems include:
    * `Ipv6Addr.toIpv4Mapped_eq_some_iff`
    * `Ipv6Addr.new_segments`
    * `isAddressText_toString`
-/

------------------------------------------------------------
-- Addresses
------------------------------------------------------------

namespace Mles

abbrev Ipv4Addr := BitVec 32

abbrev Ipv6Addr := BitVec 128

inductive IpAddr where
| v4 (a : Ipv4Addr)
| v6 (a : Ipv6Addr)
deriving DecidableEq, Repr

structure SocketAddr where
  ip : IpAddr
  port : UInt16
deriving DecidableEq, Repr

namespace Ipv4Addr

def new (a b c d : UInt8) : Ipv4Addr :=
  a.toBitVec ++ b.toBitVec ++ c.toBitVec ++ d.toBitVec

/- `Ipv4Addr::UNSPECIFIED`. -/
def unspecified : Ipv4Addr := 0

/- The octets, the first one in the highest bits. -/
def octets (a : Ipv4Addr) : List (BitVec 8) :=
  [a.extractLsb' 24 8, a.extractLsb' 16 8,
    a.extractLsb' 8 8, a.extractLsb' 0 8]

/- `Ipv4Addr::to_ipv6_mapped`. -/
def toIpv6Mapped (a : Ipv4Addr) : Ipv6Addr :=
  (0xffff#96 ++ a : BitVec (96 + 32))

end Ipv4Addr

namespace Ipv6Addr

def new
    (s₀ s₁ s₂ s₃ s₄ s₅ s₆ s₇ : BitVec 16) : Ipv6Addr :=
  s₀ ++ s₁ ++ s₂ ++ s₃ ++ s₄ ++ s₅ ++ s₆ ++ s₇

/- Segment `i` of eight, the first one in the highest bits. -/
def segment
    (a : Ipv6Addr)
    (i : Nat) : BitVec 16 :=
  a.extractLsb' (112 - 16 * i) 16

def segments (a : Ipv6Addr) : List (BitVec 16) :=
  (List.range 8).map (segment a)

/- The first 64 bits. -/
def network (a : Ipv6Addr) : BitVec 64 :=
  a.extractLsb' 64 64

/- Only `::ffff:0:0/96` counts as mapped. -/
def toIpv4Mapped (a : Ipv6Addr) : Option Ipv4Addr :=
  if a.extractLsb' 32 96 = 0xffff#96 then
    some (a.extractLsb' 0 32)
  else none

end Ipv6Addr

/- `to_canonical` of `Ipv6Addr` and of `IpAddr`. -/
def Ipv6Addr.toCanonical (a : Ipv6Addr) : IpAddr :=
  match Ipv6Addr.toIpv4Mapped a with
  | some mapped => .v4 mapped
  | none => .v6 a

def IpAddr.toCanonical : IpAddr → IpAddr
| .v4 a => .v4 a
| .v6 a => Ipv6Addr.toCanonical a

theorem Ipv6Addr.toIpv4Mapped_eq_some_iff
    {a : Ipv6Addr}
    {v4 : Ipv4Addr} :
    Ipv6Addr.toIpv4Mapped a = some v4 ↔
      a = Ipv4Addr.toIpv6Mapped v4 := by
  unfold toIpv4Mapped Ipv4Addr.toIpv6Mapped
  rw [Option.ite_none_right_eq_some, Option.some.injEq]
  constructor
  · rintro ⟨hHigh, rfl⟩
    rw [← hHigh]
    exact (@BitVec.extractLsb'_append_extractLsb' 96 32 a).symm
  · rintro rfl
    exact ⟨BitVec.extractLsb'_append_eq_left,
      BitVec.extractLsb'_append_eq_right⟩

/- The first four segments make up the network. -/
theorem Ipv6Addr.new_segments
    (a : Ipv6Addr) :
    Ipv6Addr.new (segment a 0) (segment a 1) (segment a 2)
        (segment a 3) 0 0 0 0 =
      (network a ++ 0#64 : BitVec (64 + 64)) := by
  apply BitVec.eq_of_getLsbD_eq
  intro i hi
  simp only [Ipv6Addr.new, segment, network,
    BitVec.getLsbD_append, BitVec.getLsbD_extractLsb',
    BitVec.ofNat_eq_ofNat, BitVec.getLsbD_zero]
  grind

end Mles

------------------------------------------------------------
-- Text
------------------------------------------------------------

namespace Mles

/- `{}` and `{:x}` of a number. -/
def decimal (n : Nat) : String :=
  String.ofList (Nat.toDigits 10 n)

def hexadecimal (n : Nat) : String :=
  String.ofList (Nat.toDigits 16 n)

def Ipv4Addr.toString (a : Ipv4Addr) : String :=
  String.intercalate "."
    ((Ipv4Addr.octets a).map (fun o => decimal o.toNat))

namespace Ipv6Addr

structure Span where
  start : Nat
  len : Nat
deriving DecidableEq, Repr

/- One turn of the search for the longest run of zeros. -/
def extendSpan
    (spans : Span × Span)
    (entry : BitVec 16 × Nat) : Span × Span :=
  let (longest, current) := spans
  let (segment, i) := entry
  if segment = 0 then
    let current :=
      if current.len = 0 then { current with start := i }
      else current
    let current := { current with len := current.len + 1 }
    if current.len > longest.len then (current, current)
    else (longest, current)
  else (longest, ⟨0, 0⟩)

/- The first of the longest runs. -/
def zeroes (segments : List (BitVec 16)) : Span :=
  (segments.zipIdx.foldl extendSpan (⟨0, 0⟩, ⟨0, 0⟩)).1

def fmtSubslice (chunk : List (BitVec 16)) : String :=
  String.intercalate ":"
    (chunk.map (fun segment => hexadecimal segment.toNat))

def toString (a : Ipv6Addr) : String :=
  match toIpv4Mapped a with
  | some v4 => "::ffff:" ++ Ipv4Addr.toString v4
  | none =>
      let segments := segments a
      let zeroes := zeroes segments
      if zeroes.len > 1 then
        fmtSubslice (segments.take zeroes.start) ++ "::" ++
          fmtSubslice
            (segments.drop (zeroes.start + zeroes.len))
      else
        fmtSubslice segments

end Ipv6Addr

def IpAddr.toString : IpAddr → String
| .v4 a => Ipv4Addr.toString a
| .v6 a => Ipv6Addr.toString a

example :
    (IpAddr.v6 (Ipv6Addr.new
      0x2001 0xdb8 0 0 0 0 0 1)).toString =
      "2001:db8::1" := by
  decide +kernel

------------------------------------------------------------
-- The Characters of an Address
------------------------------------------------------------

/- A digit, a small letter up to `f`, a dot or a colon. -/
def isAddressChar (c : Char) : Bool :=
  c.isDigit || ('a' ≤ c && c ≤ 'f') || c = '.' || c = ':'

/- Every character of the text may stand in an address. -/
def IsAddressText (s : String) : Prop :=
  ∀ c ∈ s.toList, isAddressChar c = true

theorem isAddressText_of_all
    {s : String}
    (hAll : s.toList.all isAddressChar = true) :
    IsAddressText s :=
  List.all_eq_true.mp hAll

theorem isAddressText_append
    {s t : String}
    (hLeft : IsAddressText s)
    (hRight : IsAddressText t) :
    IsAddressText (s ++ t) := by
  intro c hMem
  rw [String.toList_append, List.mem_append] at hMem
  rcases hMem with hMem | hMem
  · exact hLeft c hMem
  · exact hRight c hMem

theorem isAddressText_intercalate
    {sep : String}
    {parts : List String}
    (hSep : IsAddressText sep)
    (hParts : ∀ part ∈ parts, IsAddressText part) :
    IsAddressText (String.intercalate sep parts) := by
  induction parts with
  | nil =>
      intro c hMem
      simp at hMem
  | cons part parts ih =>
      have hFirst := hParts part (by simp)
      have hRest :=
        ih (fun part' hMem => hParts part' (by simp [hMem]))
      by_cases hLast : parts = []
      · subst hLast
        simpa using hFirst
      · rw [String.intercalate_cons_of_ne_nil hLast]
        exact isAddressText_append
          (isAddressText_append hFirst hSep) hRest

theorem isAddressChar_digitChar
    {d : Nat}
    (hDigit : d < 16) :
    isAddressChar d.digitChar = true := by
  revert d
  decide

/- Digits up to base 16. -/
theorem isAddressChar_of_mem_toDigits
    {b n : Nat}
    (hBase : 1 < b)
    (hSmall : b ≤ 16) :
    ∀ c ∈ Nat.toDigits b n, isAddressChar c = true := by
  induction n using Nat.strongRecOn with
  | ind n ih =>
      intro c hMem
      rw [Nat.toDigits_eq_if hBase] at hMem
      split at hMem
      · rename_i hLess
        rw [List.mem_singleton.mp hMem]
        exact isAddressChar_digitChar (by omega)
      · rename_i hMore
        have hLess : n / b < n := Nat.div_lt_self (by omega) hBase
        rcases List.mem_append.mp hMem with hHigh | hLow
        · exact ih (n / b) hLess c hHigh
        · rw [List.mem_singleton.mp hLow]
          have hMod := Nat.mod_lt n (Nat.zero_lt_of_lt hBase)
          exact isAddressChar_digitChar (by omega)

theorem isAddressText_decimal
    (n : Nat) :
    IsAddressText (decimal n) := by
  intro c hMem
  rw [decimal, String.toList_ofList] at hMem
  exact isAddressChar_of_mem_toDigits (by decide) (by decide)
    c hMem

theorem isAddressText_hexadecimal
    (n : Nat) :
    IsAddressText (hexadecimal n) := by
  intro c hMem
  rw [hexadecimal, String.toList_ofList] at hMem
  exact isAddressChar_of_mem_toDigits (by decide) (by decide)
    c hMem

theorem isAddressText_v4
    (a : Ipv4Addr) :
    IsAddressText (Ipv4Addr.toString a) := by
  apply isAddressText_intercalate
  · exact isAddressText_of_all (by decide)
  · intro part hMem
    rcases List.mem_map.mp hMem with ⟨o, _, rfl⟩
    exact isAddressText_decimal o.toNat

theorem isAddressText_fmtSubslice
    (chunk : List (BitVec 16)) :
    IsAddressText (Ipv6Addr.fmtSubslice chunk) := by
  apply isAddressText_intercalate
  · exact isAddressText_of_all (by decide)
  · intro part hMem
    rcases List.mem_map.mp hMem with ⟨segment, _, rfl⟩
    exact isAddressText_hexadecimal segment.toNat

theorem isAddressText_v6
    (a : Ipv6Addr) :
    IsAddressText (Ipv6Addr.toString a) := by
  unfold Ipv6Addr.toString
  split
  · apply isAddressText_append
    · exact isAddressText_of_all (by decide)
    · exact isAddressText_v4 _
  · dsimp only
    split
    · apply isAddressText_append
      · apply isAddressText_append
        · exact isAddressText_fmtSubslice _
        · exact isAddressText_of_all (by decide)
      · exact isAddressText_fmtSubslice _
    · exact isAddressText_fmtSubslice _

theorem isAddressText_toString
    (ip : IpAddr) :
    IsAddressText ip.toString := by
  cases ip with
  | v4 a => exact isAddressText_v4 a
  | v6 a => exact isAddressText_v6 a

end Mles
