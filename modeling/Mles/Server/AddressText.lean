import Mles.Library.Digits
import Mles.Server.Address

/-
  Reading the text of an address (`std::net`).

  The server parses the address it listens on, and the
  upstreams behind the proxy parse the address it adds to
  `X-Forwarded-For`.  What is written is read back, in every
  form: plain IPv4, IPv6 with the longest run of zeros left
  out, and the mapped form with an IPv4 address at the end.

  Key definitions include:
    * `readIpv4Addr`
    * `readIpv6Addr`
    * `IpAddr.parse`
    * `SocketAddr.parse`

  Key theorems include:
    * `readIpv4Addr_toString`
    * `readGroups_groups`
    * `IpAddr.parse_toString`
    * `SocketAddr.parse_toString`
-/

------------------------------------------------------------
-- The Parser
------------------------------------------------------------

namespace Mles

/- `read_given_char`. -/
def readGivenChar
    (target : Char) : List Char → Option (List Char)
| [] => none
| c :: rest => if c = target then some rest else none

/- `read_separator`: no separator before the first one. -/
def readSeparator
    {α : Type}
    (sep : Char)
    (first : Bool)
    (inner : List Char → Option (α × List Char))
    (text : List Char) : Option (α × List Char) :=
  if first then inner text
  else (readGivenChar sep text).bind inner

/- An octet, without a zero in front. -/
def readOctet
    (text : List Char) : Option (BitVec 8 × List Char) :=
  (Digits.readNumber 10 (some 3) false 255 text).map
    (fun r => (BitVec.ofNat 8 r.1, r.2))

/- A group of four hexadecimal digits at most. -/
def readGroup
    (text : List Char) : Option (BitVec 16 × List Char) :=
  (Digits.readNumber 16 (some 4) true 65535 text).map
    (fun r => (BitVec.ofNat 16 r.1, r.2))

/- `read_ipv4_addr`. -/
def readIpv4Addr
    (text : List Char) : Option (Ipv4Addr × List Char) := do
  let (a, text) ← readSeparator '.' true readOctet text
  let (b, text) ← readSeparator '.' false readOctet text
  let (c, text) ← readSeparator '.' false readOctet text
  let (d, text) ← readSeparator '.' false readOctet text
  return (a ++ b ++ c ++ d, text)

/-
  `read_groups`, with the number of groups that are left to
  read.  An IPv4 address counts for two groups and ends them.
-/
def readGroups :
    Nat → Bool → List Char →
      List (BitVec 16) × Bool × List Char
| 0, _, text => ([], false, text)
| left + 1, first, text =>
    let ipv4 :=
      if 0 < left then
        readSeparator ':' first readIpv4Addr text
      else none
    match ipv4 with
    | some (v4, text) =>
        ([v4.extractLsb' 16 16, v4.extractLsb' 0 16], true,
          text)
    | none =>
        match readSeparator ':' first readGroup text with
        | some (group, text) =>
            let (groups, ipv4, text) :=
              readGroups left false text
            (group :: groups, ipv4, text)
        | none => ([], false, text)

/- Eight groups as an address. -/
def Ipv6Addr.ofGroups
    (groups : List (BitVec 16)) : Ipv6Addr :=
  Ipv6Addr.new
    (groups.getD 0 0) (groups.getD 1 0) (groups.getD 2 0)
    (groups.getD 3 0) (groups.getD 4 0) (groups.getD 5 0)
    (groups.getD 6 0) (groups.getD 7 0)

/- `read_ipv6_addr`. -/
def readIpv6Addr
    (text : List Char) : Option (Ipv6Addr × List Char) :=
  let (head, headIpv4, text) := readGroups 8 true text
  if head.length = 8 then
    some (Ipv6Addr.ofGroups head, text)
  else if headIpv4 then none
  else do
    let text ← readGivenChar ':' text
    let text ← readGivenChar ':' text
    -- At least one group of zeros is left out.
    let (tail, _, text) :=
      readGroups (8 - (head.length + 1)) true text
    let zeroes :=
      List.replicate (8 - tail.length - head.length) 0
    return (Ipv6Addr.ofGroups (head ++ zeroes ++ tail), text)

/- `read_ip_addr`. -/
def readIpAddr
    (text : List Char) : Option (IpAddr × List Char) :=
  ((readIpv4Addr text).map (fun r => (.v4 r.1, r.2))).or
    ((readIpv6Addr text).map (fun r => (.v6 r.1, r.2)))

/- `read_port`. -/
def readPort
    (text : List Char) : Option (UInt16 × List Char) := do
  let text ← readGivenChar ':' text
  let (n, text) ← Digits.readNumber 10 none true 65535 text
  return (UInt16.ofNat n, text)

/- `read_socket_addr_v4`. -/
def readSocketAddrV4
    (text : List Char) :
    Option (SocketAddr × List Char) := do
  let (ip, text) ← readIpv4Addr text
  let (port, text) ← readPort text
  return (⟨.v4 ip, port⟩, text)

/- `read_scope_id`. -/
def readScopeId
    (text : List Char) : Option (UInt32 × List Char) := do
  let text ← readGivenChar '%' text
  let (n, text) ← Digits.readNumber 10 none true (2 ^ 32 - 1) text
  return (UInt32.ofNat n, text)

/- `read_socket_addr_v6`; nothing here uses the scope. -/
def readSocketAddrV6
    (text : List Char) :
    Option (SocketAddr × List Char) := do
  let text ← readGivenChar '[' text
  let (ip, text) ← readIpv6Addr text
  let text := ((readScopeId text).map Prod.snd).getD text
  let text ← readGivenChar ']' text
  let (port, text) ← readPort text
  return (⟨.v6 ip, port⟩, text)

/- `parse_with`: nothing may be left of the text. -/
def parseWith
    {α : Type}
    (inner : List Char → Option (α × List Char))
    (text : String) : Option α :=
  match inner text.toList with
  | some (a, []) => some a
  | some (_, _ :: _) => none
  | none => none

/- `from_str` of `IpAddr` and of `SocketAddr`. -/
def IpAddr.parse (text : String) : Option IpAddr :=
  parseWith readIpAddr text

def SocketAddr.parse (text : String) : Option SocketAddr :=
  parseWith
    (fun text =>
      (readSocketAddrV4 text).or (readSocketAddrV6 text))
    text

/- `{}` of a socket address. -/
def SocketAddr.toString (addr : SocketAddr) : String :=
  match addr.ip with
  | .v4 a =>
      Ipv4Addr.toString a ++ ":" ++ decimal addr.port.toNat
  | .v6 a =>
      "[" ++ Ipv6Addr.toString a ++ "]:" ++
        decimal addr.port.toNat

example :
    IpAddr.parse "1.2.3.04" = none ∧
      SocketAddr.parse "[::1%3]:80" =
        some ⟨.v6 1, 80⟩ := by
  decide +kernel

end Mles

------------------------------------------------------------
-- IPv4
------------------------------------------------------------

namespace Mles

theorem readOctet_toDigits
    (o : BitVec 8)
    {rest : List Char}
    (hStop : ∀ c ∈ rest.head?, Digits.isDigit 10 c = false) :
    readOctet (Nat.toDigits 10 o.toNat ++ rest) =
      some (o, rest) := by
  have hSmall : o.toNat < 256 := o.isLt
  have hLength : (Nat.toDigits 10 o.toNat).length ≤ 3 := by
    rw [Nat.length_toDigits_le_iff (by decide) (by decide)]
    omega
  unfold readOctet
  rw [Digits.readNumber_toDigits (by decide) (by decide)
    (by simpa using hLength) (by omega) hStop]
  simp

theorem toList_ipv4
    (a : Ipv4Addr) :
    (Ipv4Addr.toString a).toList =
      Nat.toDigits 10 (a.extractLsb' 24 8).toNat ++ '.' ::
        (Nat.toDigits 10 (a.extractLsb' 16 8).toNat ++ '.' ::
          (Nat.toDigits 10 (a.extractLsb' 8 8).toNat ++ '.' ::
            Nat.toDigits 10 (a.extractLsb' 0 8).toNat)) := by
  simp [Ipv4Addr.toString, Ipv4Addr.octets, decimal]

theorem append_octets
    (a : Ipv4Addr) :
    (a.extractLsb' 24 8 ++ a.extractLsb' 16 8 ++
        a.extractLsb' 8 8 ++ a.extractLsb' 0 8 :
      BitVec (8 + 8 + 8 + 8)) = a := by
  apply BitVec.eq_of_getLsbD_eq
  intro i hi
  simp only [BitVec.getLsbD_append, BitVec.getLsbD_extractLsb']
  grind

/- An IPv4 address is read back, if no digit follows it. -/
theorem readIpv4Addr_toString
    (a : Ipv4Addr)
    {rest : List Char}
    (hStop : ∀ c ∈ rest.head?, Digits.isDigit 10 c = false) :
    readIpv4Addr ((Ipv4Addr.toString a).toList ++ rest) =
      some (a, rest) := by
  have hDot
      (text : List Char) :
      ∀ c ∈ ('.' :: text).head?,
        Digits.isDigit 10 c = false := by
    intro c hMem
    cases hMem
    decide
  have hSeparated
      (o : BitVec 8)
      {text : List Char}
      (hText :
        ∀ c ∈ text.head?, Digits.isDigit 10 c = false) :
      readSeparator '.' false readOctet
          ('.' :: (Nat.toDigits 10 o.toNat ++ text)) =
        some (o, text) := by
    simp [readSeparator, readGivenChar,
      readOctet_toDigits o hText]
  rw [toList_ipv4]
  simp only [List.append_assoc, List.cons_append]
  unfold readIpv4Addr
  rw [readSeparator, if_pos rfl,
    readOctet_toDigits _ (hDot _)]
  simp only [Option.bind_eq_bind, Option.bind_some]
  rw [hSeparated _ (hDot _)]
  simp only [Option.bind_some]
  rw [hSeparated _ (hDot _)]
  simp only [Option.bind_some]
  rw [hSeparated _ hStop]
  simp only [Option.bind_some, append_octets]
  rfl

/- An IPv4 address has a dot behind its first digits. -/
theorem readIpv4Addr_eq_none
    {text : List Char}
    (hNoDot :
      ∀ c ∈ (text.dropWhile (Digits.isDigit 10)).head?,
        c ≠ '.') :
    readIpv4Addr text = none := by
  unfold readIpv4Addr
  rw [readSeparator, if_pos rfl]
  cases hOctet : readOctet text with
  | none => rfl
  | some r =>
      rcases r with ⟨o, rest⟩
      have hRest :
          rest = text.dropWhile (Digits.isDigit 10) := by
        unfold readOctet Digits.readNumber at hOctet
        grind
      simp only [Option.bind_eq_bind, Option.bind_some]
      have hNone :
          readSeparator '.' false readOctet rest = none := by
        rw [← hRest] at hNoDot
        cases rest with
        | nil => rfl
        | cons c rest =>
            have hOther := hNoDot c rfl
            simp [readSeparator, readGivenChar, hOther]
      rw [hNone]
      rfl

end Mles

------------------------------------------------------------
-- Groups
------------------------------------------------------------

namespace Mles

/- Groups behind a colon each. -/
def groupsText (groups : List (BitVec 16)) : List Char :=
  groups.flatMap
    (fun group => ':' :: Nat.toDigits 16 group.toNat)

/- Groups with a colon between them. -/
def chunkText : List (BitVec 16) → List Char
| [] => []
| group :: groups =>
    Nat.toDigits 16 group.toNat ++ groupsText groups

theorem toList_fmtSubslice
    (chunk : List (BitVec 16)) :
    (Ipv6Addr.fmtSubslice chunk).toList = chunkText chunk := by
  unfold Ipv6Addr.fmtSubslice
  induction chunk with
  | nil => simp [chunkText]
  | cons group groups ih =>
      cases groups with
      | nil => simp [chunkText, groupsText, hexadecimal]
      | cons group' groups =>
          rw [List.map_cons,
            String.intercalate_cons_of_ne_nil (by simp),
            String.toList_append, String.toList_append, ih]
          simp [chunkText, groupsText, hexadecimal]

/-
  What may follow groups: nothing, the end of a bracket, or
  two colons.
-/
def EndsGroups (rest : List Char) : Prop :=
  (∀ c ∈ rest.head?, c = ']') ∨
    ∃ text, rest = ':' :: ':' :: text

/- What follows a group: the same, or another group. -/
def EndsGroup (rest : List Char) : Prop :=
  ∀ c ∈ rest.head?, c = ']' ∨ c = ':'

theorem EndsGroups.endsGroup
    {rest : List Char}
    (hEnds : EndsGroups rest) :
    EndsGroup rest := by
  rcases hEnds with hBracket | ⟨text, rfl⟩
  · exact fun c hMem => Or.inl (hBracket c hMem)
  · rintro c hMem
    cases hMem
    exact Or.inr rfl

theorem endsGroup_groupsText
    {rest : List Char}
    (hEnds : EndsGroups rest)
    (groups : List (BitVec 16)) :
    EndsGroup (groupsText groups ++ rest) := by
  cases groups with
  | nil => exact hEnds.endsGroup
  | cons group groups =>
      rintro c hMem
      cases hMem
      exact Or.inr rfl

theorem EndsGroup.stop
    {rest : List Char}
    (hEnds : EndsGroup rest) :
    ∀ c ∈ rest.head?, Digits.isDigit 16 c = false := by
  intro c hMem
  rcases hEnds c hMem with rfl | rfl
  · decide
  · decide

theorem readGroup_toDigits
    (group : BitVec 16)
    {rest : List Char}
    (hEnds : EndsGroup rest) :
    readGroup (Nat.toDigits 16 group.toNat ++ rest) =
      some (group, rest) := by
  have hSmall : group.toNat < 65536 := group.isLt
  have hLength :
      (Nat.toDigits 16 group.toNat).length ≤ 4 := by
    rw [Nat.length_toDigits_le_iff (by decide) (by decide)]
    omega
  unfold readGroup
  rw [Digits.readNumber_toDigits (by decide) (by decide)
    (by simpa using hLength) (by omega) hEnds.stop]
  simp

/- No group is the beginning of an IPv4 address. -/
theorem readIpv4Addr_toDigits
    (group : BitVec 16)
    {rest : List Char}
    (hEnds : EndsGroup rest) :
    readIpv4Addr (Nat.toDigits 16 group.toNat ++ rest) =
      none := by
  apply readIpv4Addr_eq_none
  have hHex :
      ∀ c ∈ Nat.toDigits 16 group.toNat, c ≠ '.' := by
    rintro c hMem rfl
    have hDigit := Digits.isDigit_of_mem_toDigits
      (by decide) (by decide) '.' hMem
    exact absurd hDigit (by decide)
  intro c hMem
  rw [List.dropWhile_append] at hMem
  split at hMem
  · -- Digits only, and then what ends the group.
    cases rest with
    | nil => cases hMem
    | cons c' rest =>
        have hOther : Digits.isDigit 10 c' = false := by
          rcases hEnds c' rfl with rfl | rfl
          · decide
          · decide
        rw [List.dropWhile_cons_of_neg (by simp [hOther])]
          at hMem
        cases hMem
        rcases hEnds c rfl with rfl | rfl
        · decide
        · decide
  · rename_i hSome
    rw [List.head?_append] at hMem
    cases hHead :
        ((Nat.toDigits 16 group.toNat).dropWhile
          (Digits.isDigit 10)).head? with
    | none =>
        rw [List.head?_eq_none_iff] at hHead
        simp [hHead] at hSome
    | some c' =>
        rw [hHead] at hMem
        cases hMem
        apply hHex
        exact (List.dropWhile_sublist _).mem
          (List.mem_of_head? hHead)

/- What ends a group is not the beginning of one. -/
theorem EndsGroup.unread
    {text : List Char}
    (hEnds : EndsGroup text) :
    readGroup text = none ∧ readIpv4Addr text = none := by
  have hTake : text.takeWhile (Digits.isDigit 16) = [] := by
    cases text with
    | nil => rfl
    | cons c text =>
        rw [List.takeWhile_cons_of_neg]
        simp [hEnds.stop c rfl]
  refine ⟨?_, ?_⟩
  · simp [readGroup, Digits.readNumber, hTake]
  · apply readIpv4Addr_eq_none
    cases text with
    | nil => simp
    | cons c text =>
        have hOther : Digits.isDigit 10 c = false := by
          rcases hEnds c rfl with rfl | rfl
          · decide
          · decide
        rw [List.dropWhile_cons_of_neg (by simp [hOther])]
        intro c' hMem
        cases hMem
        rcases hEnds c rfl with rfl | rfl
        · decide
        · decide

/- Nor are written groups an IPv4 address. -/
theorem readIpv4Addr_chunk
    {rest : List Char}
    (hEnds : EndsGroups rest)
    (chunk : List (BitVec 16)) :
    readIpv4Addr (chunkText chunk ++ rest) = none := by
  cases chunk with
  | nil => exact hEnds.endsGroup.unread.2
  | cons group groups =>
      rw [chunkText, List.append_assoc]
      exact readIpv4Addr_toDigits group
        (endsGroup_groupsText hEnds groups)

/- What ends the groups is not read as another one. -/
theorem readGroups_ends
    {rest : List Char}
    (hEnds : EndsGroups rest)
    (left : Nat)
    (first : Bool) :
    readGroups left first rest = ([], false, rest) := by
  have hNone :
      readSeparator ':' first readGroup rest = none ∧
        readSeparator ':' first readIpv4Addr rest = none := by
    cases first with
    | true => exact hEnds.endsGroup.unread
    | false =>
        rcases hEnds with hBracket | ⟨text, rfl⟩
        · cases rest with
          | nil => exact ⟨rfl, rfl⟩
          | cons c rest =>
              cases hBracket c rfl
              exact ⟨rfl, rfl⟩
        · have hColon : EndsGroup (':' :: text) := by
            intro c hMem
            cases hMem
            exact Or.inr rfl
          exact hColon.unread
  cases left with
  | zero => rfl
  | succ left =>
      unfold readGroups
      rw [hNone.1, hNone.2]
      simp

/- Groups that were written are read back. -/
theorem readGroups_groups
    {rest : List Char}
    (hEnds : EndsGroups rest)
    {groups : List (BitVec 16)}
    {left : Nat}
    (hFits : groups.length ≤ left) :
    readGroups left false (groupsText groups ++ rest) =
      (groups, false, rest) := by
  induction groups generalizing left with
  | nil => exact readGroups_ends hEnds left false
  | cons group groups ih =>
      obtain ⟨left, rfl⟩ : ∃ n, left = n + 1 :=
        Nat.exists_eq_succ_of_ne_zero (by
          simp only [List.length_cons] at hFits
          omega)
      have hRest := endsGroup_groupsText hEnds groups
      have hText :
          groupsText (group :: groups) ++ rest =
            ':' :: (Nat.toDigits 16 group.toNat ++
              (groupsText groups ++ rest)) := by
        simp [groupsText]
      rw [hText]
      unfold readGroups
      have hGroup :
          readSeparator ':' false readGroup
              (':' :: (Nat.toDigits 16 group.toNat ++
                (groupsText groups ++ rest))) =
            some (group, groupsText groups ++ rest) := by
        simp [readSeparator, readGivenChar,
          readGroup_toDigits group hRest]
      have hIpv4 :
          readSeparator ':' false readIpv4Addr
              (':' :: (Nat.toDigits 16 group.toNat ++
                (groupsText groups ++ rest))) =
            none := by
        simp [readSeparator, readGivenChar,
          readIpv4Addr_toDigits group hRest]
      rw [hGroup, hIpv4]
      simp [ih (Nat.le_of_succ_le_succ hFits)]

theorem readGroups_chunk
    {rest : List Char}
    (hEnds : EndsGroups rest)
    {chunk : List (BitVec 16)}
    {left : Nat}
    (hFits : chunk.length ≤ left) :
    readGroups left true (chunkText chunk ++ rest) =
      (chunk, false, rest) := by
  cases chunk with
  | nil => exact readGroups_ends hEnds left true
  | cons group groups =>
      obtain ⟨left, rfl⟩ : ∃ n, left = n + 1 :=
        Nat.exists_eq_succ_of_ne_zero (by
          simp only [List.length_cons] at hFits
          omega)
      have hRest := endsGroup_groupsText hEnds groups
      unfold readGroups
      simp only [chunkText, List.append_assoc, readSeparator,
        if_true, readIpv4Addr_toDigits group hRest,
        readGroup_toDigits group hRest]
      simp [readGroups_groups hEnds
        (Nat.le_of_succ_le_succ hFits)]

end Mles

------------------------------------------------------------
-- The Zeros Left Out
------------------------------------------------------------

namespace Mles

namespace Ipv6Addr

/- The span is a run of zeros. -/
structure Span.Covers
    (span : Span)
    (segments : List (BitVec 16)) : Prop where
  fits : span.start + span.len ≤ segments.length
  zero :
    ∀ i,
      span.start ≤ i → i < span.start + span.len →
        segments[i]? = some 0

theorem Span.Covers.append
    {span : Span}
    {segments : List (BitVec 16)}
    (hCovers : span.Covers segments)
    (segment : BitVec 16) :
    span.Covers (segments ++ [segment]) := by
  refine ⟨?_, ?_⟩
  · have hFits := hCovers.fits
    simp
    omega
  · intro i hFrom hTo
    have hFits := hCovers.fits
    rw [List.getElem?_append_left (by omega)]
    exact hCovers.zero i hFrom hTo

/- After the search through these segments. -/
structure Searched
    (segments : List (BitVec 16))
    (spans : Span × Span) : Prop where
  longest : spans.1.Covers segments
  current : spans.2.Covers segments
  last :
    spans.2.len = 0 ∨
      spans.2.start + spans.2.len = segments.length

/- A run that goes on, or begins, with one more zero. -/
theorem Searched.grown
    {segments : List (BitVec 16)}
    {spans : Span × Span}
    (hSearched : Searched segments spans)
    {start : Nat}
    (hStart :
      start =
        if spans.2.len = 0 then segments.length
        else spans.2.start) :
    (Span.mk start (spans.2.len + 1)).Covers
        (segments ++ [0]) ∧
      start + (spans.2.len + 1) = segments.length + 1 := by
  have hEnd :
      start + spans.2.len = segments.length := by
    rw [hStart]
    by_cases hNone : spans.2.len = 0
    · rw [if_pos hNone, hNone]
      rfl
    · rw [if_neg hNone]
      exact hSearched.last.resolve_left hNone
  refine ⟨⟨?_, ?_⟩, by omega⟩
  · simp
    omega
  · intro i hFrom hTo
    simp only at hFrom hTo
    by_cases hLast : i = segments.length
    · subst hLast
      simp
    · rw [List.getElem?_append_left (by omega)]
      have hSome : spans.2.len ≠ 0 := by omega
      rw [if_neg hSome] at hStart
      exact hSearched.current.zero i (by omega) (by omega)

theorem Searched.extend
    {segments : List (BitVec 16)}
    {spans : Span × Span}
    (hSearched : Searched segments spans)
    (segment : BitVec 16) :
    Searched (segments ++ [segment])
      (extendSpan spans (segment, segments.length)) := by
  rcases spans with ⟨longest, current⟩
  unfold extendSpan
  by_cases hZero : segment = 0
  · subst hZero
    have hLength :
        (segments ++ [(0 : BitVec 16)]).length =
          segments.length + 1 := by
      simp
    have hEither
        (grown : Span)
        (hCovers : grown.Covers (segments ++ [0]))
        (hEnd :
          grown.start + grown.len = segments.length + 1) :
        Searched (segments ++ [0])
          (if grown.len > longest.len then (grown, grown)
          else (longest, grown)) := by
      rw [← hLength] at hEnd
      split
      · exact ⟨hCovers, hCovers, Or.inr hEnd⟩
      · exact ⟨hSearched.longest.append 0, hCovers,
          Or.inr hEnd⟩
    have hGrown := hSearched.grown rfl
    simp only [if_true]
    by_cases hNone : current.len = 0
    · simp only [hNone, if_true] at hGrown ⊢
      exact hEither _ hGrown.1 rfl
    · simp only [hNone, if_false] at hGrown ⊢
      exact hEither _ hGrown.1 hGrown.2
  · simp only [hZero, if_false]
    refine ⟨hSearched.longest.append segment, ⟨?_, ?_⟩,
      Or.inl rfl⟩
    · simp
    · intro i hFrom hTo
      simp at hTo

/- The longest run is a run of zeros. -/
theorem covers_zeroes
    (segments : List (BitVec 16)) :
    (zeroes segments).Covers segments := by
  have hSearched :
      Searched segments
        (segments.zipIdx.foldl extendSpan
          (⟨0, 0⟩, ⟨0, 0⟩)) := by
    induction segments using List.reverseRecOn with
    | nil =>
        have hNone : (Span.mk 0 0).Covers [] :=
          ⟨Nat.le_refl _, fun i _ hTo => absurd hTo (by simp)⟩
        exact ⟨hNone, hNone, Or.inl rfl⟩
    | append_singleton segments segment ih =>
        rw [List.zipIdx_append, List.foldl_append]
        simp only [List.zipIdx_singleton, List.foldl_cons,
          List.foldl_nil, Nat.zero_add]
        exact ih.extend segment
  exact hSearched.longest

/- A run of zeros may be left out. -/
theorem Span.Covers.split
    {span : Span}
    {segments : List (BitVec 16)}
    (hCovers : span.Covers segments) :
    segments.take span.start ++
        List.replicate span.len 0 ++
        segments.drop (span.start + span.len) =
      segments := by
  have hFits := hCovers.fits
  have hZeros :
      (segments.drop span.start).take span.len =
        List.replicate span.len 0 := by
    apply List.ext_getElem?
    intro i
    rw [List.getElem?_take, List.getElem?_replicate]
    by_cases hIn : i < span.len
    · rw [if_pos hIn, if_pos hIn, List.getElem?_drop]
      exact hCovers.zero _ (by omega) (by omega)
    · rw [if_neg hIn, if_neg hIn]
  rw [← hZeros, ← List.drop_drop, List.append_assoc,
    List.take_append_drop, List.take_append_drop]

end Ipv6Addr

end Mles

------------------------------------------------------------
-- IPv6
------------------------------------------------------------

namespace Mles

namespace Ipv6Addr

@[simp] theorem length_segments
    (a : Ipv6Addr) :
    (segments a).length = 8 := by
  simp [segments]

/- The segments make up the address. -/
theorem ofGroups_segments
    (a : Ipv6Addr) :
    ofGroups (segments a) = a := by
  have hGroups :
      segments a =
        [segment a 0, segment a 1, segment a 2, segment a 3,
          segment a 4, segment a 5, segment a 6,
          segment a 7] :=
    rfl
  rw [hGroups]
  simp only [ofGroups, List.getD_cons_zero,
    List.getD_cons_succ]
  apply BitVec.eq_of_getLsbD_eq
  intro i hi
  simp only [Ipv6Addr.new, segment, BitVec.getLsbD_append,
    BitVec.getLsbD_extractLsb']
  grind

/- The groups of a mapped address. -/
theorem ofGroups_mapped
    (a : Ipv4Addr) :
    ofGroups
        [0, 0, 0, 0, 0, 0xffff, a.extractLsb' 16 16,
          a.extractLsb' 0 16] =
      Ipv4Addr.toIpv6Mapped a := by
  simp only [ofGroups, List.getD_cons_zero,
    List.getD_cons_succ]
  apply BitVec.eq_of_getLsbD_eq
  intro i hi
  have hOnes
      (w j : Nat) :
      (BitVec.ofNat w 0xffff).getLsbD j =
        (decide (j < w) && decide (j < 16)) := by
    rw [BitVec.getLsbD_ofNat, show 0xffff = 2 ^ 16 - 1 from rfl,
      Nat.testBit_two_pow_sub_one]
  simp only [Ipv6Addr.new, Ipv4Addr.toIpv6Mapped,
    BitVec.getLsbD_append, BitVec.getLsbD_extractLsb', hOnes,
    BitVec.ofNat_eq_ofNat, BitVec.getLsbD_zero]
  grind

end Ipv6Addr

end Mles

namespace Mles

/- The text of an address that is not mapped. -/
theorem toList_ipv6
    {a : Ipv6Addr}
    (hPlain : Ipv6Addr.toIpv4Mapped a = none) :
    (Ipv6Addr.toString a).toList =
      let segments := Ipv6Addr.segments a
      let zeroes := Ipv6Addr.zeroes segments
      if zeroes.len > 1 then
        chunkText (segments.take zeroes.start) ++
          (':' :: ':' ::
            chunkText
              (segments.drop (zeroes.start + zeroes.len)))
      else chunkText segments := by
  unfold Ipv6Addr.toString
  rw [hPlain]
  dsimp only
  split
  · simp [toList_fmtSubslice]
  · exact toList_fmtSubslice _

/- Two colons stand for the groups that are missing. -/
theorem readIpv6Addr_compressed
    {head tail : List (BitVec 16)}
    (hFits : head.length + tail.length < 8)
    {rest : List Char}
    (hEnds : EndsGroups rest) :
    readIpv6Addr
        (chunkText head ++
          (':' :: ':' :: (chunkText tail ++ rest))) =
      some
        (Ipv6Addr.ofGroups
          (head ++
            List.replicate (8 - tail.length - head.length) 0 ++
            tail),
          rest) := by
  have hColons :
      EndsGroups (':' :: ':' :: (chunkText tail ++ rest)) :=
    Or.inr ⟨_, rfl⟩
  have hHead :=
    readGroups_chunk hColons (show head.length ≤ 8 by omega)
  have hTail :=
    readGroups_chunk hEnds
      (show tail.length ≤ 8 - (head.length + 1) by omega)
  unfold readIpv6Addr
  rw [hHead]
  dsimp only
  rw [if_neg (by omega), if_neg (by simp)]
  simp only [readGivenChar, if_true, Option.bind_eq_bind,
    Option.bind_some, hTail]
  rfl

/- The mapped form ends in an IPv4 address. -/
theorem readIpv6Addr_mapped
    (v4 : Ipv4Addr)
    {rest : List Char}
    (hRest : ∀ c ∈ rest.head?, c = ']') :
    readIpv6Addr
        ("::ffff:".toList ++
          ((Ipv4Addr.toString v4).toList ++ rest)) =
      some (Ipv4Addr.toIpv6Mapped v4, rest) := by
  have hStop :
      ∀ c ∈ rest.head?, Digits.isDigit 10 c = false := by
    intro c hMem
    rw [hRest c hMem]
    decide
  have hColon
      (text : List Char) :
      EndsGroup (':' :: text) := by
    intro c hMem
    cases hMem
    exact Or.inr rfl
  have hGroup
      (text : List Char) :
      readGroup ('f' :: 'f' :: 'f' :: 'f' :: ':' :: text) =
          some (0xffff, ':' :: text) ∧
        readIpv4Addr
            ('f' :: 'f' :: 'f' :: 'f' :: ':' :: text) =
          none :=
    ⟨readGroup_toDigits 0xffff (hColon text),
      readIpv4Addr_toDigits 0xffff (hColon text)⟩
  have hIpv4 :
      readSeparator ':' false readIpv4Addr
          (':' :: ((Ipv4Addr.toString v4).toList ++ rest)) =
        some (v4, rest) := by
    simp [readSeparator, readGivenChar,
      readIpv4Addr_toString v4 hStop]
  have hColons :
      EndsGroups
        (':' :: ':' :: 'f' :: 'f' :: 'f' :: 'f' :: ':' ::
          ((Ipv4Addr.toString v4).toList ++ rest)) :=
    Or.inr ⟨_, rfl⟩
  have hHead := readGroups_ends hColons 8 true
  have hTail :
      readGroups 7 true
          ('f' :: 'f' :: 'f' :: 'f' :: ':' ::
            ((Ipv4Addr.toString v4).toList ++ rest)) =
        ([0xffff, v4.extractLsb' 16 16, v4.extractLsb' 0 16],
          true, rest) := by
    unfold readGroups
    simp only [readSeparator, if_true, (hGroup _).1,
      (hGroup _).2]
    unfold readGroups
    rw [hIpv4]
    simp
  have hText :
      "::ffff:".toList ++
          ((Ipv4Addr.toString v4).toList ++ rest) =
        ':' :: ':' :: 'f' :: 'f' :: 'f' :: 'f' :: ':' ::
          ((Ipv4Addr.toString v4).toList ++ rest) :=
    rfl
  rw [hText]
  unfold readIpv6Addr
  rw [hHead]
  simp only [readGivenChar, if_true, Option.bind_eq_bind,
    Option.bind_some, List.length_nil]
  rw [if_neg (by decide), if_neg (by decide)]
  simp only [hTail]
  rw [← Ipv6Addr.ofGroups_mapped]
  rfl

/- An address is read back, in brackets or alone. -/
theorem readIpv6Addr_toString
    (a : Ipv6Addr)
    {rest : List Char}
    (hRest : ∀ c ∈ rest.head?, c = ']') :
    readIpv6Addr ((Ipv6Addr.toString a).toList ++ rest) =
      some (a, rest) := by
  have hEnds : EndsGroups rest := Or.inl hRest
  cases hMapped : Ipv6Addr.toIpv4Mapped a with
  | none =>
      have hCovers :=
        Ipv6Addr.covers_zeroes (Ipv6Addr.segments a)
      have hFits := hCovers.fits
      have hSplit := hCovers.split
      rw [Ipv6Addr.length_segments] at hFits
      rw [toList_ipv6 hMapped]
      dsimp only
      split
      · -- The longest run is left out.
        rename_i hLong
        generalize Ipv6Addr.zeroes (Ipv6Addr.segments a) = span
          at hFits hSplit hLong ⊢
        have hHead :
            ((Ipv6Addr.segments a).take span.start).length =
              span.start := by
          simp
          omega
        have hTail :
            ((Ipv6Addr.segments a).drop
                (span.start + span.len)).length =
              8 - (span.start + span.len) := by
          simp
        rw [List.append_assoc, List.cons_append,
          List.cons_append,
          readIpv6Addr_compressed (by omega) hEnds, hHead,
          hTail]
        have hLen :
            8 - (8 - (span.start + span.len)) - span.start =
              span.len := by
          omega
        rw [hLen, hSplit, Ipv6Addr.ofGroups_segments]
      · unfold readIpv6Addr
        rw [readGroups_chunk hEnds (by simp)]
        simp [Ipv6Addr.ofGroups_segments]
  | some v4 =>
      have hMap :=
        Ipv6Addr.toIpv4Mapped_eq_some_iff.mp hMapped
      have hText :
          (Ipv6Addr.toString a).toList ++ rest =
            "::ffff:".toList ++
              ((Ipv4Addr.toString v4).toList ++ rest) := by
        unfold Ipv6Addr.toString
        rw [hMapped]
        simp
      rw [hText, readIpv6Addr_mapped v4 hRest, hMap]

/- The text of an IPv6 address is not an IPv4 address. -/
theorem readIpv4Addr_ipv6
    (a : Ipv6Addr) :
    readIpv4Addr (Ipv6Addr.toString a).toList = none := by
  cases hMapped : Ipv6Addr.toIpv4Mapped a with
  | none =>
      rw [toList_ipv6 hMapped]
      dsimp only
      split
      · exact readIpv4Addr_chunk (Or.inr ⟨_, rfl⟩) _
      · have hEnd : EndsGroups [] := Or.inl (by simp)
        have hWhole :=
          readIpv4Addr_chunk hEnd (Ipv6Addr.segments a)
        rwa [List.append_nil] at hWhole
  | some v4 =>
      have hText :
          (Ipv6Addr.toString a).toList =
            ':' :: (":ffff:".toList ++
              (Ipv4Addr.toString v4).toList) := by
        unfold Ipv6Addr.toString
        rw [hMapped]
        simp
      have hColon :
          EndsGroup
            (':' :: (":ffff:".toList ++
              (Ipv4Addr.toString v4).toList)) := by
        intro c hMem
        cases hMem
        exact Or.inr rfl
      rw [hText]
      exact hColon.unread.2

/- Every address is read back from its text. -/
theorem IpAddr.parse_toString
    (ip : IpAddr) :
    IpAddr.parse ip.toString = some ip := by
  unfold IpAddr.parse parseWith readIpAddr
  cases ip with
  | v4 a =>
      have hRead := @readIpv4Addr_toString a [] (by simp)
      rw [List.append_nil] at hRead
      simp [IpAddr.toString, hRead]
  | v6 a =>
      have hRead := @readIpv6Addr_toString a [] (by simp)
      rw [List.append_nil] at hRead
      simp [IpAddr.toString, hRead, readIpv4Addr_ipv6 a]

------------------------------------------------------------
-- Ports
------------------------------------------------------------

theorem readPort_decimal
    (port : UInt16) :
    readPort (':' :: (decimal port.toNat).toList) =
      some (port, []) := by
  have hSmall : port.toNat < 65536 := port.toNat_lt
  have hRead :=
    @Digits.readNumber_toDigits 10 (by decide) (by decide)
      none 65535 port.toNat [] (by simp) (by omega) (by simp)
      true
  rw [List.append_nil] at hRead
  simp [readPort, readGivenChar, decimal, hRead]

/- Every socket address is read back from its text. -/
theorem SocketAddr.parse_toString
    (addr : SocketAddr) :
    SocketAddr.parse addr.toString = some addr := by
  rcases addr with ⟨ip, port⟩
  unfold SocketAddr.parse parseWith SocketAddr.toString
  cases ip with
  | v4 a =>
      have hStop :
          ∀ c ∈ (':' :: (decimal port.toNat).toList).head?,
            Digits.isDigit 10 c = false := by
        intro c hMem
        cases hMem
        decide
      have hIp := readIpv4Addr_toString a hStop
      simp [readSocketAddrV4, hIp, readPort_decimal]
  | v6 a =>
      have hIp := @readIpv6Addr_toString a
        (']' :: ':' :: (decimal port.toNat).toList) (by simp)
      have hBracket (text : List Char) :
          readIpv4Addr ('[' :: text) = none := by
        apply readIpv4Addr_eq_none
        intro c hMem
        cases hMem
        decide
      simp [readSocketAddrV4, readSocketAddrV6, hBracket,
        readScopeId, readGivenChar, hIp, readPort_decimal]

end Mles
