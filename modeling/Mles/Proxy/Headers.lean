import Mles.Library.Fields
import Mles.Library.MultiMap
import Mles.Server.Address

/-
  The headers that go through the proxy (`src/proxy.rs`).

  On the way to the upstream, all values of a header are
  copied by appending, and the client's address is added to
  `X-Forwarded-For`.  On the way back the headers of the
  upstream are copied by inserting, so that of a header that
  was sent several times only the last value arrives.

  Key definitions include:
    * `Proxy.HeaderValue`
    * `Proxy.forwardedFor`
    * `Proxy.withForwardedFor`
    * `Proxy.requestHeaders`
    * `Proxy.replyHeaders`

  Key theorems include:
    * `Proxy.getAll_replyHeaders`
    * `Proxy.entries_forwardedFor`
    * `Proxy.fromStr_forwardedFor`
    * `Proxy.merged_value`
-/

------------------------------------------------------------
-- Header Maps
------------------------------------------------------------

namespace Mles

namespace Proxy

abbrev Bytes := List UInt8

/- Names are compared, and kept, in small letters. -/
abbrev HeaderName := String

def host : HeaderName := "host"

def transferEncoding : HeaderName := "transfer-encoding"

/- `X_FORWARDED_FOR`. -/
def xForwardedFor : HeaderName := "x-forwarded-for"

/- No control characters, except for the tab. -/
def isValidByte (b : UInt8) : Bool :=
  (32 ≤ b && b ≠ 127) || b = 9

/- What `to_str` accepts. -/
def isVisibleAscii (b : UInt8) : Bool :=
  (32 ≤ b && b < 127) || b = 9

structure HeaderValue where
  bytes : Bytes
  valid : bytes.all isValidByte = true
deriving DecidableEq

namespace HeaderValue

/- `from_str`, on the bytes of the text. -/
def fromStr (text : Bytes) : Option HeaderValue :=
  if hValid : text.all isValidByte = true then
    some ⟨text, hValid⟩
  else none

/- `to_str`; the text has the bytes of the value. -/
def toStr (value : HeaderValue) : Option Bytes :=
  if value.bytes.all isVisibleAscii then some value.bytes
  else none

end HeaderValue

abbrev HeaderMap := MultiMap HeaderName HeaderValue

end Proxy

end Mles

------------------------------------------------------------
-- Forwarding
------------------------------------------------------------

namespace Mles

namespace Proxy

/- White space; of it, `to_str` lets blanks and tabs pass. -/
def isWhitespace (b : UInt8) : Bool :=
  b = 32 || (9 ≤ b && b ≤ 13)

def comma : UInt8 := 44

/- `str::trim`. -/
def trim (text : Bytes) : Bytes :=
  Fields.trim isWhitespace text

/- `join(", ")`. -/
def join (texts : List Bytes) : Bytes :=
  [comma, 32].intercalate texts

/- The incoming entries that are text, without the blanks. -/
def prior (headers : HeaderMap) : List Bytes :=
  (((headers.getAll xForwardedFor).filterMap
    HeaderValue.toStr).map trim).filter (fun v => v ≠ [])

def forwardedFor
    (headers : HeaderMap)
    (clientIp : Option IpAddr) : Option Bytes :=
  match (prior headers).isEmpty, clientIp with
  | true, none => none
  | true, some ip => some (asBytes ip.toString)
  | false, none => some (join (prior headers))
  | false, some ip =>
      some (join (prior headers) ++ [comma, 32] ++
        asBytes ip.toString)

def withForwardedFor
    (headers : HeaderMap)
    (clientIp : Option IpAddr) : HeaderMap :=
  match (forwardedFor headers clientIp).bind
      HeaderValue.fromStr with
  | some value => headers.insert xForwardedFor value
  | none => headers

/- The headers of the request that `forward` builds. -/
def requestHeaders (headers : HeaderMap) : HeaderMap :=
  headers.appendWhere (fun name => name ≠ host) .empty

/- The headers of the reply that `forward` builds. -/
def replyHeaders (respHeaders : HeaderMap) : HeaderMap :=
  respHeaders.insertWhere
    (fun name => name ≠ transferEncoding) .empty

/- A response, of the upstream and of the proxy. -/
structure Response where
  status : Nat
  headers : HeaderMap
  body : Bytes
deriving DecidableEq

/- What `forward` makes of the upstream's response. -/
def reply (resp : Response) : Response where
  status := resp.status
  headers := replyHeaders resp.headers
  body := resp.body

end Proxy

end Mles

------------------------------------------------------------
-- Entries
------------------------------------------------------------

namespace Mles

namespace Proxy

/- The entries of a value, between commas, trimmed. -/
def entries (text : Bytes) : List Bytes :=
  Fields.fields comma isWhitespace text

/- The entries that came in, empty ones dropped. -/
def incoming (headers : HeaderMap) : List Bytes :=
  (((headers.getAll xForwardedFor).filterMap
    HeaderValue.toStr).flatMap entries).filter (fun e => e ≠ [])

theorem comma_not_isWhitespace :
    isWhitespace comma = false := by
  decide

theorem entries_trim
    (text : Bytes) :
    entries (trim text) = entries text :=
  Fields.fields_trim comma_not_isWhitespace text

/- A blank value has no entries. -/
theorem entries_of_trim_nil
    {text : Bytes}
    (hBlank : trim text = []) :
    (entries text).filter (fun e => e ≠ []) = [] := by
  have hNone : comma ∉ text :=
    Fields.notMem_of_blank comma_not_isWhitespace
      (Fields.trim_eq_nil_iff.mp hBlank)
  have hEntries : entries text = [trim text] :=
    Fields.fields_of_not_mem hNone
  rw [hEntries, hBlank]
  rfl

/-
  Entry by entry, it makes no difference that the values are
  trimmed and blank ones left out.
-/
theorem entries_prior
    (headers : HeaderMap) :
    ((prior headers).flatMap entries).filter
        (fun e => e ≠ []) =
      incoming headers := by
  unfold prior incoming
  induction (headers.getAll xForwardedFor).filterMap
    HeaderValue.toStr with
  | nil => rfl
  | cons text texts ih =>
      rw [List.map_cons, List.flatMap_cons,
        List.filter_append]
      by_cases hBlank : trim text = []
      · rw [List.filter_cons_of_neg (by simp [hBlank]), ih,
          entries_of_trim_nil hBlank, List.nil_append]
      · rw [List.filter_cons_of_pos (by simp [hBlank]),
          List.flatMap_cons, List.filter_append, ih,
          entries_trim]

/- Some incoming value is text, and not blank. -/
def HasPrior (headers : HeaderMap) : Prop :=
  ∃ value ∈ headers.getAll xForwardedFor,
    ∃ text, value.toStr = some text ∧ trim text ≠ []

theorem prior_ne_nil_iff
    (headers : HeaderMap) :
    prior headers ≠ [] ↔ HasPrior headers := by
  unfold prior HasPrior
  constructor
  · intro hSome
    rcases List.exists_mem_of_ne_nil _ hSome with
      ⟨text, hMem⟩
    rcases List.mem_filter.mp hMem with ⟨hTrimmed, hSome⟩
    rcases List.mem_map.mp hTrimmed with ⟨whole, hWhole, rfl⟩
    rcases List.mem_filterMap.mp hWhole with
      ⟨value, hValue, hStr⟩
    exact ⟨value, hValue, whole, hStr, by simpa using hSome⟩
  · rintro ⟨value, hValue, whole, hStr, hSome⟩
    apply List.ne_nil_of_mem (a := trim whole)
    refine List.mem_filter.mpr ⟨?_, ?_⟩
    · exact List.mem_map_of_mem
        (List.mem_filterMap.mpr ⟨value, hValue, hStr⟩)
    · simpa using hSome

------------------------------------------------------------
-- The Text of an Address
------------------------------------------------------------

/- A byte that is neither a blank nor a comma. -/
def isPlain (b : UInt8) : Bool :=
  isVisibleAscii b && !isWhitespace b && b ≠ comma

theorem toNat_of_isAddressChar
    {c : Char}
    (hChar : isAddressChar c = true) :
    c.toNat < 128 := by
  simp only [isAddressChar, Char.isDigit, Bool.or_eq_true,
    Bool.and_eq_true, decide_eq_true_eq, ge_iff_le] at hChar
  rcases hChar with ((hDigit | hLetter) | rfl) | rfl
  · have hNine := UInt32.le_iff_toNat_le.mp hDigit.2
    exact Nat.lt_of_le_of_lt hNine (by decide)
  · have hF :=
      UInt32.le_iff_toNat_le.mp (Char.le_def.mp hLetter.2)
    exact Nat.lt_of_le_of_lt hF (by decide)
  · decide
  · decide

theorem isPlain_of_isAddressChar :
    ∀ n < 128,
      isAddressChar (Char.ofNat n) = true →
        isPlain (Char.ofNat n).val.toUInt8 = true := by
  decide

theorem isPlain_toString
    (ip : IpAddr) :
    ∀ b ∈ asBytes ip.toString, isPlain b = true := by
  have hText := isAddressText_toString ip
  have hAscii : isAscii ip.toString = true := by
    rw [isAscii, List.all_eq_true]
    intro c hMem
    simpa using toNat_of_isAddressChar (hText c hMem)
  intro b hMem
  rw [asBytes_of_isAscii hAscii] at hMem
  rcases List.mem_map.mp hMem with ⟨c, hChar, rfl⟩
  have hPlain :=
    isPlain_of_isAddressChar c.toNat
      (toNat_of_isAddressChar (hText c hChar))
  rw [Char.ofNat_toNat] at hPlain
  exact hPlain (hText c hChar)

theorem entries_toString
    (ip : IpAddr) :
    entries (asBytes ip.toString) =
      [asBytes ip.toString] := by
  have hPlain := isPlain_toString ip
  apply Fields.fields_of_plain
  · intro hMem
    exact absurd (hPlain comma hMem) (by decide)
  · intro b hMem
    have hByte := hPlain b hMem
    simp only [isPlain, Bool.and_eq_true,
      Bool.not_eq_true'] at hByte
    exact hByte.1.2

------------------------------------------------------------
-- The Merged Value
------------------------------------------------------------

theorem entries_join
    {texts : List Bytes}
    (hSome : texts ≠ []) :
    entries (join texts) = texts.flatMap entries := by
  apply Fields.fields_intercalate comma_not_isWhitespace _
    hSome
  simp [isWhitespace]

/- What is appended behind a comma and a blank. -/
theorem entries_append
    (text text' : Bytes) :
    entries (text ++ [comma, 32] ++ text') =
      entries text ++ entries text' := by
  have hBlank : ∀ b ∈ [(32 : UInt8)], isWhitespace b = true := by
    simp [isWhitespace]
  have hEq :
      text ++ [comma, 32] ++ text' =
        text ++ comma :: ([32] ++ text') := by
    simp
  unfold entries
  rw [hEq, Fields.fields_append_sep,
    Fields.fields_blank_append comma_not_isWhitespace hBlank]

/- The merged value, entry by entry. -/
theorem entries_forwardedFor
    {headers : HeaderMap}
    {clientIp : Option IpAddr}
    {value : Bytes}
    (hValue : forwardedFor headers clientIp = some value) :
    ∃ before,
      before.filter (fun e => e ≠ []) = incoming headers ∧
        entries value =
          before ++ (clientIp.map
            (fun ip => asBytes ip.toString)).toList := by
  have hEntries := entries_prior headers
  unfold forwardedFor at hValue
  cases hEmpty : (prior headers).isEmpty with
  | true =>
      have hNone : prior headers = [] :=
        List.isEmpty_iff.mp hEmpty
      rw [hNone] at hEntries
      refine ⟨[], hEntries, ?_⟩
      rw [hEmpty] at hValue
      cases clientIp with
      | none => cases hValue
      | some ip =>
          cases hValue
          exact entries_toString ip
  | false =>
      have hSome : prior headers ≠ [] := by
        intro hNone
        rw [hNone] at hEmpty
        cases hEmpty
      refine ⟨(prior headers).flatMap entries, hEntries, ?_⟩
      rw [hEmpty] at hValue
      cases clientIp with
      | none =>
          cases hValue
          rw [entries_join hSome]
          simp
      | some ip =>
          cases hValue
          rw [entries_append, entries_join hSome,
            entries_toString]
          rfl

/- Every byte of the merged value may stand in a header. -/
theorem isValidByte_of_visible
    {b : UInt8}
    (hVisible : isVisibleAscii b = true) :
    isValidByte b = true := by
  simp only [isVisibleAscii, isValidByte, Bool.or_eq_true,
    Bool.and_eq_true, decide_eq_true_eq] at *
  rcases hVisible with ⟨hLow, hHigh⟩ | hTab
  · exact Or.inl ⟨hLow, UInt8.ne_of_lt hHigh⟩
  · exact Or.inr hTab

theorem visible_of_mem_prior
    {headers : HeaderMap}
    {text : Bytes}
    (hPrior : text ∈ prior headers) :
    ∀ b ∈ text, isVisibleAscii b = true := by
  rcases List.mem_map.mp (List.mem_filter.mp hPrior).1 with
    ⟨whole, hWhole, rfl⟩
  rcases List.mem_filterMap.mp hWhole with ⟨value, _, hStr⟩
  unfold HeaderValue.toStr at hStr
  rw [Option.ite_none_right_eq_some] at hStr
  rcases hStr with ⟨hAll, hEq⟩
  cases hEq
  intro b hMem
  exact List.all_eq_true.mp hAll b
    (Fields.mem_of_mem_trim hMem)

theorem visible_separator :
    ∀ b ∈ [comma, 32], isVisibleAscii b = true := by
  apply List.all_eq_true.mp
  decide

theorem visible_join
    (headers : HeaderMap) :
    ∀ b ∈ join (prior headers), isVisibleAscii b = true := by
  intro b hMem
  rcases Fields.mem_intercalate hMem with
    hSep | ⟨text, hPrior, hIn⟩
  · exact visible_separator b hSep
  · exact visible_of_mem_prior hPrior b hIn

theorem visible_toString
    (ip : IpAddr) :
    ∀ b ∈ asBytes ip.toString, isVisibleAscii b = true := by
  intro b hMem
  have hPlain := isPlain_toString ip b hMem
  simp only [isPlain, Bool.and_eq_true] at hPlain
  exact hPlain.1.1

theorem forwardedFor_visible
    {headers : HeaderMap}
    {clientIp : Option IpAddr}
    {value : Bytes}
    (hValue : forwardedFor headers clientIp = some value) :
    ∀ b ∈ value, isVisibleAscii b = true := by
  unfold forwardedFor at hValue
  split at hValue
  · cases hValue
  · cases hValue
    exact visible_toString _
  · cases hValue
    exact visible_join headers
  · cases hValue
    intro b hMem
    rw [List.mem_append, List.mem_append] at hMem
    rcases hMem with (hPrior | hSep) | hText
    · exact visible_join headers b hPrior
    · exact visible_separator b hSep
    · exact visible_toString _ b hText

/- So the header is never refused. -/
theorem fromStr_forwardedFor
    {headers : HeaderMap}
    {clientIp : Option IpAddr}
    {text : Bytes}
    (hText : forwardedFor headers clientIp = some text) :
    ∃ value,
      HeaderValue.fromStr text = some value ∧
        value.bytes = text := by
  have hValid : text.all isValidByte = true := by
    rw [List.all_eq_true]
    intro b hMem
    exact isValidByte_of_visible
      (forwardedFor_visible hText b hMem)
  exact ⟨⟨text, hValid⟩, dif_pos hValid, rfl⟩

theorem forwardedFor_eq_none_iff
    (headers : HeaderMap)
    (clientIp : Option IpAddr) :
    forwardedFor headers clientIp = none ↔
      ¬ HasPrior headers ∧ clientIp = none := by
  rw [← prior_ne_nil_iff, not_not]
  unfold forwardedFor
  cases hPrior : prior headers with
  | nil =>
      cases clientIp with
      | none => simp
      | some ip => simp
  | cons text texts =>
      cases clientIp with
      | none => simp
      | some ip => simp

------------------------------------------------------------
-- What Is Copied
------------------------------------------------------------

theorem getAll_requestHeaders
    (headers : HeaderMap)
    (name : HeaderName) :
    (requestHeaders headers).getAll name =
      if name = host then [] else headers.getAll name := by
  unfold requestHeaders
  rw [MultiMap.getAll_appendWhere]
  by_cases hHost : name = host
  · simp [hHost]
  · simp [hHost]

theorem getAll_replyHeaders
    (respHeaders : HeaderMap)
    (name : HeaderName) :
    (replyHeaders respHeaders).getAll name =
      if name = transferEncoding then []
      else (respHeaders.getAll name).getLast?.toList := by
  unfold replyHeaders
  rw [MultiMap.getAll_insertWhere]
  by_cases hSkip : name = transferEncoding
  · simp [hSkip]
  · simp only [hSkip, ne_eq, not_false_eq_true, decide_true,
      if_true, if_false]
    cases (respHeaders.getAll name).getLast? with
    | none => rfl
    | some value => rfl

/- Only one header is touched on the way. -/
theorem getAll_withForwardedFor_of_ne
    (headers : HeaderMap)
    (clientIp : Option IpAddr)
    {name : HeaderName}
    (hName : name ≠ xForwardedFor) :
    (withForwardedFor headers clientIp).getAll name =
      headers.getAll name := by
  unfold withForwardedFor
  split
  · rw [MultiMap.getAll_insert, if_neg (Ne.symm hName)]
  · rfl

/- It then has one value, if there is any to be sent. -/
theorem getAll_withForwardedFor
    {headers : HeaderMap}
    {clientIp : Option IpAddr}
    {text : Bytes}
    (hText : forwardedFor headers clientIp = some text) :
    ∃ value,
      (withForwardedFor headers clientIp).getAll
          xForwardedFor = [value] ∧
        value.bytes = text := by
  rcases fromStr_forwardedFor hText with
    ⟨value, hValue, hBytes⟩
  refine ⟨value, ?_, hBytes⟩
  unfold withForwardedFor
  rw [hText, Option.bind_some, hValue]
  simp only
  rw [MultiMap.getAll_insert, if_pos rfl]

/- The one value, entry by entry, if there is one to send. -/
theorem merged_value
    {headers : HeaderMap}
    {clientIp : Option IpAddr}
    (hSome : HasPrior headers ∨ clientIp ≠ none) :
    ∃ value before,
      (withForwardedFor headers clientIp).getAll
          xForwardedFor = [value] ∧
        before.filter (fun e => e ≠ []) = incoming headers ∧
        entries value.bytes =
          before ++ (clientIp.map
            (fun ip => asBytes ip.toString)).toList := by
  cases hText : forwardedFor headers clientIp with
  | none =>
      rcases (forwardedFor_eq_none_iff headers
          clientIp).mp hText with
        ⟨hNone, hUnknown⟩
      rcases hSome with hPrior | hKnown
      · exact absurd hPrior hNone
      · exact absurd hUnknown hKnown
  | some text =>
      rcases getAll_withForwardedFor hText with
        ⟨value, hValue, rfl⟩
      rcases entries_forwardedFor hText with
        ⟨before, hBefore, hEntries⟩
      exact ⟨value, before, hValue, hBefore, hEntries⟩

theorem withForwardedFor_of_none
    {headers : HeaderMap}
    {clientIp : Option IpAddr}
    (hNone : forwardedFor headers clientIp = none) :
    withForwardedFor headers clientIp = headers := by
  unfold withForwardedFor
  rw [hNone]
  rfl

end Proxy

end Mles
