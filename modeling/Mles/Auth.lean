import Mles.Library.Digits
import Mles.Types
import Mathlib.Tactic.IntervalCases

/-
  Authentication of a header (`src/auth.rs`).

  The hash function and the `MLES_KEY` of the environment
  are parameters.  The token of a (uid, channel) pair is the
  hash of the bytes of the uid, the channel and the key, one
  behind the other, so it determines their concatenation
  only: `tokenBound_iff` says exactly which pairs
  of identities no token can confuse.

  Key definitions include:
    * `fromStrRadix16`
    * `verifyAuth`
    * `Identity`
    * `TokenBound`
    * `Spells`

  Key theorems include:
    * `verifyAuth_eq_true_iff`
    * `tokenBound_iff`
    * `fromStrRadix16_eq_some_iff`
    * `verifyAuth_iff_spells`
-/

------------------------------------------------------------
-- Hexadecimal Numbers
------------------------------------------------------------

namespace Mles

/- The value of a hexadecimal digit of either case. -/
def hexDigit (c : Char) : Option Nat :=
  if '0' ≤ c ∧ c ≤ '9' then
    some (c.toNat - 48)
  else if 'a' ≤ c ∧ c ≤ 'f' then
    some (c.toNat - 87)
  else if 'A' ≤ c ∧ c ≤ 'F' then
    some (c.toNat - 55)
  else
    none

/- Read digits after `acc`, failing beyond 64 bits. -/
def hexDigits : Nat → List Char → Option Nat
| acc, [] => some acc
| acc, c :: cs =>
    match hexDigit c with
    | none => none
    | some d =>
        if acc * 16 + d < 2 ^ 64 then
          hexDigits (acc * 16 + d) cs
        else
          none

/-
  `u64::from_str_radix(s, 16)`: digits after an optional
  plus sign.
-/
def fromStrRadix16 (s : String) : Option UInt64 :=
  match s.toList with
  | [] => none
  | ['+'] => none
  | '+' :: cs => (hexDigits 0 cs).map UInt64.ofNat
  | cs => (hexDigits 0 cs).map UInt64.ofNat

/- A number in lower-case hexadecimal, `{:x}`. -/
def toHex (n : UInt64) : String :=
  String.ofList (Nat.toDigits 16 n.toNat)

private theorem hexDigit_digitChar
    {d : Nat}
    (hd : d < 16) :
    hexDigit (Nat.digitChar d) = some d := by
  interval_cases d <;> decide

private theorem hexDigits_append
    (acc : Nat)
    (cs ds : List Char) :
    hexDigits acc (cs ++ ds) =
      (hexDigits acc cs).bind (fun n => hexDigits n ds) := by
  induction cs generalizing acc with
  | nil => rfl
  | cons c cs ih =>
      simp only [List.cons_append, hexDigits]
      cases hexDigit c with
      | none => rfl
      | some d =>
          by_cases hBound : acc * 16 + d < 2 ^ 64
          · simp only [hBound, if_true]
            exact ih (acc * 16 + d)
          · simp only [hBound, if_false, Option.bind_none]

/- Written digits read back as the number. -/
private theorem hexDigits_toDigits
    (n : Nat)
    (hn : n < 2 ^ 64) :
    hexDigits 0 (Nat.toDigits 16 n) = some n := by
  induction n using Nat.strongRecOn with
  | ind n ih =>
      by_cases hSmall : n < 16
      · rw [Nat.toDigits_of_lt_base hSmall]
        simpa [hexDigits, hexDigit_digitChar hSmall] using hn
      · have hPos : 0 < n / 16 := by omega
        have hMod : n % 16 < 16 := Nat.mod_lt _ (by decide)
        have hSplit :
            Nat.toDigits 16 (n / 16) ++
                Nat.toDigits 16 (n % 16) =
              Nat.toDigits 16 n := by
          rw [Nat.toDigits_append_toDigits
            (by decide) hPos hMod, Nat.div_add_mod]
        have hHigh := ih (n / 16) (by omega) (by omega)
        have hSum : n / 16 * 16 + n % 16 = n := by omega
        rw [← hSplit, hexDigits_append, hHigh,
          Nat.toDigits_of_lt_base hMod]
        simpa [hexDigits, hexDigit_digitChar hMod, hSum]
          using hn

/- A token written by `toHex` parses to its number. -/
theorem fromStrRadix16_toHex
    (n : UInt64) :
    fromStrRadix16 (toHex n) = some n := by
  have hDigits := hexDigits_toDigits n.toNat n.toNat_lt
  unfold fromStrRadix16 toHex
  rw [String.toList_ofList]
  -- The sign is no digit, so written digits do not start
  -- with it.
  split
  · rename_i hNil
    rw [hNil] at hDigits
    have hZero : n.toNat = 0 := (Option.some.inj hDigits).symm
    rw [hZero] at hNil
    exact absurd hNil (by decide)
  · rename_i hPlus
    rw [hPlus] at hDigits
    exact absurd hDigits (by simp [hexDigits, hexDigit])
  · rename_i cs _ hPlus
    rw [hPlus] at hDigits
    exact absurd hDigits (by simp [hexDigits, hexDigit])
  · rw [hDigits]
    simp

end Mles

------------------------------------------------------------
-- Verification
------------------------------------------------------------

namespace Mles

/-
  `verify_auth`, for the hash function `sip` and the value
  of `MLES_KEY` in the environment.
-/
def verifyAuth
    (sip : List UInt8 → UInt64)
    (mlesKey : Option String)
    (uid channel : String)
    (auth : Option String) : Bool :=
  let hasher := SipHash.Hasher.new
  let hasher := hasher.write (asBytes uid)
  let hasher := hasher.write (asBytes channel)
  match mlesKey with
  | some key =>
      match auth with
      | some auth =>
          let hasher := hasher.write (asBytes key)
          let hash := hasher.finish sip
          let authHash := (fromStrRadix16 auth).getD 0
          hash == authHash
      | none => false
  | none =>
      match auth with
      | some auth =>
          let hash := hasher.finish sip
          let authHash := (fromStrRadix16 auth).getD 0
          hash == authHash
      | none => true

/- The byte string whose hash is the expected token. -/
def tokenBytes
    (mlesKey : Option String)
    (uid channel : String) : List UInt8 :=
  asBytes uid ++ asBytes channel ++
    asBytes (mlesKey.getD "")

/- A token passes exactly when it is the expected hash. -/
theorem verifyAuth_eq_true_iff
    (sip : List UInt8 → UInt64)
    (mlesKey : Option String)
    (uid channel auth : String) :
    verifyAuth sip mlesKey uid channel (some auth) = true ↔
      sip (tokenBytes mlesKey uid channel) =
        (fromStrRadix16 auth).getD 0 := by
  cases mlesKey with
  | none => simp [verifyAuth, tokenBytes, asBytes]
  | some key =>
      simp [verifyAuth, tokenBytes]

end Mles

------------------------------------------------------------
-- Binding of Tokens
------------------------------------------------------------

namespace Mles

/- A pair that passes the checks made before `verifyAuth`. -/
structure Identity where
  uid : String
  channel : String
  uid_ascii : isAscii uid = true
  channel_ascii : isAscii channel = true
  uid_nonempty : uid ≠ ""
  channel_nonempty : channel ≠ ""

namespace Identity

theorem ext
    {a b : Identity}
    (hUid : a.uid = b.uid)
    (hChannel : a.channel = b.channel) :
    a = b := by
  cases a
  cases b
  cases hUid
  cases hChannel
  rfl

def tokenBytes
    (mlesKey : Option String)
    (a : Identity) : List UInt8 :=
  Mles.tokenBytes mlesKey a.uid a.channel

/- The token is accepted for this identity. -/
def Accepts
    (sip : List UInt8 → UInt64)
    (mlesKey : Option String)
    (a : Identity)
    (auth : String) : Prop :=
  verifyAuth sip mlesKey a.uid a.channel (some auth) = true

instance
    (sip : List UInt8 → UInt64)
    (mlesKey : Option String)
    (a : Identity)
    (auth : String) :
    Decidable (a.Accepts sip mlesKey auth) := by
  unfold Accepts
  infer_instance

end Identity

/- No numeric token is accepted for both identities. -/
def TokenBound
    (sip : List UInt8 → UInt64)
    (mlesKey : Option String)
    (a b : Identity) : Prop :=
  ∀ auth,
    (fromStrRadix16 auth).isSome = true →
      a.Accepts sip mlesKey auth →
        b.Accepts sip mlesKey auth → a = b

/- The hash separates two byte strings. -/
def CollisionFree
    (sip : List UInt8 → UInt64)
    (x y : List UInt8) : Prop :=
  sip x = sip y → x = y

/- The hashed bytes determine the concatenation only. -/
theorem tokenBytes_eq_iff
    (mlesKey : Option String)
    (a b : Identity) :
    a.tokenBytes mlesKey = b.tokenBytes mlesKey ↔
      a.uid ++ a.channel = b.uid ++ b.channel := by
  unfold Identity.tokenBytes tokenBytes
  rw [List.append_cancel_right_eq, ← asBytes_append,
    ← asBytes_append]
  exact asBytes_injective.eq_iff

/-
  Where the hash has no collision, no token is accepted for
  two different identities exactly when these are not two
  ways of splitting one text into uid and channel.
-/
theorem tokenBound_iff
    (sip : List UInt8 → UInt64)
    (mlesKey : Option String)
    (a b : Identity)
    (hFree :
      CollisionFree sip (a.tokenBytes mlesKey)
        (b.tokenBytes mlesKey)) :
    TokenBound sip mlesKey a b ↔
      (a.uid ++ a.channel = b.uid ++ b.channel →
        a = b) := by
  constructor
  · intro hBound hSplit
    have hBytes :=
      (tokenBytes_eq_iff mlesKey a b).mpr hSplit
    -- The token of `a` is a token of `b`.
    let auth := toHex (sip (a.tokenBytes mlesKey))
    have hParse :
        fromStrRadix16 auth =
          some (sip (a.tokenBytes mlesKey)) :=
      fromStrRadix16_toHex _
    apply hBound auth
    · simp [hParse]
    · apply (verifyAuth_eq_true_iff _ _ _ _ _).mpr
      simp [hParse, Identity.tokenBytes]
    · apply (verifyAuth_eq_true_iff _ _ _ _ _).mpr
      rw [hParse, hBytes]
      simp [Identity.tokenBytes]
  · intro hSplit auth _ hA hB
    have hTokenA := (verifyAuth_eq_true_iff _ _ _ _ _).mp hA
    have hTokenB := (verifyAuth_eq_true_iff _ _ _ _ _).mp hB
    apply hSplit
    apply (tokenBytes_eq_iff mlesKey a b).mp
    exact hFree (hTokenA.trans hTokenB.symm)

/- Different users of one channel never share a token. -/
theorem tokenBound_alice_bob :
    TokenBound (SipHash.sipHash24 0 0) (some "key")
      ⟨"alice", "news", by decide, by decide,
        by decide, by decide⟩
      ⟨"bob", "news", by decide, by decide,
        by decide, by decide⟩ := by
  apply (tokenBound_iff _ _ _ _ ?_).mpr
  · intro hSplit
    exact absurd hSplit (by decide)
  · intro hHash
    exact absurd hHash (by decide +kernel)

/-
  Two identities that concatenate to one text are accepted
  with one and the same token: no collision is involved, the
  bytes that are hashed are equal.
-/
theorem tokenBound_fails_on_split :
    CollisionFree (SipHash.sipHash24 0 0)
        (tokenBytes (some "key") "ab" "c")
        (tokenBytes (some "key") "a" "bc") ∧
      ¬ TokenBound (SipHash.sipHash24 0 0) (some "key")
        ⟨"ab", "c", by decide, by decide,
          by decide, by decide⟩
        ⟨"a", "bc", by decide, by decide,
          by decide, by decide⟩ := by
  constructor
  · intro _
    decide
  · intro hBound
    have hEq := hBound "a626729dee892f76" (by decide +kernel)
      (by decide +kernel) (by decide +kernel)
    exact absurd (congrArg Identity.uid hEq) (by decide)

end Mles

------------------------------------------------------------
-- Accepted Texts
------------------------------------------------------------

namespace Mles

/- The hexadecimal digits are those below sixteen. -/
theorem hexDigit_eq
    (c : Char) :
    hexDigit c = Digits.toDigit 16 c := by
  unfold hexDigit Digits.toDigit
  have hIsDigit :
      c.isDigit = (decide (c ≥ '0') && decide (c ≤ '9')) := rfl
  have hIsLower :
      c.isLower = (decide (c ≥ 'a') && decide (c ≤ 'z')) := rfl
  have hIsUpper :
      c.isUpper = decide (c ≥ 'A' ∧ c ≤ 'Z') := rfl
  simp only [hIsDigit, hIsLower, hIsUpper,
    Char.le_def, UInt32.le_iff_toNat_le, ge_iff_le,
    Bool.and_eq_true, decide_eq_true_eq]
  change
    (if 48 ≤ c.toNat ∧ c.toNat ≤ 57 then _
      else if 97 ≤ c.toNat ∧ c.toNat ≤ 102 then _
      else if 65 ≤ c.toNat ∧ c.toNat ≤ 70 then _ else _) =
      Option.filter _
        (if 48 ≤ c.toNat ∧ c.toNat ≤ 57 then _
          else if 97 ≤ c.toNat ∧ c.toNat ≤ 122 then _
          else if 65 ≤ c.toNat ∧ c.toNat ≤ 90 then _ else _)
  by_cases hNumber : 48 ≤ c.toNat ∧ c.toNat ≤ 57
  · rw [if_pos hNumber, if_pos hNumber, Option.filter_some,
      if_pos (by simp; omega)]
  · rw [if_neg hNumber, if_neg hNumber]
    by_cases hLower : 97 ≤ c.toNat ∧ c.toNat ≤ 122
    · rw [if_pos hLower, Option.filter_some]
      by_cases hHex : c.toNat ≤ 102
      · rw [if_pos ⟨hLower.1, hHex⟩, if_pos (by simp; omega)]
      · rw [if_neg (by omega), if_neg (by omega),
          if_neg (by simp; omega)]
    · rw [if_neg hLower, if_neg (by omega)]
      by_cases hUpper : 65 ≤ c.toNat ∧ c.toNat ≤ 90
      · rw [if_pos hUpper, Option.filter_some]
        by_cases hHex : c.toNat ≤ 70
        · rw [if_pos ⟨hUpper.1, hHex⟩,
            if_pos (by simp; omega)]
        · rw [if_neg (by omega), if_neg (by simp; omega)]
      · rw [if_neg hUpper, if_neg (by omega), Option.filter_none]

/- Digits behind others only make the number larger. -/
theorem foldl_digits_ge
    (acc : Nat)
    (cs : List Char) :
    acc ≤
      cs.foldl
        (fun n c => n * 16 + (Digits.toDigit 16 c).getD 0)
        acc := by
  induction cs generalizing acc with
  | nil => exact Nat.le_refl _
  | cons c cs ih =>
      have hMore :
          acc ≤ acc * 16 + (Digits.toDigit 16 c).getD 0 := by
        omega
      exact Nat.le_trans hMore (ih _)

/- Reading never fails but for a character or the size. -/
theorem hexDigits_eq_some_iff
    {acc : Nat}
    (hAcc : acc < 2 ^ 64)
    (cs : List Char)
    (n : Nat) :
    hexDigits acc cs = some n ↔
      (∀ c ∈ cs, Digits.isDigit 16 c = true) ∧ n < 2 ^ 64 ∧
        cs.foldl
          (fun n c => n * 16 + (Digits.toDigit 16 c).getD 0)
          acc = n := by
  induction cs generalizing acc with
  | nil =>
      simp only [hexDigits, Option.some.injEq,
        List.not_mem_nil, false_implies, implies_true,
        List.foldl_nil, true_and]
      constructor
      · rintro rfl
        exact ⟨hAcc, rfl⟩
      · exact fun hBoth => hBoth.2
  | cons c cs ih =>
      simp only [hexDigits, hexDigit_eq, List.forall_mem_cons,
        List.foldl_cons, Digits.isDigit]
      cases hDigit : Digits.toDigit 16 c with
      | none => simp
      | some d =>
          simp only [Option.isSome_some, true_and,
            Option.getD_some]
          by_cases hFits : acc * 16 + d < 2 ^ 64
          · rw [if_pos hFits]
            exact ih hFits
          · rw [if_neg hFits]
            simp only [reduceCtorEq, false_iff]
            rintro ⟨_, hSmall, rfl⟩
            exact absurd
              (foldl_digits_ge (acc * 16 + d) cs) (by omega)

theorem map_hexDigits_iff
    (digits : List Char)
    (n : UInt64) :
    (hexDigits 0 digits).map UInt64.ofNat = some n ↔
      (∀ c ∈ digits, Digits.isDigit 16 c = true) ∧
        Digits.value 16 digits = n.toNat := by
  rw [Option.map_eq_some_iff]
  simp only [hexDigits_eq_some_iff (show 0 < 2 ^ 64 by decide)]
  constructor
  · rintro ⟨k, ⟨hAll, hSmall, hValue⟩, rfl⟩
    refine ⟨hAll, ?_⟩
    rw [UInt64.toNat_ofNat_of_lt' hSmall]
    exact hValue
  · rintro ⟨hAll, hValue⟩
    exact ⟨n.toNat, ⟨hAll, n.toNat_lt, hValue⟩,
      UInt64.ofNat_toNat⟩

/-
  The text is a number: digits of either case, as many zeros
  in front as one likes, and a plus sign or none.
-/
def Spells
    (text : String)
    (n : Nat) : Prop :=
  ∃ digits,
    (text.toList = digits ∨ text.toList = '+' :: digits) ∧
    digits ≠ [] ∧
    (∀ c ∈ digits, Digits.isDigit 16 c = true) ∧
    Digits.value 16 digits = n

theorem fromStrRadix16_eq_some_iff
    (text : String)
    (n : UInt64) :
    fromStrRadix16 text = some n ↔ Spells text n.toNat := by
  have hSign : Digits.isDigit 16 '+' = false := by decide
  unfold fromStrRadix16 Spells
  split
  · rename_i hText
    simp only [reduceCtorEq, false_iff]
    rintro ⟨digits, hEither, hSome, _⟩
    rcases hEither with hPlain | hPlus
    · exact hSome (hPlain.symm.trans hText)
    · rw [hText] at hPlus
      cases hPlus
  · rename_i hText
    simp only [reduceCtorEq, false_iff]
    rintro ⟨digits, hEither, hSome, hAll, _⟩
    rcases hEither with hPlain | hPlus
    · have hFirst := hAll '+'
        (by rw [← hPlain, hText]; exact List.mem_cons_self)
      rw [hSign] at hFirst
      cases hFirst
    · rw [hText] at hPlus
      exact hSome (List.cons.inj hPlus).2.symm
  · rename_i cs hMore hText
    rw [map_hexDigits_iff]
    constructor
    · rintro ⟨hAll, hValue⟩
      exact ⟨cs, Or.inr hText, hMore, hAll, hValue⟩
    · rintro ⟨digits, hEither, _, hAll, hValue⟩
      rcases hEither with hPlain | hPlus
      · have hFirst := hAll '+'
          (by rw [← hPlain, hText]; exact List.mem_cons_self)
        rw [hSign] at hFirst
        cases hFirst
      · rw [hText] at hPlus
        cases hPlus
        exact ⟨hAll, hValue⟩
  · rename_i hNil _ hPlain
    rw [map_hexDigits_iff]
    constructor
    · rintro ⟨hAll, hValue⟩
      exact ⟨text.toList, Or.inl rfl, hNil, hAll, hValue⟩
    · rintro ⟨digits, hEither, _, hAll, hValue⟩
      rcases hEither with hSame | hPlus
      · rw [hSame]
        exact ⟨hAll, hValue⟩
      · exact absurd hPlus (hPlain digits)

/-
  What `verify_auth` accepts, for every key and every text:
  no auth value at all where no key is set; else any way to
  write the expected hash as a number.  A text that is not a
  number of 64 bits passes for zero.
-/
theorem verifyAuth_iff_spells
    (sip : List UInt8 → UInt64)
    (mlesKey : Option String)
    (uid channel : String)
    (auth : Option String) :
    let hash := sip (tokenBytes mlesKey uid channel)
    verifyAuth sip mlesKey uid channel auth = true ↔
      (auth = none ∧ mlesKey = none) ∨
        ∃ text, auth = some text ∧
          (Spells text hash.toNat ∨
            hash = 0 ∧ ∀ n < 2 ^ 64, ¬ Spells text n) := by
  intro hash
  cases auth with
  | none =>
      cases mlesKey with
      | none => simp [verifyAuth]
      | some key => simp [verifyAuth]
  | some text =>
      rw [verifyAuth_eq_true_iff]
      simp only [reduceCtorEq, false_and, Option.some.injEq,
        false_or, exists_eq_left']
      change hash = _ ↔ _
      cases hParsed : fromStrRadix16 text with
      | some n =>
          have hSpells :=
            (fromStrRadix16_eq_some_iff text n).mp hParsed
          rw [Option.getD_some]
          constructor
          · rintro hSame
            exact Or.inl (hSame ▸ hSpells)
          · rintro (hOther | ⟨_, hNone⟩)
            · rw [← fromStrRadix16_eq_some_iff, hParsed]
                at hOther
              exact (Option.some.inj hOther).symm
            · exact absurd hSpells (hNone _ n.toNat_lt)
      | none =>
          have hNone : ∀ n < 2 ^ 64, ¬ Spells text n := by
            intro n hSmall hSpells
            have hSame : (UInt64.ofNat n).toNat = n :=
              UInt64.toNat_ofNat_of_lt' hSmall
            rw [← hSame, ← fromStrRadix16_eq_some_iff,
              hParsed] at hSpells
            cases hSpells
          rw [Option.getD_none]
          constructor
          · exact fun hZero => Or.inr ⟨hZero, hNone⟩
          · rintro (hSpells | ⟨hZero, _⟩)
            · exact absurd hSpells (hNone _ hash.toNat_lt)
            · exact hZero

end Mles
