import Mathlib.Data.List.TakeWhile
import Mathlib.Tactic.IntervalCases

/-
  Numbers as digits in front of a text.

  A reader takes as many digits as it finds, in a base of at
  most 36, and leaves the rest of the text.  What
  `Nat.toDigits` has written is read back as its number, if
  no digit follows it.

  Key definitions include:
    * `Digits.toDigit`
    * `Digits.value`
    * `Digits.readNumber`

  Key theorems include:
    * `Digits.value_toDigits`
    * `Digits.readNumber_toDigits`
-/

------------------------------------------------------------
-- Digits
------------------------------------------------------------

namespace Digits

/- The value of a digit, in either case of the letters. -/
def toDigit
    (radix : Nat)
    (c : Char) : Option Nat :=
  let digit :=
    if c.isDigit then some (c.toNat - 48)
    else if c.isLower then some (c.toNat - 87)
    else if c.isUpper then some (c.toNat - 55)
    else none
  digit.filter (fun d => d < radix)

def isDigit
    (radix : Nat)
    (c : Char) : Bool :=
  (toDigit radix c).isSome

/- The number that digits stand for. -/
def value
    (radix : Nat)
    (digits : List Char) : Nat :=
  digits.foldl
    (fun n c => n * radix + (toDigit radix c).getD 0) 0

variable {radix : Nat}

theorem toDigit_digitChar
    {d : Nat}
    (hDigit : d < radix)
    (hRadix : radix ≤ 16) :
    toDigit radix d.digitChar = some d := by
  have hSmall : d < 16 := Nat.lt_of_lt_of_le hDigit hRadix
  have hValue :
      ∀ d < 16,
        toDigit 16 d.digitChar = some d := by
    decide
  have hOwn := hValue d hSmall
  unfold toDigit at hOwn ⊢
  rw [Option.filter_eq_some_iff] at hOwn ⊢
  exact ⟨hOwn.1, by simpa using hDigit⟩

theorem value_append_singleton
    (digits : List Char)
    (c : Char) :
    value radix (digits ++ [c]) =
      value radix digits * radix +
        (toDigit radix c).getD 0 := by
  simp [value]

/- Written digits stand for their number. -/
theorem value_toDigits
    (hBase : 1 < radix)
    (hRadix : radix ≤ 16)
    (n : Nat) :
    value radix (Nat.toDigits radix n) = n := by
  induction n using Nat.strongRecOn with
  | ind n ih =>
      rw [Nat.toDigits_eq_if hBase]
      by_cases hSmall : n < radix
      · rw [if_pos hSmall]
        simp [value, toDigit_digitChar hSmall hRadix]
      · rw [if_neg hSmall]
        have hLess : n / radix < n :=
          Nat.div_lt_self (by omega) hBase
        have hMod : n % radix < radix :=
          Nat.mod_lt n (Nat.zero_lt_of_lt hBase)
        rw [value_append_singleton, ih _ hLess,
          toDigit_digitChar hMod hRadix]
        exact Nat.div_add_mod' n radix

theorem isDigit_of_mem_toDigits
    (hBase : 1 < radix)
    (hRadix : radix ≤ 16)
    {n : Nat} :
    ∀ c ∈ Nat.toDigits radix n, isDigit radix c = true := by
  have hChar
      {d : Nat}
      (hDigit : d < radix) :
      isDigit radix d.digitChar = true := by
    rw [isDigit, toDigit_digitChar hDigit hRadix]
    rfl
  induction n using Nat.strongRecOn with
  | ind n ih =>
      intro c hMem
      rw [Nat.toDigits_eq_if hBase] at hMem
      by_cases hSmall : n < radix
      · rw [if_pos hSmall] at hMem
        rw [List.mem_singleton.mp hMem]
        exact hChar hSmall
      · rw [if_neg hSmall] at hMem
        have hLess : n / radix < n :=
          Nat.div_lt_self (by omega) hBase
        rcases List.mem_append.mp hMem with hHigh | hLow
        · exact ih _ hLess c hHigh
        · rw [List.mem_singleton.mp hLow]
          exact hChar
            (Nat.mod_lt n (Nat.zero_lt_of_lt hBase))

/- Only the number zero starts with a zero. -/
theorem head_toDigits
    (hBase : 1 < radix)
    (hRadix : radix ≤ 16)
    {n : Nat}
    (hZero : (Nat.toDigits radix n).head? = some '0') :
    Nat.toDigits radix n = ['0'] := by
  induction n using Nat.strongRecOn with
  | ind n ih =>
      rw [Nat.toDigits_eq_if hBase] at hZero ⊢
      by_cases hSmall : n < radix
      · rw [if_pos hSmall] at hZero ⊢
        simpa using hZero
      · rw [if_neg hSmall] at hZero
        have hLess : n / radix < n :=
          Nat.div_lt_self (by omega) hBase
        have hFirst :
            (Nat.toDigits radix (n / radix)).head? =
              some '0' := by
          rw [List.head?_append] at hZero
          cases hHead : (Nat.toDigits radix (n / radix)).head?
            with
          | none =>
              exact absurd (List.head?_eq_none_iff.mp hHead)
                Nat.toDigits_ne_nil
          | some c => simpa [hHead] using hZero
        -- The quotient would be zero.
        have hValue :=
          value_toDigits hBase hRadix (n / radix)
        rw [ih _ hLess hFirst] at hValue
        have hNone : value radix ['0'] = 0 := by
          have hDigit : toDigit radix (Nat.digitChar 0) = some 0 :=
            toDigit_digitChar (by omega) hRadix
          simp only [value, List.foldl_cons, List.foldl_nil,
            Nat.zero_mul, Nat.zero_add]
          rw [show '0' = Nat.digitChar 0 from rfl, hDigit]
          rfl
        have hMore : 0 < n / radix :=
          Nat.div_pos (by omega) (by omega)
        omega

------------------------------------------------------------
-- Reading a Number
------------------------------------------------------------

/-
  Read a number off the front of the text.  It fails if
  there is no digit, if there are more digits than allowed,
  if a zero stands in front of others where it may not, and
  if the number is above `most`.
-/
def readNumber
    (radix : Nat)
    (maxDigits : Option Nat)
    (allowZeroPrefix : Bool)
    (most : Nat)
    (text : List Char) : Option (Nat × List Char) :=
  let digits := text.takeWhile (isDigit radix)
  let n := value radix digits
  if maxDigits.any (fun m => m < digits.length) then none
  else if digits = [] then none
  else if !allowZeroPrefix && digits.head? = some '0' &&
      1 < digits.length then none
  else if most < n then none
  else some (n, text.dropWhile (isDigit radix))

/- What was written is read, if no digit follows it. -/
theorem readNumber_toDigits
    (hBase : 1 < radix)
    (hRadix : radix ≤ 16)
    {maxDigits : Option Nat}
    {most n : Nat}
    {rest : List Char}
    (hFits :
      ∀ m ∈ maxDigits, (Nat.toDigits radix n).length ≤ m)
    (hMost : n ≤ most)
    (hStop : ∀ c ∈ rest.head?, isDigit radix c = false)
    (allowZeroPrefix : Bool) :
    readNumber radix maxDigits allowZeroPrefix most
        (Nat.toDigits radix n ++ rest) =
      some (n, rest) := by
  have hDigits := isDigit_of_mem_toDigits hBase hRadix (n := n)
  have hRest :
      rest.takeWhile (isDigit radix) = [] ∧
        rest.dropWhile (isDigit radix) = rest := by
    cases rest with
    | nil => exact ⟨rfl, rfl⟩
    | cons c rest =>
        have hFirst := hStop c rfl
        simp [hFirst]
  have hTake :
      (Nat.toDigits radix n ++ rest).takeWhile
          (isDigit radix) =
        Nat.toDigits radix n := by
    rw [List.takeWhile_append_of_pos hDigits, hRest.1,
      List.append_nil]
  have hDrop :
      (Nat.toDigits radix n ++ rest).dropWhile
          (isDigit radix) =
        rest := by
    rw [List.dropWhile_append_of_pos hDigits, hRest.2]
  have hFew :
      ¬ maxDigits.any
        (fun m => m < (Nat.toDigits radix n).length) =
          true := by
    rw [Option.any_eq_true]
    rintro ⟨m, hMem, hMany⟩
    have hLength := hFits m hMem
    simp only [decide_eq_true_eq] at hMany
    omega
  have hPrefix :
      ¬ (!allowZeroPrefix &&
          (Nat.toDigits radix n).head? = some '0' &&
          1 < (Nat.toDigits radix n).length) = true := by
    simp only [Bool.and_eq_true, decide_eq_true_eq]
    rintro ⟨⟨_, hZero⟩, hMany⟩
    rw [head_toDigits hBase hRadix hZero] at hMany
    simp at hMany
  unfold readNumber
  simp only [hTake, hDrop, value_toDigits hBase hRadix]
  rw [if_neg hFew, if_neg Nat.toDigits_ne_nil, if_neg hPrefix,
    if_neg (Nat.not_lt.mpr hMost)]

end Digits
