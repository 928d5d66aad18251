import Mathlib.Data.List.DropRight
import Mathlib.Data.List.Basic

/-
  Lists of fields in one text.

  A text holds fields between separators, with blanks around
  them that do not count: `Fields.fields` cuts the text and
  trims the parts.  Nothing changes when blanks are added at
  the ends of the text, and texts that are joined with a
  separator have the fields of all of them.

  Key definitions include:
    * `Fields.trim`
    * `Fields.fields`

  Key theorems include:
    * `Fields.fields_append_sep`
    * `Fields.fields_trim`
    * `Fields.fields_intercalate`
-/

------------------------------------------------------------
-- Trimming
------------------------------------------------------------

namespace Fields

variable {α : Type} {blank : α → Bool}

/- Blanks removed at both ends. -/
def trim
    (blank : α → Bool)
    (xs : List α) : List α :=
  (xs.dropWhile blank).rdropWhile blank

theorem trim_of_blank
    {ws : List α}
    (hBlank : ∀ w ∈ ws, blank w = true) :
    trim blank ws = [] := by
  have hNothing : ws.dropWhile blank = [] :=
    List.dropWhile_eq_nil_iff.mpr hBlank
  rw [trim, hNothing, List.rdropWhile_nil]

theorem trim_of_plain
    {xs : List α}
    (hPlain : ∀ x ∈ xs, blank x = false) :
    trim blank xs = xs := by
  have hFront : xs.dropWhile blank = xs := by
    cases xs with
    | nil => rfl
    | cons x xs =>
        exact List.dropWhile_cons_of_neg
          (by simp [hPlain x (by simp)])
  rw [trim, hFront, List.rdropWhile_eq_self_iff]
  intro hNonempty
  simp [hPlain _ (List.getLast_mem hNonempty)]

theorem trim_blank_append
    {ws : List α}
    (hBlank : ∀ w ∈ ws, blank w = true)
    (xs : List α) :
    trim blank (ws ++ xs) = trim blank xs := by
  unfold trim
  rw [List.dropWhile_append_of_pos hBlank]

theorem rdropWhile_append_blank
    {ws : List α}
    (hBlank : ∀ w ∈ ws, blank w = true)
    (xs : List α) :
    (xs ++ ws).rdropWhile blank = xs.rdropWhile blank := by
  have hReverse : ∀ w ∈ ws.reverse, blank w = true := by
    intro w hMem
    exact hBlank w (List.mem_reverse.mp hMem)
  unfold List.rdropWhile
  rw [List.reverse_append,
    List.dropWhile_append_of_pos hReverse]

theorem trim_append_blank
    {ws : List α}
    (hBlank : ∀ w ∈ ws, blank w = true)
    (xs : List α) :
    trim blank (xs ++ ws) = trim blank xs := by
  unfold trim
  rw [List.dropWhile_append]
  cases hFront : xs.dropWhile blank with
  | nil =>
      have hNothing : ws.dropWhile blank = [] :=
        List.dropWhile_eq_nil_iff.mpr hBlank
      simp [hNothing]
  | cons y ys =>
      simpa using rdropWhile_append_blank hBlank (y :: ys)

/- What is trimmed off is blank. -/
theorem exists_trim
    (blank : α → Bool)
    (xs : List α) :
    ∃ ws ws',
      (∀ w ∈ ws, blank w = true) ∧
        (∀ w ∈ ws', blank w = true) ∧
        xs = ws ++ trim blank xs ++ ws' := by
  refine ⟨xs.takeWhile blank,
    (xs.dropWhile blank).rtakeWhile blank, ?_, ?_, ?_⟩
  · intro w hMem
    exact List.mem_takeWhile_imp hMem
  · intro w hMem
    exact List.mem_rtakeWhile_imp hMem
  · unfold trim
    rw [List.append_assoc, List.rdropWhile_append_rtakeWhile,
      List.takeWhile_append_dropWhile]

theorem trim_eq_nil_iff
    {xs : List α} :
    trim blank xs = [] ↔ ∀ x ∈ xs, blank x = true := by
  constructor
  · intro hNothing
    rcases exists_trim blank xs with
      ⟨ws, ws', hFront, hBack, hEq⟩
    rw [hNothing, List.append_nil] at hEq
    intro x hMem
    rw [hEq] at hMem
    rcases List.mem_append.mp hMem with hMem | hMem
    · exact hFront x hMem
    · exact hBack x hMem
  · exact trim_of_blank

/- What is not blank is not among blanks. -/
theorem notMem_of_blank
    {x : α}
    {ws : List α}
    (hPlain : blank x = false)
    (hBlank : ∀ w ∈ ws, blank w = true) :
    x ∉ ws := by
  intro hMem
  rw [hBlank x hMem] at hPlain
  cases hPlain

theorem mem_of_mem_trim
    {xs : List α}
    {x : α}
    (hMem : x ∈ trim blank xs) :
    x ∈ xs := by
  rcases exists_trim blank xs with ⟨ws, ws', _, _, hEq⟩
  rw [hEq]
  simp [hMem]

/- What stands in a joined text. -/
theorem mem_intercalate
    {sep : List α}
    {parts : List (List α)}
    {x : α}
    (hMem : x ∈ sep.intercalate parts) :
    x ∈ sep ∨ ∃ part ∈ parts, x ∈ part := by
  induction parts with
  | nil => cases hMem
  | cons part parts ih =>
      by_cases hLast : parts = []
      · subst hLast
        rw [List.intercalate_singleton] at hMem
        exact Or.inr ⟨part, by simp, hMem⟩
      · rw [List.intercalate_cons_of_ne_nil hLast,
          List.mem_append, List.mem_append] at hMem
        rcases hMem with (hFirst | hSep) | hRest
        · exact Or.inr ⟨part, by simp, hFirst⟩
        · exact Or.inl hSep
        · rcases ih hRest with hSep | ⟨other, hOther, hIn⟩
          · exact Or.inl hSep
          · exact Or.inr ⟨other, by simp [hOther], hIn⟩

end Fields

------------------------------------------------------------
-- Fields
------------------------------------------------------------

namespace Fields

variable {α : Type} [DecidableEq α]

/- The parts between separators, trimmed. -/
def fields
    (sep : α)
    (blank : α → Bool)
    (xs : List α) : List (List α) :=
  (xs.splitOn sep).map (trim blank)

variable {sep : α} {blank : α → Bool}

/- By induction on the parts behind the first. -/
theorem notMem_of_mem_splitOn
    {xs part : List α}
    (hPart : part ∈ xs.splitOn sep) :
    sep ∉ part := by
  induction hLength : xs.length using Nat.strongRecOn
    generalizing xs with
  | ind n ih =>
      by_cases hMem : sep ∈ xs
      · rcases List.eq_append_cons_of_mem hMem with
          ⟨ys, zs, hEq, hFirst⟩
        have hShorter : zs.length < n := by
          rw [← hLength, hEq]
          simp
          omega
        rw [hEq, List.splitOn_append_cons_self,
          List.splitOn_eq_singleton hFirst] at hPart
        rcases List.mem_cons.mp hPart with rfl | hLater
        · exact hFirst
        · exact ih zs.length hShorter hLater rfl
      · rw [List.splitOn_eq_singleton hMem,
          List.mem_singleton] at hPart
        rw [hPart]
        exact hMem

theorem fields_of_not_mem
    {xs : List α}
    (hNone : sep ∉ xs) :
    fields sep blank xs = [trim blank xs] := by
  rw [fields, List.splitOn_eq_singleton hNone]
  rfl

theorem fields_append_sep
    (xs ys : List α) :
    fields sep blank (xs ++ sep :: ys) =
      fields sep blank xs ++ fields sep blank ys := by
  unfold fields
  rw [List.splitOn_append_cons_self, List.map_append]

theorem fields_of_plain
    {xs : List α}
    (hNone : sep ∉ xs)
    (hPlain : ∀ x ∈ xs, blank x = false) :
    fields sep blank xs = [xs] := by
  rw [fields_of_not_mem hNone, trim_of_plain hPlain]

section Blanks

variable (hSep : blank sep = false)
variable {ws : List α} (hBlank : ∀ w ∈ ws, blank w = true)

include hSep hBlank

/- Only the first field meets the blanks in front. -/
theorem fields_blank_append
    (xs : List α) :
    fields sep blank (ws ++ xs) = fields sep blank xs := by
  have hNone := notMem_of_blank hSep hBlank
  by_cases hMem : sep ∈ xs
  · rcases List.eq_append_cons_of_mem hMem with
      ⟨ys, zs, hEq, hFirst⟩
    have hStill : sep ∉ ws ++ ys := by
      simp [hNone, hFirst]
    rw [hEq, ← List.append_assoc, fields_append_sep,
      fields_append_sep, fields_of_not_mem hStill,
      fields_of_not_mem hFirst, trim_blank_append hBlank]
  · have hStill : sep ∉ ws ++ xs := by
      simp [hNone, hMem]
    rw [fields_of_not_mem hStill, fields_of_not_mem hMem,
      trim_blank_append hBlank]

/- By induction on the separators in front of the blanks. -/
theorem fields_append_blank
    (xs : List α) :
    fields sep blank (xs ++ ws) = fields sep blank xs := by
  have hNone := notMem_of_blank hSep hBlank
  induction hLength : xs.length using Nat.strongRecOn
    generalizing xs with
  | ind n ih =>
      by_cases hMem : sep ∈ xs
      · rcases List.eq_append_cons_of_mem hMem with
          ⟨ys, zs, hEq, _⟩
        have hShorter : zs.length < n := by
          rw [← hLength, hEq]
          simp
          omega
        rw [hEq, List.append_assoc, List.cons_append,
          fields_append_sep, fields_append_sep,
          ih zs.length hShorter zs rfl]
      · have hStill : sep ∉ xs ++ ws := by
          simp [hNone, hMem]
        rw [fields_of_not_mem hStill, fields_of_not_mem hMem,
          trim_append_blank hBlank]

end Blanks

theorem fields_trim
    (hSep : blank sep = false)
    (xs : List α) :
    fields sep blank (trim blank xs) = fields sep blank xs := by
  rcases exists_trim blank xs with
    ⟨ws, ws', hFront, hBack, hEq⟩
  conv_rhs => rw [hEq]
  rw [fields_append_blank hSep hBack,
    fields_blank_append hSep hFront]

/- Texts joined by a separator and blanks. -/
theorem fields_intercalate
    (hSep : blank sep = false)
    {ws : List α}
    (hBlank : ∀ w ∈ ws, blank w = true)
    {parts : List (List α)}
    (hSome : parts ≠ []) :
    fields sep blank ((sep :: ws).intercalate parts) =
      parts.flatMap (fields sep blank) := by
  induction parts with
  | nil => exact absurd rfl hSome
  | cons part parts ih =>
      by_cases hLast : parts = []
      · subst hLast
        simp
      · rw [List.intercalate_cons_of_ne_nil hLast,
          List.append_assoc, List.cons_append,
          fields_append_sep, fields_blank_append hSep hBlank,
          ih hLast, List.flatMap_cons]

end Fields
