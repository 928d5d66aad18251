import Mles.Library.HashMap

/-
  A map of counters as a multiset.

  A hash map that counts how often each key is in use, and
  forgets a key that is not, is a multiset of keys in
  another form: `AList.Tallies` is that relation, and the
  lemmas are the ways to add a key and to take one away.

  Where items fall into classes, the number of items and the
  number of classes bound each other by how many items there
  are in one class.

  Key definitions include:
    * `AList.Tallies`
    * `AList.lower`

  Key theorems include:
    * `AList.Tallies.insert_succ`
    * `AList.Tallies.lower`
    * `List.length_le_mul_of_countP_le`
    * `List.mul_le_length_of_le_countP`
-/

------------------------------------------------------------
-- Counters of the Keys in Use
------------------------------------------------------------

namespace AList

variable {K : Type} [DecidableEq K]

/- The map counts the keys of the list, and no others. -/
def Tallies
    (counts : AList (fun _ : K => Nat))
    (used : List K) : Prop :=
  ∀ k,
    counts.lookup k =
      if used.count k = 0 then none else some (used.count k)

theorem tallies_empty :
    (∅ : AList (fun _ : K => Nat)).Tallies [] := by
  intro k
  rw [List.count_nil, if_pos rfl]
  exact lookup_empty k

section Reading

variable
    {counts : AList (fun _ : K => Nat)}
    {used : List K}
    {k : K}

theorem Tallies.getD
    (hTallies : counts.Tallies used) :
    (counts.lookup k).getD 0 = used.count k := by
  rw [hTallies k]
  by_cases hZero : used.count k = 0
  · rw [if_pos hZero, hZero]
    rfl
  · rw [if_neg hZero]
    rfl

theorem Tallies.lookup_of_mem
    (hTallies : counts.Tallies used)
    (hMem : k ∈ used) :
    counts.lookup k = some (used.count k) := by
  have hPos : 0 < used.count k := List.count_pos_iff.mpr hMem
  rw [hTallies k, if_neg (Nat.ne_of_gt hPos)]

theorem Tallies.mem_iff
    (hTallies : counts.Tallies used) :
    k ∈ counts ↔ k ∈ used := by
  rw [mem_iff_exists_lookup, hTallies k]
  by_cases hZero : used.count k = 0
  · rw [if_pos hZero]
    simp [List.count_eq_zero.mp hZero]
  · rw [if_neg hZero]
    have hMem : k ∈ used :=
      List.count_pos_iff.mp (Nat.pos_of_ne_zero hZero)
    simp [hMem]

theorem Tallies.eq_count
    (hTallies : counts.Tallies used)
    {c : Nat}
    (hLookup : counts.lookup k = some c) :
    c = used.count k := by
  rw [← hTallies.getD, hLookup]
  rfl

/- Where no key is in use, there is no entry. -/
theorem Tallies.eq_empty
    (hTallies : counts.Tallies []) :
    counts = ∅ := by
  apply AList.ext
  apply List.eq_nil_iff_forall_not_mem.mpr
  rintro ⟨k, c⟩ hMem
  have hLookup := mem_lookup_iff.mpr hMem
  rw [hTallies k] at hLookup
  simp at hLookup

end Reading

------------------------------------------------------------
-- Changing a Counter
------------------------------------------------------------

variable
    {counts : AList (fun _ : K => Nat)}
    {used : List K}

/- Count a key once more. -/
theorem Tallies.insert_succ
    (hTallies : counts.Tallies used)
    (k : K) :
    (counts.insert k (used.count k + 1)).Tallies
      (k :: used) := by
  intro k'
  rw [lookup_insert_eq_ite]
  by_cases hKey : k' = k
  · subst hKey
    rw [if_pos rfl, List.count_cons_self, if_neg (by omega)]
  · rw [if_neg hKey, List.count_cons_of_ne (Ne.symm hKey)]
    exact hTallies k'

/- Count a key once less, and forget it at zero. -/
def lower
    (k : K)
    (counts : AList (fun _ : K => Nat)) :
    AList (fun _ : K => Nat) :=
  match counts.lookup k with
  | none => counts
  | some c =>
      let counts := counts.insert k (c - 1)
      if c - 1 = 0 then counts.erase k else counts

theorem Tallies.lower
    (hTallies : counts.Tallies used)
    {k : K}
    (hMem : k ∈ used) :
    (counts.lower k).Tallies (used.erase k) := by
  have hLookup := hTallies.lookup_of_mem hMem
  intro k'
  simp only [AList.lower, hLookup]
  by_cases hKey : k' = k
  · subst hKey
    rw [List.count_erase_self]
    by_cases hLast : used.count k' - 1 = 0
    · rw [if_pos hLast, if_pos hLast, lookup_erase]
    · rw [if_neg hLast, if_neg hLast, lookup_insert]
  · rw [List.count_erase_of_ne hKey, ← hTallies k']
    by_cases hLast : used.count k - 1 = 0
    · rw [if_pos hLast, lookup_erase_ne hKey,
        lookup_insert_ne hKey]
    · rw [if_neg hLast, lookup_insert_ne hKey]

/- The order of the keys does not matter. -/
theorem Tallies.perm
    (hTallies : counts.Tallies used)
    {used' : List K}
    (hPerm : used.Perm used') :
    counts.Tallies used' := by
  intro k
  rw [← hPerm.count_eq k]
  exact hTallies k

/- The keys of items, after one of the items is gone. -/
theorem map_erase_perm
    {T : Type}
    [DecidableEq T]
    {items : List T}
    {item : T}
    (key : T → K)
    (hMem : item ∈ items) :
    ((items.map key).erase (key item)).Perm
      ((items.erase item).map key) := by
  have hItems := List.perm_cons_erase hMem
  have hKeys := (hItems.map key).erase (key item)
  rw [List.map_cons, List.erase_cons_head] at hKeys
  exact hKeys

end AList

------------------------------------------------------------
-- Items of a Kind
------------------------------------------------------------

namespace List

variable {T C : Type}

/- The first item of a kind, and the items without it. -/
theorem perm_cons_eraseP
    {p : T → Bool}
    {items : List T}
    {a : T}
    (hFind : items.find? p = some a) :
    items.Perm (a :: items.eraseP p) := by
  rcases find?_eq_some_iff_append.mp hFind with
    ⟨hItem, before, behind, rfl, hBefore⟩
  have hSkip : ∀ b ∈ before, ¬ p b = true := by
    intro b hMem
    simpa using hBefore b hMem
  rw [eraseP_append_right _ hSkip, eraseP_cons_of_pos hItem]
  exact perm_middle

/- Few classes with few items each are few items. -/
theorem length_le_mul_of_countP_le
    (isIn : C → T → Bool)
    {n : Nat}
    {classes : List C}
    {items : List T}
    (hCover : ∀ a ∈ items, ∃ c ∈ classes, isIn c a = true)
    (hMost : ∀ c ∈ classes, items.countP (isIn c) ≤ n) :
    items.length ≤ n * classes.length := by
  induction classes generalizing items with
  | nil =>
      cases items with
      | nil => exact Nat.zero_le _
      | cons a items =>
          rcases hCover a mem_cons_self with ⟨c, hMem, _⟩
          cases hMem
  | cons c classes ih =>
      have hRest :
          (items.filter (fun a => !isIn c a)).length ≤
            n * classes.length := by
        apply ih
        · intro a hMem
          rcases mem_filter.mp hMem with ⟨hItem, hOther⟩
          rcases hCover a hItem with ⟨c', hClass, hIn⟩
          rcases mem_cons.mp hClass with rfl | hClass
          · rw [hIn] at hOther
            cases hOther
          · exact ⟨c', hClass, hIn⟩
        · intro c' hClass
          exact Nat.le_trans filter_sublist.countP_le
            (hMost c' (mem_cons_of_mem c hClass))
      have hFirst := hMost c mem_cons_self
      rw [countP_eq_length_filter] at hFirst
      rw [length_eq_length_filter_add (isIn c), length_cons,
        Nat.mul_succ]
      omega

/- Disjoint classes with many items each are many items. -/
theorem mul_le_length_of_le_countP
    (isIn : C → T → Bool)
    {n : Nat}
    {classes : List C}
    {items : List T}
    (hApart :
      classes.Pairwise
        (fun c c' => ∀ a, isIn c' a = true → ¬ isIn c a = true))
    (hLeast : ∀ c ∈ classes, n ≤ items.countP (isIn c)) :
    n * classes.length ≤ items.length := by
  induction classes generalizing items with
  | nil => exact Nat.zero_le _
  | cons c classes ih =>
      rcases pairwise_cons.mp hApart with ⟨hFirst, hOthers⟩
      have hRest :
          n * classes.length ≤
            (items.filter (fun a => !isIn c a)).length := by
        apply ih hOthers
        intro c' hClass
        rw [countP_filter]
        refine Nat.le_trans
          (hLeast c' (mem_cons_of_mem c hClass)) ?_
        apply countP_mono_left
        intro a _ hIn
        simpa [hIn] using hFirst c' hClass a hIn
      have hMany := hLeast c mem_cons_self
      rw [countP_eq_length_filter] at hMany
      rw [length_eq_length_filter_add (isIn c), length_cons,
        Nat.mul_succ]
      omega

end List
