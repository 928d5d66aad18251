import Mathlib.Data.List.AList

/-
  The operations of a hash map's entry interface, on
  association lists: insert a default (`orInsert`), change a
  value in place (`modify`), keep some of the entries
  (`retain`) and list values (`valuesWhere`).  Each comes
  with the lemma that says what `lookup` sees afterwards.

  Key theorems include:
    * `AList.lookup_orInsert`
    * `AList.lookup_modify`
    * `AList.lookup_retain`
    * `AList.mem_valuesWhere_iff`
-/

------------------------------------------------------------
-- Lookup After the Basic Operations
------------------------------------------------------------

namespace AList

variable {K V : Type} [DecidableEq K]

theorem lookup_insert_eq_ite
    (s : AList (fun _ : K => V))
    (k k' : K)
    (v : V) :
    (s.insert k v).lookup k' =
      if k' = k then some v else s.lookup k' := by
  by_cases hKey : k' = k
  · subst hKey
    simp
  · simp [hKey]

theorem lookup_erase_eq_ite
    (s : AList (fun _ : K => V))
    (k k' : K) :
    (s.erase k).lookup k' =
      if k' = k then none else s.lookup k' := by
  by_cases hKey : k' = k
  · subst hKey
    simp
  · simp [hKey]

theorem lookup_eq_none_of_notMem
    {s : AList (fun _ : K => V)}
    {k : K}
    (hKey : k ∉ s) :
    s.lookup k = none :=
  lookup_eq_none.mpr hKey

theorem mem_iff_exists_lookup
    {s : AList (fun _ : K => V)}
    {k : K} :
    k ∈ s ↔ ∃ v, s.lookup k = some v := by
  rw [← lookup_isSome, Option.isSome_iff_exists]

------------------------------------------------------------
-- Entry Operations
------------------------------------------------------------

/- Insert `v` unless the key is there already. -/
def orInsert
    (k : K)
    (v : V)
    (s : AList (fun _ : K => V)) :
    AList (fun _ : K => V) :=
  if k ∈ s then s else s.insert k v

theorem lookup_orInsert
    (s : AList (fun _ : K => V))
    (k k' : K)
    (v : V) :
    (s.orInsert k v).lookup k' =
      if k' = k then some ((s.lookup k).getD v)
      else s.lookup k' := by
  unfold orInsert
  by_cases hMem : k ∈ s
  · rw [if_pos hMem]
    rcases mem_iff_exists_lookup.mp hMem with ⟨w, hw⟩
    by_cases hKey : k' = k
    · subst hKey
      simp [hw]
    · simp [hKey]
  · rw [if_neg hMem, lookup_insert_eq_ite,
      lookup_eq_none_of_notMem hMem]
    rfl

@[simp] theorem mem_orInsert
    (s : AList (fun _ : K => V))
    (k k' : K)
    (v : V) :
    k' ∈ s.orInsert k v ↔ k' = k ∨ k' ∈ s := by
  unfold orInsert
  by_cases hMem : k ∈ s
  · rw [if_pos hMem]
    constructor
    · exact Or.inr
    · rintro (rfl | hOld)
      · exact hMem
      · exact hOld
  · rw [if_neg hMem]
    exact mem_insert s

/- Change the value under a key, if there is one. -/
def modify
    (k : K)
    (f : V → V)
    (s : AList (fun _ : K => V)) :
    AList (fun _ : K => V) :=
  match s.lookup k with
  | none => s
  | some v => s.insert k (f v)

theorem lookup_modify
    (s : AList (fun _ : K => V))
    (k k' : K)
    (f : V → V) :
    (s.modify k f).lookup k' =
      if k' = k then (s.lookup k).map f
      else s.lookup k' := by
  unfold modify
  cases hLookup : s.lookup k with
  | none =>
      by_cases hKey : k' = k
      · subst hKey
        simp [hLookup]
      · simp [hKey]
  | some v =>
      rw [lookup_insert_eq_ite]
      rfl

------------------------------------------------------------
-- Retaining Entries
------------------------------------------------------------

/- Keep the entries that satisfy the predicate. -/
def retain
    (p : K → V → Bool)
    (s : AList (fun _ : K => V)) :
    AList (fun _ : K => V) where
  entries := s.entries.filter (fun e => p e.1 e.2)
  nodupKeys := s.nodupKeys.sublist List.filter_sublist

theorem mem_entries_iff_lookup
    (s : AList (fun _ : K => V))
    (k : K)
    (v : V) :
    ⟨k, v⟩ ∈ s.entries ↔ s.lookup k = some v :=
  mem_lookup_iff.symm

theorem lookup_retain
    (s : AList (fun _ : K => V))
    (p : K → V → Bool)
    (k : K) :
    (s.retain p).lookup k = (s.lookup k).filter (p k) := by
  apply Option.ext
  intro v
  rw [← mem_entries_iff_lookup, Option.filter_eq_some_iff,
    ← mem_entries_iff_lookup]
  exact List.mem_filter

------------------------------------------------------------
-- Values
------------------------------------------------------------

/- The values whose keys satisfy the predicate. -/
def valuesWhere
    (p : K → Bool)
    (s : AList (fun _ : K => V)) : List V :=
  (s.entries.filter (fun e => p e.1)).map (fun e => e.2)

theorem mem_valuesWhere_iff
    (s : AList (fun _ : K => V))
    (p : K → Bool)
    (v : V) :
    v ∈ s.valuesWhere p ↔
      ∃ k, p k = true ∧ s.lookup k = some v := by
  unfold valuesWhere
  constructor
  · intro hMem
    rcases List.mem_map.mp hMem with ⟨⟨k, w⟩, hEntry, rfl⟩
    rcases List.mem_filter.mp hEntry with ⟨hIn, hKey⟩
    exact ⟨k, hKey, (mem_entries_iff_lookup s k w).mp hIn⟩
  · rintro ⟨k, hKey, hLookup⟩
    refine List.mem_map.mpr ⟨⟨k, v⟩, ?_, rfl⟩
    exact List.mem_filter.mpr
      ⟨(mem_entries_iff_lookup s k v).mpr hLookup, hKey⟩

/-
  A value held under one key only is listed once, or not at
  all when that key is left out.
-/
theorem count_valuesWhere
    [DecidableEq V]
    (s : AList (fun _ : K => V))
    (p : K → Bool)
    {k : K}
    {v : V}
    (hLookup : s.lookup k = some v)
    (hOnly : ∀ k', s.lookup k' = some v → k' = k) :
    (s.valuesWhere p).count v = if p k then 1 else 0 := by
  have hFilter :
      s.entries.filter (fun e => e.2 = v) = [⟨k, v⟩] := by
    have hNodup :
        (s.entries.filter (fun e => e.2 = v)).Nodup :=
      (List.NodupKeys.nodup s.nodupKeys).filter _
    apply List.perm_singleton.mp
    rw [List.perm_ext_iff_of_nodup hNodup (by simp)]
    rintro ⟨k', w⟩
    rw [List.mem_filter, mem_entries_iff_lookup]
    constructor
    · rintro ⟨hIn, hValue⟩
      have hw : w = v := of_decide_eq_true hValue
      subst hw
      simp [hOnly k' hIn]
    · intro hEq
      cases List.mem_singleton.mp hEq
      exact ⟨hLookup, by simp⟩
  unfold valuesWhere
  rw [List.count, List.countP_map, List.countP_filter,
    List.countP_eq_length_filter]
  have hSwap :
      s.entries.filter
          (fun e => (fun w => w == v) e.2 && p e.1) =
        (s.entries.filter (fun e => e.2 = v)).filter
          (fun e => p e.1) := by
    rw [List.filter_filter]
    apply List.filter_congr
    intro e _
    rw [Bool.and_comm]
    rfl
  have hGoal := congrArg List.length hSwap
  rw [hFilter] at hGoal
  by_cases hKey : p k = true
  · simpa [hKey, Function.comp_def] using hGoal
  · simpa [hKey, Function.comp_def] using hGoal

end AList
