import Mathlib.Data.List.Basic

/-
  Maps with several values under a key.

  A multimap is the list of its pairs in the order in which
  an iteration meets them.  Adding a value (`append`) keeps
  the others of its key, and setting one (`insert`) does
  not.  So a map that is copied pair by pair is the same map
  if the pairs are appended, and has the last value of every
  key if they are inserted.

  Key definitions include:
    * `MultiMap`
    * `MultiMap.getAll`
    * `MultiMap.insert`
    * `MultiMap.append`

  Key theorems include:
    * `MultiMap.getAll_insert`
    * `MultiMap.getAll_append`
    * `MultiMap.getAll_appendWhere`
    * `MultiMap.getAll_insertWhere`
-/

------------------------------------------------------------
-- Multimaps
------------------------------------------------------------

structure MultiMap (K V : Type) where
  pairs : List (K × V)
deriving DecidableEq, Repr

namespace MultiMap

variable {K V : Type} [DecidableEq K]

def empty : MultiMap K V where
  pairs := []

/- The values of a key, in order. -/
def getAll
    (k : K)
    (m : MultiMap K V) : List V :=
  (m.pairs.filter (fun e => e.1 = k)).map Prod.snd

/- Set a value, in place of all others of its key. -/
def insert
    (k : K)
    (v : V)
    (m : MultiMap K V) : MultiMap K V where
  pairs := m.pairs.filter (fun e => e.1 ≠ k) ++ [(k, v)]

/- Add a value behind those of its key. -/
def append
    (k : K)
    (v : V)
    (m : MultiMap K V) : MultiMap K V where
  pairs := m.pairs ++ [(k, v)]

@[simp] theorem getAll_empty
    (k : K) :
    (empty : MultiMap K V).getAll k = [] := rfl

theorem getAll_cons
    (k : K)
    (e : K × V)
    (es : List (K × V)) :
    (⟨e :: es⟩ : MultiMap K V).getAll k =
      if e.1 = k then e.2 :: getAll k ⟨es⟩
      else getAll k ⟨es⟩ := by
  unfold getAll
  by_cases hKey : e.1 = k
  · simp [hKey]
  · simp [hKey]

theorem getAll_append
    (m : MultiMap K V)
    (k k' : K)
    (v : V) :
    (m.append k v).getAll k' =
      if k = k' then m.getAll k' ++ [v] else m.getAll k' := by
  unfold getAll append
  by_cases hKey : k = k'
  · simp [hKey]
  · simp [hKey]

theorem getAll_insert
    (m : MultiMap K V)
    (k k' : K)
    (v : V) :
    (m.insert k v).getAll k' =
      if k = k' then [v] else m.getAll k' := by
  unfold getAll insert
  rw [List.filter_append, List.filter_filter]
  by_cases hKey : k = k'
  · subst hKey
    simp
  · have hSame :
        m.pairs.filter
            (fun e => decide (e.1 = k') && decide (e.1 ≠ k)) =
          m.pairs.filter (fun e => e.1 = k') := by
      apply List.filter_congr
      intro e _
      by_cases hOther : e.1 = k'
      · simp [hOther, Ne.symm hKey]
      · simp [hOther]
    rw [hSame]
    simp [hKey]

------------------------------------------------------------
-- Copying
------------------------------------------------------------

/- Append the pairs of the first map to the second. -/
def appendWhere
    (keep : K → Bool)
    (m n : MultiMap K V) : MultiMap K V :=
  m.pairs.foldl
    (fun n e => if keep e.1 then n.append e.1 e.2 else n) n

/- Insert the pairs of the first map into the second. -/
def insertWhere
    (keep : K → Bool)
    (m n : MultiMap K V) : MultiMap K V :=
  m.pairs.foldl
    (fun n e => if keep e.1 then n.insert e.1 e.2 else n) n

theorem getAll_appendWhere
    (keep : K → Bool)
    (m n : MultiMap K V)
    (k : K) :
    (m.appendWhere keep n).getAll k =
      n.getAll k ++ if keep k then m.getAll k else [] := by
  rcases m with ⟨pairs⟩
  unfold appendWhere
  induction pairs generalizing n with
  | nil => simp [getAll]
  | cons e es ih =>
      rw [List.foldl_cons, ih, getAll_cons]
      by_cases hKey : e.1 = k
      · subst hKey
        by_cases hKeep : keep e.1 = true
        · simp [hKeep, getAll_append]
        · simp [hKeep]
      · by_cases hKeep : keep e.1 = true
        · simp [hKeep, hKey, getAll_append]
        · simp [hKeep, hKey]

/- Only the last value of a key is left. -/
theorem getAll_insertWhere
    (keep : K → Bool)
    (m n : MultiMap K V)
    (k : K) :
    (m.insertWhere keep n).getAll k =
      if keep k then
        match (m.getAll k).getLast? with
        | some v => [v]
        | none => n.getAll k
      else n.getAll k := by
  rcases m with ⟨pairs⟩
  unfold insertWhere
  induction pairs generalizing n with
  | nil => simp [getAll]
  | cons e es ih =>
      rw [List.foldl_cons, ih, getAll_cons]
      by_cases hKey : e.1 = k
      · subst hKey
        by_cases hKeep : keep e.1 = true
        · cases hLast : (getAll e.1 ⟨es⟩ : List V).getLast? with
          | none =>
              simp [hKeep, getAll_insert,
                List.getLast?_eq_none_iff.mp hLast]
          | some v => simp [hKeep, hLast, List.getLast?_cons]
        · simp [hKeep]
      · by_cases hKeep : keep e.1 = true
        · simp [hKeep, hKey, getAll_insert]
        · simp [hKeep, hKey]

end MultiMap
