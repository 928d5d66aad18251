import Mles.Library.HashMap
import Mathlib.Algebra.GroupWithZero.Nat

/-
  A cache of bounded length that forgets what was not used
  for longest.

  The entries stand in the order of their use, the most
  recent first.  Looking up a key or storing a value under
  it brings it to the front; storing a new key into a full
  cache drops the last entry, and does not say so.  The
  length never exceeds the capacity: a cache carries the
  proof.

  Each operation comes with what it does to the length, to
  the values under the keys, to the total weight of the
  entries under any weight function, and to their order.

  Key definitions include:
    * `Lru`
    * `Lru.get`
    * `Lru.pop`
    * `Lru.popLru`
    * `Lru.put`
    * `Lru.weight`
    * `Lru.toList`

  Key theorems include:
    * `Lru.weight_erase_of_some`
    * `Lru.peek_put`
    * `Lru.len_put_of_room`
    * `Lru.weight_put_of_room`
    * `Lru.weight_put_of_full`
    * `Lru.toList_popLru`
    * `Lru.toList_put_of_new`
-/

------------------------------------------------------------
-- Erasing from an Association List
------------------------------------------------------------

namespace AList

variable {K V : Type} [DecidableEq K]

/- The entry under a key, and the others. -/
theorem perm_erase_of_lookup
    {s : AList (fun _ : K => V)}
    {k : K}
    {v : V}
    (hLookup : s.lookup k = some v) :
    s.entries.Perm (⟨k, v⟩ :: (s.erase k).entries) := by
  have hMem : k ∈ s.entries.keys :=
    AList.mem_iff_exists_lookup.mpr ⟨v, hLookup⟩
  rcases List.exists_of_kerase hMem with
    ⟨b, before, behind, _, hEntries, hErased⟩
  have hLast : (⟨k, b⟩ : Sigma (fun _ : K => V)) ∈ s.entries := by
    rw [hEntries]
    simp
  have hSame :=
    (AList.mem_entries_iff_lookup s k b).mp hLast
  rw [hLookup] at hSame
  cases hSame
  have hRest : (s.erase k).entries = before ++ behind :=
    hErased
  rw [hRest, hEntries]
  exact List.perm_middle

/- Erasing keeps the order of the other entries. -/
theorem entries_erase
    (s : AList (fun _ : K => V))
    (k : K) :
    (s.erase k).entries =
      s.entries.filter (fun e => e.1 ≠ k) := by
  have hNodup := s.nodupKeys
  change List.kerase k s.entries = _
  generalize s.entries = entries at hNodup
  induction entries with
  | nil => rfl
  | cons e rest ih =>
      rcases List.nodupKeys_cons.mp hNodup with
        ⟨hFresh, hRest⟩
      by_cases hKey : k = e.1
      · have hOthers :
            rest.filter (fun e => e.1 ≠ k) = rest := by
          rw [List.filter_eq_self]
          intro e' hMem
          have hOther : e'.1 ≠ e.1 := by
            intro hSame
            apply hFresh
            rw [← hSame]
            exact List.mem_keys_of_mem hMem
          simpa [hKey] using hOther
        rw [List.kerase_cons_eq hKey,
          List.filter_cons_of_neg (by simp [hKey]), hOthers]
      · rw [List.kerase_cons_ne hKey,
          List.filter_cons_of_pos (by simpa using Ne.symm hKey),
          ih hRest]

end AList

------------------------------------------------------------
-- The Cache
------------------------------------------------------------

/- The most recently used entry comes first. -/
structure Lru (K V : Type) where
  cap : Nat
  pos : 0 < cap
  store : AList (fun _ : K => V)
  bounded : store.entries.length ≤ cap

namespace Lru

variable {K V : Type}

def new
    (cap : Nat)
    (pos : 0 < cap) : Lru K V where
  cap := cap
  pos := pos
  store := ∅
  bounded := Nat.zero_le cap

def len (c : Lru K V) : Nat :=
  c.store.entries.length

def clear (c : Lru K V) : Lru K V :=
  { c with store := ∅, bounded := Nat.zero_le c.cap }

/- The sum of the weights of the entries. -/
def weight
    (f : V → Nat)
    (c : Lru K V) : Nat :=
  (c.store.entries.map (fun e => f e.2)).sum

/- The least recently used entry. -/
def lru (c : Lru K V) : Option (K × V) :=
  c.store.entries.getLast?.map (fun e => (e.1, e.2))

variable [DecidableEq K]

/- The value under a key, without using it. -/
def peek
    (k : K)
    (c : Lru K V) : Option V :=
  c.store.lookup k

/- Remove a key. -/
def erase
    (k : K)
    (c : Lru K V) : Lru K V :=
  { c with
    store := c.store.erase k
    bounded :=
      Nat.le_trans
        (List.kerase_sublist k c.store.entries).length_le
        c.bounded }

/- Remove a key, and return its value. -/
def pop
    (k : K)
    (c : Lru K V) : Option V × Lru K V :=
  (c.peek k, c.erase k)

/- Remove the least recently used entry, and return it. -/
def popLru (c : Lru K V) : Option (K × V) × Lru K V :=
  match c.lru with
  | none => (none, c)
  | some (k, v) => (some (k, v), c.erase k)

/- Bring a key to the front, with a value. -/
def front
    (k : K)
    (v : V)
    (c : Lru K V)
    (hRoom : (c.erase k).len < c.cap) : Lru K V :=
  { c with
    store := c.store.insert k v
    bounded := by
      rw [AList.entries_insert, List.length_cons]
      exact hRoom }

------------------------------------------------------------
-- Removing
------------------------------------------------------------

theorem peek_erase
    (c : Lru K V)
    (k k' : K) :
    (c.erase k).peek k' =
      if k' = k then none else c.peek k' :=
  AList.lookup_erase_eq_ite c.store k k'

/- Nothing to erase. -/
theorem erase_of_none
    {c : Lru K V}
    {k : K}
    (hNone : c.peek k = none) :
    c.erase k = c := by
  have hStore : c.store.erase k = c.store := by
    apply AList.ext
    exact List.kerase_of_notMem_keys
      (AList.lookup_eq_none.mp hNone)
  cases c
  simp only [erase, mk.injEq, true_and]
  exact hStore

theorem len_erase_of_some
    {c : Lru K V}
    {k : K}
    {v : V}
    (hSome : c.peek k = some v) :
    (c.erase k).len + 1 = c.len :=
  (AList.perm_erase_of_lookup hSome).length_eq.symm

theorem len_erase_le
    (c : Lru K V)
    (k : K) :
    (c.erase k).len ≤ c.len :=
  (List.kerase_sublist k c.store.entries).length_le

theorem weight_erase_of_some
    (f : V → Nat)
    {c : Lru K V}
    {k : K}
    {v : V}
    (hSome : c.peek k = some v) :
    (c.erase k).weight f + f v = c.weight f := by
  have hPerm := AList.perm_erase_of_lookup hSome
  have hSum := (hPerm.map (fun e => f e.2)).sum_nat
  rw [List.map_cons, List.sum_cons] at hSum
  unfold weight
  rw [hSum, Nat.add_comm]
  rfl

/- The least recently used entry is an entry. -/
theorem peek_of_lru
    {c : Lru K V}
    {k : K}
    {v : V}
    (hLru : c.lru = some (k, v)) :
    c.peek k = some v := by
  rcases Option.map_eq_some_iff.mp hLru with
    ⟨e, hLast, hEq⟩
  cases hEq
  exact (AList.mem_entries_iff_lookup c.store e.1 e.2).mp
    (List.mem_of_getLast? hLast)

omit [DecidableEq K] in
theorem lru_eq_none_iff
    {c : Lru K V} :
    c.lru = none ↔ c.len = 0 := by
  unfold lru len
  rw [Option.map_eq_none_iff, List.getLast?_eq_none_iff,
    List.length_eq_zero_iff]

/- A cache that is not empty has a last entry. -/
theorem exists_lru
    {c : Lru K V}
    (hSome : 0 < c.len) :
    ∃ k v, c.lru = some (k, v) ∧ c.peek k = some v := by
  cases hLru : c.lru with
  | none =>
      have hEmpty := lru_eq_none_iff.mp hLru
      omega
  | some last =>
      rcases last with ⟨k, v⟩
      exact ⟨k, v, rfl, peek_of_lru hLru⟩

omit [DecidableEq K] in
theorem weight_of_len_zero
    (f : V → Nat)
    {c : Lru K V}
    (hEmpty : c.len = 0) :
    c.weight f = 0 := by
  unfold weight
  rw [List.length_eq_zero_iff.mp hEmpty]
  rfl

theorem popLru_of_some
    {c : Lru K V}
    {k : K}
    {v : V}
    (hLru : c.lru = some (k, v)) :
    c.popLru = (some (k, v), c.erase k) := by
  unfold popLru
  rw [hLru]

/- What is left was there before. -/
theorem peek_popLru
    {c : Lru K V}
    {k : K}
    {v : V}
    (hPeek : c.popLru.2.peek k = some v) :
    c.peek k = some v := by
  cases hLru : c.lru with
  | none =>
      unfold popLru at hPeek
      rw [hLru] at hPeek
      exact hPeek
  | some last =>
      rcases last with ⟨k', v'⟩
      rw [popLru_of_some hLru, peek_erase] at hPeek
      by_cases hKey : k = k'
      · rw [if_pos hKey] at hPeek
        cases hPeek
      · rw [if_neg hKey] at hPeek
        exact hPeek

------------------------------------------------------------
-- Storing
------------------------------------------------------------

/- What stays in the cache when a key is to be stored. -/
def makeRoom
    (k : K)
    (c : Lru K V) : Lru K V :=
  if (c.peek k).isSome ∨ c.len < c.cap then c
  else c.popLru.2

@[simp] theorem cap_popLru
    (c : Lru K V) :
    c.popLru.2.cap = c.cap := by
  unfold popLru
  cases c.lru with
  | none => rfl
  | some last => rfl

@[simp] theorem cap_makeRoom
    (c : Lru K V)
    (k : K) :
    (c.makeRoom k).cap = c.cap := by
  unfold makeRoom
  split
  · rfl
  · exact c.cap_popLru

theorem makeRoom_room
    (c : Lru K V)
    (k : K) :
    ((c.makeRoom k).erase k).len < (c.makeRoom k).cap := by
  rw [cap_makeRoom]
  have hBounded : c.len ≤ c.cap := c.bounded
  unfold makeRoom
  by_cases hSome : (c.peek k).isSome
  · rw [if_pos (Or.inl hSome)]
    rcases Option.isSome_iff_exists.mp hSome with ⟨v, hPeek⟩
    have hLen := len_erase_of_some hPeek
    omega
  · by_cases hRoom : c.len < c.cap
    · rw [if_pos (Or.inr hRoom)]
      exact Nat.lt_of_le_of_lt (c.len_erase_le k) hRoom
    · rw [if_neg (not_or.mpr ⟨hSome, hRoom⟩)]
      have hPos := c.pos
      rcases exists_lru (show 0 < c.len by omega) with
        ⟨k', v', hLru, hPeek⟩
      rw [popLru_of_some hLru]
      have hLen := len_erase_of_some hPeek
      have hLe := (c.erase k').len_erase_le k
      simp only
      omega

/- Look a key up and use it. -/
def get
    (k : K)
    (c : Lru K V) : Option V × Lru K V :=
  match hPeek : c.peek k with
  | none => (none, c)
  | some v =>
      (some v, c.front k v (by
        have hLen := len_erase_of_some hPeek
        have hBounded : c.len ≤ c.cap := c.bounded
        omega))

/- Store a value under a key. -/
def put
    (k : K)
    (v : V)
    (c : Lru K V) : Lru K V :=
  (c.makeRoom k).front k v (c.makeRoom_room k)

------------------------------------------------------------
-- What Storing Does
------------------------------------------------------------

theorem peek_front
    (c : Lru K V)
    (k : K)
    (v : V)
    (hRoom : (c.erase k).len < c.cap)
    (k' : K) :
    (c.front k v hRoom).peek k' =
      if k' = k then some v else c.peek k' :=
  AList.lookup_insert_eq_ite c.store k k' v

theorem weight_front
    (f : V → Nat)
    (c : Lru K V)
    (k : K)
    (v : V)
    (hRoom : (c.erase k).len < c.cap) :
    (c.front k v hRoom).weight f =
      (c.erase k).weight f + f v := by
  unfold weight front
  rw [AList.entries_insert, List.map_cons, List.sum_cons,
    Nat.add_comm]
  rfl

/- Looking up changes the order alone. -/
theorem fst_get
    (c : Lru K V)
    (k : K) :
    (c.get k).1 = c.peek k := by
  unfold get
  split
  · rename_i hPeek
    exact hPeek.symm
  · rename_i v hPeek
    exact hPeek.symm

theorem peek_get
    (c : Lru K V)
    (k k' : K) :
    (c.get k).2.peek k' = c.peek k' := by
  unfold get
  split
  · rfl
  · rename_i v hPeek
    simp only
    rw [peek_front]
    by_cases hKey : k' = k
    · rw [if_pos hKey, hKey, hPeek]
    · rw [if_neg hKey]

theorem weight_get
    (f : V → Nat)
    (c : Lru K V)
    (k : K) :
    (c.get k).2.weight f = c.weight f := by
  unfold get
  split
  · rfl
  · rename_i v hPeek
    simp only
    rw [weight_front, weight_erase_of_some f hPeek]

@[simp] theorem cap_get
    (c : Lru K V)
    (k : K) :
    (c.get k).2.cap = c.cap := by
  unfold get
  split
  · rfl
  · rfl

/- What storing does not drop was there before. -/
theorem peek_makeRoom
    {c : Lru K V}
    {k k' : K}
    {v : V}
    (hPeek : (c.makeRoom k).peek k' = some v) :
    c.peek k' = some v := by
  unfold makeRoom at hPeek
  split at hPeek
  · exact hPeek
  · exact peek_popLru hPeek

@[simp] theorem cap_put
    (c : Lru K V)
    (k : K)
    (v : V) :
    (c.put k v).cap = c.cap :=
  cap_makeRoom c k

@[simp] theorem peek_put_self
    (c : Lru K V)
    (k : K)
    (v : V) :
    (c.put k v).peek k = some v := by
  unfold put
  rw [peek_front, if_pos rfl]

theorem peek_put
    {c : Lru K V}
    {k k' : K}
    {v v' : V}
    (hPeek : (c.put k v).peek k' = some v') :
    k' = k ∧ v' = v ∨ c.peek k' = some v' := by
  unfold put at hPeek
  rw [peek_front] at hPeek
  by_cases hKey : k' = k
  · rw [if_pos hKey] at hPeek
    cases hPeek
    exact Or.inl ⟨hKey, rfl⟩
  · rw [if_neg hKey] at hPeek
    exact Or.inr (peek_makeRoom hPeek)

/- A new key, while there is room. -/
theorem weight_put_of_room
    (f : V → Nat)
    {c : Lru K V}
    {k : K}
    (hNew : c.peek k = none)
    (hRoom : c.len < c.cap)
    (v : V) :
    (c.put k v).weight f = c.weight f + f v := by
  unfold put
  rw [weight_front]
  unfold makeRoom
  rw [if_pos (Or.inr hRoom), erase_of_none hNew]

theorem len_put_of_room
    {c : Lru K V}
    {k : K}
    (hNew : c.peek k = none)
    (hRoom : c.len < c.cap)
    (v : V) :
    (c.put k v).len = c.len + 1 := by
  have hCount (d : Lru K V) : d.weight (fun _ => 1) = d.len := by
    simp [weight, len]
  have hWeight := weight_put_of_room (fun _ => 1) hNew hRoom v
  rw [hCount, hCount] at hWeight
  exact hWeight

/- A new key in a full cache takes the place of the last. -/
theorem weight_put_of_full
    (f : V → Nat)
    {c : Lru K V}
    {k : K}
    (hNew : c.peek k = none)
    (hFull : c.len = c.cap)
    (v : V) :
    ∃ last,
      c.lru = some last ∧
        (c.put k v).weight f + f last.2 =
          c.weight f + f v := by
  have hPos := c.pos
  rcases exists_lru (show 0 < c.len by omega) with
    ⟨k', v', hLru, hPeek⟩
  refine ⟨(k', v'), hLru, ?_⟩
  have hLeft : (c.erase k').peek k = none := by
    rw [peek_erase, hNew]
    split
    · rfl
    · rfl
  have hWeight := weight_erase_of_some f hPeek
  have hFew :
      ¬ ((c.peek k).isSome = true ∨ c.len < c.cap) := by
    rw [hNew]
    simp only [Option.isSome_none, Bool.false_eq_true,
      false_or]
    omega
  unfold put
  rw [weight_front]
  unfold makeRoom
  rw [if_neg hFew, popLru_of_some hLru]
  simp only
  rw [erase_of_none hLeft]
  omega

------------------------------------------------------------
-- The Order of the Entries
------------------------------------------------------------

/- The entries, the most recently used one first. -/
def toList (c : Lru K V) : List (K × V) :=
  c.store.entries.map (fun e => (e.1, e.2))

omit [DecidableEq K] in
@[simp] theorem length_toList
    (c : Lru K V) :
    c.toList.length = c.len :=
  List.length_map _

omit [DecidableEq K] in
@[simp] theorem toList_clear
    (c : Lru K V) :
    c.clear.toList = [] :=
  rfl

omit [DecidableEq K] in
theorem weight_eq_sum
    (f : V → Nat)
    (c : Lru K V) :
    c.weight f = (c.toList.map (fun e => f e.2)).sum := by
  unfold weight toList
  rw [List.map_map]
  rfl

omit [DecidableEq K] in
theorem lru_eq_getLast
    (c : Lru K V) :
    c.lru = c.toList.getLast? := by
  unfold lru toList
  rw [List.getLast?_map]

omit [DecidableEq K] in
theorem nodup_keys
    (c : Lru K V) :
    (c.toList.map Prod.fst).Nodup := by
  unfold toList
  rw [List.map_map]
  exact c.store.nodupKeys

theorem mem_toList
    {c : Lru K V}
    {k : K}
    {v : V} :
    (k, v) ∈ c.toList ↔ c.peek k = some v := by
  unfold toList peek
  rw [AList.mem_entries_iff_lookup c.store k v |>.symm]
  simp

/- Erasing keeps the order of the others. -/
theorem toList_erase
    (c : Lru K V)
    (k : K) :
    (c.erase k).toList =
      c.toList.filter (fun e => e.1 ≠ k) := by
  unfold toList erase
  rw [AList.entries_erase, List.filter_map]
  rfl

/- The least recently used entry is the last. -/
theorem toList_popLru
    (c : Lru K V) :
    c.popLru.2.toList = c.toList.dropLast := by
  cases hLru : c.lru with
  | none =>
      have hEmpty : c.toList = [] := by
        rw [lru_eq_getLast, List.getLast?_eq_none_iff] at hLru
        exact hLru
      unfold popLru
      rw [hLru]
      simp only
      rw [hEmpty]
      rfl
  | some last =>
      rcases last with ⟨k, v⟩
      rw [popLru_of_some hLru, toList_erase]
      rw [lru_eq_getLast, List.getLast?_eq_some_iff] at hLru
      rcases hLru with ⟨front, hList⟩
      have hNodup := c.nodup_keys
      rw [hList, List.map_append, List.nodup_append] at hNodup
      rw [hList, List.dropLast_concat, List.filter_append]
      have hOthers :
          front.filter (fun e => e.1 ≠ k) = front := by
        rw [List.filter_eq_self]
        intro e hMem
        have hOther :=
          hNodup.2.2 e.1 (List.mem_map_of_mem hMem) k
            (by simp)
        simpa using hOther
      rw [hOthers]
      simp

theorem toList_front
    (c : Lru K V)
    (k : K)
    (v : V)
    (hRoom : (c.erase k).len < c.cap) :
    (c.front k v hRoom).toList = (k, v) :: (c.erase k).toList := by
  unfold front toList
  rw [AList.entries_insert]
  rfl

/- Looking a key up moves it to the front. -/
theorem toList_get_of_some
    {c : Lru K V}
    {k : K}
    {v : V}
    (hSome : c.peek k = some v) :
    (c.get k).2.toList =
      (k, v) :: c.toList.filter (fun e => e.1 ≠ k) := by
  rw [← toList_erase]
  unfold get
  split
  · rename_i hNone
    rw [hSome] at hNone
    cases hNone
  · rename_i v' hPeek
    rw [hSome] at hPeek
    cases hPeek
    exact toList_front c k v (by
      have hLen := len_erase_of_some hSome
      have hBounded : c.len ≤ c.cap := c.bounded
      omega)

theorem get_of_none
    {c : Lru K V}
    {k : K}
    (hNone : c.peek k = none) :
    (c.get k).2 = c := by
  unfold get
  split
  · rfl
  · rename_i v hPeek
    rw [hNone] at hPeek
    cases hPeek

/- A new key comes first, and may cost the last entry. -/
theorem toList_put_of_new
    {c : Lru K V}
    {k : K}
    (hNew : c.peek k = none)
    (v : V) :
    (c.put k v).toList = (k, v) :: c.toList.take (c.cap - 1) := by
  have hBounded : c.len ≤ c.cap := c.bounded
  unfold put
  rw [toList_front]
  have hLeft : (c.makeRoom k).peek k = none := by
    by_contra hSome
    rcases Option.ne_none_iff_exists'.mp hSome with ⟨v', hPeek⟩
    have hOld := peek_makeRoom hPeek
    rw [hNew] at hOld
    cases hOld
  rw [erase_of_none hLeft]
  congr 1
  unfold makeRoom
  by_cases hRoom : c.len < c.cap
  · rw [if_pos (Or.inr hRoom), List.take_of_length_le]
    rw [length_toList]
    omega
  · rw [if_neg (by simp [hNew, hRoom]), toList_popLru,
      List.dropLast_eq_take, length_toList]
    congr 1
    omega

end Lru
