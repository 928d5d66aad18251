import Mles.Http.CacheBounds
import Mathlib.Data.Nat.Find

/-
  What the cache of compressed files gives up.

  An insertion removes entries in three ways: it replaces
  the one under its own key, it evicts the least recently
  used ones until there is space, and the inner cache drops
  one more when it is full.  The entries are looked at as a
  list here, the most recently used one first, of which an
  insertion keeps a first part.

  Whether the data is admitted is decided after the loop:
  data for which no space can be made has driven out all the
  others by then.  Data over the size of a file is turned
  away before its key is looked at, and an old entry under
  the key stays.

  Key definitions include:
    * `CompressionCache.most`
    * `CompressionCache.others`
    * `CompressionCache.lastInserted`
    * `CompressionCache.recency`
    * `CompressionCache.EvictsLeast`

  Key theorems include:
    * `CompressionCache.toList_evict`
    * `CompressionCache.entries_insert`
    * `CompressionCache.refused_costs_nothing_iff`
    * `CompressionCache.current_iff_none_superseded`
    * `CompressionCache.keys_sublist_recency`
    * `CompressionCache.insert_evicts_least`
-/

------------------------------------------------------------
-- The Eviction Loop
------------------------------------------------------------

namespace Mles

namespace CompressionCache

/- The sum of the sizes of some entries. -/
def sizes
    (entries : List (CacheKey × CacheEntry)) : Nat :=
  (entries.map (fun e => e.2.size)).sum

/-
  There is space for the data once only the first `n` of the
  entries are left.
-/
def Spacious
    (requiredSize maxSize currentSize : Nat)
    (entries : List (CacheKey × CacheEntry))
    (n : Nat) : Prop :=
  currentSize - sizes (entries.drop n) + requiredSize ≤ maxSize

instance
    (requiredSize maxSize currentSize : Nat)
    (entries : List (CacheKey × CacheEntry)) :
    DecidablePred
      (Spacious requiredSize maxSize currentSize entries) :=
  fun _ => Nat.decLe _ _

/- How many entries may be left. -/
def most
    (requiredSize maxSize currentSize : Nat)
    (entries : List (CacheKey × CacheEntry)) : Nat :=
  Nat.findGreatest
    (Spacious requiredSize maxSize currentSize entries)
    entries.length

@[simp] theorem sizes_nil :
    sizes [] = 0 :=
  rfl

theorem sizes_append
    (entries entries' : List (CacheKey × CacheEntry)) :
    sizes (entries ++ entries') =
      sizes entries + sizes entries' := by
  simp [sizes]

theorem sizes_toList
    (cache : Lru CacheKey CacheEntry) :
    sizes cache.toList = cache.weight CacheEntry.size :=
  (Lru.weight_eq_sum CacheEntry.size cache).symm

/- The more entries go, the more space there is. -/
theorem Spacious.mono
    {requiredSize maxSize currentSize : Nat}
    {entries : List (CacheKey × CacheEntry)}
    {n m : Nat}
    (hSpace :
      Spacious requiredSize maxSize currentSize entries n)
    (hLess : m ≤ n) :
    Spacious requiredSize maxSize currentSize entries m := by
  have hSplit :
      sizes (entries.drop m) =
        sizes ((entries.drop m).take (n - m)) +
          sizes (entries.drop n) := by
    rw [← sizes_append]
    congr 1
    have hLast :
        (entries.drop m).drop (n - m) = entries.drop n := by
      rw [List.drop_drop, Nat.add_sub_cancel' hLess]
    rw [← hLast, List.take_append_drop]
  unfold Spacious at hSpace ⊢
  omega

/- The last entry goes first. -/
theorem most_concat
    {requiredSize maxSize currentSize : Nat}
    {entries : List (CacheKey × CacheEntry)}
    {last : CacheKey × CacheEntry}
    (hMore : maxSize < currentSize + requiredSize) :
    most requiredSize maxSize currentSize
        (entries ++ [last]) =
      most requiredSize maxSize
        (currentSize - last.2.size) entries := by
  have hSame (n : Nat) (hLess : n ≤ entries.length) :
      Spacious requiredSize maxSize currentSize
          (entries ++ [last]) n ↔
        Spacious requiredSize maxSize
          (currentSize - last.2.size) entries n := by
    unfold Spacious
    rw [List.drop_append_of_le_length hLess, sizes_append,
      Nat.sub_sub, Nat.add_comm last.2.size]
    rfl
  have hFull :
      ¬ Spacious requiredSize maxSize currentSize
        (entries ++ [last]) (entries.length + 1) := by
    unfold Spacious
    rw [List.drop_of_length_le (by simp), sizes_nil]
    omega
  unfold most
  rw [List.length_append, List.length_singleton,
    Nat.findGreatest_of_not hFull, Nat.findGreatest_eq_iff]
  refine ⟨Nat.findGreatest_le _, ?_, ?_⟩
  · intro hSome
    rw [hSame _ (Nat.findGreatest_le _)]
    exact Nat.findGreatest_of_ne_zero rfl hSome
  · intro n hGreater hLess
    rw [hSame n hLess]
    exact Nat.findGreatest_is_greatest hGreater hLess

/- The loop keeps as many of the first entries as it can. -/
theorem toList_evict
    (requiredSize maxSize : Nat)
    (cache : Lru CacheKey CacheEntry)
    (currentSize : Nat) :
    (evict requiredSize maxSize cache.len cache
        currentSize).1.toList =
      cache.toList.take
        (most requiredSize maxSize currentSize
          cache.toList) := by
  generalize hLen : cache.len = n
  induction n generalizing cache currentSize with
  | zero =>
      have hEmpty : cache.toList = [] := by
        rw [← List.length_eq_zero_iff, Lru.length_toList, hLen]
      simp [evict, hEmpty]
  | succ n ih =>
      unfold evict
      by_cases hMore : currentSize + requiredSize > maxSize
      · rw [if_pos hMore]
        rcases Lru.exists_lru (show 0 < cache.len by omega) with
          ⟨k, entry, hLru, hPeek⟩
        have hFewer := Lru.len_erase_of_some hPeek
        have hRest := cache.toList_popLru
        rw [Lru.popLru_of_some hLru] at hRest ⊢
        rw [Lru.lru_eq_getLast,
          List.getLast?_eq_some_iff] at hLru
        rcases hLru with ⟨front, hList⟩
        rw [hList, List.dropLast_concat] at hRest
        dsimp only at hRest ⊢
        rw [ih (cache.erase k) (currentSize - entry.size)
          (by omega), hRest, hList, most_concat hMore,
          List.take_append_of_le_length]
        exact Nat.findGreatest_le _
      · rw [if_neg hMore]
        have hAll :
            Spacious requiredSize maxSize currentSize
              cache.toList cache.toList.length := by
          unfold Spacious
          rw [List.drop_length, sizes_nil]
          omega
        unfold most
        rw [Nat.findGreatest_eq hAll, List.take_length]

end CompressionCache

end Mles

------------------------------------------------------------
-- What an Insertion Leaves
------------------------------------------------------------

namespace Mles

namespace CompressionCache

/- The keys held, the most recently used one first. -/
def keys (c : CompressionCache) : List CacheKey :=
  c.entries.map Prod.fst

/- The entries under the other keys. -/
def others
    (key : CacheKey)
    (c : CompressionCache) : List (CacheKey × CacheEntry) :=
  c.entries.filter (fun e => e.1 ≠ key)

/- The size of the entry that an insertion replaces. -/
def replaced
    (key : CacheKey)
    (c : CompressionCache) : Nat :=
  sizes (c.entries.filter (fun e => e.1 = key))

/- With `n` of the others left, the data can be inserted. -/
def SpaciousWith
    (c : CompressionCache)
    (key : CacheKey)
    (size n : Nat) : Prop :=
  Spacious size c.maxSize (c.currentSize - c.replaced key)
    (c.others key) n

/- How many of the others an insertion may keep. -/
def mostOthers
    (key : CacheKey)
    (size : Nat)
    (c : CompressionCache) : Nat :=
  most size c.maxSize (c.currentSize - c.replaced key)
    (c.others key)

theorem entries_of_some
    {c : CompressionCache}
    {cache : Lru CacheKey CacheEntry}
    (hCache : c.cache = some cache) :
    c.entries = cache.toList := by
  unfold entries
  rw [hCache]
  rfl

theorem entries_of_none
    {c : CompressionCache}
    (hCache : c.cache = none) :
    c.entries = [] := by
  unfold entries
  rw [hCache]

theorem others_of_some
    {c : CompressionCache}
    {cache : Lru CacheKey CacheEntry}
    (hCache : c.cache = some cache)
    (key : CacheKey) :
    c.others key = (cache.erase key).toList := by
  unfold others
  rw [entries_of_some hCache, Lru.toList_erase]

/- The entry under the key, and the others. -/
theorem replaced_add_others
    (c : CompressionCache)
    (key : CacheKey) :
    c.replaced key + sizes (c.others key) = c.held := by
  have hSplit (entries : List (CacheKey × CacheEntry)) :
      sizes (entries.filter (fun e => e.1 = key)) +
          sizes (entries.filter (fun e => e.1 ≠ key)) =
        sizes entries := by
    induction entries with
    | nil => rfl
    | cons e rest ih =>
        by_cases hKey : e.1 = key
        · simp [sizes, hKey] at ih ⊢
          omega
        · simp [sizes, hKey] at ih ⊢
          omega
  have hHeld : c.held = sizes c.entries := by
    cases hCache : c.cache with
    | none => simp [held, entries_of_none hCache, hCache]
    | some cache =>
        rw [entries_of_some hCache, sizes_toList]
        simp [held, hCache]
  rw [hHeld]
  exact hSplit c.entries

theorem replaced_of_some
    {c : CompressionCache}
    {cache : Lru CacheKey CacheEntry}
    (hCache : c.cache = some cache)
    (hSound : c.Sound)
    (key : CacheKey) :
    c.replaced key =
      ((cache.peek key).map CacheEntry.size).getD 0 := by
  have hErased := weight_erase_popKey hCache hSound key
  have hSum := c.replaced_add_others key
  have hHeld : c.held = cache.weight CacheEntry.size := by
    simp [held, hCache]
  rw [others_of_some hCache, sizes_toList] at hSum
  dsimp only at hErased
  omega

/- Nothing but the drift is in the way of new data. -/
theorem spacious_zero_iff
    (c : CompressionCache)
    (key : CacheKey)
    (size : Nat) :
    c.SpaciousWith key size 0 ↔
      c.drift + size ≤ c.maxSize := by
  have hSum := c.replaced_add_others key
  unfold SpaciousWith Spacious drift
  rw [List.drop_zero, Nat.sub_sub, hSum]

theorem spaciousWith_mostOthers
    {c : CompressionCache}
    {key : CacheKey}
    {size : Nat}
    (hSpace : c.SpaciousWith key size 0) :
    c.SpaciousWith key size (c.mostOthers key size) :=
  Nat.findGreatest_spec (Nat.zero_le _) hSpace

/- The loop of an insertion, and what it leaves. -/
theorem exists_evicted
    {c : CompressionCache}
    {cache : Lru CacheKey CacheEntry}
    (hCache : c.cache = some cache)
    (hSound : c.Sound)
    (key : CacheKey)
    {size : Nat}
    (hSize : size ≤ maxFileSize)
    (hPos : 0 < c.maxSize) :
    ∃ cache' currentSize',
      Evicted size c.maxSize (cache.erase key)
          (c.currentSize -
            ((cache.peek key).map CacheEntry.size).getD 0)
          cache' currentSize' ∧
        cache'.toList =
          (c.others key).take (c.mostOthers key size) ∧
        (c.popKey key).makeSpace size =
          { c with
            cache := some cache'
            currentSize := currentSize' } := by
  have hErased := weight_erase_popKey hCache hSound key
  have hList :=
    toList_evict size c.maxSize (cache.erase key)
      (c.currentSize - c.replaced key)
  dsimp only at hErased
  rw [← others_of_some hCache,
    replaced_of_some hCache hSound] at hList
  refine ⟨_, _, evict_spec rfl (by omega), ?_, ?_⟩
  · unfold mostOthers
    rw [replaced_of_some hCache hSound]
    exact hList
  · have hGo : ¬ (c.maxSize = 0 ∨ size > maxFileSize) := by
      omega
    rw [popKey_eq hCache key]
    unfold makeSpace
    simp only
    rw [if_neg hGo]

/-
  The entries after an insertion: the new one in front of as
  many of the others as there is space for, less the one the
  inner cache drops when it is full.  Data for which there
  is no space drives out all the others.
-/
theorem entries_insert
    {c : CompressionCache}
    {cache : Lru CacheKey CacheEntry}
    (hCache : c.cache = some cache)
    (hSound : c.Sound)
    (path compression : String)
    (modified : Time)
    {data : List UInt8}
    (hSize : data.length ≤ maxFileSize)
    (hPos : 0 < c.maxSize) :
    (c.insert path compression modified data).entries =
      if c.drift + data.length ≤ c.maxSize then
        (⟨path, compression, modified⟩, .new data) ::
          (c.others ⟨path, compression, modified⟩).take
            (min (cache.cap - 1)
              (c.mostOthers ⟨path, compression, modified⟩
                data.length))
      else [] := by
  generalize hKey :
    (⟨path, compression, modified⟩ : CacheKey) = key
  rcases exists_evicted hCache hSound key hSize hPos with
    ⟨cache', currentSize', hEvicted, hList, hMade⟩
  have hReady := ready_of_evicted hCache hSound hEvicted
  have hDrift := hReady.drift
  have hOver := hReady.sound
  have hEmpty (hNone : cache'.len = 0) :
      cache'.weight CacheEntry.size = 0 :=
    Lru.weight_of_len_zero CacheEntry.size hNone
  have hStored :
      (c.maxSize > 0 ∧
          currentSize' + data.length ≤ c.maxSize) ↔
        c.drift + data.length ≤ c.maxSize := by
    rcases hReady.enough hPos with hEnough | hNone
    · omega
    · have hNothing := hEmpty hNone
      omega
  unfold insert
  rw [hCache, hKey]
  simp only
  rw [if_neg (Nat.not_lt.mpr hSize), hMade]
  by_cases hFits : c.drift + data.length ≤ c.maxSize
  · rw [if_pos hFits]
    rw [if_pos (hStored.mpr hFits)]
    have hPut :=
      Lru.toList_put_of_new hReady.vacant (.new data)
    rw [hReady.cap, hList, List.take_take] at hPut
    exact hPut
  · rw [if_neg hFits, if_neg (fun h => hFits (hStored.mp h))]
    have hNone : cache'.len = 0 := by
      rcases hReady.enough hPos with hEnough | hNone
      · exact absurd (hStored.mp ⟨hPos, hEnough⟩) hFits
      · exact hNone
    rw [← Lru.length_toList, List.length_eq_zero_iff] at hNone
    exact hNone

end CompressionCache

end Mles

------------------------------------------------------------
-- Refused Insertions
------------------------------------------------------------

namespace Mles

namespace CompressionCache

theorem entries_insert_of_zero
    {c : CompressionCache}
    {cache : Lru CacheKey CacheEntry}
    (hCache : c.cache = some cache)
    (path compression : String)
    (modified : Time)
    {data : List UInt8}
    (hSize : data.length ≤ maxFileSize)
    (hZero : c.maxSize = 0) :
    (c.insert path compression modified data).entries =
      c.others ⟨path, compression, modified⟩ := by
  rw [others_of_some hCache]
  unfold insert
  rw [hCache]
  simp only
  rw [if_neg (Nat.not_lt.mpr hSize), popKey_eq hCache]
  unfold makeSpace
  simp only
  have hRefused (n : Nat) :
      ¬ (c.maxSize > 0 ∧ n ≤ c.maxSize) := by
    omega
  rw [if_pos (Or.inl hZero), if_neg (hRefused _)]
  exact entries_of_some rfl

/- Only the new entry can be under the key. -/
theorem others_cons
    {key : CacheKey}
    {entry : CacheEntry}
    {c c' : CompressionCache}
    {n : Nat}
    (hEntries :
      c'.entries = (key, entry) :: (c.others key).take n) :
    c'.others key = (c.others key).take n := by
  unfold others at hEntries ⊢
  rw [hEntries, List.filter_cons_of_neg (by simp),
    List.filter_eq_self]
  intro e hMem
  exact (List.mem_filter.mp (List.mem_of_mem_take hMem)).2

theorem others_others
    {key : CacheKey}
    {c c' : CompressionCache}
    (hEntries : c'.entries = c.others key) :
    c'.others key = c.others key := by
  unfold others at hEntries ⊢
  rw [hEntries, List.filter_filter]
  simp

/-
  An insertion that is refused leaves the others alone,
  exactly if the data is refused for its own size, or there
  is space next to the drift, or there are no others.
-/
theorem refused_iff_of_sound
    {c : CompressionCache}
    (hSound : c.Sound)
    (path compression : String)
    (modified : Time)
    (data : List UInt8) :
    (⟨path, compression, modified⟩ ∉
        (c.insert path compression modified data).keys →
      (c.insert path compression modified data).others
          ⟨path, compression, modified⟩ =
        c.others ⟨path, compression, modified⟩) ↔
      maxFileSize < data.length ∨ c.maxSize = 0 ∨
        c.drift + data.length ≤ c.maxSize ∨
        c.others ⟨path, compression, modified⟩ = [] := by
  cases hCache : c.cache with
  | none =>
      have hNone :
          c.others ⟨path, compression, modified⟩ = [] := by
        unfold others
        rw [entries_of_none hCache]
        rfl
      rw [insert_of_none hCache]
      simp [hNone]
  | some cache =>
      by_cases hLarge : maxFileSize < data.length
      · rw [insert_of_large c path compression modified hLarge]
        simp [hLarge]
      · have hSize : data.length ≤ maxFileSize := by omega
        by_cases hZero : c.maxSize = 0
        · have hEntries :=
            entries_insert_of_zero hCache path compression
              modified hSize hZero
          simp [others_others hEntries, hZero]
        · have hEntries :=
            entries_insert hCache hSound path compression
              modified hSize (by omega)
          by_cases hFits : c.drift + data.length ≤ c.maxSize
          · rw [if_pos hFits] at hEntries
            unfold keys
            simp [hEntries, hFits]
          · rw [if_neg hFits] at hEntries
            unfold keys
            unfold others
            rw [hEntries]
            simp only [List.map_nil, List.not_mem_nil,
              not_false_eq_true, forall_const, hLarge, hZero,
              hFits, false_or, List.filter_nil]
            exact eq_comm

/-
  In every state: a refused insertion costs nothing, exactly
  if it is not one that there is no space for.
-/
theorem refused_costs_nothing_iff
    (maxSizeMb : UInt64)
    (calls : List CacheCall)
    (path compression : String)
    (modified : Time)
    (data : List UInt8) :
    (⟨path, compression, modified⟩ ∉
        ((after maxSizeMb calls).insert path compression
          modified data).keys →
      ((after maxSizeMb calls).insert path compression
          modified data).others ⟨path, compression, modified⟩ =
        (after maxSizeMb calls).others
          ⟨path, compression, modified⟩) ↔
      maxFileSize < data.length ∨
        (after maxSizeMb calls).maxSize = 0 ∨
        (after maxSizeMb calls).drift + data.length ≤
          (after maxSizeMb calls).maxSize ∨
        (after maxSizeMb calls).others
          ⟨path, compression, modified⟩ = [] :=
  refused_iff_of_sound (sound_after maxSizeMb calls) path
    compression modified data

/-
  Two megabytes do not fit into a cache of one, and drive
  out the file that does.
-/
theorem refused_costs_a_file :
    ∃ (calls : List CacheCall) (data : List UInt8),
      calls = [.insert "a" "br" 0 [1]] ∧
        data = List.replicate (2 * mebibyte) 0 ∧
        ⟨"b", "br", 0⟩ ∉
          ((after 1 calls).insert "b" "br" 0 data).keys ∧
        ((after 1 calls).insert "b" "br" 0 data).others
            ⟨"b", "br", 0⟩ ≠
          (after 1 calls).others ⟨"b", "br", 0⟩ := by
  have hData :
      ∃ data : List UInt8,
        data = List.replicate (2 * mebibyte) 0 ∧
          data.length = 2 * mebibyte :=
    ⟨_, rfl, List.length_replicate⟩
  rcases hData with ⟨data, hEq, hLength⟩
  refine ⟨_, data, rfl, hEq, ?_⟩
  have hSame :=
    refused_iff_of_sound (sound_after 1 [.insert "a" "br" 0 [1]])
      "b" "br" 0 data
  rw [← Classical.not_imp, hSame, hLength]
  have hHeld :
      (after 1 [.insert "a" "br" 0 [1]]).others
        ⟨"b", "br", 0⟩ ≠ [] := by
    decide +kernel
  have hMax :
      (after 1 [.insert "a" "br" 0 [1]]).maxSize = mebibyte := by
    decide +kernel
  rw [hMax]
  have hPos : 0 < mebibyte := by decide
  have hSmall : 2 * mebibyte ≤ maxFileSize := by decide
  rintro (hLarge | hZero | hFits | hNone)
  · omega
  · omega
  · omega
  · exact hHeld hNone

end CompressionCache

end Mles

------------------------------------------------------------
-- Superseded Data
------------------------------------------------------------

namespace Mles

namespace CompressionCache

/- The data last inserted under a key, since all was cleared. -/
def lastInserted
    (key : CacheKey)
    (calls : List CacheCall) : Option (List UInt8) :=
  calls.foldl
    (fun last call =>
      match call with
      | .insert path compression modified data =>
          if ⟨path, compression, modified⟩ = key then some data
          else last
      | .get _ _ _ => last
      | .clear => none)
    none

/- A lookup finds what is held, and puts it first. -/
theorem get_eq_some_iff
    {c : CompressionCache}
    {path compression : String}
    {modified : Time}
    {data : List UInt8} :
    (c.get path compression modified).1 = some data ↔
      ∃ entry,
        (⟨path, compression, modified⟩, entry) ∈ c.entries ∧
          entry.data = data := by
  unfold get
  cases hCache : c.cache with
  | none => simp [entries_of_none hCache]
  | some cache =>
      simp only [Lru.fst_get, Option.map_eq_some_iff,
        entries_of_some hCache, Lru.mem_toList]

theorem entries_get
    (c : CompressionCache)
    (path compression : String)
    (modified : Time) :
    (∃ entry,
      (⟨path, compression, modified⟩, entry) ∈ c.entries ∧
        (c.get path compression modified).2.entries =
          (⟨path, compression, modified⟩, entry) ::
            c.others ⟨path, compression, modified⟩) ∨
      (c.get path compression modified).1 = none ∧
        (c.get path compression modified).2.entries =
          c.entries := by
  unfold get
  cases hCache : c.cache with
  | none => simp
  | some cache =>
      simp only [Lru.fst_get, Option.map_eq_none_iff]
      cases hPeek :
          cache.peek ⟨path, compression, modified⟩ with
      | none =>
          refine Or.inr ⟨rfl, ?_⟩
          rw [Lru.get_of_none hPeek, ← hCache]
      | some entry =>
          refine Or.inl ⟨entry, ?_, ?_⟩
          · rw [entries_of_some hCache]
            exact Lru.mem_toList.mpr hPeek
          · unfold others
            rw [entries_of_some hCache]
            exact Lru.toList_get_of_some hPeek

theorem mem_others_iff
    {c : CompressionCache}
    {key : CacheKey}
    {e : CacheKey × CacheEntry} :
    e ∈ c.others key ↔ e ∈ c.entries ∧ e.1 ≠ key := by
  unfold others
  rw [List.mem_filter]
  simp

@[simp] theorem entries_clear
    (c : CompressionCache) :
    c.clear.entries = [] := by
  unfold clear
  cases hCache : c.cache with
  | none => exact entries_of_none hCache
  | some cache => rfl

@[simp] theorem entries_new
    (maxSizeMb : UInt64) :
    (new maxSizeMb).entries = [] := by
  unfold new
  split
  · rfl
  · rfl

/- Nothing is held but the new entry and some of the others. -/
theorem entries_insert_sublist
    {c : CompressionCache}
    (hSound : c.Sound)
    (path compression : String)
    (modified : Time)
    {data : List UInt8}
    (hSize : data.length ≤ maxFileSize) :
    (c.insert path compression modified data).entries.Sublist
      ((⟨path, compression, modified⟩, .new data) ::
        c.others ⟨path, compression, modified⟩) := by
  cases hCache : c.cache with
  | none =>
      rw [insert_of_none hCache, entries_of_none hCache]
      exact List.nil_sublist _
  | some cache =>
      by_cases hZero : c.maxSize = 0
      · rw [entries_insert_of_zero hCache path compression
          modified hSize hZero]
        exact List.sublist_cons_self _ _
      · rw [entries_insert hCache hSound path compression
          modified hSize (by omega)]
        split
        · exact (List.take_sublist _ _).cons_cons _
        · exact List.nil_sublist _

/- What is held after a call was held or is inserted. -/
theorem mem_entries_step
    {c : CompressionCache}
    (hSound : c.Sound)
    {call : CacheCall}
    {key : CacheKey}
    {entry : CacheEntry}
    (hMem : (key, entry) ∈ (c.step call).entries) :
    (∃ path compression modified data,
      call = .insert path compression modified data ∧
        data.length ≤ maxFileSize ∧
        key = ⟨path, compression, modified⟩ ∧
        entry.data = data) ∨
      (key, entry) ∈ c.entries ∧
        call ≠ .clear ∧
        ∀ path compression modified data,
          call = .insert path compression modified data →
            data.length ≤ maxFileSize →
              key ≠ ⟨path, compression, modified⟩ := by
  cases call with
  | get path compression modified =>
      simp only [step] at hMem
      simp only [reduceCtorEq, false_and, exists_false,
        false_or, ne_eq, not_false_eq_true, false_implies,
        implies_true, and_true]
      rcases entries_get c path compression modified with
        ⟨entry', hHeld, hEntries⟩ | ⟨_, hEntries⟩
      · rw [hEntries, List.mem_cons, mem_others_iff] at hMem
        rcases hMem with hEq | hOld
        · rw [hEq]
          exact hHeld
        · exact hOld.1
      · rw [hEntries] at hMem
        exact hMem
  | insert path compression modified data =>
      simp only [step] at hMem
      by_cases hLarge : maxFileSize < data.length
      · rw [insert_of_large c _ _ _ hLarge] at hMem
        refine Or.inr ⟨hMem, by simp, ?_⟩
        intro path' compression' modified' data' hCall hSize
        cases hCall
        omega
      · have hSize : data.length ≤ maxFileSize := by omega
        have hOld :=
          (entries_insert_sublist hSound path compression
            modified hSize).mem hMem
        rw [List.mem_cons, mem_others_iff] at hOld
        rcases hOld with hEq | ⟨hHeld, hOther⟩
        · cases hEq
          exact Or.inl
            ⟨path, compression, modified, data, rfl, hSize,
              rfl, rfl⟩
        · refine Or.inr ⟨hHeld, by simp, ?_⟩
          intro path' compression' modified' data' hCall _
          cases hCall
          exact hOther
  | clear =>
      simp only [step, entries_clear, List.not_mem_nil] at hMem

/- No data held is too large. -/
theorem small_after
    (maxSizeMb : UInt64)
    (calls : List CacheCall)
    {key : CacheKey}
    {entry : CacheEntry}
    (hMem : (key, entry) ∈ (after maxSizeMb calls).entries) :
    entry.data.length ≤ maxFileSize := by
  induction calls using List.reverseRecOn with
  | nil =>
      simp only [after, List.foldl_nil, entries_new,
        List.not_mem_nil] at hMem
  | append_singleton calls call ih =>
      rw [after_snoc] at hMem
      rcases mem_entries_step (sound_after maxSizeMb calls)
          hMem with
        ⟨_, _, _, data, _, hSize, _, hData⟩ | ⟨hHeld, _⟩
      · rw [hData]
        exact hSize
      · exact ih hHeld

theorem lastInserted_snoc
    (key : CacheKey)
    (calls : List CacheCall)
    (call : CacheCall) :
    lastInserted key (calls ++ [call]) =
      match call with
      | .insert path compression modified data =>
          if ⟨path, compression, modified⟩ = key then some data
          else lastInserted key calls
      | .get _ _ _ => lastInserted key calls
      | .clear => none := by
  unfold lastInserted
  rw [List.foldl_append]
  rfl

/-
  As long as no data that is too large comes for a key held,
  what is held is what was inserted last.
-/
theorem lastInserted_of_held
    (maxSizeMb : UInt64)
    {calls : List CacheCall}
    (hNone :
      ∀ part path compression modified data,
        part ++ [.insert path compression modified data] <+:
            calls →
          maxFileSize < data.length →
            ⟨path, compression, modified⟩ ∉
              (after maxSizeMb part).keys)
    {key : CacheKey}
    {entry : CacheEntry}
    (hMem : (key, entry) ∈ (after maxSizeMb calls).entries) :
    lastInserted key calls = some entry.data := by
  induction calls using List.reverseRecOn with
  | nil =>
      simp only [after, List.foldl_nil, entries_new,
        List.not_mem_nil] at hMem
  | append_singleton calls call ih =>
      have hBefore
          (hHeld :
            (key, entry) ∈ (after maxSizeMb calls).entries) :
          lastInserted key calls = some entry.data :=
        ih (fun part path compression modified data hPrefix =>
          hNone part path compression modified data
            (hPrefix.trans (List.prefix_append calls [call])))
          hHeld
      rw [after_snoc] at hMem
      rw [lastInserted_snoc]
      rcases mem_entries_step (sound_after maxSizeMb calls)
          hMem with
        ⟨path, compression, modified, data, rfl, _, rfl,
          hData⟩ | ⟨hHeld, hKept, hOther⟩
      · simp [hData]
      · cases call with
        | get path compression modified => exact hBefore hHeld
        | clear => exact absurd rfl hKept
        | insert path compression modified data =>
            have hDifferent :
                ⟨path, compression, modified⟩ ≠ key := by
              intro hSame
              by_cases hLarge : maxFileSize < data.length
              · have hFree :=
                  hNone calls path compression modified data
                    (List.prefix_refl _) hLarge
                rw [hSame] at hFree
                exact hFree (List.mem_map_of_mem hHeld)
              · exact hOther path compression modified data rfl
                  (Nat.not_lt.mp hLarge) hSame.symm
            simp only [hDifferent, if_false]
            exact hBefore hHeld

/- Data that is too large leaves an old entry in its place. -/
theorem superseded_of_large
    (maxSizeMb : UInt64)
    (calls : List CacheCall)
    {path compression : String}
    {modified : Time}
    {data : List UInt8}
    (hLarge : maxFileSize < data.length)
    (hHeld :
      ⟨path, compression, modified⟩ ∈
        (after maxSizeMb calls).keys) :
    ∃ old,
      ((after maxSizeMb
          (calls ++
            [.insert path compression modified data])).get
        path compression modified).1 = some old ∧
      lastInserted ⟨path, compression, modified⟩
          (calls ++
            [.insert path compression modified data]) ≠
        some old := by
  rcases List.mem_map.mp hHeld with ⟨⟨key, entry⟩, hMem, hKey⟩
  subst hKey
  have hSmall := small_after maxSizeMb calls hMem
  refine ⟨entry.data, ?_, ?_⟩
  · rw [after_snoc]
    simp only [step]
    rw [insert_of_large _ _ _ _ hLarge]
    exact get_eq_some_iff.mpr ⟨entry, hMem, rfl⟩
  · rw [lastInserted_snoc]
    simp only [if_true]
    intro hSame
    cases hSame
    omega

/-
  Over a sequence of calls: at every point of it a lookup
  finds nothing or the data inserted last, exactly when data
  that is too large never comes for a key that is held.
-/
theorem current_iff_none_superseded
    (maxSizeMb : UInt64)
    (calls : List CacheCall) :
    (∀ part, part <+: calls →
      ∀ path compression modified,
        ((after maxSizeMb part).get path compression
            modified).1 = none ∨
          ((after maxSizeMb part).get path compression
              modified).1 =
            lastInserted ⟨path, compression, modified⟩
              part) ↔
      ∀ part path compression modified data,
        part ++ [.insert path compression modified data] <+:
            calls →
          maxFileSize < data.length →
            ⟨path, compression, modified⟩ ∉
              (after maxSizeMb part).keys := by
  constructor
  · intro hCurrent part path compression modified data
      hPrefix hLarge hHeld
    rcases superseded_of_large maxSizeMb part hLarge hHeld with
      ⟨old, hGet, hLast⟩
    rcases hCurrent _ hPrefix path compression modified with
      hNone | hSame
    · rw [hGet] at hNone
      cases hNone
    · rw [hGet] at hSame
      exact hLast hSame.symm
  · intro hNone part hPrefix path compression modified
    cases hGet :
        ((after maxSizeMb part).get path compression
          modified).1 with
    | none => exact Or.inl rfl
    | some data =>
        rcases get_eq_some_iff.mp hGet with
          ⟨entry, hMem, hData⟩
        refine Or.inr ?_
        rw [← hData]
        exact (lastInserted_of_held maxSizeMb
          (fun part' path' compression' modified' data'
              hPrefix' =>
            hNone part' path' compression' modified' data'
              (hPrefix'.trans hPrefix))
          hMem).symm

/- A file grows over the limit, and its old data stays. -/
theorem superseded_file :
    ∃ (calls : List CacheCall) (data : List UInt8),
      data = List.replicate (maxFileSize + 1) 0 ∧
        calls =
          [.insert "a" "br" 0 [1], .insert "a" "br" 0 data] ∧
        ((after 10 calls).get "a" "br" 0).1 = some [1] ∧
        lastInserted ⟨"a", "br", 0⟩ calls = some data ∧
        some data ≠ some [1] := by
  have hData :
      ∃ data : List UInt8,
        data = List.replicate (maxFileSize + 1) 0 ∧
          data.length = maxFileSize + 1 :=
    ⟨_, rfl, List.length_replicate⟩
  rcases hData with ⟨data, hEq, hLength⟩
  refine ⟨_, data, hEq, rfl, ?_, rfl, ?_⟩
  · change
      (((after 10 [.insert "a" "br" 0 [1]]).insert
        "a" "br" 0 data).get "a" "br" 0).1 = some [1]
    rw [insert_of_large _ _ _ _ (by omega)]
    decide +kernel
  · intro hSame
    rw [Option.some.injEq] at hSame
    rw [hSame] at hLength
    have hPos : 0 < maxFileSize := by decide
    simp only [List.length_singleton] at hLength
    omega

end CompressionCache

end Mles

------------------------------------------------------------
-- The Least Recently Used
------------------------------------------------------------

namespace Mles

namespace CompressionCache

/-
  The key a call uses: that of a lookup that hits, or that
  of an insertion that is admitted.
-/
def usedKey
    (c : CompressionCache) : CacheCall → Option CacheKey
| .get path compression modified =>
    if ((c.get path compression modified).1).isSome then
      some ⟨path, compression, modified⟩
    else none
| .insert path compression modified data =>
    if data.length ≤ maxFileSize ∧
        ⟨path, compression, modified⟩ ∈
          (c.insert path compression modified data).keys then
      some ⟨path, compression, modified⟩
    else none
| .clear => none

/- The keys in the order of their use, after one more. -/
def use
    (used : List CacheKey) : Option CacheKey → List CacheKey
| none => used
| some key => key :: used.filter (fun k => k ≠ key)

/- The keys used so far, the most recently used one first. -/
def recency
    (maxSizeMb : UInt64)
    (calls : List CacheCall) : List CacheKey :=
  (calls.foldl
    (fun (s : CompressionCache × List CacheKey) call =>
      (s.1.step call, use s.2 (s.1.usedKey call)))
    (new maxSizeMb, [])).2

theorem recency_snoc
    (maxSizeMb : UInt64)
    (calls : List CacheCall)
    (call : CacheCall) :
    recency maxSizeMb (calls ++ [call]) =
      use (recency maxSizeMb calls)
        ((after maxSizeMb calls).usedKey call) := by
  have hAfter (calls : List CacheCall) :
      (calls.foldl
        (fun (s : CompressionCache × List CacheKey) call =>
          (s.1.step call, use s.2 (s.1.usedKey call)))
        (new maxSizeMb, [])).1 = after maxSizeMb calls := by
    induction calls using List.reverseRecOn with
    | nil => rfl
    | append_singleton calls call ih =>
        rw [after_snoc, List.foldl_append, List.foldl_cons,
          List.foldl_nil, ih]
  unfold recency
  rw [List.foldl_append, List.foldl_cons, List.foldl_nil,
    hAfter]

theorem keys_others
    (c : CompressionCache)
    (key : CacheKey) :
    (c.others key).map Prod.fst =
      c.keys.filter (fun k => k ≠ key) := by
  unfold others keys
  rw [List.filter_map]
  rfl

/- One call keeps the keys held in the order of their use. -/
theorem keys_step_sublist
    {c : CompressionCache}
    (hSound : c.Sound)
    {used : List CacheKey}
    (hUsed : c.keys.Sublist used)
    (call : CacheCall) :
    (c.step call).keys.Sublist (use used (c.usedKey call)) := by
  have hOthers (key : CacheKey) :
      ((c.others key).map Prod.fst).Sublist
        (used.filter (fun k => k ≠ key)) := by
    rw [keys_others]
    exact hUsed.filter _
  cases call with
  | get path compression modified =>
      simp only [step, usedKey, keys]
      rcases entries_get c path compression modified with
        ⟨entry, hHeld, hEntries⟩ | ⟨hMiss, hEntries⟩
      · have hHit :=
          get_eq_some_iff.mpr ⟨entry, hHeld, rfl⟩
        rw [hEntries, hHit, if_pos (by rfl), List.map_cons]
        exact (hOthers _).cons_cons _
      · rw [hEntries, hMiss, if_neg (by simp)]
        exact hUsed
  | insert path compression modified data =>
      simp only [step, usedKey]
      by_cases hLarge : maxFileSize < data.length
      · rw [if_neg (fun hBoth => by omega),
          insert_of_large c _ _ _ hLarge]
        exact hUsed
      · have hSize : data.length ≤ maxFileSize := by omega
        have hList :=
          (entries_insert_sublist hSound path compression
            modified hSize).map Prod.fst
        rw [List.map_cons] at hList
        by_cases hKept :
            ⟨path, compression, modified⟩ ∈
              (c.insert path compression modified data).keys
        · rw [if_pos ⟨hSize, hKept⟩]
          exact hList.trans ((hOthers _).cons_cons _)
        · rw [if_neg (fun hBoth => hKept hBoth.2)]
          -- The key is not there, so that it is not the first.
          have hRest :=
            (List.sublist_cons_iff.mp hList).resolve_right (by
              rintro ⟨rest, hFirst, _⟩
              apply hKept
              unfold keys
              rw [hFirst]
              exact List.mem_cons_self)
          rw [keys_others] at hRest
          exact hRest.trans (List.filter_sublist.trans hUsed)
  | clear =>
      simp only [step, usedKey, keys, entries_clear,
        List.map_nil]
      exact List.nil_sublist _

theorem keys_sublist_recency
    (maxSizeMb : UInt64)
    (calls : List CacheCall) :
    (after maxSizeMb calls).keys.Sublist
      (recency maxSizeMb calls) := by
  induction calls using List.reverseRecOn with
  | nil =>
      simp only [keys, after, List.foldl_nil, entries_new,
        List.map_nil]
      exact List.nil_sublist _
  | append_singleton calls call ih =>
      rw [after_snoc, recency_snoc]
      exact keys_step_sublist (sound_after maxSizeMb calls) ih
        call

theorem nodup_recency
    (maxSizeMb : UInt64)
    (calls : List CacheCall) :
    (recency maxSizeMb calls).Nodup := by
  induction calls using List.reverseRecOn with
  | nil => exact List.nodup_nil
  | append_singleton calls call ih =>
      rw [recency_snoc]
      cases (after maxSizeMb calls).usedKey call with
      | none => exact ih
      | some key =>
          refine List.nodup_cons.mpr ⟨?_, ih.filter _⟩
          simp

/-
  What an insertion leaves of the other keys: the `n` most
  recently used ones, as they were, where no larger number
  leaves space for the data and a place for the entry.
-/
structure EvictsLeast
    (cap : Nat)
    (key : CacheKey)
    (data : List UInt8)
    (c c' : CompressionCache)
    (n : Nat) : Prop where
  few : n ≤ (c.others key).length
  kept : c'.others key = (c.others key).take n
  admitted :
    (∃ m ≤ (c.others key).length,
      c.SpaciousWith key data.length m) →
        c'.entries = (key, .new data) :: c'.others key ∧
          c.SpaciousWith key data.length n ∧ n + 1 ≤ cap
  largest :
    ∀ m ≤ (c.others key).length,
      c.SpaciousWith key data.length m →
        (key ∈ c'.keys → m + 1 ≤ cap) → m ≤ n
  refused :
    (¬ ∃ m ≤ (c.others key).length,
      c.SpaciousWith key data.length m) →
        n = 0 ∧ key ∉ c'.keys

theorem evictsLeast_insert
    {c : CompressionCache}
    {cache : Lru CacheKey CacheEntry}
    (hCache : c.cache = some cache)
    (hSound : c.Sound)
    (path compression : String)
    (modified : Time)
    {data : List UInt8}
    (hSize : data.length ≤ maxFileSize)
    (hPos : 0 < c.maxSize) :
    ∃ n,
      EvictsLeast cache.cap ⟨path, compression, modified⟩ data c
        (c.insert path compression modified data) n := by
  have hEntries :=
    entries_insert hCache hSound path compression modified
      hSize hPos
  generalize hKey :
    (⟨path, compression, modified⟩ : CacheKey) = key
    at hEntries
  generalize
    c.insert path compression modified data = c' at hEntries
  have hCap := cache.pos
  have hZero := spacious_zero_iff c key data.length
  have hFew :
      c.mostOthers key data.length ≤ (c.others key).length :=
    Nat.findGreatest_le _
  by_cases hFits : c.drift + data.length ≤ c.maxSize
  · rw [if_pos hFits] at hEntries
    have hOthers := others_cons hEntries
    have hSpace := spaciousWith_mostOthers (hZero.mpr hFits)
    refine ⟨min (cache.cap - 1)
      (c.mostOthers key data.length), ?_, hOthers, ?_, ?_, ?_⟩
    · omega
    · intro _
      refine ⟨hEntries.trans (by rw [hOthers]), ?_, by omega⟩
      exact hSpace.mono (Nat.min_le_right _ _)
    · intro m hLess hRoom hPlace
      have hIn : key ∈ c'.keys := by
        unfold keys
        rw [hEntries]
        exact List.mem_cons_self
      have hBelow : m ≤ c.mostOthers key data.length :=
        Nat.le_findGreatest hLess hRoom
      have hLast := hPlace hIn
      omega
    · intro hNone
      exact absurd ⟨0, Nat.zero_le _, hZero.mpr hFits⟩ hNone
  · rw [if_neg hFits] at hEntries
    have hNever (m : Nat) :
        ¬ c.SpaciousWith key data.length m := by
      intro hSpace
      exact hFits (hZero.mp (hSpace.mono (Nat.zero_le m)))
    refine ⟨0, Nat.zero_le _, ?_, ?_, ?_, ?_⟩
    · unfold others
      rw [hEntries]
      rfl
    · rintro ⟨m, _, hSpace⟩
      exact absurd hSpace (hNever m)
    · intro m _ hSpace
      exact absurd hSpace (hNever m)
    · intro _
      unfold keys
      rw [hEntries]
      exact ⟨rfl, List.not_mem_nil⟩

/-
  In every state of a cache whose sizes do not overflow: the
  keys held are in the order of their use, the counter
  covers their data, and an insertion of data that is not
  too large evicts the least recently used of the others,
  and no more of them than it must.
-/
theorem insert_evicts_least
    (maxSizeMb : UInt64)
    (hSome : 1 ≤ maxSizeMb)
    (hEntries : 4 * maxSizeMb.toNat < 2 ^ 64)
    (hBytes :
      maxSizeMb.toNat * mebibyte + maxFileSize < 2 ^ 64)
    (calls : List CacheCall)
    (path compression : String)
    (modified : Time)
    (data : List UInt8)
    (hSize : data.length ≤ maxFileSize) :
    (recency maxSizeMb calls).Nodup ∧
      (after maxSizeMb calls).keys.Sublist
        (recency maxSizeMb calls) ∧
      (after maxSizeMb calls).replaced
            ⟨path, compression, modified⟩ +
          sizes ((after maxSizeMb calls).others
            ⟨path, compression, modified⟩) ≤
        (after maxSizeMb calls).currentSize ∧
      ∃ n,
        EvictsLeast (max (4 * maxSizeMb.toNat) 100)
          ⟨path, compression, modified⟩ data
          (after maxSizeMb calls)
          ((after maxSizeMb calls).insert path compression
            modified data) n := by
  have hTight :=
    tight_after hEntries (by omega) calls
  rcases (cache_after hSome calls).1 with ⟨cache, hCache⟩
  have hPos : 0 < (after maxSizeMb calls).maxSize := by
    have hOne : 1 ≤ maxSizeMb.toNat := hSome
    have hMega : 0 < mebibyte := by decide
    rw [hTight.maxSize]
    exact Nat.mul_pos hOne hMega
  refine ⟨nodup_recency maxSizeMb calls,
    keys_sublist_recency maxSizeMb calls, ?_, ?_⟩
  · rw [replaced_add_others]
    exact hTight.sound
  · rw [← hTight.capped cache hCache]
    exact evictsLeast_insert hCache hTight.sound path
      compression modified hSize hPos

/- A hundred keys fill the cache; the first is used again. -/
def fillCalls : List CacheCall :=
  (List.range 100).map (fun i => .insert "" "" i []) ++
    [.get "" "" 0]

/- One more drives out the second of them, and no other. -/
theorem insert_evicts_least_full :
    (after 1 fillCalls).keys =
        ⟨"", "", 0⟩ :: (List.range' 1 99).reverse.map
          (fun i : Nat => ⟨"", "", i⟩) ∧
      EvictsLeast 100 ⟨"a", "", 0⟩ [1] (after 1 fillCalls)
        ((after 1 fillCalls).insert "a" "" 0 [1]) 99 := by
  have hFull :
      (after 1 fillCalls).keys =
          ⟨"", "", 0⟩ :: (List.range' 1 99).reverse.map
            (fun i : Nat => ⟨"", "", i⟩) ∧
        ((after 1 fillCalls).others ⟨"a", "", 0⟩).length =
          100 ∧
        (after 1 fillCalls).SpaciousWith ⟨"a", "", 0⟩ 1 99 := by
    unfold SpaciousWith
    decide +kernel
  rcases hFull with ⟨hKeys, hLength, hSpace⟩
  rcases (insert_evicts_least 1 (by decide) (by decide)
      (by decide) fillCalls "a" "" 0 [1] (by decide)).2.2.2 with
    ⟨n, hEvicts⟩
  have hMany :
      99 ≤ ((after 1 fillCalls).others ⟨"a", "", 0⟩).length := by
    omega
  have hMost :=
    (hEvicts.admitted ⟨99, hMany, hSpace⟩).2.2
  have hLeast :=
    hEvicts.largest 99 hMany hSpace (fun _ => by decide)
  have hAll : n = 99 := by
    change n + 1 ≤ 100 at hMost
    omega
  rw [hAll] at hEvicts
  exact ⟨hKeys, hEvicts⟩

end CompressionCache

end Mles
