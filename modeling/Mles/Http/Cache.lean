import Mles.Library.Lru
import Mles.Types
import Mathlib.Data.Nat.Log

/-
  The cache of compressed files (`src/cache.rs`).

  A `CompressionCache` bounds the bytes it holds itself, by
  a counter `current_size`, and leaves the number of entries
  to the `LruCache` inside it.  When that one is full, it
  drops an entry by itself, and the counter is not told: the
  difference between the counter and the bytes really held
  (`drift`) never goes away, short of `clear`.

  Key definitions include:
    * `CompressionCache.new`
    * `CompressionCache.makeSpace`
    * `CompressionCache.get`
    * `CompressionCache.insert`
    * `CompressionCache.drift`
    * `CompressionCache.dropped`
    * `CompressionCache.Holds`

  Key theorems include:
    * `CompressionCache.evict_spec`
    * `CompressionCache.drift_step`
    * `CompressionCache.exact_iff_nothing_dropped`
    * `CompressionCache.get_insert_iff`
    * `CompressionCache.Holds.of_insert`
-/

------------------------------------------------------------
-- Entries
------------------------------------------------------------

namespace Mles

/- `MB`. -/
def mebibyte : Nat := 1024 * 1024

/- `MAX_FILE_SIZE`. -/
def maxFileSize : Nat := 12 * mebibyte

structure CacheKey where
  path : String
  compression : String
  modified : Time
deriving DecidableEq, Repr

/- The size is that of the data. -/
structure CacheEntry where
  data : List UInt8
  size : Nat
  sized : size = data.length

def CacheEntry.new
    (data : List UInt8) : CacheEntry where
  data := data
  size := data.length
  sized := rfl

/- No cache if the size is zero. -/
structure CompressionCache where
  cache : Option (Lru CacheKey CacheEntry)
  currentSize : Nat
  maxSize : Nat

namespace CompressionCache

/- The entries that `LruCache::new` reserves room for. -/
def capacity (maxSizeMb : UInt64) : Nat :=
  max (maxSizeMb.toNat * 4 % 2 ^ 64) 100

/-
  The products wrap around, as `usize` does.  The counter
  never exceeds `max_size`, so that its sums stay below
  `2 ^ 64` for every size that fits into memory.  This is
  the cache once its table is allocated; the start-up is
  where that may fail.
-/
def new (maxSizeMb : UInt64) : CompressionCache :=
  if maxSizeMb = 0 then
    { cache := none, currentSize := 0, maxSize := 0 }
  else
    { cache := some (Lru.new (capacity maxSizeMb)
        (Nat.lt_of_lt_of_le (Nat.succ_pos 99)
          (Nat.le_max_right _ 100)))
      currentSize := 0
      maxSize := maxSizeMb.toNat * mebibyte % 2 ^ 64 }

/-
  The bytes of a hash table for so many entries: a power of
  two of buckets, of which at most seven in eight are used,
  each with two words and a control byte, and one group of
  control bytes more.
-/
def tableBytes (entries : Nat) : Nat :=
  2 ^ Nat.clog 2 (entries * 8 / 7) * 17 + 16

/-
  Remove least recently used entries until there is space.
  An empty cache ends the loop, so that the first argument
  may be the number of entries.
-/
def evict
    (requiredSize maxSize : Nat) : Nat →
      Lru CacheKey CacheEntry → Nat →
        Lru CacheKey CacheEntry × Nat
| 0, cache, currentSize => (cache, currentSize)
| n + 1, cache, currentSize =>
    if currentSize + requiredSize > maxSize then
      match cache.popLru with
      | (some (_, entry), cache) =>
          evict requiredSize maxSize n cache
            (currentSize - entry.size)
      | (none, cache) => (cache, currentSize)
    else
      (cache, currentSize)

def makeSpace
    (requiredSize : Nat)
    (c : CompressionCache) : CompressionCache :=
  match c.cache with
  | none => c
  | some cache =>
      if c.maxSize = 0 ∨ requiredSize > maxFileSize then c
      else
        let (cache, currentSize) :=
          evict requiredSize c.maxSize cache.len cache
            c.currentSize
        { c with
          cache := some cache
          currentSize := currentSize }

def get
    (path compression : String)
    (modified : Time)
    (c : CompressionCache) :
    Option (List UInt8) × CompressionCache :=
  match c.cache with
  | none => (none, c)
  | some cache =>
      let key := ⟨path, compression, modified⟩
      let (entry, cache) := cache.get key
      (entry.map CacheEntry.data,
        { c with cache := some cache })

/- Remove an existing entry, to update the size. -/
def popKey
    (key : CacheKey)
    (c : CompressionCache) : CompressionCache :=
  match c.cache with
  | none => c
  | some cache =>
      match cache.pop key with
      | (some oldEntry, cache) =>
          { c with
            cache := some cache
            currentSize := c.currentSize - oldEntry.size }
      | (none, cache) => { c with cache := some cache }

def insert
    (path compression : String)
    (modified : Time)
    (data : List UInt8)
    (c : CompressionCache) : CompressionCache :=
  match c.cache with
  | none => c
  | some _ =>
      let size := data.length
      if size > maxFileSize then c
      else
        let key := ⟨path, compression, modified⟩
        let c := (c.popKey key).makeSpace size
        if c.maxSize > 0 ∧ c.currentSize + size ≤ c.maxSize then
          match c.cache with
          | none => c
          | some cache =>
              { c with
                currentSize := c.currentSize + size
                cache := some (cache.put key (.new data)) }
        else c

def len (c : CompressionCache) : Nat :=
  (c.cache.map Lru.len).getD 0

def clear (c : CompressionCache) : CompressionCache :=
  match c.cache with
  | none => c
  | some cache =>
      { c with cache := some cache.clear, currentSize := 0 }

end CompressionCache

/- The calls that change a cache. -/
inductive CacheCall where
| get (path compression : String) (modified : Time)
| insert (path compression : String) (modified : Time)
    (data : List UInt8)
| clear
deriving DecidableEq, Repr

namespace CompressionCache

def step
    (c : CompressionCache) : CacheCall → CompressionCache
| .get path compression modified =>
    (c.get path compression modified).2
| .insert path compression modified data =>
    c.insert path compression modified data
| .clear => c.clear

/- The cache after a sequence of calls. -/
def after
    (maxSizeMb : UInt64)
    (calls : List CacheCall) : CompressionCache :=
  calls.foldl step (new maxSizeMb)

/- The sum of the sizes of the entries. -/
def held (c : CompressionCache) : Nat :=
  (c.cache.map (Lru.weight CacheEntry.size)).getD 0

/- What the counter says too much. -/
def drift (c : CompressionCache) : Nat :=
  c.currentSize - c.held

end CompressionCache

end Mles

------------------------------------------------------------
-- Making Space
------------------------------------------------------------

namespace Mles

namespace CompressionCache

/-
  What the eviction loop leaves: the counter goes down with
  the entries, and the loop ends with enough space or with
  no entry.
-/
structure Evicted
    (requiredSize maxSize : Nat)
    (cache : Lru CacheKey CacheEntry)
    (currentSize : Nat)
    (cache' : Lru CacheKey CacheEntry)
    (currentSize' : Nat) : Prop where
  cap : cache'.cap = cache.cap
  len : cache'.len ≤ cache.len
  sizes :
    currentSize' + cache.weight CacheEntry.size =
      currentSize + cache'.weight CacheEntry.size
  enough :
    0 < maxSize →
      currentSize' + requiredSize ≤ maxSize ∨ cache'.len = 0
  needed :
    currentSize + requiredSize ≤ maxSize →
      cache' = cache ∧ currentSize' = currentSize
  fewer :
    0 < maxSize →
      maxSize < currentSize + requiredSize →
        cache'.len = 0 ∨ cache'.len < cache.len
  kept :
    ∀ k e, cache'.peek k = some e → cache.peek k = some e

theorem evict_spec
    {requiredSize maxSize n currentSize : Nat}
    {cache : Lru CacheKey CacheEntry}
    (hLen : cache.len = n)
    (hHeld : cache.weight CacheEntry.size ≤ currentSize) :
    Evicted requiredSize maxSize cache currentSize
      (evict requiredSize maxSize n cache currentSize).1
      (evict requiredSize maxSize n cache currentSize).2 := by
  induction n generalizing cache currentSize with
  | zero =>
      exact ⟨rfl, Nat.le_refl _, rfl, fun _ => Or.inr hLen,
        fun _ => ⟨rfl, rfl⟩, fun _ _ => Or.inl hLen,
        fun _ _ hPeek => hPeek⟩
  | succ n ih =>
      unfold evict
      by_cases hFits : currentSize + requiredSize ≤ maxSize
      · rw [if_neg (by omega)]
        exact ⟨rfl, Nat.le_refl _, rfl, fun _ => Or.inl hFits,
          fun _ => ⟨rfl, rfl⟩, fun _ hMore => by omega,
          fun _ _ hPeek => hPeek⟩
      · rw [if_pos (by omega)]
        rcases Lru.exists_lru (show 0 < cache.len by omega) with
          ⟨k, entry, hLru, hPeek⟩
        have hFewer := Lru.len_erase_of_some hPeek
        have hLighter :=
          Lru.weight_erase_of_some CacheEntry.size hPeek
        have hShorter : (cache.erase k).len = n := by omega
        have hStill :
            (cache.erase k).weight CacheEntry.size ≤
              currentSize - entry.size := by
          omega
        have hRest := ih hShorter hStill
        rw [Lru.popLru_of_some hLru]
        simp only
        have hSizes := hRest.sizes
        have hLess := hRest.len
        refine ⟨hRest.cap, by omega, by omega,
          hRest.enough, fun hSmall => by omega,
          fun _ _ => Or.inr (by omega), ?_⟩
        intro k' e hLeft
        have hErased := hRest.kept k' e hLeft
        rw [Lru.peek_erase] at hErased
        by_cases hKey : k' = k
        · rw [if_pos hKey] at hErased
          cases hErased
        · rw [if_neg hKey] at hErased
          exact hErased

------------------------------------------------------------
-- Inserting
------------------------------------------------------------

/- The counter covers the entries. -/
def Sound (c : CompressionCache) : Prop :=
  c.held ≤ c.currentSize

/-
  A cache that is ready for the new entry: the old one is
  gone, and there is as much space as can be made.
-/
structure Ready
    (key : CacheKey)
    (size : Nat)
    (c : CompressionCache)
    (cache : Lru CacheKey CacheEntry)
    (cache' : Lru CacheKey CacheEntry)
    (currentSize' : Nat) : Prop where
  cap : cache'.cap = cache.cap
  vacant : cache'.peek key = none
  sound : cache'.weight CacheEntry.size ≤ currentSize'
  drift :
    currentSize' - cache'.weight CacheEntry.size = c.drift
  enough :
    0 < c.maxSize →
      currentSize' + size ≤ c.maxSize ∨ cache'.len = 0
  full :
    0 < c.maxSize →
      (cache'.len = cache'.cap ↔
        cache.peek key = none ∧ cache.len = cache.cap ∧
          c.currentSize + size ≤ c.maxSize)
  last :
    cache.peek key = none →
      c.currentSize + size ≤ c.maxSize →
        cache'.lru = cache.lru
  kept :
    ∀ k e, cache'.peek k = some e → cache.peek k = some e

theorem popKey_eq
    {c : CompressionCache}
    {cache : Lru CacheKey CacheEntry}
    (hCache : c.cache = some cache)
    (key : CacheKey) :
    c.popKey key =
      { c with
        cache := some (cache.erase key)
        currentSize :=
          c.currentSize -
            ((cache.peek key).map CacheEntry.size).getD 0 } := by
  unfold popKey Lru.pop
  rw [hCache]
  cases hPeek : cache.peek key with
  | none => simp [hPeek]
  | some old => simp [hPeek]

/- Removing the old entry keeps the drift. -/
theorem weight_erase_popKey
    {c : CompressionCache}
    {cache : Lru CacheKey CacheEntry}
    (hCache : c.cache = some cache)
    (hSound : c.Sound)
    (key : CacheKey) :
    let old := ((cache.peek key).map CacheEntry.size).getD 0
    (cache.erase key).weight CacheEntry.size + old =
        cache.weight CacheEntry.size ∧
      cache.weight CacheEntry.size ≤ c.currentSize := by
  have hHeld : cache.weight CacheEntry.size ≤ c.currentSize := by
    simpa [Sound, held, hCache] using hSound
  refine ⟨?_, hHeld⟩
  cases hPeek : cache.peek key with
  | none => simp [Lru.erase_of_none hPeek]
  | some old =>
      simpa using
        Lru.weight_erase_of_some CacheEntry.size hPeek

/- The eviction loop leaves a ready cache. -/
theorem ready_of_evicted
    {c : CompressionCache}
    {cache cache' : Lru CacheKey CacheEntry}
    {key : CacheKey}
    {size currentSize' : Nat}
    (hCache : c.cache = some cache)
    (hSound : c.Sound)
    (hEvicted :
      Evicted size c.maxSize (cache.erase key)
        (c.currentSize -
          ((cache.peek key).map CacheEntry.size).getD 0)
        cache' currentSize') :
    Ready key size c cache cache' currentSize' := by
  have hErased := weight_erase_popKey hCache hSound key
  have hSizes := hEvicted.sizes
  have hHeld : c.held = cache.weight CacheEntry.size := by
    simp [held, hCache]
  have hVacant : (cache.erase key).peek key = none := by
    rw [Lru.peek_erase, if_pos rfl]
  have hLess := cache.len_erase_le key
  have hShorter := hEvicted.len
  have hCap : cache'.cap = cache.cap := hEvicted.cap
  have hBounded : cache.len ≤ cache.cap := cache.bounded
  have hPos := cache.pos
  dsimp only at hErased
  refine ⟨hCap, ?_, by omega, ?_, hEvicted.enough, ?_, ?_, ?_⟩
  · by_contra hSome
    rcases Option.ne_none_iff_exists'.mp hSome with ⟨e, hPeek⟩
    have hOld := hEvicted.kept key e hPeek
    rw [hVacant] at hOld
    cases hOld
  · unfold drift
    omega
  · intro hSome
    constructor
    · intro hFull
      have hNew : cache.peek key = none := by
        by_contra hSome
        rcases Option.ne_none_iff_exists'.mp hSome with
          ⟨old, hPeek⟩
        have hOne := Lru.len_erase_of_some hPeek
        omega
      have hKept := hEvicted.fewer hSome
      simp only [hNew, Option.map_none, Option.getD_none,
        Nat.sub_zero] at hKept
      exact ⟨hNew, by omega, by omega⟩
    · rintro ⟨hNew, hFull, hFits⟩
      have hSame := hEvicted.needed
      simp only [hNew, Option.map_none, Option.getD_none,
        Nat.sub_zero] at hSame
      rw [(hSame hFits).1, Lru.erase_of_none hNew]
      exact hFull
  · intro hNew hFits
    have hSame := hEvicted.needed
    simp only [hNew, Option.map_none, Option.getD_none,
      Nat.sub_zero] at hSame
    rw [(hSame hFits).1, Lru.erase_of_none hNew]
  · intro k e hPeek
    have hOld := hEvicted.kept k e hPeek
    rw [Lru.peek_erase] at hOld
    by_cases hKey : k = key
    · rw [if_pos hKey] at hOld
      cases hOld
    · rw [if_neg hKey] at hOld
      exact hOld

/- What `insert` makes of a cache, by its two halves. -/
theorem exists_ready
    {c : CompressionCache}
    {cache : Lru CacheKey CacheEntry}
    (hCache : c.cache = some cache)
    (hSound : c.Sound)
    (key : CacheKey)
    {size : Nat}
    (hSize : size ≤ maxFileSize) :
    ∃ cache' currentSize',
      Ready key size c cache cache' currentSize' ∧
        (c.popKey key).makeSpace size =
          { c with
            cache := some cache'
            currentSize := currentSize' } := by
  have hErased := weight_erase_popKey hCache hSound key
  dsimp only at hErased
  rw [popKey_eq hCache key]
  unfold makeSpace
  by_cases hZero : c.maxSize = 0
  · have hEvicted :
        Evicted size c.maxSize (cache.erase key)
          (c.currentSize -
            ((cache.peek key).map CacheEntry.size).getD 0)
          (cache.erase key)
          (c.currentSize -
            ((cache.peek key).map CacheEntry.size).getD 0) :=
      ⟨rfl, Nat.le_refl _, rfl, fun hPos => by omega,
        fun _ => ⟨rfl, rfl⟩, fun hPos => by omega,
        fun _ _ hPeek => hPeek⟩
    refine ⟨_, _, ready_of_evicted hCache hSound hEvicted, ?_⟩
    simp only [hZero, true_or, if_true]
  · have hEvicted := @evict_spec size c.maxSize
      (cache.erase key).len
      (c.currentSize -
        ((cache.peek key).map CacheEntry.size).getD 0)
      (cache.erase key) rfl (by omega)
    refine ⟨_, _, ready_of_evicted hCache hSound hEvicted, ?_⟩
    have hGo : ¬ (c.maxSize = 0 ∨ size > maxFileSize) := by
      omega
    simp only
    rw [if_neg hGo]

theorem insert_eq
    {c : CompressionCache}
    {cache : Lru CacheKey CacheEntry}
    (hCache : c.cache = some cache)
    (hSound : c.Sound)
    (path compression : String)
    (modified : Time)
    {data : List UInt8}
    (hSize : data.length ≤ maxFileSize) :
    ∃ cache' currentSize',
      Ready ⟨path, compression, modified⟩ data.length c cache
        cache' currentSize' ∧
      c.insert path compression modified data =
        if c.maxSize > 0 ∧
            currentSize' + data.length ≤ c.maxSize then
          { c with
            cache := some
              (cache'.put ⟨path, compression, modified⟩
                (.new data))
            currentSize := currentSize' + data.length }
        else
          { c with
            cache := some cache'
            currentSize := currentSize' } := by
  rcases exists_ready hCache hSound
      ⟨path, compression, modified⟩ hSize with
    ⟨cache', currentSize', hReady, hEq⟩
  refine ⟨cache', currentSize', hReady, ?_⟩
  unfold insert
  rw [hCache]
  simp only
  rw [if_neg (Nat.not_lt.mpr hSize), hEq]

/- Without a cache, or with too much data, nothing is done. -/
theorem insert_of_none
    {c : CompressionCache}
    (hCache : c.cache = none)
    (path compression : String)
    (modified : Time)
    (data : List UInt8) :
    c.insert path compression modified data = c := by
  unfold insert
  rw [hCache]

theorem insert_of_large
    (c : CompressionCache)
    (path compression : String)
    (modified : Time)
    {data : List UInt8}
    (hLarge : maxFileSize < data.length) :
    c.insert path compression modified data = c := by
  unfold insert
  cases c.cache with
  | none => rfl
  | some cache =>
      simp only
      rw [if_pos hLarge]

theorem evict_of_fits
    {requiredSize maxSize currentSize : Nat}
    (hFits : currentSize + requiredSize ≤ maxSize)
    (n : Nat)
    (cache : Lru CacheKey CacheEntry) :
    evict requiredSize maxSize n cache currentSize =
      (cache, currentSize) := by
  cases n with
  | zero => rfl
  | succ n =>
      unfold evict
      rw [if_neg (Nat.not_lt.mpr hFits)]

/- New data for which there is space drives nothing out. -/
theorem insert_of_space
    {c : CompressionCache}
    {cache : Lru CacheKey CacheEntry}
    (hCache : c.cache = some cache)
    {path compression : String}
    {modified : Time}
    (hNew : cache.peek ⟨path, compression, modified⟩ = none)
    {data : List UInt8}
    (hSize : data.length ≤ maxFileSize)
    (hPos : 0 < c.maxSize)
    (hFits : c.currentSize + data.length ≤ c.maxSize) :
    c.insert path compression modified data =
      { c with
        cache := some
          (cache.put ⟨path, compression, modified⟩ (.new data))
        currentSize := c.currentSize + data.length } := by
  have hPop : c.popKey ⟨path, compression, modified⟩ = c := by
    rw [popKey_eq hCache, hNew, Lru.erase_of_none hNew,
      ← hCache]
    rfl
  have hSpace : c.makeSpace data.length = c := by
    unfold makeSpace
    rw [hCache]
    simp only
    split
    · rfl
    · rw [evict_of_fits hFits, ← hCache]
  unfold insert
  rw [hCache]
  simp only
  rw [if_neg (Nat.not_lt.mpr hSize), hPop, hSpace,
    if_pos ⟨hPos, hFits⟩, hCache]

end CompressionCache

end Mles

------------------------------------------------------------
-- The Counter
------------------------------------------------------------

namespace Mles

namespace CompressionCache

/-
  The bytes a call lets the inner cache drop by itself: a
  new key comes into a cache that holds as many entries as
  it can, and by the counter there is space for its data.
-/
def dropped
    (c : CompressionCache) : CacheCall → Nat
| .insert path compression modified data =>
    match c.cache with
    | none => 0
    | some cache =>
        if data.length ≤ maxFileSize ∧
            cache.peek ⟨path, compression, modified⟩ = none ∧
            cache.len = cache.cap ∧
            0 < c.maxSize ∧
            c.currentSize + data.length ≤ c.maxSize then
          (cache.lru.map (fun last => last.2.size)).getD 0
        else 0
| .get _ _ _ => 0
| .clear => 0

/- An entry dropped so stays in the counter. -/
theorem drift_insert
    {c : CompressionCache}
    (hSound : c.Sound)
    (path compression : String)
    (modified : Time)
    (data : List UInt8) :
    (c.insert path compression modified data).Sound ∧
      (c.insert path compression modified data).drift =
        c.drift +
          c.dropped
            (.insert path compression modified data) := by
  cases hCache : c.cache with
  | none =>
      rw [insert_of_none hCache]
      simp [dropped, hCache, hSound]
  | some cache =>
      by_cases hLarge : maxFileSize < data.length
      · rw [insert_of_large c path compression modified hLarge]
        have hNot : ¬ data.length ≤ maxFileSize := by omega
        simp [dropped, hCache, hSound, hNot]
      · have hSize : data.length ≤ maxFileSize := by omega
        rcases insert_eq hCache hSound path compression
            modified hSize with
          ⟨cache', currentSize', hReady, hEq⟩
        have hOver := hReady.sound
        have hDrift := hReady.drift
        rw [hEq]
        simp only [dropped, hCache]
        by_cases hStored :
            c.maxSize > 0 ∧
              currentSize' + data.length ≤ c.maxSize
        · rw [if_pos hStored]
          have hFullIff := hReady.full hStored.1
          by_cases hFull : cache'.len = cache'.cap
          · -- The inner cache drops its last entry.
            rcases hFullIff.mp hFull with ⟨hNew, hLen, hFits⟩
            rw [if_pos ⟨hSize, hNew, hLen, hStored.1, hFits⟩]
            rcases Lru.weight_put_of_full CacheEntry.size
                hReady.vacant hFull (CacheEntry.new data) with
              ⟨last, hLast, hWeight⟩
            rw [← hReady.last hNew hFits, hLast]
            simp only [Sound, held, drift, Option.map_some,
              Option.getD_some, CacheEntry.new] at *
            omega
          · rw [if_neg]
            · have hRoom : cache'.len < cache'.cap :=
                Nat.lt_of_le_of_ne cache'.bounded hFull
              have hWeight :=
                Lru.weight_put_of_room CacheEntry.size
                  hReady.vacant hRoom (CacheEntry.new data)
              simp only [Sound, held, drift, Option.map_some,
                Option.getD_some, CacheEntry.new] at *
              omega
            · rintro ⟨_, hNew, hLen, _, hFits⟩
              exact hFull (hFullIff.mpr ⟨hNew, hLen, hFits⟩)
        · rw [if_neg hStored, if_neg]
          · simp only [Sound, held, drift, Option.map_some,
              Option.getD_some] at *
            omega
          · -- A full cache with space takes the entry.
            rintro ⟨_, hNew, hLen, hPos, hFits⟩
            have hFull :=
              (hReady.full hPos).mpr ⟨hNew, hLen, hFits⟩
            have hSome := cache'.pos
            rcases hReady.enough hPos with hEnough | hEmpty
            · exact hStored ⟨hPos, hEnough⟩
            · omega

theorem sound_get
    {c : CompressionCache}
    (hSound : c.Sound)
    (path compression : String)
    (modified : Time) :
    (c.get path compression modified).2.Sound ∧
      (c.get path compression modified).2.drift = c.drift := by
  unfold get
  cases hCache : c.cache with
  | none => exact ⟨hSound, rfl⟩
  | some cache =>
      have hHeld :
          cache.weight CacheEntry.size ≤ c.currentSize := by
        simpa [Sound, held, hCache] using hSound
      simp [Sound, held, drift, hCache, Lru.weight_get, hHeld]

theorem sound_clear
    {c : CompressionCache}
    (hSound : c.Sound) :
    c.clear.Sound ∧ c.clear.drift ≤ c.drift := by
  unfold clear
  cases hCache : c.cache with
  | none => exact ⟨hSound, Nat.le_refl _⟩
  | some cache =>
      have hEmpty :
          cache.clear.weight CacheEntry.size = 0 :=
        Lru.weight_of_len_zero CacheEntry.size rfl
      simp [Sound, held, drift, hEmpty]

/- What one call does to the drift. -/
theorem drift_step
    {c : CompressionCache}
    (hSound : c.Sound)
    (call : CacheCall) :
    (c.step call).Sound ∧
      c.dropped call ≤ (c.step call).drift ∧
      (c.step call).drift ≤ c.drift + c.dropped call := by
  cases call with
  | get path compression modified =>
      rcases sound_get hSound path compression modified with
        ⟨hKept, hSame⟩
      refine ⟨hKept, Nat.zero_le _, ?_⟩
      exact Nat.le_of_eq hSame
  | insert path compression modified data =>
      rcases drift_insert hSound path compression modified
          data with ⟨hKept, hMore⟩
      refine ⟨hKept, ?_, Nat.le_of_eq hMore⟩
      simp only [step]
      omega
  | clear =>
      rcases sound_clear hSound with ⟨hKept, hLess⟩
      exact ⟨hKept, Nat.zero_le _, hLess⟩

theorem after_snoc
    (maxSizeMb : UInt64)
    (calls : List CacheCall)
    (call : CacheCall) :
    after maxSizeMb (calls ++ [call]) =
      (after maxSizeMb calls).step call := by
  simp [after]

theorem held_new
    (maxSizeMb : UInt64) :
    (new maxSizeMb).held = 0 ∧
      (new maxSizeMb).currentSize = 0 := by
  unfold new held
  by_cases hZero : maxSizeMb = 0
  · simp [hZero]
  · simp only [hZero, if_false, Option.map_some,
      Option.getD_some, and_true]
    exact Lru.weight_of_len_zero CacheEntry.size rfl

theorem sound_after
    (maxSizeMb : UInt64)
    (calls : List CacheCall) :
    (after maxSizeMb calls).Sound := by
  induction calls using List.reverseRecOn with
  | nil =>
      rcases held_new maxSizeMb with ⟨hHeld, _⟩
      change (new maxSizeMb).held ≤ _
      rw [hHeld]
      exact Nat.zero_le _
  | append_singleton calls call ih =>
      rw [after_snoc]
      exact (drift_step ih call).1

/- The counter is right exactly when there is no drift. -/
theorem currentSize_eq_held_iff
    {c : CompressionCache}
    (hSound : c.Sound) :
    c.currentSize = c.held ↔ c.drift = 0 := by
  unfold Sound at hSound
  unfold drift
  omega

/-
  Over a sequence of calls: the counter is the sum of the
  sizes at every point of it, exactly when no call lets the
  inner cache drop an entry with content.
-/
theorem exact_iff_nothing_dropped
    (maxSizeMb : UInt64)
    (calls : List CacheCall) :
    (∀ part, part <+: calls →
      (after maxSizeMb part).currentSize =
        (after maxSizeMb part).held) ↔
      ∀ part call, part ++ [call] <+: calls →
        (after maxSizeMb part).dropped call = 0 := by
  constructor
  · intro hExact part call hPrefix
    have hSound := sound_after maxSizeMb part
    have hStep := drift_step hSound call
    have hNext := hExact _ hPrefix
    rw [after_snoc, currentSize_eq_held_iff hStep.1] at hNext
    omega
  · intro hNone part hPrefix
    rw [currentSize_eq_held_iff (sound_after maxSizeMb part)]
    induction part using List.reverseRecOn with
    | nil =>
        rcases held_new maxSizeMb with ⟨_, hSize⟩
        change (new maxSizeMb).currentSize - _ = 0
        rw [hSize]
        exact Nat.zero_sub _
    | append_singleton part call ih =>
        have hStep :=
          drift_step (sound_after maxSizeMb part) call
        have hBefore :=
          ih ((List.prefix_append part [call]).trans hPrefix)
        have hZero := hNone part call hPrefix
        rw [after_snoc]
        omega

/- Files of one byte, each written at its own time. -/
def oneByteFiles (n : Nat) : List CacheCall :=
  (List.range n).map (fun i => .insert "a" "br" i [0])

theorem oneByteFiles_succ
    (n : Nat) :
    oneByteFiles (n + 1) =
      oneByteFiles n ++ [.insert "a" "br" n [0]] := by
  simp [oneByteFiles, List.range_succ]

/-
  The cache of one megabyte after `n` files of one byte, as
  long as it has room for them.
-/
structure Filled
    (n : Nat)
    (cache : Lru CacheKey CacheEntry) : Prop where
  after : after 1 (oneByteFiles n) = ⟨some cache, n, mebibyte⟩
  cap : cache.cap = 100
  len : cache.len = n
  drift : (CompressionCache.after 1 (oneByteFiles n)).drift = 0
  keys :
    ∀ k e, cache.peek k = some e →
      k.modified < n ∧ e.size = 1

theorem Filled.vacant
    {n : Nat}
    {cache : Lru CacheKey CacheEntry}
    (hFilled : Filled n cache) :
    cache.peek ⟨"a", "br", n⟩ = none := by
  by_contra hSome
  rcases Option.ne_none_iff_exists'.mp hSome with ⟨e, hPeek⟩
  exact absurd (hFilled.keys _ e hPeek).1 (Int.lt_irrefl _)

theorem Filled.succ
    {n : Nat}
    {cache : Lru CacheKey CacheEntry}
    (hFilled : Filled n cache)
    (hRoom : n < 100) :
    Filled (n + 1)
      (cache.put ⟨"a", "br", n⟩ (.new [0])) where
  after := by
    rw [oneByteFiles_succ, after_snoc, hFilled.after]
    have hFits : n + [(0 : UInt8)].length ≤ mebibyte := by
      simp only [mebibyte, List.length_singleton]
      omega
    exact @insert_of_space ⟨some cache, n, mebibyte⟩ cache rfl
      "a" "br" n hFilled.vacant [0] (by decide)
      (show 0 < mebibyte by decide) hFits
  cap := by
    rw [Lru.cap_put, hFilled.cap]
  len := by
    have hLen := hFilled.len
    have hCap := hFilled.cap
    rw [Lru.len_put_of_room hFilled.vacant (by omega), hLen]
  drift := by
    have hNone :
        (CompressionCache.after 1 (oneByteFiles n)).dropped
          (.insert "a" "br" n [0]) = 0 := by
      simp only [dropped, hFilled.after]
      rw [if_neg]
      rintro ⟨_, _, hFull, _⟩
      have hLen := hFilled.len
      have hCap := hFilled.cap
      omega
    rw [oneByteFiles_succ, after_snoc]
    simp only [step]
    rw [(drift_insert (sound_after 1 _) _ _ _ _).2, hNone,
      hFilled.drift]
  keys := by
    intro k e hPeek
    rcases Lru.peek_put hPeek with ⟨rfl, rfl⟩ | hOld
    · exact ⟨by simp, rfl⟩
    · rcases hFilled.keys k e hOld with ⟨hEarlier, hOne⟩
      exact ⟨lt_trans hEarlier (by simp), hOne⟩

theorem exists_filled
    {n : Nat}
    (hFew : n ≤ 100) :
    ∃ cache, Filled n cache := by
  induction n with
  | zero =>
      refine ⟨_, rfl, rfl, rfl, rfl, ?_⟩
      intro k e hPeek
      cases hPeek
  | succ n ih =>
      rcases ih (Nat.le_of_succ_le hFew) with ⟨cache, hFilled⟩
      exact ⟨_, hFilled.succ hFew⟩

/- The file that finds no room costs one of the others. -/
theorem Filled.drift_succ
    {n : Nat}
    {cache : Lru CacheKey CacheEntry}
    (hFilled : Filled n cache)
    (hFull : n = 100) :
    (CompressionCache.after 1 (oneByteFiles (n + 1))).drift =
      1 := by
  have hLen := hFilled.len
  have hCap := hFilled.cap
  have hFits : n + [(0 : UInt8)].length ≤ mebibyte := by
    simp only [mebibyte, List.length_singleton]
    omega
  have hDropped :
      (CompressionCache.after 1 (oneByteFiles n)).dropped
        (.insert "a" "br" n [0]) = 1 := by
    simp only [dropped, hFilled.after]
    rw [if_pos ⟨by decide, hFilled.vacant, by omega,
      by decide, hFits⟩]
    cases hLru : cache.lru with
    | none =>
        have hEmpty := Lru.lru_eq_none_iff.mp hLru
        omega
    | some last =>
        exact (hFilled.keys _ _ (Lru.peek_of_lru hLru)).2
  rw [oneByteFiles_succ, after_snoc]
  simp only [step]
  rw [(drift_insert (sound_after 1 _) _ _ _ _).2, hDropped,
    hFilled.drift]

/- One file more than a cache of one megabyte has entries. -/
theorem drift_oneByteFiles :
    (after 1 (oneByteFiles 101)).drift = 1 := by
  rcases exists_filled (Nat.le_refl 100) with
    ⟨cache, hFilled⟩
  exact hFilled.drift_succ rfl

theorem counter_off_by_one :
    ∃ calls,
      calls = oneByteFiles 101 ∧
        (after 1 calls).currentSize ≠ (after 1 calls).held := by
  refine ⟨_, rfl, ?_⟩
  rw [ne_eq, currentSize_eq_held_iff (sound_after 1 _),
    drift_oneByteFiles]
  exact Nat.one_ne_zero

end CompressionCache

end Mles

------------------------------------------------------------
-- Accepting Data
------------------------------------------------------------

namespace Mles

namespace CompressionCache

/- Data is kept if it fits next to the drift. -/
theorem get_insert_iff
    {c : CompressionCache}
    {cache : Lru CacheKey CacheEntry}
    (hCache : c.cache = some cache)
    (hSound : c.Sound)
    (path compression : String)
    (modified : Time)
    {data : List UInt8}
    (hSize : data.length ≤ maxFileSize) :
    ((c.insert path compression modified data).get
        path compression modified).1 = some data ↔
      0 < c.maxSize ∧ c.drift + data.length ≤ c.maxSize := by
  rcases insert_eq hCache hSound path compression modified
      hSize with ⟨cache', currentSize', hReady, hEq⟩
  have hDrift := hReady.drift
  rw [hEq]
  by_cases hStored :
      c.maxSize > 0 ∧
        currentSize' + data.length ≤ c.maxSize
  · rw [if_pos hStored]
    simp only [get, Lru.fst_get, Lru.peek_put_self,
      Option.map_some, CacheEntry.new, true_iff]
    omega
  · rw [if_neg hStored]
    simp only [get, Lru.fst_get, hReady.vacant,
      Option.map_none, reduceCtorEq, false_iff]
    rintro ⟨hPos, hFits⟩
    rcases hReady.enough hPos with hEnough | hEmpty
    · exact hStored ⟨hPos, hEnough⟩
    · have hNothing :=
        Lru.weight_of_len_zero CacheEntry.size hEmpty
      exact hStored ⟨hPos, by omega⟩

/- No call takes the inner cache away, or resizes it. -/
theorem cache_step
    {c : CompressionCache}
    {cache : Lru CacheKey CacheEntry}
    (hCache : c.cache = some cache)
    (hSound : c.Sound)
    (call : CacheCall) :
    (∃ cache', (c.step call).cache = some cache') ∧
      (c.step call).maxSize = c.maxSize := by
  cases call with
  | get path compression modified =>
      simp only [step, get, hCache]
      exact ⟨⟨_, rfl⟩, trivial⟩
  | insert path compression modified data =>
      simp only [step]
      by_cases hLarge : maxFileSize < data.length
      · rw [insert_of_large c path compression modified hLarge]
        exact ⟨⟨cache, hCache⟩, rfl⟩
      · rcases insert_eq hCache hSound path compression
            modified (Nat.not_lt.mp hLarge) with
          ⟨cache', currentSize', _, hEq⟩
        rw [hEq]
        split
        · exact ⟨⟨_, rfl⟩, rfl⟩
        · exact ⟨⟨_, rfl⟩, rfl⟩
  | clear =>
      simp only [step, clear, hCache]
      exact ⟨⟨_, rfl⟩, trivial⟩

theorem cache_after
    {maxSizeMb : UInt64}
    (hSome : 1 ≤ maxSizeMb)
    (calls : List CacheCall) :
    (∃ cache, (after maxSizeMb calls).cache = some cache) ∧
      (after maxSizeMb calls).maxSize =
        maxSizeMb.toNat * mebibyte % 2 ^ 64 := by
  induction calls using List.reverseRecOn with
  | nil =>
      have hNonzero : maxSizeMb ≠ 0 := by
        rintro rfl
        exact absurd hSome (by decide)
      change
        (∃ cache, (new maxSizeMb).cache = some cache) ∧
          (new maxSizeMb).maxSize = _
      unfold new
      rw [if_neg hNonzero]
      exact ⟨⟨_, rfl⟩, rfl⟩
  | append_singleton calls call ih =>
      rcases ih with ⟨⟨cache, hCache⟩, hMax⟩
      have hStep := cache_step hCache
        (sound_after maxSizeMb calls) call
      rw [after_snoc]
      exact ⟨hStep.1, hStep.2.trans hMax⟩

/-
  In every state a cache of some size comes to: data that is
  not too large is found right after it is inserted, exactly
  if it fits next to what the counter says too much.
-/
theorem accepts_iff
    (maxSizeMb : UInt64)
    (hSome : 1 ≤ maxSizeMb)
    (calls : List CacheCall)
    (path compression : String)
    (modified : Time)
    (data : List UInt8)
    (hSize : data.length ≤ maxFileSize) :
    (((after maxSizeMb calls).insert
        path compression modified data).get
          path compression modified).1 = some data ↔
      0 < (after maxSizeMb calls).maxSize ∧
        (after maxSizeMb calls).drift + data.length ≤
          (after maxSizeMb calls).maxSize := by
  rcases (cache_after hSome calls).1 with ⟨cache, hCache⟩
  exact get_insert_iff hCache (sound_after maxSizeMb calls)
    path compression modified hSize

theorem accepts_new_file :
    (((after 10 [.insert "file0.js" "br" 7 [9]]).insert
        "file1.js" "br" 7 [1, 2, 3]).get
          "file1.js" "br" 7).1 = some [1, 2, 3] :=
  (accepts_iff 10 (by decide) _ "file1.js" "br" 7 [1, 2, 3]
    (by decide)).mpr (by decide +kernel)

/- With any drift, data of the full size is refused. -/
theorem refuses_of_drift
    {c : CompressionCache}
    {cache : Lru CacheKey CacheEntry}
    (hCache : c.cache = some cache)
    (hSound : c.Sound)
    (hDrift : 0 < c.drift)
    (path compression : String)
    (modified : Time)
    {data : List UInt8}
    (hSize : data.length ≤ maxFileSize)
    (hFull : data.length = c.maxSize) :
    ((c.insert path compression modified data).get
        path compression modified).1 ≠ some data := by
  rw [ne_eq, get_insert_iff hCache hSound path compression
    modified hSize]
  omega

/- One byte too much in the counter, and one full megabyte. -/
theorem refuses_megabyte :
    ∃ data : List UInt8,
      data = List.replicate mebibyte 0 ∧
        data.length ≤ maxFileSize ∧
        data.length ≤ (after 1 (oneByteFiles 101)).maxSize ∧
        (((after 1 (oneByteFiles 101)).insert
            "b" "br" 0 data).get "b" "br" 0).1 ≠
          some data := by
  have hData :
      ∃ data : List UInt8,
        data = List.replicate mebibyte 0 ∧
          data.length = mebibyte :=
    ⟨_, rfl, List.length_replicate⟩
  rcases hData with ⟨data, hEq, hLength⟩
  rcases cache_after (show (1 : UInt64) ≤ 1 by decide)
      (oneByteFiles 101) with ⟨⟨cache, hCache⟩, hMax⟩
  have hSize : data.length ≤ maxFileSize := by
    rw [hLength]
    decide
  have hFull :
      data.length = (after 1 (oneByteFiles 101)).maxSize := by
    rw [hLength, hMax]
    decide
  have hDrift : 0 < (after 1 (oneByteFiles 101)).drift := by
    rw [drift_oneByteFiles]
    exact Nat.one_pos
  exact ⟨data, hEq, hSize, Nat.le_of_eq hFull,
    refuses_of_drift hCache (sound_after 1 _) hDrift "b" "br" 0
      hSize hFull⟩

end CompressionCache

end Mles

------------------------------------------------------------
-- What Is Found
------------------------------------------------------------

namespace Mles

namespace CompressionCache

/- The cache has the data under the key. -/
def Holds
    (c : CompressionCache)
    (key : CacheKey)
    (data : List UInt8) : Prop :=
  ∃ cache, c.cache = some cache ∧
    ∃ entry, cache.peek key = some entry ∧ entry.data = data

theorem not_holds_new
    (maxSizeMb : UInt64)
    (key : CacheKey)
    (data : List UInt8) :
    ¬ (new maxSizeMb).Holds key data := by
  rintro ⟨cache, hCache, entry, hPeek, _⟩
  unfold new at hCache
  by_cases hZero : maxSizeMb = 0
  · rw [if_pos hZero] at hCache
    cases hCache
  · rw [if_neg hZero] at hCache
    cases hCache
    cases hPeek

/- What a lookup returns, was there. -/
theorem holds_of_get
    {c : CompressionCache}
    {path compression : String}
    {modified : Time}
    {data : List UInt8}
    (hGet : (c.get path compression modified).1 = some data) :
    c.Holds ⟨path, compression, modified⟩ data := by
  unfold get at hGet
  cases hCache : c.cache with
  | none =>
      rw [hCache] at hGet
      cases hGet
  | some cache =>
      rw [hCache] at hGet
      simp only [Lru.fst_get] at hGet
      rcases Option.map_eq_some_iff.mp hGet with
        ⟨entry, hPeek, hData⟩
      exact ⟨cache, hCache, entry, hPeek, hData⟩

/- A lookup puts nothing into the cache. -/
theorem Holds.of_get
    {c : CompressionCache}
    {path compression : String}
    {modified : Time}
    {key : CacheKey}
    {data : List UInt8}
    (hHolds :
      (c.get path compression modified).2.Holds key data) :
    c.Holds key data := by
  unfold get at hHolds
  cases hCache : c.cache with
  | none =>
      rw [hCache] at hHolds
      exact hHolds
  | some cache =>
      rw [hCache] at hHolds
      rcases hHolds with ⟨cache', hUsed, entry, hPeek, hData⟩
      rw [← Option.some.inj hUsed, Lru.peek_get] at hPeek
      exact ⟨cache, hCache, entry, hPeek, hData⟩

/- An insertion puts only its own data into the cache. -/
theorem Holds.of_insert
    {c : CompressionCache}
    (hSound : c.Sound)
    {path compression : String}
    {modified : Time}
    {new : List UInt8}
    {key : CacheKey}
    {data : List UInt8}
    (hHolds :
      (c.insert path compression modified new).Holds key
        data) :
    (key = ⟨path, compression, modified⟩ ∧ data = new) ∨
      c.Holds key data := by
  cases hCache : c.cache with
  | none =>
      rw [insert_of_none hCache] at hHolds
      exact Or.inr hHolds
  | some cache =>
      by_cases hLarge : maxFileSize < new.length
      · rw [insert_of_large c _ _ _ hLarge] at hHolds
        exact Or.inr hHolds
      · rcases insert_eq hCache hSound path compression
            modified (Nat.not_lt.mp hLarge) with
          ⟨cache', currentSize', hReady, hEq⟩
        rw [hEq] at hHolds
        split at hHolds
        · rcases hHolds with ⟨_, hStored, entry, hPeek, hData⟩
          rw [← Option.some.inj hStored] at hPeek
          rcases Lru.peek_put hPeek with hOwn | hOld
          · rcases hOwn with ⟨hKey, hEntry⟩
            subst hEntry
            exact Or.inl ⟨hKey, hData.symm⟩
          · exact Or.inr ⟨cache, hCache, entry,
              hReady.kept key entry hOld, hData⟩
        · rcases hHolds with ⟨_, hLeft, entry, hPeek, hData⟩
          rw [← Option.some.inj hLeft] at hPeek
          exact Or.inr ⟨cache, hCache, entry,
            hReady.kept key entry hPeek, hData⟩

end CompressionCache

end Mles
