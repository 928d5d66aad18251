import Mles.Http.Cache

/-
  The bounds of the cache of compressed files.

  The counter of the cache is a `usize`, and a release build
  checks none of its sums and differences.  The operations
  are stated here once more in checked arithmetic, which
  gives up where `usize` would wrap around: on a cache that
  keeps its bounds they never give up, and compute what the
  unchecked ones do.

  Key definitions include:
    * `CompressionCache.stepChecked`
    * `CompressionCache.entries`
    * `CompressionCache.Bounded`

  Key theorems include:
    * `CompressionCache.evictChecked_eq`
    * `CompressionCache.Tight.step`
    * `CompressionCache.stepChecked_eq`
    * `CompressionCache.bounded_after`
-/

------------------------------------------------------------
-- Checked Operations
------------------------------------------------------------

namespace Mles

namespace CompressionCache

/-
  The loop of `make_space`.  Its condition is evaluated once
  more when there is no entry left.
-/
def evictChecked
    (requiredSize maxSize : Nat) : Nat →
      Lru CacheKey CacheEntry → Nat →
        Option (Lru CacheKey CacheEntry × Nat)
| 0, cache, currentSize => do
    let _ ← usizeAdd currentSize requiredSize
    some (cache, currentSize)
| n + 1, cache, currentSize => do
    let neededSize ← usizeAdd currentSize requiredSize
    if neededSize > maxSize then
      match cache.popLru with
      | (some (_, entry), cache) => do
          let currentSize ← usizeSub currentSize entry.size
          evictChecked requiredSize maxSize n cache currentSize
      | (none, cache) => some (cache, currentSize)
    else
      some (cache, currentSize)

def makeSpaceChecked
    (requiredSize : Nat)
    (c : CompressionCache) : Option CompressionCache :=
  match c.cache with
  | none => some c
  | some cache =>
      if c.maxSize = 0 ∨ requiredSize > maxFileSize then some c
      else do
        let (cache, currentSize) ←
          evictChecked requiredSize c.maxSize cache.len cache
            c.currentSize
        some
          { c with
            cache := some cache
            currentSize := currentSize }

def popKeyChecked
    (key : CacheKey)
    (c : CompressionCache) : Option CompressionCache :=
  match c.cache with
  | none => some c
  | some cache =>
      match cache.pop key with
      | (some oldEntry, cache) => do
          let currentSize ←
            usizeSub c.currentSize oldEntry.size
          some
            { c with
              cache := some cache
              currentSize := currentSize }
      | (none, cache) => some { c with cache := some cache }

/- The sum is only evaluated if `max_size` is not zero. -/
def insertChecked
    (path compression : String)
    (modified : Time)
    (data : List UInt8)
    (c : CompressionCache) : Option CompressionCache :=
  match c.cache with
  | none => some c
  | some _ =>
      let size := data.length
      if size > maxFileSize then some c
      else do
        let key := ⟨path, compression, modified⟩
        let c ← c.popKeyChecked key
        let c ← c.makeSpaceChecked size
        if c.maxSize > 0 then do
          let newSize ← usizeAdd c.currentSize size
          if newSize ≤ c.maxSize then
            match c.cache with
            | none => some c
            | some cache =>
                some
                  { c with
                    currentSize := newSize
                    cache := some (cache.put key (.new data)) }
          else some c
        else some c

def stepChecked
    (c : CompressionCache) :
    CacheCall → Option CompressionCache
| .get path compression modified =>
    some (c.get path compression modified).2
| .insert path compression modified data =>
    c.insertChecked path compression modified data
| .clear => some c.clear

/- The cache after a sequence of checked calls. -/
def afterChecked
    (maxSizeMb : UInt64)
    (calls : List CacheCall) : Option CompressionCache :=
  calls.foldlM stepChecked (new maxSizeMb)

/- The loop only takes away what is held. -/
theorem evictChecked_eq
    {requiredSize maxSize n currentSize : Nat}
    {cache : Lru CacheKey CacheEntry}
    (hLen : cache.len = n)
    (hHeld : cache.weight CacheEntry.size ≤ currentSize)
    (hSum : currentSize + requiredSize < 2 ^ 64) :
    evictChecked requiredSize maxSize n cache currentSize =
      some (evict requiredSize maxSize n cache currentSize) := by
  induction n generalizing cache currentSize with
  | zero =>
      simp only [evictChecked, usizeAdd_of_lt hSum,
        Option.bind_eq_bind, Option.bind_some, evict]
  | succ n ih =>
      simp only [evictChecked, usizeAdd_of_lt hSum,
        Option.bind_eq_bind, Option.bind_some, evict]
      by_cases hMore : currentSize + requiredSize > maxSize
      · rw [if_pos hMore, if_pos hMore]
        rcases Lru.exists_lru (show 0 < cache.len by omega) with
          ⟨k, entry, hLru, hPeek⟩
        have hFewer := Lru.len_erase_of_some hPeek
        have hLighter :=
          Lru.weight_erase_of_some CacheEntry.size hPeek
        rw [Lru.popLru_of_some hLru]
        simp only [usizeSub_of_le
          (show entry.size ≤ currentSize by omega),
          Option.bind_some]
        exact ih (by omega) (by omega) (by omega)
      · rw [if_neg hMore, if_neg hMore]

end CompressionCache

end Mles

------------------------------------------------------------
-- The Bounds
------------------------------------------------------------

namespace Mles

namespace CompressionCache

/- The entries held, the most recently used one first. -/
def entries
    (c : CompressionCache) : List (CacheKey × CacheEntry) :=
  match c.cache with
  | none => []
  | some cache =>
      cache.store.entries.map (fun e => (e.1, e.2))

/-
  What a cache of `maxSizeMb` megabytes keeps to.  The
  counter covers the data, and not only the other way round:
  the inner cache drops entries that it still counts.
-/
structure Bounded
    (maxSizeMb : Nat)
    (c : CompressionCache) : Prop where
  covered :
    (c.entries.map (fun e => e.2.data.length)).sum ≤
      c.currentSize
  within : c.currentSize ≤ c.maxSize
  maxSize : c.maxSize = maxSizeMb * mebibyte
  small : ∀ e ∈ c.entries, e.2.data.length ≤ maxFileSize
  sized : ∀ e ∈ c.entries, e.2.size = e.2.data.length
  unique : (c.entries.map Prod.fst).Nodup
  few : c.entries.length ≤ max (4 * maxSizeMb) 100

theorem held_eq
    (c : CompressionCache) :
    c.held = (c.entries.map (fun e => e.2.data.length)).sum := by
  unfold held entries
  cases c.cache with
  | none => rfl
  | some cache =>
      simp only [Option.map_some, Option.getD_some, Lru.weight,
        List.map_map]
      congr 1
      apply List.map_congr_left
      intro e _
      exact e.2.sized

theorem nodup_entries
    (c : CompressionCache) :
    (c.entries.map Prod.fst).Nodup := by
  unfold entries
  cases c.cache with
  | none => exact List.nodup_nil
  | some cache =>
      rw [List.map_map]
      exact cache.store.nodupKeys

/- An entry is in the list if its key leads to it. -/
theorem mem_entries_iff
    {c : CompressionCache}
    {key : CacheKey}
    {entry : CacheEntry} :
    (key, entry) ∈ c.entries ↔
      ∃ cache, c.cache = some cache ∧
        cache.peek key = some entry := by
  unfold entries
  cases c.cache with
  | none => simp
  | some cache =>
      simp only [List.mem_map, Option.some.injEq,
        exists_eq_left', Lru.peek, AList.lookup]
      rw [← Option.mem_def,
        List.mem_dlookup_iff cache.store.nodupKeys]
      constructor
      · rintro ⟨e, hMem, hEq⟩
        cases hEq
        exact hMem
      · intro hMem
        exact ⟨_, hMem, rfl⟩

/- The same, in terms of the operations. -/
structure Tight
    (maxSizeMb : Nat)
    (c : CompressionCache) : Prop where
  sound : c.Sound
  within : c.currentSize ≤ c.maxSize
  maxSize : c.maxSize = maxSizeMb * mebibyte
  small :
    ∀ key data, c.Holds key data → data.length ≤ maxFileSize
  capped :
    ∀ cache, c.cache = some cache →
      cache.cap = max (4 * maxSizeMb) 100

theorem Tight.bounded
    {maxSizeMb : Nat}
    {c : CompressionCache}
    (hTight : c.Tight maxSizeMb) :
    c.Bounded maxSizeMb where
  covered := by
    rw [← held_eq]
    exact hTight.sound
  within := hTight.within
  maxSize := hTight.maxSize
  small := by
    rintro ⟨key, entry⟩ hMem
    rcases mem_entries_iff.mp hMem with ⟨cache, hCache, hPeek⟩
    exact hTight.small key entry.data
      ⟨cache, hCache, entry, hPeek, rfl⟩
  sized := fun e _ => e.2.sized
  unique := nodup_entries c
  few := by
    unfold entries
    cases hCache : c.cache with
    | none => exact Nat.zero_le _
    | some cache =>
        rw [List.length_map, ← hTight.capped cache hCache]
        exact cache.bounded

theorem tight_new
    {maxSizeMb : UInt64}
    (hEntries : 4 * maxSizeMb.toNat < 2 ^ 64)
    (hBytes : maxSizeMb.toNat * mebibyte < 2 ^ 64) :
    (new maxSizeMb).Tight maxSizeMb.toNat where
  sound := by
    rcases held_new maxSizeMb with ⟨hHeld, _⟩
    unfold Sound
    rw [hHeld]
    exact Nat.zero_le _
  within := by
    rw [(held_new maxSizeMb).2]
    exact Nat.zero_le _
  maxSize := by
    unfold new
    by_cases hZero : maxSizeMb = 0
    · simp [hZero]
    · simp only [hZero, if_false]
      exact Nat.mod_eq_of_lt hBytes
  small := fun key data hHolds =>
    absurd hHolds (not_holds_new maxSizeMb key data)
  capped := by
    intro cache hCache
    unfold new at hCache
    by_cases hZero : maxSizeMb = 0
    · rw [if_pos hZero] at hCache
      cases hCache
    · rw [if_neg hZero] at hCache
      cases hCache
      change max (maxSizeMb.toNat * 4 % 2 ^ 64) 100 = _
      rw [Nat.mul_comm, Nat.mod_eq_of_lt hEntries]

/- Neither of the two ways to remove entries adds to it. -/
theorem evict_le
    (requiredSize maxSize n : Nat)
    (cache : Lru CacheKey CacheEntry)
    (currentSize : Nat) :
    (evict requiredSize maxSize n cache currentSize).2 ≤
      currentSize := by
  induction n generalizing cache currentSize with
  | zero => exact Nat.le_refl _
  | succ n ih =>
      unfold evict
      split
      · split
        · exact Nat.le_trans (ih _ _) (Nat.sub_le _ _)
        · exact Nat.le_refl _
      · exact Nat.le_refl _

theorem currentSize_popKey_le
    (c : CompressionCache)
    (key : CacheKey) :
    (c.popKey key).currentSize ≤ c.currentSize := by
  cases hCache : c.cache with
  | none => simp [popKey, hCache]
  | some cache =>
      rw [popKey_eq hCache]
      exact Nat.sub_le _ _

theorem currentSize_makeSpace_le
    (c : CompressionCache)
    (size : Nat) :
    (c.makeSpace size).currentSize ≤ c.currentSize := by
  unfold makeSpace
  split
  · exact Nat.le_refl _
  · split
    · exact Nat.le_refl _
    · exact evict_le _ _ _ _ _

@[simp] theorem maxSize_popKey
    (c : CompressionCache)
    (key : CacheKey) :
    (c.popKey key).maxSize = c.maxSize := by
  cases hCache : c.cache with
  | none => simp [popKey, hCache]
  | some cache => rw [popKey_eq hCache]

@[simp] theorem maxSize_makeSpace
    (c : CompressionCache)
    (size : Nat) :
    (c.makeSpace size).maxSize = c.maxSize := by
  unfold makeSpace
  split
  · rfl
  · split
    · rfl
    · rfl

/- An entry is only added where the sum stays below. -/
theorem currentSize_insert_le
    {c : CompressionCache}
    (hWithin : c.currentSize ≤ c.maxSize)
    (path compression : String)
    (modified : Time)
    (data : List UInt8) :
    (c.insert path compression modified data).currentSize ≤
      c.maxSize := by
  have hLess :=
    Nat.le_trans
      (currentSize_makeSpace_le
        (c.popKey ⟨path, compression, modified⟩) data.length)
      (currentSize_popKey_le c ⟨path, compression, modified⟩)
  unfold insert
  split
  · exact hWithin
  · dsimp only
    split
    · exact hWithin
    · split
      · rename_i hStored
        rw [maxSize_makeSpace, maxSize_popKey] at hStored
        split
        · exact Nat.le_trans hLess hWithin
        · exact hStored.2
      · exact Nat.le_trans hLess hWithin

theorem Tight.insert
    {maxSizeMb : Nat}
    {c : CompressionCache}
    (hTight : c.Tight maxSizeMb)
    (path compression : String)
    (modified : Time)
    (data : List UInt8) :
    (c.insert path compression modified data).Tight
      maxSizeMb := by
  cases hCache : c.cache with
  | none =>
      rw [insert_of_none hCache]
      exact hTight
  | some cache =>
      by_cases hLarge : maxFileSize < data.length
      · rw [insert_of_large c path compression modified hLarge]
        exact hTight
      · have hSize : data.length ≤ maxFileSize := by omega
        have hWithin :=
          currentSize_insert_le hTight.within path compression
            modified data
        have hSound :=
          (drift_insert hTight.sound path compression modified
            data).1
        have hSmall :
            ∀ key found,
              (c.insert path compression modified data).Holds
                key found → found.length ≤ maxFileSize := by
          intro key found hHolds
          rcases hHolds.of_insert hTight.sound with hOwn | hOld
          · rw [hOwn.2]
            exact hSize
          · exact hTight.small key found hOld
        rcases insert_eq hCache hTight.sound path compression
            modified hSize with
          ⟨cache', currentSize', hReady, hEq⟩
        have hCap := hReady.cap.trans (hTight.capped _ hCache)
        rw [hEq] at hWithin hSound hSmall ⊢
        by_cases hStored :
            c.maxSize > 0 ∧
              currentSize' + data.length ≤ c.maxSize
        · rw [if_pos hStored] at hWithin hSound hSmall ⊢
          refine ⟨hSound, hWithin, hTight.maxSize, hSmall, ?_⟩
          intro put hPut
          cases hPut
          exact (Lru.cap_put _ _ _).trans hCap
        · rw [if_neg hStored] at hWithin hSound hSmall ⊢
          refine ⟨hSound, hWithin, hTight.maxSize, hSmall, ?_⟩
          intro left hLeft
          cases hLeft
          exact hCap

theorem Tight.get
    {maxSizeMb : Nat}
    {c : CompressionCache}
    (hTight : c.Tight maxSizeMb)
    (path compression : String)
    (modified : Time) :
    (c.get path compression modified).2.Tight maxSizeMb := by
  have hSound :=
    (sound_get hTight.sound path compression modified).1
  have hSmall :
      ∀ key data,
        (c.get path compression modified).2.Holds key data →
          data.length ≤ maxFileSize :=
    fun key data hHolds =>
      hTight.small key data hHolds.of_get
  unfold CompressionCache.get at hSound hSmall ⊢
  cases hCache : c.cache with
  | none => exact hTight
  | some cache =>
      simp only [hCache] at hSound hSmall ⊢
      refine ⟨hSound, hTight.within, hTight.maxSize, hSmall, ?_⟩
      intro used hUsed
      cases hUsed
      rw [Lru.cap_get]
      exact hTight.capped cache hCache

theorem Tight.clear
    {maxSizeMb : Nat}
    {c : CompressionCache}
    (hTight : c.Tight maxSizeMb) :
    c.clear.Tight maxSizeMb := by
  have hSound := (sound_clear hTight.sound).1
  unfold CompressionCache.clear at hSound ⊢
  cases hCache : c.cache with
  | none => exact hTight
  | some cache =>
      simp only [hCache] at hSound ⊢
      refine ⟨hSound, Nat.zero_le _, hTight.maxSize, ?_, ?_⟩
      · rintro key data ⟨empty, hEmpty, entry, hPeek, _⟩
        cases hEmpty
        cases hPeek
      · intro empty hEmpty
        cases hEmpty
        exact hTight.capped cache hCache

theorem Tight.step
    {maxSizeMb : Nat}
    {c : CompressionCache}
    (hTight : c.Tight maxSizeMb)
    (call : CacheCall) :
    (c.step call).Tight maxSizeMb := by
  cases call with
  | get path compression modified =>
      exact hTight.get path compression modified
  | insert path compression modified data =>
      exact hTight.insert path compression modified data
  | clear => exact hTight.clear

end CompressionCache

end Mles

------------------------------------------------------------
-- No Wrap-Around
------------------------------------------------------------

namespace Mles

namespace CompressionCache

theorem popKeyChecked_eq
    {c : CompressionCache}
    (hSound : c.Sound)
    (key : CacheKey) :
    c.popKeyChecked key = some (c.popKey key) := by
  unfold popKeyChecked popKey
  cases hCache : c.cache with
  | none => rfl
  | some cache =>
      have hErased := weight_erase_popKey hCache hSound key
      dsimp only [Lru.pop] at hErased ⊢
      cases hPeek : cache.peek key with
      | none => rfl
      | some old =>
          rw [hPeek] at hErased
          simp only [Option.map_some, Option.getD_some]
            at hErased
          simp only [usizeSub_of_le
            (show old.size ≤ c.currentSize by omega),
            Option.bind_eq_bind, Option.bind_some]

theorem sound_popKey
    {c : CompressionCache}
    (hSound : c.Sound)
    (key : CacheKey) :
    (c.popKey key).Sound := by
  cases hCache : c.cache with
  | none =>
      simp only [popKey, hCache]
      exact hSound
  | some cache =>
      have hErased := weight_erase_popKey hCache hSound key
      dsimp only at hErased
      rw [popKey_eq hCache]
      simp only [Sound, held, Option.map_some, Option.getD_some]
      omega

theorem makeSpaceChecked_eq
    {c : CompressionCache}
    {size : Nat}
    (hSound : c.Sound)
    (hSum : c.currentSize + size < 2 ^ 64) :
    c.makeSpaceChecked size = some (c.makeSpace size) := by
  unfold makeSpaceChecked makeSpace
  cases hCache : c.cache with
  | none => rfl
  | some cache =>
      have hHeld :
          cache.weight CacheEntry.size ≤ c.currentSize := by
        simpa [Sound, held, hCache] using hSound
      simp only
      split
      · rfl
      · rw [evictChecked_eq rfl hHeld hSum]
        rfl

theorem stepChecked_eq
    {maxSizeMb : Nat}
    {c : CompressionCache}
    (hTight : c.Tight maxSizeMb)
    (hBytes : maxSizeMb * mebibyte + maxFileSize < 2 ^ 64)
    (call : CacheCall) :
    c.stepChecked call = some (c.step call) := by
  cases call with
  | get path compression modified => rfl
  | clear => rfl
  | insert path compression modified data =>
      have hWithin := hTight.within
      have hMax := hTight.maxSize
      simp only [stepChecked, step, insertChecked,
        CompressionCache.insert]
      cases hCache : c.cache with
      | none => rfl
      | some cache =>
          simp only
          by_cases hLarge : data.length > maxFileSize
          · rw [if_pos hLarge, if_pos hLarge]
          · have hPop :=
              currentSize_popKey_le c
                ⟨path, compression, modified⟩
            have hSpace :=
              currentSize_makeSpace_le
                (c.popKey ⟨path, compression, modified⟩)
                data.length
            have hMade :=
              makeSpaceChecked_eq
                (sound_popKey hTight.sound
                  ⟨path, compression, modified⟩)
                (show _ + data.length < 2 ^ 64 by omega)
            rw [if_neg hLarge, if_neg hLarge,
              popKeyChecked_eq hTight.sound]
            simp only [Option.bind_eq_bind, Option.bind_some,
              hMade]
            rw [usizeAdd_of_lt (by omega)]
            generalize
              (c.popKey ⟨path, compression, modified⟩).makeSpace
                data.length = ready
            simp only [Option.bind_some]
            by_cases hSome : ready.maxSize > 0
            · by_cases hFits :
                  ready.currentSize + data.length ≤
                    ready.maxSize
              · rw [if_pos hSome, if_pos hFits,
                  if_pos ⟨hSome, hFits⟩]
                cases ready.cache with
                | none => rfl
                | some inner => rfl
              · rw [if_pos hSome, if_neg hFits,
                  if_neg (fun hBoth => hFits hBoth.2)]
            · rw [if_neg hSome,
                if_neg (fun hBoth => hSome hBoth.1)]

end CompressionCache

end Mles

------------------------------------------------------------
-- Every Reached State
------------------------------------------------------------

namespace Mles

namespace CompressionCache

theorem tight_after
    {maxSizeMb : UInt64}
    (hEntries : 4 * maxSizeMb.toNat < 2 ^ 64)
    (hBytes : maxSizeMb.toNat * mebibyte < 2 ^ 64)
    (calls : List CacheCall) :
    (after maxSizeMb calls).Tight maxSizeMb.toNat := by
  induction calls using List.reverseRecOn with
  | nil => exact tight_new hEntries hBytes
  | append_singleton calls call ih =>
      rw [after_snoc]
      exact ih.step call

theorem afterChecked_eq
    {maxSizeMb : UInt64}
    (hEntries : 4 * maxSizeMb.toNat < 2 ^ 64)
    (hBytes :
      maxSizeMb.toNat * mebibyte + maxFileSize < 2 ^ 64)
    (calls : List CacheCall) :
    afterChecked maxSizeMb calls =
      some (after maxSizeMb calls) := by
  induction calls using List.reverseRecOn with
  | nil => rfl
  | append_singleton calls call ih =>
      have hTight :=
        tight_after hEntries (by omega) calls
      have hStep := stepChecked_eq hTight hBytes call
      unfold afterChecked at ih ⊢
      rw [List.foldlM_append, ih, after_snoc]
      simpa using hStep

/-
  Over every sequence of calls: the cache keeps its bounds,
  and no sum or difference on the way leaves `usize`.
-/
theorem bounded_after
    (maxSizeMb : UInt64)
    (hEntries : 4 * maxSizeMb.toNat < 2 ^ 64)
    (hBytes :
      maxSizeMb.toNat * mebibyte + maxFileSize < 2 ^ 64)
    (calls : List CacheCall) :
    (after maxSizeMb calls).Bounded maxSizeMb.toNat ∧
      afterChecked maxSizeMb calls =
        some (after maxSizeMb calls) := by
  constructor
  · exact (tight_after hEntries (by omega) calls).bounded
  · exact afterChecked_eq hEntries hBytes calls

theorem bounded_after_update :
    (after 10
        [.insert "a" "br" 0 [1, 2, 3], .get "a" "br" 0,
          .insert "a" "br" 0 [4, 5, 6, 7]]).Bounded 10 :=
  (bounded_after 10 (by decide) (by decide) _).1

end CompressionCache

end Mles
