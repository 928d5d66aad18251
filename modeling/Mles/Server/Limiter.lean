import Mles.Library.Tally
import Mles.Library.Trace
import Mles.Server.Address

/-
  The cap on the connections of one source (`PerIpLimiter`
  and `PerIpPermit` of `src/server.rs`).

  The limiter keeps a map of counters under a lock, and each
  permit lowers the counter of its key when it is dropped.
  Both bodies run under the lock from their first line to
  their last, so that a run is a sequence of whole calls.
  The keys are addresses; all that is used of them here is
  that they can be compared.

  The map counts the live permits and nothing else.  Only
  since the cap is not zero does a refused call leave no
  entry behind: the entry is made before the cap is tested.

  Key definitions include:
    * `PerIpLimiter.tryAcquire`
    * `PerIpPermit.drop`
    * `Permitting.step`

  Key theorems include:
    * `PerIpLimiter.tryAcquire_of_room`
    * `PerIpLimiter.tryAcquire_of_full`
    * `Permitting.tallied_of_run`
    * `Permitting.counts_live_permits`
-/

------------------------------------------------------------
-- The Limiter
------------------------------------------------------------

namespace Mles

variable {K : Type} [DecidableEq K]

/- The cap comes from a `NonZeroU32`. -/
structure PerIpLimiter (K : Type) where
  maxPerKey : Nat
  pos : 0 < maxPerKey
  counts : AList (fun _ : K => Nat)

/- A permit belongs to the limiter that gave it. -/
structure PerIpPermit (K : Type) where
  key : K
deriving DecidableEq, Repr

namespace PerIpLimiter

def new
    (maxPerKey : Nat)
    (pos : 0 < maxPerKey) : PerIpLimiter K where
  maxPerKey := maxPerKey
  pos := pos
  counts := ∅

def tryAcquire
    (key : K)
    (l : PerIpLimiter K) :
    Option (PerIpPermit K) × PerIpLimiter K :=
  let m := l.counts.orInsert key 0
  let c := (m.lookup key).getD 0
  if c ≥ l.maxPerKey then
    (none, { l with counts := m })
  else
    (some { key := key },
      { l with counts := m.insert key (c + 1) })

end PerIpLimiter

/- The subtraction is the saturating one, as on `Nat`. -/
def PerIpPermit.drop
    (permit : PerIpPermit K)
    (l : PerIpLimiter K) : PerIpLimiter K :=
  match l.counts.lookup permit.key with
  | none => l
  | some c =>
      let m := l.counts.insert permit.key (c - 1)
      if c - 1 = 0 then
        { l with counts := m.erase permit.key }
      else
        { l with counts := m }

end Mles

------------------------------------------------------------
-- One Call
------------------------------------------------------------

namespace Mles

variable {K : Type} [DecidableEq K]

namespace PerIpLimiter

variable
    {l : PerIpLimiter K}
    {used : List K}

theorem lookup_orInsert_zero
    (hTallies : l.counts.Tallies used)
    (key : K) :
    ((l.counts.orInsert key 0).lookup key).getD 0 =
      used.count key := by
  rw [AList.lookup_orInsert, if_pos rfl]
  exact hTallies.getD

/- The map as the call leaves it, if there is room. -/
theorem tryAcquire_of_room
    (hTallies : l.counts.Tallies used)
    {key : K}
    (hRoom : used.count key < l.maxPerKey) :
    ∃ counts,
      l.tryAcquire key =
          (some { key := key }, { l with counts := counts }) ∧
        counts.Tallies (key :: used) := by
  unfold tryAcquire
  dsimp only
  rw [lookup_orInsert_zero hTallies key,
    if_neg (Nat.not_le.mpr hRoom)]
  refine ⟨_, rfl, ?_⟩
  intro k
  rw [← hTallies.insert_succ key k, AList.lookup_insert_eq_ite,
    AList.lookup_insert_eq_ite, AList.lookup_orInsert]
  by_cases hKey : k = key
  · rw [if_pos hKey, if_pos hKey]
  · rw [if_neg hKey, if_neg hKey, if_neg hKey]

/- The entry of a key with as many permits is there. -/
theorem tryAcquire_of_full
    (hTallies : l.counts.Tallies used)
    {key : K}
    (hFull : l.maxPerKey ≤ used.count key) :
    l.tryAcquire key = (none, l) := by
  have hPos := l.pos
  have hMem : key ∈ l.counts :=
    hTallies.mem_iff.mpr (List.count_pos_iff.mp (by omega))
  have hSame : l.counts.orInsert key 0 = l.counts :=
    if_pos hMem
  unfold tryAcquire
  dsimp only
  rw [lookup_orInsert_zero hTallies key, hSame, if_pos hFull]

theorem tryAcquire_eq_none_iff
    (hTallies : l.counts.Tallies used)
    (key : K) :
    (l.tryAcquire key).1 = none ↔
      l.maxPerKey ≤ used.count key := by
  constructor
  · intro hNone
    by_contra hRoom
    rcases tryAcquire_of_room hTallies
        (Nat.not_le.mp hRoom) with ⟨counts, hEq, _⟩
    rw [hEq] at hNone
    cases hNone
  · intro hFull
    rw [tryAcquire_of_full hTallies hFull]

end PerIpLimiter

theorem PerIpPermit.drop_eq
    (permit : PerIpPermit K)
    (l : PerIpLimiter K) :
    permit.drop l =
      { l with counts := l.counts.lower permit.key } := by
  unfold drop AList.lower
  cases l.counts.lookup permit.key with
  | none => rfl
  | some c =>
      dsimp only
      split
      · rfl
      · rfl

end Mles

------------------------------------------------------------
-- Any Order of Calls
------------------------------------------------------------

namespace Mles

variable {K : Type} [DecidableEq K]

/- A limiter and its live permits. -/
structure Permitting (K : Type) where
  limiter : PerIpLimiter K
  live : List (PerIpPermit K)

inductive PermitCall (K : Type) where
| tryAcquire (key : K)
| drop (permit : PerIpPermit K)
deriving DecidableEq, Repr

namespace Permitting

def init
    (maxPerKey : Nat)
    (pos : 0 < maxPerKey) : Permitting K where
  limiter := .new maxPerKey pos
  live := []

/-
  Only a live permit can be dropped, and only once: it has
  one owner.  Permits of one key are not told apart.
-/
def step
    (s : Permitting K) :
    PermitCall K → Option (Permitting K)
| .tryAcquire key =>
    match s.limiter.tryAcquire key with
    | (some permit, limiter) =>
        some
          { limiter := limiter
            live := permit :: s.live }
    | (none, limiter) => some { s with limiter := limiter }
| .drop permit =>
    if permit ∈ s.live then
      some
        { limiter := permit.drop s.limiter
          live := s.live.erase permit }
    else none

def run
    (maxPerKey : Nat)
    (pos : 0 < maxPerKey)
    (calls : List (PermitCall K)) : Option (Permitting K) :=
  Trace.run step (init maxPerKey pos) calls

/- The keys of the live permits. -/
def keys (s : Permitting K) : List K :=
  s.live.map PerIpPermit.key

/- The live permits of a key. -/
def livePermits
    (s : Permitting K)
    (key : K) : Nat :=
  s.live.countP (fun permit => permit.key = key)

theorem count_keys
    (s : Permitting K)
    (key : K) :
    s.keys.count key = s.livePermits key := by
  unfold keys livePermits
  rw [List.count, List.countP_map]
  apply List.countP_congr
  intro permit _
  simp

theorem keys_erase
    (live : List (PerIpPermit K))
    (permit : PerIpPermit K) :
    (live.erase permit).map PerIpPermit.key =
      (live.map PerIpPermit.key).erase permit.key := by
  apply List.map_erase
  rintro ⟨key⟩ ⟨key'⟩ hKey
  exact congrArg _ hKey

/- What holds between two calls. -/
structure Tallied
    (maxPerKey : Nat)
    (s : Permitting K) : Prop where
  cap : s.limiter.maxPerKey = maxPerKey
  counts : s.limiter.counts.Tallies s.keys
  capped : ∀ key, s.keys.count key ≤ maxPerKey

theorem tallied_init
    (maxPerKey : Nat)
    (pos : 0 < maxPerKey) :
    Tallied maxPerKey (init maxPerKey pos : Permitting K) where
  cap := rfl
  counts := AList.tallies_empty
  capped := fun _ => Nat.zero_le _

theorem Tallied.tryAcquire
    {maxPerKey : Nat}
    {s t : Permitting K}
    {key : K}
    (hTallied : Tallied maxPerKey s)
    (hStep : s.step (.tryAcquire key) = some t) :
    Tallied maxPerKey t := by
  rcases hTallied with ⟨hCap, hCounts, hCapped⟩
  simp only [step] at hStep
  by_cases hRoom : s.keys.count key < s.limiter.maxPerKey
  · rcases PerIpLimiter.tryAcquire_of_room hCounts hRoom with
      ⟨counts, hEq, hMore⟩
    rw [hEq] at hStep
    cases hStep
    refine ⟨hCap, hMore, ?_⟩
    intro k
    have hOld := hCapped k
    change (key :: s.keys).count k ≤ maxPerKey
    by_cases hKey : k = key
    · subst hKey
      rw [List.count_cons_self]
      omega
    · rw [List.count_cons_of_ne (Ne.symm hKey)]
      exact hOld
  · rw [PerIpLimiter.tryAcquire_of_full hCounts
      (Nat.not_lt.mp hRoom)] at hStep
    cases hStep
    exact ⟨hCap, hCounts, hCapped⟩

theorem Tallied.drop
    {maxPerKey : Nat}
    {s t : Permitting K}
    {permit : PerIpPermit K}
    (hTallied : Tallied maxPerKey s)
    (hStep : s.step (.drop permit) = some t) :
    Tallied maxPerKey t := by
  rcases hTallied with ⟨hCap, hCounts, hCapped⟩
  simp only [step, Option.ite_none_right_eq_some,
    Option.some.injEq] at hStep
  rcases hStep with ⟨hLive, rfl⟩
  have hMem : permit.key ∈ s.keys :=
    List.mem_map_of_mem hLive
  have hKeys := keys_erase s.live permit
  rw [PerIpPermit.drop_eq]
  refine ⟨hCap, ?_, ?_⟩
  · unfold keys
    rw [hKeys]
    exact hCounts.lower hMem
  · intro k
    unfold keys
    rw [hKeys]
    exact Nat.le_trans
      (List.erase_sublist.count_le k) (hCapped k)

theorem tallied_of_run
    {maxPerKey : Nat}
    {pos : 0 < maxPerKey}
    {calls : List (PermitCall K)}
    {s : Permitting K}
    (hRun : run maxPerKey pos calls = some s) :
    Tallied maxPerKey s := by
  refine Trace.run_induction
    (P := fun _ s => Tallied maxPerKey s) ?_ ?_ hRun
  · exact tallied_init maxPerKey pos
  · intro calls s call t _ hTallied hStep
    cases call with
    | tryAcquire key => exact hTallied.tryAcquire hStep
    | drop permit => exact hTallied.drop hStep

/-
  In every state that calls and drops lead to, in any order:
  the map holds the numbers of live permits, without zeros
  and within the cap; a call is refused exactly at the cap,
  and then changes nothing; and a permit that is dropped
  finds its key, with a counter that can be lowered.
-/
theorem counts_live_permits
    (maxPerKey : Nat)
    (pos : 0 < maxPerKey)
    (calls : List (PermitCall K))
    (s : Permitting K)
    (hRun : run maxPerKey pos calls = some s) :
    (∀ key,
      (s.limiter.counts.lookup key).getD 0 =
        s.livePermits key) ∧
    (∀ key,
      key ∈ s.limiter.counts ↔ 0 < s.livePermits key) ∧
    (∀ key c,
      s.limiter.counts.lookup key = some c →
        c ≤ maxPerKey) ∧
    (∀ key,
      (s.limiter.tryAcquire key).1 = none ↔
        s.livePermits key = maxPerKey) ∧
    (∀ key,
      (s.limiter.tryAcquire key).1 = none →
        (s.limiter.tryAcquire key).2 = s.limiter) ∧
    (∀ permit ∈ s.live,
      ∃ c,
        s.limiter.counts.lookup permit.key = some c ∧
          1 ≤ c) := by
  rcases tallied_of_run hRun with ⟨hCap, hCounts, hCapped⟩
  have hRefused :
      ∀ key,
        (s.limiter.tryAcquire key).1 = none ↔
          s.livePermits key = maxPerKey := by
    intro key
    have hMost := hCapped key
    rw [PerIpLimiter.tryAcquire_eq_none_iff hCounts key,
      hCap, ← count_keys]
    omega
  refine ⟨?_, ?_, ?_, hRefused, ?_, ?_⟩
  · intro key
    rw [hCounts.getD, count_keys]
  · intro key
    rw [hCounts.mem_iff, ← count_keys, List.count_pos_iff]
  · intro key c hLookup
    rw [hCounts.eq_count hLookup]
    exact hCapped key
  · intro key hNone
    have hFull :
        s.limiter.maxPerKey ≤ s.keys.count key :=
      (PerIpLimiter.tryAcquire_eq_none_iff hCounts key).mp
        hNone
    rw [PerIpLimiter.tryAcquire_of_full hCounts hFull]
  · intro permit hLive
    have hMem : permit.key ∈ s.keys :=
      List.mem_map_of_mem hLive
    exact ⟨_, hCounts.lookup_of_mem hMem,
      List.count_pos_iff.mpr hMem⟩

theorem counts_live_permits_of_refused :
    ∃ s,
      run 1 (by decide)
          [.tryAcquire (IpAddr.v4 1), .tryAcquire (.v6 1),
            .tryAcquire (.v4 1), .drop ⟨.v4 1⟩] = some s ∧
        ∀ key,
          (s.limiter.counts.lookup key).getD 0 =
            s.livePermits key :=
  ⟨_, rfl,
    (counts_live_permits 1 (by decide)
      [.tryAcquire (IpAddr.v4 1), .tryAcquire (.v6 1),
        .tryAcquire (.v4 1), .drop ⟨.v4 1⟩] _ rfl).1⟩

end Permitting

end Mles
