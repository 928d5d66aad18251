import Mles.Server.Limiter

/-
  Admission by source (`rate_limit_key`, `enforce_ip_policy`
  of `src/server.rs`).

  A connection is counted under a key that stands for its
  source: an IPv4 address, in whichever form it arrives, or
  the first 64 bits of any other IPv6 address.  The key is
  an address again, and the two kinds of keys do not meet:
  the key of a network is never a mapped address.

  Sources do not influence each other.  What a run does for
  one of them is what the run does with all other sources
  left out.

  Key definitions include:
    * `rateLimitKey`
    * `enforceIpPolicy`
    * `Source`
    * `SameClass`
    * `Admission.step`

  Key theorems include:
    * `rateLimitKey_eq_key`
    * `sameClass_iff`
    * `Admission.counted_of_run`
    * `Admission.exists_filtered_run`
    * `Admission.admission_by_class`
-/

------------------------------------------------------------
-- The Policy
------------------------------------------------------------

namespace Mles

abbrev IoError := String

/- An accepted connection, and what `peer_addr` returns. -/
structure TcpStream where
  fd : Nat
  peerAddr : Option SocketAddr
deriving DecidableEq, Repr

structure PermittedStream where
  inner : TcpStream
  permit : PerIpPermit IpAddr
  peer : Option SocketAddr
deriving DecidableEq, Repr

def peerSocketAddr
    (stream : TcpStream) : Option SocketAddr :=
  stream.peerAddr.map
    (fun addr => ⟨addr.ip.toCanonical, addr.port⟩)

def rateLimitKey : IpAddr → IpAddr
| .v6 a =>
    match Ipv6Addr.toCanonical a with
    | .v4 a => .v4 a
    | .v6 a =>
        .v6 (Ipv6Addr.new
          (Ipv6Addr.segment a 0) (Ipv6Addr.segment a 1)
          (Ipv6Addr.segment a 2) (Ipv6Addr.segment a 3)
          0 0 0 0)
| .v4 a => .v4 a

/- The key of a connection, unknown peers under one key. -/
def connectionKey (stream : TcpStream) : IpAddr :=
  ((peerSocketAddr stream).map
    (fun addr => rateLimitKey addr.ip)).getD
      (.v4 Ipv4Addr.unspecified)

/-
  One item of the incoming stream.  The rate limiter, if
  there is one, says whether a key may connect now.
-/
def enforceIpPolicy
    (rateLimiter : Option (IpAddr → Bool))
    (conn : Except IoError TcpStream)
    (perIp : PerIpLimiter IpAddr) :
    Option (Except IoError PermittedStream) ×
      PerIpLimiter IpAddr :=
  match conn with
  | .error e => (some (.error e), perIp)
  | .ok stream =>
      let key := connectionKey stream
      if rateLimiter.any (fun checkKey => !checkKey key) then
        (none, perIp)
      else
        match perIp.tryAcquire key with
        | (some permit, perIp) =>
            (some (.ok
              { inner := stream
                permit := permit
                peer := peerSocketAddr stream }), perIp)
        | (none, perIp) => (none, perIp)

end Mles

------------------------------------------------------------
-- Sources
------------------------------------------------------------

namespace Mles

/- The address is the IPv4 address, plainly or mapped. -/
def IpAddr.Writes
    (ip : IpAddr)
    (a : Ipv4Addr) : Prop :=
  ip = .v4 a ∨ ip = .v6 (Ipv4Addr.toIpv6Mapped a)

/- The same IPv4 address, or one IPv6 network. -/
def SameClass
    (ip ip' : IpAddr) : Prop :=
  (∃ a, ip.Writes a ∧ ip'.Writes a) ∨
    ∃ a a',
      ip = .v6 a ∧ ip' = .v6 a' ∧
        (∀ v4, ¬ ip.Writes v4) ∧
        (∀ v4, ¬ ip'.Writes v4) ∧
        Ipv6Addr.network a = Ipv6Addr.network a'

/- What two addresses of one class have in common. -/
inductive Source where
| v4 (a : Ipv4Addr)
| v6 (network : BitVec 64)
deriving DecidableEq, Repr

def IpAddr.source : IpAddr → Source
| .v4 a => .v4 a
| .v6 a =>
    match Ipv6Addr.toIpv4Mapped a with
    | some mapped => .v4 mapped
    | none => .v6 (Ipv6Addr.network a)

/- The address that stands for a source. -/
def Source.key : Source → IpAddr
| .v4 a => .v4 a
| .v6 network =>
    .v6 (network ++ 0#64 : BitVec (64 + 64))

theorem rateLimitKey_eq_key
    (ip : IpAddr) :
    rateLimitKey ip = ip.source.key := by
  cases ip with
  | v4 a => rfl
  | v6 a =>
      simp only [rateLimitKey, IpAddr.source,
        Ipv6Addr.toCanonical]
      cases Ipv6Addr.toIpv4Mapped a with
      | some v4 => rfl
      | none =>
          simp only [Source.key, Ipv6Addr.new_segments]

/- The key of a network is not a mapped address. -/
theorem Source.source_key
    (source : Source) :
    source.key.source = source := by
  cases source with
  | v4 a => rfl
  | v6 network =>
      have hNone :
          Ipv6Addr.toIpv4Mapped
            (network ++ 0#64 : BitVec (64 + 64)) = none := by
        apply if_neg
        intro hMapped
        have hBit := congrArg (BitVec.getLsbD · 0) hMapped
        simp only [BitVec.getLsbD_extractLsb',
          BitVec.getLsbD_append] at hBit
        simp at hBit
      simp only [Source.key, IpAddr.source, hNone,
        Source.v6.injEq]
      exact BitVec.extractLsb'_append_eq_left

theorem source_eq_v4_iff
    {ip : IpAddr}
    {a : Ipv4Addr} :
    ip.source = .v4 a ↔ ip.Writes a := by
  unfold IpAddr.Writes
  cases ip with
  | v4 b => simp [IpAddr.source]
  | v6 b =>
      simp only [IpAddr.source, reduceCtorEq, false_or,
        IpAddr.v6.injEq]
      rw [← Ipv6Addr.toIpv4Mapped_eq_some_iff]
      cases Ipv6Addr.toIpv4Mapped b with
      | some v4 => simp
      | none => simp

theorem source_eq_v6_iff
    {ip : IpAddr}
    {network : BitVec 64} :
    ip.source = .v6 network ↔
      (∀ v4, ¬ ip.Writes v4) ∧
        ∃ a, ip = .v6 a ∧ Ipv6Addr.network a = network := by
  simp only [← source_eq_v4_iff]
  cases ip with
  | v4 b => simp [IpAddr.source]
  | v6 b =>
      simp only [IpAddr.source]
      cases Ipv6Addr.toIpv4Mapped b with
      | some v4 => simp
      | none => simp

theorem sameClass_iff
    {ip ip' : IpAddr} :
    SameClass ip ip' ↔ ip.source = ip'.source := by
  constructor
  · rintro (⟨a, hLeft, hRight⟩ |
      ⟨a, a', rfl, rfl, hLeft, hRight, hSame⟩)
    · rw [source_eq_v4_iff.mpr hLeft,
        source_eq_v4_iff.mpr hRight]
    · rw [source_eq_v6_iff.mpr ⟨hLeft, a, rfl, rfl⟩,
        source_eq_v6_iff.mpr ⟨hRight, a', rfl, hSame.symm⟩]
  · intro hEq
    cases hSource : ip'.source with
    | v4 a =>
        rw [hSource] at hEq
        exact Or.inl ⟨a, source_eq_v4_iff.mp hEq,
          source_eq_v4_iff.mp hSource⟩
    | v6 network =>
        rw [hSource] at hEq
        rcases source_eq_v6_iff.mp hEq with
          ⟨hLeft, a, hIp, hNetwork⟩
        rcases source_eq_v6_iff.mp hSource with
          ⟨hRight, a', hIp', hNetwork'⟩
        exact Or.inr ⟨a, a', hIp, hIp', hLeft, hRight,
          hNetwork.trans hNetwork'.symm⟩

instance
    (ip ip' : IpAddr) :
    Decidable (SameClass ip ip') :=
  decidable_of_iff (ip.source = ip'.source)
    sameClass_iff.symm

/- Equal keys are the keys of one source. -/
theorem rateLimitKey_eq_iff
    {ip ip' : IpAddr} :
    rateLimitKey ip = rateLimitKey ip' ↔
      SameClass ip ip' := by
  rw [sameClass_iff, rateLimitKey_eq_key,
    rateLimitKey_eq_key]
  constructor
  · intro hKey
    rw [← ip.source.source_key, hKey, Source.source_key]
  · exact congrArg Source.key

theorem rateLimitKey_rateLimitKey
    (ip : IpAddr) :
    rateLimitKey (rateLimitKey ip) = rateLimitKey ip := by
  rw [rateLimitKey_eq_key, rateLimitKey_eq_key,
    Source.source_key]

theorem source_toCanonical
    (ip : IpAddr) :
    ip.toCanonical.source = ip.source := by
  cases ip with
  | v4 a => rfl
  | v6 a =>
      simp only [IpAddr.toCanonical, Ipv6Addr.toCanonical,
        IpAddr.source]
      cases hMapped : Ipv6Addr.toIpv4Mapped a with
      | some v4 => rfl
      | none => simp only [hMapped]

/- An unknown peer counts as `0.0.0.0`. -/
def TcpStream.ip (stream : TcpStream) : IpAddr :=
  (stream.peerAddr.map SocketAddr.ip).getD
    (.v4 Ipv4Addr.unspecified)

theorem connectionKey_eq
    (stream : TcpStream) :
    connectionKey stream = stream.ip.source.key := by
  unfold connectionKey peerSocketAddr TcpStream.ip
  cases stream.peerAddr with
  | none => rfl
  | some addr =>
      simp only [Option.map_some, Option.getD_some,
        rateLimitKey_eq_key, source_toCanonical]

end Mles

------------------------------------------------------------
-- Accepting and Closing
------------------------------------------------------------

namespace Mles

/- The limiter, and the admitted streams that are open. -/
structure Admission where
  limiter : PerIpLimiter IpAddr
  streams : List PermittedStream

inductive AdmissionAct where
| accept (conn : Except IoError TcpStream)
| close (stream : TcpStream)

namespace Admission

def init
    (maxPerKey : Nat)
    (pos : 0 < maxPerKey) : Admission where
  limiter := .new maxPerKey pos
  streams := []

/-
  No rate limiter is configured.  A stream that is closed
  drops the permit it carries.
-/
def step
    (s : Admission) : AdmissionAct → Option Admission
| .accept conn =>
    match enforceIpPolicy none conn s.limiter with
    | (some (.ok stream), limiter) =>
        some
          { limiter := limiter
            streams := stream :: s.streams }
    | (some (.error _), limiter) =>
        some { s with limiter := limiter }
    | (none, limiter) => some { s with limiter := limiter }
| .close stream =>
    match s.streams.find? (fun o => o.inner = stream) with
    | none => none
    | some closed =>
        some
          { limiter := closed.permit.drop s.limiter
            streams := s.streams.erase closed }

def run
    (maxPerKey : Nat)
    (pos : 0 < maxPerKey)
    (acts : List AdmissionAct) : Option Admission :=
  Trace.run step (init maxPerKey pos) acts

/- The policy lets the connection through. -/
def Admits
    (s : Admission)
    (stream : TcpStream) : Prop :=
  ∃ admitted,
    (enforceIpPolicy none (.ok stream) s.limiter).1 =
      some (.ok admitted)

/- The open streams from the class of an address. -/
def openFrom
    (s : Admission)
    (ip : IpAddr) : Nat :=
  s.streams.countP (fun o => SameClass ip o.inner.ip)

/- The act is about a stream from the class. -/
def concerns
    (ip : IpAddr) : AdmissionAct → Bool
| .accept (.ok stream) => SameClass ip stream.ip
| .accept (.error _) => false
| .close stream => SameClass ip stream.ip

/- The keys under which the open streams are counted. -/
def keys (s : Admission) : List IpAddr :=
  s.streams.map (fun o => o.permit.key)

/- What holds between two acts. -/
structure Counted
    (maxPerKey : Nat)
    (s : Admission) : Prop where
  cap : s.limiter.maxPerKey = maxPerKey
  counts : s.limiter.counts.Tallies s.keys
  keyed : ∀ o ∈ s.streams, o.permit.key = connectionKey o.inner

theorem Counted.count_keys
    {maxPerKey : Nat}
    {s : Admission}
    (hCounted : Counted maxPerKey s)
    (stream : TcpStream) :
    s.keys.count (connectionKey stream) =
      s.openFrom stream.ip := by
  unfold keys openFrom
  rw [List.count, List.countP_map]
  apply List.countP_congr
  intro o hOpen
  simp only [Function.comp_apply, beq_iff_eq,
    decide_eq_true_eq]
  rw [hCounted.keyed o hOpen, connectionKey_eq,
    connectionKey_eq, ← rateLimitKey_eq_key,
    ← rateLimitKey_eq_key, eq_comm, rateLimitKey_eq_iff]

/- An accepted connection, if there is room for it. -/
theorem accept_of_room
    {maxPerKey : Nat}
    {s : Admission}
    (hCounted : Counted maxPerKey s)
    {stream : TcpStream}
    (hRoom : s.openFrom stream.ip < maxPerKey) :
    ∃ counts,
      enforceIpPolicy none (.ok stream) s.limiter =
          (some (.ok
            { inner := stream
              permit := ⟨connectionKey stream⟩
              peer := peerSocketAddr stream }),
            { s.limiter with counts := counts }) ∧
        counts.Tallies (connectionKey stream :: s.keys) := by
  rw [← hCounted.count_keys, ← hCounted.cap] at hRoom
  rcases PerIpLimiter.tryAcquire_of_room hCounted.counts hRoom
    with ⟨counts, hEq, hTallies⟩
  refine ⟨counts, ?_, hTallies⟩
  simp only [enforceIpPolicy, Option.any_none,
    Bool.false_eq_true, if_false, hEq]

theorem accept_of_full
    {maxPerKey : Nat}
    {s : Admission}
    (hCounted : Counted maxPerKey s)
    {stream : TcpStream}
    (hFull : ¬ s.openFrom stream.ip < maxPerKey) :
    enforceIpPolicy none (.ok stream) s.limiter =
      (none, s.limiter) := by
  rw [← hCounted.count_keys, ← hCounted.cap, Nat.not_lt]
    at hFull
  simp only [enforceIpPolicy, Option.any_none,
    Bool.false_eq_true, if_false,
    PerIpLimiter.tryAcquire_of_full hCounted.counts hFull]

theorem admits_iff
    {maxPerKey : Nat}
    {s : Admission}
    (hCounted : Counted maxPerKey s)
    (stream : TcpStream) :
    s.Admits stream ↔ s.openFrom stream.ip < maxPerKey := by
  unfold Admits
  by_cases hRoom : s.openFrom stream.ip < maxPerKey
  · rcases accept_of_room hCounted hRoom with
      ⟨counts, hEq, _⟩
    rw [hEq]
    exact ⟨fun _ => hRoom, fun _ => ⟨_, rfl⟩⟩
  · rw [accept_of_full hCounted hRoom]
    constructor
    · rintro ⟨admitted, hSome⟩
      cases hSome
    · exact fun hLess => absurd hLess hRoom

------------------------------------------------------------
-- One Act
------------------------------------------------------------

/- What an act does to the open streams. -/
inductive Moved
    (maxPerKey : Nat)
    (s : Admission) : AdmissionAct → Admission → Prop where
| error
    (e : IoError) :
    Moved maxPerKey s (.accept (.error e)) s
| refused
    (stream : TcpStream)
    (hFull : ¬ s.openFrom stream.ip < maxPerKey) :
    Moved maxPerKey s (.accept (.ok stream)) s
| admitted
    (stream : TcpStream)
    (o : PermittedStream)
    (t : Admission)
    (hRoom : s.openFrom stream.ip < maxPerKey)
    (hOpen :
      o =
        { inner := stream
          permit := ⟨connectionKey stream⟩
          peer := peerSocketAddr stream })
    (hStreams : t.streams = o :: s.streams)
    (hCounted : Counted maxPerKey t) :
    Moved maxPerKey s (.accept (.ok stream)) t
| closed
    (stream : TcpStream)
    (o : PermittedStream)
    (t : Admission)
    (hFind :
      s.streams.find? (fun o => o.inner = stream) = some o)
    (hStreams : t.streams = s.streams.erase o)
    (hCounted : Counted maxPerKey t) :
    Moved maxPerKey s (.close stream) t

theorem step_moved
    {maxPerKey : Nat}
    {s t : Admission}
    {a : AdmissionAct}
    (hCounted : Counted maxPerKey s)
    (hStep : s.step a = some t) :
    Moved maxPerKey s a t := by
  cases a with
  | accept conn =>
      cases conn with
      | error e =>
          cases hStep
          exact .error e
      | ok stream =>
          simp only [step] at hStep
          by_cases hRoom : s.openFrom stream.ip < maxPerKey
          · rcases accept_of_room hCounted hRoom with
              ⟨counts, hEq, hTallies⟩
            rw [hEq] at hStep
            cases hStep
            refine .admitted stream _ _ hRoom rfl rfl
              ⟨hCounted.cap, hTallies, ?_⟩
            intro o hOpen
            rcases List.mem_cons.mp hOpen with rfl | hOld
            · rfl
            · exact hCounted.keyed o hOld
          · rw [accept_of_full hCounted hRoom] at hStep
            cases hStep
            exact .refused stream hRoom
  | close stream =>
      simp only [step] at hStep
      cases hFind :
          s.streams.find? (fun o => o.inner = stream) with
      | none =>
          rw [hFind] at hStep
          cases hStep
      | some o =>
          rw [hFind] at hStep
          cases hStep
          have hMem := List.mem_of_find?_eq_some hFind
          refine .closed stream o _ hFind rfl ⟨?_, ?_, ?_⟩
          · rw [PerIpPermit.drop_eq]
            exact hCounted.cap
          · have hKey : o.permit.key ∈ s.keys :=
              List.mem_map_of_mem hMem
            have hErased := hCounted.counts.lower hKey
            rw [PerIpPermit.drop_eq]
            exact hErased.perm
              (AList.map_erase_perm
                (fun o : PermittedStream => o.permit.key) hMem)
          · intro o' hOpen
            exact hCounted.keyed o' (List.mem_of_mem_erase hOpen)

theorem Counted.moved
    {maxPerKey : Nat}
    {s t : Admission}
    {a : AdmissionAct}
    (hCounted : Counted maxPerKey s)
    (hMoved : Moved maxPerKey s a t) :
    Counted maxPerKey t := by
  cases hMoved with
  | error e => exact hCounted
  | refused stream hFull => exact hCounted
  | admitted stream o _ hRoom hOpen hStreams hNext =>
      exact hNext
  | closed stream o _ hFind hStreams hNext => exact hNext

theorem counted_init
    (maxPerKey : Nat)
    (pos : 0 < maxPerKey) :
    Counted maxPerKey (init maxPerKey pos) where
  cap := rfl
  counts := AList.tallies_empty
  keyed := by
    intro o hOpen
    cases hOpen

theorem counted_of_run
    {maxPerKey : Nat}
    {pos : 0 < maxPerKey}
    {acts : List AdmissionAct}
    {s : Admission}
    (hRun : run maxPerKey pos acts = some s) :
    Counted maxPerKey s := by
  refine Trace.run_induction
    (P := fun _ s => Counted maxPerKey s) ?_ ?_ hRun
  · exact counted_init maxPerKey pos
  · intro acts s a t _ hCounted hStep
    exact hCounted.moved (step_moved hCounted hStep)

------------------------------------------------------------
-- One Source Among Others
------------------------------------------------------------

/- The second state has the streams of one class. -/
def Restricts
    (ip : IpAddr)
    (s s' : Admission) : Prop :=
  s'.streams =
    s.streams.filter (fun o => SameClass ip o.inner.ip)

theorem sameClass_trans
    {ip ip' ip'' : IpAddr}
    (hFirst : SameClass ip ip')
    (hSecond : SameClass ip' ip'') :
    SameClass ip ip'' := by
  rw [sameClass_iff] at *
  exact hFirst.trans hSecond

/- As many streams of the class are open in both. -/
theorem Restricts.openFrom
    {ip ip' : IpAddr}
    {s s' : Admission}
    (hRestricts : Restricts ip s s')
    (hSame : SameClass ip ip') :
    s'.openFrom ip' = s.openFrom ip' := by
  unfold Admission.openFrom
  rw [hRestricts, List.countP_filter]
  apply List.countP_congr
  intro o _
  simp only [Bool.and_eq_true, decide_eq_true_eq]
  constructor
  · exact fun hBoth => hBoth.1
  · exact fun hOther => ⟨hOther, sameClass_trans hSame hOther⟩

/- An act of the class happens in both. -/
theorem Restricts.step_of_concerns
    {maxPerKey : Nat}
    {ip : IpAddr}
    {s s' t : Admission}
    {a : AdmissionAct}
    (hRestricts : Restricts ip s s')
    (hCounted : Counted maxPerKey s')
    (hMoved : Moved maxPerKey s a t)
    (hConcerns : concerns ip a = true) :
    ∃ t', s'.step a = some t' ∧ Restricts ip t t' := by
  cases hMoved with
  | error e => cases hConcerns
  | refused stream hFull =>
      have hSame : SameClass ip stream.ip := by
        simpa [concerns] using hConcerns
      rw [← hRestricts.openFrom hSame] at hFull
      refine ⟨s', ?_, hRestricts⟩
      simp only [step, accept_of_full hCounted hFull]
  | admitted stream o _ hRoom hOpen hStreams hNext =>
      have hSame : SameClass ip stream.ip := by
        simpa [concerns] using hConcerns
      rw [← hRestricts.openFrom hSame] at hRoom
      rcases accept_of_room hCounted hRoom with ⟨counts, hEq, _⟩
      subst hOpen
      simp only [step, hEq]
      refine ⟨_, rfl, ?_⟩
      unfold Restricts at *
      rw [hStreams, List.filter_cons_of_pos, hRestricts]
      exact decide_eq_true hSame
  | closed stream o _ hFind hStreams hNext =>
      have hSame : SameClass ip stream.ip := by
        simpa [concerns] using hConcerns
      have hFound :
          s'.streams.find? (fun o => o.inner = stream) =
            some o := by
        rw [hRestricts, List.find?_filter, ← hFind]
        congr 1
        funext o'
        by_cases hInner : o'.inner = stream
        · simp [hInner, hSame]
        · simp [hInner]
      simp only [step, hFound]
      refine ⟨_, rfl, ?_⟩
      unfold Restricts at *
      rw [hStreams, hRestricts, List.erase_filter]

/- An act of another class leaves the class as it is. -/
theorem Restricts.of_not_concerns
    {maxPerKey : Nat}
    {ip : IpAddr}
    {s s' t : Admission}
    {a : AdmissionAct}
    (hRestricts : Restricts ip s s')
    (hMoved : Moved maxPerKey s a t)
    (hOther : ¬ concerns ip a = true) :
    Restricts ip t s' := by
  unfold Restricts at *
  cases hMoved with
  | error e => exact hRestricts
  | refused stream hFull => exact hRestricts
  | admitted stream o _ hRoom hOpen hStreams hNext =>
      have hNot : ¬ SameClass ip stream.ip := by
        simpa [concerns] using hOther
      subst hOpen
      rw [hStreams, List.filter_cons_of_neg]
      · exact hRestricts
      · simpa using hNot
  | closed stream o _ hFind hStreams hNext =>
      have hNot : ¬ SameClass ip stream.ip := by
        simpa [concerns] using hOther
      have hInner : o.inner = stream := by
        simpa using List.find?_some hFind
      rw [hStreams, ← List.erase_filter, ← hRestricts,
        List.erase_of_not_mem]
      rw [hRestricts, List.mem_filter, hInner]
      simp [hNot]

/- The run of one class alone does the same for the class. -/
theorem exists_filtered_run
    {maxPerKey : Nat}
    {pos : 0 < maxPerKey}
    {acts : List AdmissionAct}
    {s : Admission}
    (ip : IpAddr)
    (hRun : run maxPerKey pos acts = some s) :
    ∃ s',
      run maxPerKey pos (acts.filter (concerns ip)) =
          some s' ∧
        Restricts ip s s' := by
  refine Trace.run_induction
    (P := fun acts s =>
      ∃ s',
        run maxPerKey pos (acts.filter (concerns ip)) =
            some s' ∧
          Restricts ip s s') ?_ ?_ hRun
  · exact ⟨_, rfl, rfl⟩
  · rintro acts s a t hBefore ⟨s', hRun', hRestricts⟩ hStep
    have hMoved := step_moved (counted_of_run hBefore) hStep
    by_cases hConcerns : concerns ip a = true
    · rcases hRestricts.step_of_concerns
          (counted_of_run hRun') hMoved hConcerns with
        ⟨t', hStep', hNext⟩
      refine ⟨t', ?_, hNext⟩
      rw [List.filter_append,
        List.filter_cons_of_pos hConcerns, List.filter_nil]
      exact Trace.run_snoc_eq_some_iff.mpr
        ⟨s', hRun', hStep'⟩
    · refine ⟨s', ?_,
        hRestricts.of_not_concerns hMoved hConcerns⟩
      rw [List.filter_append,
        List.filter_cons_of_neg hConcerns, List.filter_nil,
        List.append_nil]
      exact hRun'

/-
  Over every run: a connection is admitted exactly if fewer
  streams of its class are open than the cap; leaving out
  what other classes do changes no decision; and the keys
  are equal within a class and nowhere else.
-/
theorem admission_by_class
    (maxPerKey : Nat)
    (pos : 0 < maxPerKey) :
    (∀ acts s,
      run maxPerKey pos acts = some s →
        ∀ stream,
          s.Admits stream ↔
            s.openFrom stream.ip < maxPerKey) ∧
    (∀ acts s ip,
      run maxPerKey pos acts = some s →
        ∃ s',
          run maxPerKey pos (acts.filter (concerns ip)) =
              some s' ∧
            ∀ stream,
              SameClass ip stream.ip →
                (s.Admits stream ↔ s'.Admits stream)) ∧
    (∀ ip,
      rateLimitKey (rateLimitKey ip) = rateLimitKey ip) ∧
    (∀ ip ip',
      rateLimitKey ip = rateLimitKey ip' ↔
        SameClass ip ip') := by
  refine ⟨?_, ?_, rateLimitKey_rateLimitKey,
    fun _ _ => rateLimitKey_eq_iff⟩
  · intro acts s hRun stream
    exact admits_iff (counted_of_run hRun) stream
  · intro acts s ip hRun
    rcases exists_filtered_run ip hRun with
      ⟨s', hRun', hRestricts⟩
    refine ⟨s', hRun', ?_⟩
    intro stream hSame
    rw [admits_iff (counted_of_run hRun),
      admits_iff (counted_of_run hRun'),
      hRestricts.openFrom hSame]

/- One address in its two forms. -/
def mappedPeer : TcpStream :=
  ⟨0, some ⟨.v6 (Ipv4Addr.toIpv6Mapped
    (Ipv4Addr.new 81 2 3 4)), 40001⟩⟩

def plainPeer : TcpStream :=
  ⟨1, some ⟨.v4 (Ipv4Addr.new 81 2 3 4), 40002⟩⟩

theorem admission_of_mapped_peer :
    ∃ s,
      run 1 (by decide) [.accept (.ok mappedPeer)] =
          some s ∧
        ¬ s.Admits plainPeer := by
  refine ⟨_, rfl, ?_⟩
  rw [(admission_by_class 1 (by decide)).1
    [.accept (.ok mappedPeer)] _ rfl plainPeer]
  decide +kernel

end Admission

end Mles
