import Mles.Server.Policy

/-
  The accept loops of the two listeners (`serve_http` and
  `serve_tls` of `src/server.rs`).

  Both loops take a permit for each stream and spawn a task
  that serves it.  They differ in what they do with a failed
  accept: `serve_tls` logs it and goes on, while the pattern
  in the head of `serve_http` does not match it, so that the
  loop ends there, as it does when there is nothing more to
  accept.

  Key definitions include:
    * `Semaphore.acquireOwned`
    * `serveHttp`
    * `serveTls`
    * `Enough`

  Key theorems include:
    * `serveTls_eq_streams`
    * `serveHttp_eq_streams_takeWhile`
    * `serveHttp_survives_iff`
-/

------------------------------------------------------------
-- The Loops
------------------------------------------------------------

namespace Mles

structure Semaphore where
  permits : Nat
  closed : Bool
deriving DecidableEq, Repr

/- How `acquire_owned` comes back, if it does. -/
inductive Acquired where
| permit (semaphore : Semaphore)
| closed
| waiting
deriving DecidableEq, Repr

namespace Semaphore

def acquireOwned (s : Semaphore) : Acquired :=
  if s.closed then .closed
  else if s.permits = 0 then .waiting
  else .permit { s with permits := s.permits - 1 }

/- Tasks that end give their permits back. -/
def release
    (n : Nat)
    (s : Semaphore) : Semaphore :=
  { s with permits := s.permits + n }

end Semaphore

/-
  What the incoming stream yields, and how many tasks end
  before the loop asks for a permit.
-/
structure Accepted (T E : Type) where
  result : Except E T
  ended : Nat

variable {T E : Type}

/- The streams that `serve_http` spawns a task for. -/
def serveHttp
    (semaphore : Semaphore) : List (Accepted T E) → List T
| [] => []
| item :: incoming =>
    match item.result with
    | .ok stream =>
        match (semaphore.release item.ended).acquireOwned with
        | .permit semaphore =>
            stream :: serveHttp semaphore incoming
        | .closed => []
        | .waiting => []
    | .error _ => []

/-
  The streams that `serve_tls` spawns a task for, with the
  address that the task adds to the requests.
-/
def serveTls
    (peerAddr : T → Option SocketAddr)
    (semaphore : Semaphore) :
    List (Accepted T E) → List (T × Option SocketAddr)
| [] => []
| item :: incoming =>
    match item.result with
    | .ok stream =>
        match (semaphore.release item.ended).acquireOwned with
        | .permit semaphore =>
            (stream, peerAddr stream) ::
              serveTls peerAddr semaphore incoming
        | .closed => []
        | .waiting => []
    | .error _ =>
        serveTls peerAddr (semaphore.release item.ended)
          incoming

------------------------------------------------------------
-- What They Serve
------------------------------------------------------------

namespace Accepted

def isOk (item : Accepted T E) : Bool :=
  match item.result with
  | .ok _ => true
  | .error _ => false

def stream (item : Accepted T E) : Option T :=
  match item.result with
  | .ok stream => some stream
  | .error _ => none

end Accepted

/- The streams of the accepts that did not fail. -/
def streams (incoming : List (Accepted T E)) : List T :=
  incoming.filterMap Accepted.stream

/- There is a permit for every stream when it comes. -/
def Enough
    (semaphore : Semaphore) : List (Accepted T E) → Prop
| [] => True
| item :: incoming =>
    match item.result with
    | .ok _ =>
        match (semaphore.release item.ended).acquireOwned with
        | .permit semaphore => Enough semaphore incoming
        | .closed => False
        | .waiting => False
    | .error _ =>
        Enough (semaphore.release item.ended) incoming

/- The first stream, and the permit for it. -/
theorem Enough.cons_ok
    {semaphore : Semaphore}
    {stream : T}
    {ended : Nat}
    {incoming : List (Accepted T E)}
    (hEnough :
      Enough semaphore (⟨.ok stream, ended⟩ :: incoming)) :
    ∃ semaphore',
      (semaphore.release ended).acquireOwned =
          .permit semaphore' ∧
        Enough semaphore' incoming := by
  simp only [Enough] at hEnough
  cases hAcquire : (semaphore.release ended).acquireOwned with
  | permit semaphore' =>
      rw [hAcquire] at hEnough
      exact ⟨semaphore', rfl, hEnough⟩
  | closed =>
      rw [hAcquire] at hEnough
      exact absurd hEnough id
  | waiting =>
      rw [hAcquire] at hEnough
      exact absurd hEnough id

theorem serveTls_eq_streams
    (peerAddr : T → Option SocketAddr)
    {semaphore : Semaphore}
    {incoming : List (Accepted T E)}
    (hEnough : Enough semaphore incoming) :
    (serveTls peerAddr semaphore incoming).map Prod.fst =
      streams incoming := by
  induction incoming generalizing semaphore with
  | nil => rfl
  | cons item incoming ih =>
      rcases item with ⟨result, ended⟩
      cases result with
      | error e => exact ih hEnough
      | ok stream =>
          rcases hEnough.cons_ok with
            ⟨semaphore', hAcquire, hRest⟩
          simp only [serveTls, hAcquire, List.map_cons]
          rw [ih hRest]
          rfl

/- A failed accept is the last that `serve_http` sees. -/
theorem serveHttp_eq_streams_takeWhile
    {semaphore : Semaphore}
    {incoming : List (Accepted T E)}
    (hEnough : Enough semaphore incoming) :
    serveHttp semaphore incoming =
      streams (incoming.takeWhile Accepted.isOk) := by
  induction incoming generalizing semaphore with
  | nil => rfl
  | cons item incoming ih =>
      rcases item with ⟨result, ended⟩
      cases result with
      | error e => rfl
      | ok stream =>
          rcases hEnough.cons_ok with
            ⟨semaphore', hAcquire, hRest⟩
          simp only [serveHttp, hAcquire]
          rw [ih hRest]
          rfl

theorem streams_eq_nil_iff
    (incoming : List (Accepted T E)) :
    streams incoming = [] ↔
      ∀ item ∈ incoming, item.isOk = false := by
  unfold streams
  rw [List.filterMap_eq_nil_iff]
  have hItem (item : Accepted T E) :
      item.stream = none ↔ item.isOk = false := by
    unfold Accepted.stream Accepted.isOk
    cases item.result with
    | ok stream => simp
    | error e => simp
  simp only [hItem]

/- Nothing comes after the first failed accept. -/
theorem streams_takeWhile_iff
    (incoming : List (Accepted T E)) :
    streams (incoming.takeWhile Accepted.isOk) =
        streams incoming ↔
      incoming.Pairwise
        (fun item later =>
          item.isOk = false → later.isOk = false) := by
  induction incoming with
  | nil => simp
  | cons item incoming ih =>
      rcases item with ⟨result, ended⟩
      rw [List.pairwise_cons, ← ih]
      cases result with
      | error e =>
          -- The streams that are left must be none.
          have hNone :
              streams
                  ((⟨.error e, ended⟩ :: incoming).takeWhile
                    Accepted.isOk) =
                  streams (⟨.error e, ended⟩ :: incoming) ↔
                streams incoming = [] :=
            eq_comm
          rw [hNone, streams_eq_nil_iff]
          constructor
          · intro hFailed
            refine ⟨fun later hLater _ =>
              hFailed later hLater, ?_⟩
            have hEmpty :
                streams
                  (incoming.takeWhile Accepted.isOk) = [] := by
              rw [streams_eq_nil_iff]
              intro later hLater
              exact hFailed later
                ((List.takeWhile_sublist _).mem hLater)
            rw [hEmpty, (streams_eq_nil_iff incoming).mpr hFailed]
          · rintro ⟨hFailed, _⟩ later hLater
            exact hFailed later hLater rfl
      | ok stream =>
          have hCons (rest : List (Accepted T E)) :
              streams (⟨.ok stream, ended⟩ :: rest) =
                stream :: streams rest :=
            rfl
          rw [List.takeWhile_cons_of_pos (by rfl), hCons, hCons]
          simp [Accepted.isOk]

/-
  As long as there are permits: `serve_http` serves exactly
  the streams of the accepts that did not fail, as
  `serve_tls` does, if and only if no stream comes after a
  failed accept.
-/
theorem serveHttp_survives_iff
    (peerAddr : T → Option SocketAddr)
    (semaphore : Semaphore)
    (incoming : List (Accepted T E))
    (hEnough : Enough semaphore incoming) :
    (serveHttp semaphore incoming = streams incoming ∧
      serveHttp semaphore incoming =
        (serveTls peerAddr semaphore incoming).map
          Prod.fst) ↔
      incoming.Pairwise
        (fun item later =>
          item.isOk = false → later.isOk = false) := by
  rw [serveTls_eq_streams peerAddr hEnough, and_self,
    serveHttp_eq_streams_takeWhile hEnough]
  exact streams_takeWhile_iff incoming

theorem serveHttp_survives_last_error :
    ∃ incoming : List (Accepted Nat IoError),
      incoming =
        [⟨.ok 1, 0⟩, ⟨.ok 2, 1⟩, ⟨.error "reset", 0⟩] ∧
        serveHttp ⟨1, false⟩ incoming = [1, 2] ∧
        incoming.Pairwise
          (fun item later =>
            item.isOk = false → later.isOk = false) :=
  ⟨_, rfl, rfl,
    (serveHttp_survives_iff (fun _ => none) ⟨1, false⟩
      [⟨.ok 1, 0⟩, ⟨.ok 2, 1⟩, ⟨.error "reset", 0⟩]
      trivial).mp ⟨rfl, rfl⟩⟩

/-
  One failed accept, and the stream after it is not served,
  although there is a permit for it.
-/
theorem serveHttp_stopped_by_error :
    ∃ incoming : List (Accepted Nat IoError),
      incoming = [⟨.error "reset", 0⟩, ⟨.ok 1, 0⟩] ∧
        Enough ⟨8, false⟩ incoming ∧
        streams incoming = [1] ∧
        serveHttp ⟨8, false⟩ incoming = [] ∧
        serveTls (fun _ => none) ⟨8, false⟩ incoming =
          [(1, none)] :=
  ⟨_, rfl, trivial, rfl, rfl, rfl⟩

------------------------------------------------------------
-- Errors behind the Policy
------------------------------------------------------------

/-
  The policy for the sources passes every failed accept on,
  and makes none itself.
-/
theorem enforceIpPolicy_eq_error_iff
    (rateLimiter : Option (IpAddr → Bool))
    (conn : Except IoError TcpStream)
    (perIp : PerIpLimiter IpAddr)
    (e : IoError) :
    (enforceIpPolicy rateLimiter conn perIp).1 =
        some (.error e) ↔
      conn = .error e := by
  cases conn with
  | error e' => simp [enforceIpPolicy]
  | ok stream =>
      simp only [enforceIpPolicy, reduceCtorEq, iff_false]
      split
      · simp
      · cases perIp.tryAcquire (connectionKey stream) with
        | mk permit limiter =>
            cases permit with
            | some permit => simp
            | none => simp

/-
  A connection, and the limiter as it is when it comes.  The
  stream that the policy lets through, if it does.
-/
def admitted
    (rateLimiter : Option (IpAddr → Bool))
    (conn : Except IoError TcpStream × PerIpLimiter IpAddr) :
    Option PermittedStream :=
  match (enforceIpPolicy rateLimiter conn.1 conn.2).1 with
  | some (.ok stream) => some stream
  | some (.error _) => none
  | none => none

/-
  Behind the policy, `serve_http` serves the streams that
  are admitted before the first failed accept.
-/
theorem serveHttp_behind_policy
    (rateLimiter : Option (IpAddr → Bool))
    (conns :
      List (Except IoError TcpStream × PerIpLimiter IpAddr))
    {semaphore : Semaphore}
    {incoming : List (Accepted PermittedStream IoError)}
    (hIncoming :
      incoming.map Accepted.result =
        conns.filterMap (fun conn =>
          (enforceIpPolicy rateLimiter conn.1 conn.2).1))
    (hEnough : Enough semaphore incoming) :
    serveHttp semaphore incoming =
      (conns.takeWhile (fun conn => conn.1.toBool)).filterMap
        (admitted rateLimiter) := by
  induction conns generalizing semaphore incoming with
  | nil =>
      rw [List.filterMap_nil, List.map_eq_nil_iff] at hIncoming
      rw [hIncoming]
      rfl
  | cons conn conns ih =>
      rcases conn with ⟨conn, perIp⟩
      rw [List.filterMap_cons] at hIncoming
      cases conn with
      | error e =>
          rw [List.takeWhile_cons_of_neg (by simp [Except.toBool]),
            List.filterMap_nil]
          simp only [enforceIpPolicy] at hIncoming
          rcases List.map_eq_cons_iff.mp hIncoming with
            ⟨⟨result, ended⟩, rest, rfl, hResult, _⟩
          subst hResult
          rfl
      | ok stream =>
          rw [List.takeWhile_cons_of_pos (by rfl),
            List.filterMap_cons]
          have hNoError (e : IoError) :
              (enforceIpPolicy rateLimiter (.ok stream)
                perIp).1 ≠ some (.error e) := by
            rw [ne_eq, enforceIpPolicy_eq_error_iff]
            intro hOk
            cases hOk
          unfold admitted
          dsimp only at hIncoming ⊢
          cases hPolicy :
              (enforceIpPolicy rateLimiter (.ok stream)
                perIp).1 with
          | none =>
              rw [hPolicy] at hIncoming
              exact ih hIncoming hEnough
          | some result =>
              rw [hPolicy] at hIncoming
              cases result with
              | error e => exact absurd hPolicy (hNoError e)
              | ok permitted =>
                  rcases List.map_eq_cons_iff.mp hIncoming with
                    ⟨⟨result, ended⟩, rest, rfl, hResult, hRest⟩
                  subst hResult
                  rcases hEnough.cons_ok with
                    ⟨semaphore', hAcquire, hLeft⟩
                  simp only [serveHttp, hAcquire]
                  rw [ih hRest hLeft]
                  rfl

end Mles
