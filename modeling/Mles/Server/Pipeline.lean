import Mles.Server.Origin
import Mles.Server.Permits

/-
  A listener from the socket to the service
  (`enforce_ip_policy`, `create_tls_incoming`, `serve_http`
  and `serve_tls` of `src/server.rs`, put together as in
  `run` and `spawn_http_redirect_server`).

  A connection is first counted under its source, then goes
  through the handshake of TLS if the listener has one, then
  waits for a permit of the semaphore, and is then served,
  in the end perhaps by a session that no longer holds the
  permit.  The stream carries the place of its source along,
  and gives it back wherever it is dropped.

  All of this is driven by the accept loop: connections are
  accepted, and handshakes go on, only while the loop waits
  for the next stream.  While it waits for a permit, nothing
  else comes in.

  Key definitions include:
    * `Pipeline`
    * `Pipeline.step`
    * `Pipeline.held`
    * `Pipeline.listener`

  Key theorems include:
    * `Pipeline.step_sound`
    * `Pipeline.Step.moved`
    * `Pipeline.Step.listener`
    * `Pipeline.refines_policy_and_loop`
-/

------------------------------------------------------------
-- The Stages of a Connection
------------------------------------------------------------

namespace Mles

/- Which of the two functions runs the accept loop. -/
inductive Serve where
| http
| tls
deriving DecidableEq, Repr

/- The awaits of the loop, with the stream in its hands. -/
inductive ServeLoop where
| next
| acquire (c : StreamId) (stream : PermittedStream)
| ended
deriving DecidableEq, Repr

/-
  The limiter of the policy, the streams in the layer of
  TLS, the accept loop and its semaphore, and the streams
  that are served, by tasks or by sessions.
-/
structure Pipeline where
  limiter : PerIpLimiter IpAddr
  handshakes : List PermittedStream
  loop : ServeLoop
  accepted : Nat
  permits : Nat
  tasks : List (StreamId × PermittedStream)
  sessions : List (StreamId × PermittedStream)

/-
  What may happen next.  The rate limiter is the one at the
  time the connection comes in; a handshake that is not done
  has failed, or was one of ACME only.
-/
inductive PipelineAct where
| tcp
    (rateLimiter : Option (IpAddr → Bool))
    (conn : Except IoError TcpStream)
| handshake (i : Nat) (done : Bool)
| acquire
| upgrade (c : StreamId)
| close (c : StreamId)

namespace Pipeline

def init
    (maxPerKey : Nat)
    (pos : 0 < maxPerKey)
    (filelimit : Nat) : Pipeline where
  limiter := .new maxPerKey pos
  handshakes := []
  loop := .next
  accepted := 0
  permits := filelimit
  tasks := []
  sessions := []

/- The accept loop gets a stream. -/
def offer
    (stream : PermittedStream)
    (s : Pipeline) : Pipeline :=
  { s with
    loop := .acquire s.accepted stream
    accepted := s.accepted + 1 }

/- The policy lets a stream through. -/
def letIn
    (serve : Serve)
    (stream : PermittedStream)
    (s : Pipeline) : Pipeline :=
  match serve with
  | .http => s.offer stream
  | .tls =>
      { s with handshakes := stream :: s.handshakes }

/-
  An error is an item of the incoming stream as well.  Only
  `serve_tls` goes on after it.
-/
def fail
    (serve : Serve)
    (s : Pipeline) : Pipeline :=
  match serve with
  | .http => { s with loop := .ended }
  | .tls => s

/-
  Only `serve_tls` serves with upgrades.  A stream that is
  dropped drops its permit of the policy.
-/
def step
    (serve : Serve)
    (s : Pipeline) : PipelineAct → Option Pipeline
| .tcp rateLimiter conn =>
    match s.loop with
    | .next =>
        match enforceIpPolicy rateLimiter conn s.limiter with
        | (some (.ok stream), limiter) =>
            some (letIn serve stream { s with limiter := limiter })
        | (some (.error _), limiter) =>
            some (fail serve { s with limiter := limiter })
        | (none, limiter) => some { s with limiter := limiter }
    | .acquire _ _ => none
    | .ended => none
| .handshake i done =>
    match s.loop with
    | .next =>
        match s.handshakes[i]? with
        | none => none
        | some stream =>
            let handshakes := s.handshakes.eraseIdx i
            if done then
              some (offer stream { s with handshakes := handshakes })
            else
              some
                { s with
                  limiter := stream.permit.drop s.limiter
                  handshakes := handshakes }
    | .acquire _ _ => none
    | .ended => none
| .acquire =>
    match s.loop with
    | .acquire c stream =>
        if 0 < s.permits then
          some
            { s with
              loop := .next
              permits := s.permits - 1
              tasks := (c, stream) :: s.tasks }
        else none
    | .next => none
    | .ended => none
| .upgrade c =>
    match serve, s.tasks.find? (fun t => t.1 = c) with
    | .tls, some task =>
        some
          { s with
            permits := s.permits + 1
            tasks := s.tasks.eraseP (fun t => t.1 = c)
            sessions := task :: s.sessions }
    | .tls, none => none
    | .http, _ => none
| .close c =>
    match s.tasks.find? (fun t => t.1 = c) with
    | some task =>
        some
          { s with
            limiter := task.2.permit.drop s.limiter
            permits := s.permits + 1
            tasks := s.tasks.eraseP (fun t => t.1 = c) }
    | none =>
        match s.sessions.find? (fun t => t.1 = c) with
        | some session =>
            some
              { s with
                limiter := session.2.permit.drop s.limiter
                sessions := s.sessions.eraseP (fun t => t.1 = c) }
        | none => none

def run
    (serve : Serve)
    (maxPerKey : Nat)
    (pos : 0 < maxPerKey)
    (filelimit : Nat)
    (acts : List PipelineAct) : Option Pipeline :=
  Trace.run (step serve) (init maxPerKey pos filelimit) acts

/- The stream the loop has in its hands. -/
def waiting (s : Pipeline) : List PermittedStream :=
  match s.loop with
  | .acquire _ stream => [stream]
  | .next => []
  | .ended => []

/- All streams that hold a place of their source. -/
def held (s : Pipeline) : List PermittedStream :=
  s.handshakes ++ s.waiting ++ s.tasks.map Prod.snd ++
    s.sessions.map Prod.snd

end Pipeline

end Mles

------------------------------------------------------------
-- One Act
------------------------------------------------------------

namespace Mles

namespace Pipeline

/- All that an act can do. -/
inductive Step
    (serve : Serve)
    (s : Pipeline) : PipelineAct → Pipeline → Prop where
| refused
    (rateLimiter : Option (IpAddr → Bool))
    (conn : Except IoError TcpStream)
    (limiter : PerIpLimiter IpAddr)
    (hLoop : s.loop = .next)
    (hPolicy :
      enforceIpPolicy rateLimiter conn s.limiter =
        (none, limiter)) :
    Step serve s (.tcp rateLimiter conn)
      { s with limiter := limiter }
| failed
    (rateLimiter : Option (IpAddr → Bool))
    (conn : Except IoError TcpStream)
    (limiter : PerIpLimiter IpAddr)
    (e : IoError)
    (hLoop : s.loop = .next)
    (hPolicy :
      enforceIpPolicy rateLimiter conn s.limiter =
        (some (.error e), limiter)) :
    Step serve s (.tcp rateLimiter conn)
      (fail serve { s with limiter := limiter })
| admitted
    (rateLimiter : Option (IpAddr → Bool))
    (conn : Except IoError TcpStream)
    (limiter : PerIpLimiter IpAddr)
    (stream : PermittedStream)
    (hLoop : s.loop = .next)
    (hPolicy :
      enforceIpPolicy rateLimiter conn s.limiter =
        (some (.ok stream), limiter)) :
    Step serve s (.tcp rateLimiter conn)
      (letIn serve stream { s with limiter := limiter })
| secured
    (i : Nat)
    (stream : PermittedStream)
    (hLoop : s.loop = .next)
    (hFound : s.handshakes[i]? = some stream) :
    Step serve s (.handshake i true)
      (offer stream
        { s with handshakes := s.handshakes.eraseIdx i })
| broken
    (i : Nat)
    (stream : PermittedStream)
    (hLoop : s.loop = .next)
    (hFound : s.handshakes[i]? = some stream) :
    Step serve s (.handshake i false)
      { s with
        limiter := stream.permit.drop s.limiter
        handshakes := s.handshakes.eraseIdx i }
| acquired
    (c : StreamId)
    (stream : PermittedStream)
    (hLoop : s.loop = .acquire c stream)
    (hFree : 0 < s.permits) :
    Step serve s .acquire
      { s with
        loop := .next
        permits := s.permits - 1
        tasks := (c, stream) :: s.tasks }
| upgraded
    (c : StreamId)
    (task : StreamId × PermittedStream)
    (hServe : serve = .tls)
    (hFind : s.tasks.find? (fun t => t.1 = c) = some task) :
    Step serve s (.upgrade c)
      { s with
        permits := s.permits + 1
        tasks := s.tasks.eraseP (fun t => t.1 = c)
        sessions := task :: s.sessions }
| served
    (c : StreamId)
    (task : StreamId × PermittedStream)
    (hFind : s.tasks.find? (fun t => t.1 = c) = some task) :
    Step serve s (.close c)
      { s with
        limiter := task.2.permit.drop s.limiter
        permits := s.permits + 1
        tasks := s.tasks.eraseP (fun t => t.1 = c) }
| hungUp
    (c : StreamId)
    (session : StreamId × PermittedStream)
    (hNone : s.tasks.find? (fun t => t.1 = c) = none)
    (hFind :
      s.sessions.find? (fun t => t.1 = c) = some session) :
    Step serve s (.close c)
      { s with
        limiter := session.2.permit.drop s.limiter
        sessions := s.sessions.eraseP (fun t => t.1 = c) }

section Steps

variable {serve : Serve}
variable {s t : Pipeline}

theorem step_tcp
    {rateLimiter : Option (IpAddr → Bool)}
    {conn : Except IoError TcpStream}
    (hStep : step serve s (.tcp rateLimiter conn) = some t) :
    Step serve s (.tcp rateLimiter conn) t := by
  simp only [step] at hStep
  split at hStep
  · rename_i hLoop
    split at hStep
    · rename_i stream limiter hPolicy
      cases hStep
      exact .admitted _ _ limiter stream hLoop hPolicy
    · rename_i e limiter hPolicy
      cases hStep
      exact .failed _ _ limiter e hLoop hPolicy
    · rename_i limiter hPolicy
      cases hStep
      exact .refused _ _ limiter hLoop hPolicy
  · cases hStep
  · cases hStep

theorem step_handshake
    {i : Nat}
    {done : Bool}
    (hStep : step serve s (.handshake i done) = some t) :
    Step serve s (.handshake i done) t := by
  simp only [step] at hStep
  split at hStep
  · rename_i hLoop
    split at hStep
    · cases hStep
    · rename_i stream hFound
      cases done with
      | true =>
          cases hStep
          exact .secured i stream hLoop hFound
      | false =>
          cases hStep
          exact .broken i stream hLoop hFound
  · cases hStep
  · cases hStep

theorem step_acquire
    (hStep : step serve s .acquire = some t) :
    Step serve s .acquire t := by
  simp only [step] at hStep
  split at hStep
  · rename_i c stream hLoop
    rcases Option.ite_none_right_eq_some.mp hStep with
      ⟨hFree, hSome⟩
    cases hSome
    exact .acquired c stream hLoop hFree
  · cases hStep
  · cases hStep

theorem step_upgrade
    {c : StreamId}
    (hStep : step serve s (.upgrade c) = some t) :
    Step serve s (.upgrade c) t := by
  simp only [step] at hStep
  split at hStep
  · rename_i task hFind
    cases hStep
    exact .upgraded c task rfl hFind
  · cases hStep
  · cases hStep

theorem step_close
    {c : StreamId}
    (hStep : step serve s (.close c) = some t) :
    Step serve s (.close c) t := by
  simp only [step] at hStep
  split at hStep
  · rename_i task hFind
    cases hStep
    exact .served c task hFind
  · rename_i hNone
    split at hStep
    · rename_i session hFind
      cases hStep
      exact .hungUp c session hNone hFind
    · cases hStep

theorem step_sound
    {a : PipelineAct}
    (hStep : step serve s a = some t) :
    Step serve s a t := by
  cases a with
  | tcp rateLimiter conn => exact step_tcp hStep
  | handshake i done => exact step_handshake hStep
  | acquire => exact step_acquire hStep
  | upgrade c => exact step_upgrade hStep
  | close c => exact step_close hStep

end Steps

end Pipeline

end Mles

------------------------------------------------------------
-- The Streams That Are Held
------------------------------------------------------------

namespace Mles

namespace Pipeline

/- The stream that an item of the policy carries. -/
def letThrough :
    Option (Except IoError PermittedStream) →
      List PermittedStream
| some (.ok stream) => [stream]
| some (.error _) => []
| none => []

/-
  The policy may let one stream through, one may be dropped
  together with its permit, and else the streams only change
  their stage.
-/
inductive Moved
    (s : Pipeline) : PipelineAct → Pipeline → Prop where
| policed
    (rateLimiter : Option (IpAddr → Bool))
    (conn : Except IoError TcpStream)
    (item : Option (Except IoError PermittedStream))
    (t : Pipeline)
    (hPolicy :
      enforceIpPolicy rateLimiter conn s.limiter =
        (item, t.limiter))
    (hHeld : t.held.Perm (letThrough item ++ s.held)) :
    Moved s (.tcp rateLimiter conn) t
| kept
    (a : PipelineAct)
    (t : Pipeline)
    (hLimiter : t.limiter = s.limiter)
    (hHeld : t.held.Perm s.held) :
    Moved s a t
| dropped
    (a : PipelineAct)
    (stream : PermittedStream)
    (t : Pipeline)
    (hLimiter : t.limiter = stream.permit.drop s.limiter)
    (hHeld : s.held.Perm (stream :: t.held)) :
    Moved s a t

section Moves

variable {serve : Serve}
variable {s t : Pipeline}

/- The loop is idle when it is offered a stream. -/
theorem held_offer
    (stream : PermittedStream)
    (hLoop : s.loop = .next) :
    (s.offer stream).held.Perm (stream :: s.held) := by
  simp only [held, waiting, offer, hLoop, List.append_nil,
    List.append_assoc, List.singleton_append]
  exact List.perm_middle

theorem held_letIn
    (stream : PermittedStream)
    (hLoop : s.loop = .next) :
    (letIn serve stream s).held.Perm (stream :: s.held) := by
  cases serve with
  | http => exact held_offer stream hLoop
  | tls => exact List.Perm.refl _

theorem held_fail
    (hLoop : s.loop = .next) :
    (fail serve s).held = s.held := by
  cases serve with
  | http => simp [fail, held, waiting, hLoop]
  | tls => rfl

theorem limiter_letIn
    (stream : PermittedStream) :
    (letIn serve stream s).limiter = s.limiter := by
  cases serve with
  | http => rfl
  | tls => rfl

theorem limiter_fail :
    (fail serve s).limiter = s.limiter := by
  cases serve with
  | http => rfl
  | tls => rfl

/- A handshake that is over, taken out of its stage. -/
theorem held_eraseIdx
    {i : Nat}
    {stream : PermittedStream}
    (limiter : PerIpLimiter IpAddr)
    (hFound : s.handshakes[i]? = some stream) :
    s.held.Perm
      (stream ::
        held
          { s with
            limiter := limiter
            handshakes := s.handshakes.eraseIdx i }) := by
  rcases List.getElem?_eq_some_iff.mp hFound with
    ⟨hIndex, rfl⟩
  have hFront := (List.getElem_cons_eraseIdx_perm hIndex).symm
  exact ((hFront.append_right _).append_right _).append_right _

/- A stream moved from its stage to the front. -/
theorem map_snd_perm
    {c : StreamId}
    {streams : List (StreamId × PermittedStream)}
    {found : StreamId × PermittedStream}
    (hFind : streams.find? (fun t => t.1 = c) = some found) :
    (streams.map Prod.snd).Perm
      (found.2 ::
        (streams.eraseP (fun t => t.1 = c)).map Prod.snd) :=
  (List.perm_cons_eraseP hFind).map Prod.snd

theorem Step.moved
    {a : PipelineAct}
    (hStep : Step serve s a t) :
    Moved s a t := by
  cases hStep with
  | refused rateLimiter conn limiter hLoop hPolicy =>
      exact .policed _ _ none _ hPolicy (List.Perm.refl _)
  | failed rateLimiter conn limiter e hLoop hPolicy =>
      refine .policed _ _ (some (.error e)) _ ?_ ?_
      · rw [limiter_fail, hPolicy]
      · rw [held_fail (by exact hLoop)]
        exact List.Perm.refl _
  | admitted rateLimiter conn limiter stream hLoop hPolicy =>
      refine .policed _ _ (some (.ok stream)) _ ?_ ?_
      · rw [limiter_letIn, hPolicy]
      · exact held_letIn stream hLoop
  | secured i stream hLoop hFound =>
      refine .kept _ _ rfl ?_
      exact (held_offer stream (by exact hLoop)).trans
        (held_eraseIdx s.limiter hFound).symm
  | broken i stream hLoop hFound =>
      exact .dropped _ _ _ rfl (held_eraseIdx _ hFound)
  | acquired c stream hLoop hFree =>
      refine .kept _ _ rfl ?_
      simp [held, waiting, hLoop]
  | upgraded c task hServe hFind =>
      refine .kept _ _ rfl ?_
      unfold held
      rw [List.append_assoc (s.handshakes ++ s.waiting)]
      refine List.Perm.trans ?_
        (((map_snd_perm hFind).symm.append_right
          _).append_left _)
      rw [List.append_assoc]
      exact List.perm_middle.append_left _
  | served c task hFind =>
      refine .dropped _ task.2 _ rfl ?_
      unfold held
      exact (((map_snd_perm hFind).append_left
        _).trans List.perm_middle).append_right _
  | hungUp c session hNone hFind =>
      refine .dropped _ session.2 _ rfl ?_
      unfold held
      exact ((map_snd_perm hFind).append_left
        _).trans List.perm_middle

end Moves

end Pipeline

end Mles

------------------------------------------------------------
-- The Policy and the Loop
------------------------------------------------------------

namespace Mles

namespace Admission

/- The stream that is closed is the one that was asked for. -/
theorem step_close_of_mem
    {maxPerKey : Nat}
    {s : Admission}
    {o : PermittedStream}
    (hCounted : Counted maxPerKey s)
    (hHonest : Honest maxPerKey s)
    (hOpen : o ∈ s.streams) :
    s.step (.close o.inner) =
      some
        { limiter := o.permit.drop s.limiter
          streams := s.streams.erase o } := by
  simp only [step]
  cases hFind :
      s.streams.find? (fun o' => o'.inner = o.inner) with
  | none =>
      have hOther := List.find?_eq_none.mp hFind o hOpen
      simp at hOther
  | some found =>
      have hMem := List.mem_of_find?_eq_some hFind
      have hInner : found.inner = o.inner := by
        simpa using List.find?_some hFind
      -- The inner stream determines the key and the peer.
      have hKey := hCounted.keyed found hMem
      have hPeer := hHonest.peers found hMem
      rw [hInner, ← hCounted.keyed o hOpen] at hKey
      rw [hInner, ← hHonest.peers o hOpen] at hPeer
      have hSame : found = o := by
        rcases found with ⟨inner, ⟨key⟩, peer⟩
        rcases o with ⟨inner', ⟨key'⟩, peer'⟩
        cases hInner
        cases hKey
        cases hPeer
        rfl
      rw [hSame]

end Admission

namespace Pipeline

/- The policy's own account of the streams. -/
structure Polices
    (s : Pipeline)
    (a : Admission) : Prop where
  limiter : a.limiter = s.limiter
  streams : a.streams.Perm s.held

/- What the policy does to one connection, for itself. -/
theorem policedStep_accept
    {rateLimiter : Option (IpAddr → Bool)}
    {conn : Except IoError TcpStream}
    {item : Option (Except IoError PermittedStream)}
    {limiter : PerIpLimiter IpAddr}
    {a : Admission}
    (hPolicy :
      enforceIpPolicy rateLimiter conn a.limiter =
        (item, limiter)) :
    a.policedStep (rateLimiter, .accept conn) =
      some
        { limiter := limiter
          streams := letThrough item ++ a.streams } := by
  simp only [Admission.policedStep, hPolicy]
  rcases item with _ | (e | stream)
  · rfl
  · rfl
  · rfl

theorem Polices.moved
    {maxPerKey : Nat}
    {s t : Pipeline}
    {act : PipelineAct}
    {a : Admission}
    (hCounted : Admission.Counted maxPerKey a)
    (hHonest : Admission.Honest maxPerKey a)
    (hPolices : Polices s a)
    (hMoved : Moved s act t) :
    ∃ more b, Trace.run Admission.step a more = some b ∧
      Polices t b := by
  cases hMoved with
  | policed rateLimiter conn item _ hPolicy hHeld =>
      rw [← hPolices.limiter] at hPolicy
      have hNext :
          Polices t
            { limiter := t.limiter
              streams := letThrough item ++ a.streams } :=
        ⟨rfl, (hPolices.streams.append_left _).trans
          hHeld.symm⟩
      rcases Admission.policedStep_cases
          (policedStep_accept hPolicy) with hSame | hStep
      · rw [hSame] at hNext
        exact ⟨[], a, rfl, hNext⟩
      · exact ⟨[.accept conn], _, Trace.run_single hStep, hNext⟩
  | kept _ _ hLimiter hHeld =>
      exact ⟨[], a, rfl, hPolices.limiter.trans hLimiter.symm,
        hPolices.streams.trans hHeld.symm⟩
  | dropped _ stream _ hLimiter hHeld =>
      have hAll := hPolices.streams.trans hHeld
      have hOpen : stream ∈ a.streams :=
        hAll.mem_iff.mpr List.mem_cons_self
      have hStep :=
        Admission.step_close_of_mem hCounted hHonest hOpen
      refine ⟨[.close stream.inner], _, Trace.run_single hStep,
        ?_, ?_⟩
      · rw [hLimiter, hPolices.limiter]
      · have hErased := hAll.erase stream
        rw [List.erase_cons_head] at hErased
        exact hErased

/- The accept loop's own account of them. -/
def listener (s : Pipeline) : Listener where
  loop :=
    match s.loop with
    | .next => .next
    | .acquire c _ => .acquire c
    | .ended => .ended
  accepted := s.accepted
  permits := s.permits
  tasks := s.tasks.map Prod.fst
  sessions := s.sessions.map Prod.fst

theorem mem_map_fst_of_find?
    {c : StreamId}
    {streams : List (StreamId × PermittedStream)}
    {found : StreamId × PermittedStream}
    (hFind : streams.find? (fun t => t.1 = c) = some found) :
    found.1 = c ∧ c ∈ streams.map Prod.fst := by
  have hId : found.1 = c := by simpa using List.find?_some hFind
  have hMem := List.mem_map_of_mem (f := Prod.fst)
    (List.mem_of_find?_eq_some hFind)
  rw [hId] at hMem
  exact ⟨hId, hMem⟩

theorem not_mem_map_fst_of_find?
    {c : StreamId}
    {streams : List (StreamId × PermittedStream)}
    (hFind : streams.find? (fun t => t.1 = c) = none) :
    c ∉ streams.map Prod.fst := by
  intro hMem
  rcases List.mem_map.mp hMem with ⟨found, hFound, hId⟩
  have hOther := List.find?_eq_none.mp hFind found hFound
  simp [hId] at hOther

theorem map_fst_eraseP
    (c : StreamId)
    (streams : List (StreamId × PermittedStream)) :
    (streams.eraseP (fun t => t.1 = c)).map Prod.fst =
      (streams.map Prod.fst).erase c := by
  rw [List.erase_eq_eraseP', List.eraseP_map]
  rfl

end Pipeline

end Mles

namespace Mles

namespace Pipeline

section Loop

variable {serve : Serve}
variable {s t : Pipeline}

theorem listener_offer
    (stream : PermittedStream)
    (hLoop : s.loop = .next) :
    s.listener.step (.incoming .stream) =
      some (s.offer stream).listener := by
  simp [Listener.step, listener, offer, hLoop]

/-
  The loop sees a connection when the policy lets it through
  or, with TLS in between, when its handshake is done.
-/
theorem Step.listener
    {a : PipelineAct}
    (hStep : Step serve s a t) :
    ∃ more,
      Trace.run Listener.step s.listener more =
        some t.listener := by
  cases hStep with
  | refused rateLimiter conn limiter hLoop hPolicy =>
      exact ⟨[], rfl⟩
  | failed rateLimiter conn limiter e hLoop hPolicy =>
      cases serve with
      | http =>
          refine ⟨[.incoming .ended], Trace.run_single ?_⟩
          simp [Listener.step, Pipeline.listener, fail, hLoop]
      | tls => exact ⟨[], rfl⟩
  | admitted rateLimiter conn limiter stream hLoop hPolicy =>
      cases serve with
      | http =>
          exact ⟨[.incoming .stream],
            Trace.run_single (listener_offer stream hLoop)⟩
      | tls => exact ⟨[], rfl⟩
  | secured i stream hLoop hFound =>
      exact ⟨[.incoming .stream],
        Trace.run_single (listener_offer stream hLoop)⟩
  | broken i stream hLoop hFound => exact ⟨[], rfl⟩
  | acquired c stream hLoop hFree =>
      refine ⟨[.acquire], Trace.run_single ?_⟩
      simp [Listener.step, Pipeline.listener, hLoop, hFree]
  | upgraded c task hServe hFind =>
      rcases mem_map_fst_of_find? hFind with ⟨hId, hMem⟩
      refine ⟨[.upgrade c], Trace.run_single ?_⟩
      simp only [Listener.step, Pipeline.listener, hMem,
        if_true, map_fst_eraseP, List.map_cons, hId]
  | served c task hFind =>
      have hMem := (mem_map_fst_of_find? hFind).2
      refine ⟨[.close c], Trace.run_single ?_⟩
      simp only [Listener.step, Pipeline.listener, hMem,
        if_true, map_fst_eraseP]
  | hungUp c session hNone hFind =>
      have hNot := not_mem_map_fst_of_find? hNone
      have hMem := (mem_map_fst_of_find? hFind).2
      refine ⟨[.close c], Trace.run_single ?_⟩
      simp only [Listener.step, Pipeline.listener, hNot, hMem,
        if_true, if_false, map_fst_eraseP]

end Loop

/-
  Every run of the whole is a run of the policy on the
  streams that are held, in whichever stage, and a run of
  the accept loop on the streams it was offered.
-/
theorem refines_policy_and_loop
    {serve : Serve}
    {maxPerKey : Nat}
    {pos : 0 < maxPerKey}
    {filelimit : Nat}
    {acts : List PipelineAct}
    {s : Pipeline}
    (hRun : run serve maxPerKey pos filelimit acts = some s) :
    (∃ policy a,
      Admission.run maxPerKey pos policy = some a ∧
        Polices s a) ∧
      ∃ loop,
        Listener.run filelimit loop = some s.listener := by
  constructor
  · refine Trace.run_simulation (R := Polices)
      ⟨rfl, List.Perm.refl _⟩ ?_ hRun
    intro acts policy s a act t _ hPolicy hPolices hStep
    exact hPolices.moved (Admission.counted_of_run hPolicy)
      (Admission.honest_of_run hPolicy) (step_sound hStep).moved
  · have hLoop :
        ∃ loop l,
          Trace.run Listener.step (Listener.init filelimit)
              loop = some l ∧
            l = s.listener := by
      refine Trace.run_simulation
        (R := fun s l => l = Pipeline.listener s) rfl ?_ hRun
      rintro acts loop s _ act t _ _ rfl hStep
      rcases (step_sound hStep).listener with ⟨more, hMore⟩
      exact ⟨more, _, hMore, rfl⟩
    rcases hLoop with ⟨loop, l, hRun', rfl⟩
    exact ⟨loop, hRun'⟩

/- A session that holds a place of its source, no permit. -/
def upgradedStream : List PipelineAct :=
  [.tcp none (.ok Admission.mappedPeer), .handshake 0 true,
    .acquire, .upgrade 0]

theorem refines_policy_and_loop_upgraded :
    ∃ s,
      run .tls 4 (by decide) 2 upgradedStream = some s ∧
        s.permits = 2 ∧ s.held.length = 1 ∧
        (∃ policy a,
          Admission.run 4 (by decide) policy = some a ∧
            Polices s a) ∧
        ∃ loop, Listener.run 2 loop = some s.listener := by
  have hSome :
      (run .tls 4 (by decide) 2 upgradedStream).map
          (fun s => (s.permits, s.held.length)) =
        some (2, 1) := by
    decide +kernel
  rcases Option.map_eq_some_iff.mp hSome with ⟨s, hRun, hEq⟩
  rcases Prod.mk.inj hEq with ⟨hPermits, hHeld⟩
  exact ⟨s, hRun, hPermits, hHeld,
    refines_policy_and_loop hRun⟩

end Pipeline

end Mles
