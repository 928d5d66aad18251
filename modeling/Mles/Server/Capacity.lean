import Mles.Server.Pipeline
import Mles.Server.Startup

/-
  How much of a listener one client can take.

  The cap of `PerIpLimiter` counts every stream of a source
  that is open, through all stages; the semaphore counts the
  streams that tasks serve.  Together they say what it takes
  to keep everyone else out: as many sources as have, with
  the cap each, as many places as there are permits.  Fewer
  cannot do it, whatever they do.

  And neither of the two counts leaks: when all streams are
  gone, both are as they were in the beginning.

  Key definitions include:
    * `Pipeline.Accounted`
    * `Pipeline.ShutOut`

  Key theorems include:
    * `Pipeline.accounted_of_run`
    * `Listens.shut_out_iff`
    * `Pipeline.drains`
-/

------------------------------------------------------------
-- The Accounts of the Whole
------------------------------------------------------------

namespace Mles

namespace Pipeline

/- The streams of a class, in whichever stage. -/
def heldFrom
    (ip : IpAddr)
    (s : Pipeline) : Nat :=
  s.held.countP (fun o => SameClass ip o.inner.ip)

/-
  The limiter counts the streams that are held, no source
  holds more of them than the cap, and each permit is free
  or with a task.
-/
structure Accounted
    (maxPerKey filelimit : Nat)
    (s : Pipeline) : Prop where
  counts :
    s.limiter.counts.Tallies
      (s.held.map (fun o => o.permit.key))
  capped : ∀ ip, s.heldFrom ip ≤ maxPerKey
  permits : s.permits + s.tasks.length = filelimit

section Runs

variable {serve : Serve}
variable {maxPerKey filelimit : Nat}
variable {pos : 0 < maxPerKey}
variable {acts : List PipelineAct}
variable {s : Pipeline}

theorem accounted_of_run
    (hRun : run serve maxPerKey pos filelimit acts = some s) :
    Accounted maxPerKey filelimit s := by
  rcases refines_policy_and_loop hRun with
    ⟨⟨policy, a, hPolicy, hPolices⟩, loop, hLoop⟩
  refine ⟨?_, ?_, ?_⟩
  · rw [← hPolices.limiter]
    exact (Admission.counted_of_run hPolicy).counts.perm
      (hPolices.streams.map _)
  · intro ip
    have hCapped :=
      (Admission.honest_of_run hPolicy).capped ip
    unfold Admission.openFrom at hCapped
    rw [hPolices.streams.countP_eq] at hCapped
    exact hCapped
  · have hAccounted := Listener.accounted_of_run hLoop
    unfold Listener.Accounted at hAccounted
    simpa [listener] using hAccounted

/- There is room for a source with few streams. -/
theorem policy_of_room
    (hRun : run serve maxPerKey pos filelimit acts = some s)
    {stream : TcpStream}
    (hRoom : s.heldFrom stream.ip < maxPerKey) :
    ∃ o limiter,
      enforceIpPolicy none (.ok stream) s.limiter =
          (some (.ok o), limiter) ∧
        o.inner = stream := by
  rcases (refines_policy_and_loop hRun).1 with
    ⟨policy, a, hPolicy, hPolices⟩
  have hSame : a.openFrom stream.ip = s.heldFrom stream.ip :=
    hPolices.streams.countP_eq _
  rw [← hSame] at hRoom
  rcases Admission.accept_of_room
      (Admission.counted_of_run hPolicy) hRoom with
    ⟨counts, hEq, _⟩
  rw [hPolices.limiter] at hEq
  exact ⟨_, _, hEq, rfl⟩

/- The policy makes up no streams. -/
theorem inner_of_policy
    {rateLimiter : Option (IpAddr → Bool)}
    {conn : Except IoError TcpStream}
    {l l' : PerIpLimiter IpAddr}
    {o : PermittedStream}
    (hPolicy :
      enforceIpPolicy rateLimiter conn l = (some (.ok o), l')) :
    conn = .ok o.inner := by
  cases conn with
  | error e => cases hPolicy
  | ok stream =>
      simp only [enforceIpPolicy] at hPolicy
      split at hPolicy
      · cases hPolicy
      · split at hPolicy
        · cases hPolicy
          rfl
        · cases hPolicy

end Runs

end Pipeline

end Mles

------------------------------------------------------------
-- Shutting Others Out
------------------------------------------------------------

namespace Mles

/- New connections come from the given sources only. -/
def PipelineAct.ComesFrom
    (ips : List IpAddr) : PipelineAct → Prop
| .tcp _ (.ok stream) => ∃ ip ∈ ips, SameClass ip stream.ip
| .tcp _ (.error _) => True
| .handshake _ _ => True
| .acquire => True
| .upgrade _ => True
| .close _ => True

namespace Pipeline

/- The acts by which a stream comes up to the accept loop. -/
def arrive
    (serve : Serve)
    (stream : TcpStream) : List PipelineAct :=
  match serve with
  | .http => [.tcp none (.ok stream)]
  | .tls => [.tcp none (.ok stream), .handshake 0 true]

/- The stream is there, and no permit is left for it. -/
def ShutOut
    (stream : TcpStream)
    (s : Pipeline) : Prop :=
  s.permits = 0 ∧
    ∃ c o, s.loop = .acquire c o ∧ o.inner = stream

section Starving

variable {serve : Serve}
variable {maxPerKey filelimit : Nat}
variable {pos : 0 < maxPerKey}
variable {ips : List IpAddr}
variable {acts : List PipelineAct}
variable {s t : Pipeline}

/- All that is held came from these sources. -/
theorem held_of_comesFrom
    (hRun : run serve maxPerKey pos filelimit acts = some s)
    (hActs : ∀ a ∈ acts, a.ComesFrom ips)
    {o : PermittedStream}
    (hHeld : o ∈ s.held) :
    ∃ ip ∈ ips, SameClass ip o.inner.ip := by
  refine Trace.run_induction
    (P := fun acts s =>
      (∀ a ∈ acts, PipelineAct.ComesFrom ips a) →
        ∀ o ∈ Pipeline.held s,
          ∃ ip ∈ ips, SameClass ip o.inner.ip)
    ?_ ?_ hRun hActs o hHeld
  · intro _ o hNone
    cases hNone
  · intro acts s a t _ ih hStep hActs o hMem
    have hBefore :=
      ih (fun b hOld => hActs b (List.mem_append_left _ hOld))
    have hLast := hActs a (by simp)
    cases (step_sound hStep).moved with
    | policed rateLimiter conn item _ hPolicy hHeld =>
        rcases List.mem_append.mp (hHeld.mem_iff.mp hMem) with
          hNew | hOld
        · rcases item with _ | (e | stream)
          · cases hNew
          · cases hNew
          · cases List.mem_singleton.mp hNew
            rw [inner_of_policy hPolicy] at hLast
            exact hLast
        · exact hBefore o hOld
    | kept _ _ hLimiter hHeld =>
        exact hBefore o (hHeld.mem_iff.mp hMem)
    | dropped _ stream _ hLimiter hHeld =>
        exact hBefore o (hHeld.mem_iff.mpr
          (List.mem_cons_of_mem _ hMem))

/- Tasks of few sources are few tasks. -/
theorem filelimit_le_of_comesFrom
    (hRun : run serve maxPerKey pos filelimit acts = some s)
    (hActs : ∀ a ∈ acts, a.ComesFrom ips)
    (hNone : s.permits = 0) :
    filelimit ≤ maxPerKey * ips.length := by
  have hAccounted := accounted_of_run hRun
  have hTasks := hAccounted.permits
  have hSub :
      (s.tasks.map Prod.snd).Sublist s.held :=
    (List.sublist_append_right _ _).trans
      (List.sublist_append_left _ _)
  have hFew :
      (s.tasks.map Prod.snd).length ≤
        maxPerKey * ips.length := by
    refine List.length_le_mul_of_countP_le
      (fun ip (o : PermittedStream) => SameClass ip o.inner.ip)
      ?_ ?_
    · intro o hMem
      simpa using
        held_of_comesFrom hRun hActs (hSub.subset hMem)
    · intro ip _
      exact hSub.countP_le.trans (hAccounted.capped ip)
  rw [List.length_map] at hFew
  omega

/- Only the loop takes a permit of the semaphore. -/
theorem Step.permits_tcp
    {rateLimiter : Option (IpAddr → Bool)}
    {conn : Except IoError TcpStream}
    (hStep : Step serve s (.tcp rateLimiter conn) t) :
    t.permits = s.permits := by
  cases hStep with
  | refused limiter hLoop hPolicy => rfl
  | failed limiter e hLoop hPolicy =>
      cases serve with
      | http => rfl
      | tls => rfl
  | admitted limiter stream hLoop hPolicy =>
      cases serve with
      | http => rfl
      | tls => rfl

theorem Step.permits_handshake
    {i : Nat}
    {done : Bool}
    (hStep : Step serve s (.handshake i done) t) :
    t.permits = s.permits := by
  cases hStep with
  | secured stream hLoop hFound => rfl
  | broken stream hLoop hFound => rfl

theorem permits_of_arrive
    {stream : TcpStream}
    (hArrive :
      Trace.run (step serve) s (arrive serve stream) = some t) :
    t.permits = s.permits := by
  cases serve with
  | http =>
      rcases Option.bind_eq_some_iff.mp hArrive with
        ⟨u, hTcp, hNil⟩
      cases hNil
      exact (step_sound hTcp).permits_tcp
  | tls =>
      rcases Option.bind_eq_some_iff.mp hArrive with
        ⟨u, hTcp, hRest⟩
      rcases Option.bind_eq_some_iff.mp hRest with
        ⟨v, hHandshake, hNil⟩
      cases hNil
      exact (step_sound hHandshake).permits_handshake.trans
        (step_sound hTcp).permits_tcp

/- A stream comes up to the loop, if its source has room. -/
theorem arrive_of_room
    (hRun : run serve maxPerKey pos filelimit acts = some s)
    (hLoop : s.loop = .next)
    {stream : TcpStream}
    (hRoom : s.heldFrom stream.ip < maxPerKey) :
    ∃ o limiter,
      o.inner = stream ∧
        Trace.run (step serve) s (arrive serve stream) =
          some (offer o { s with limiter := limiter }) := by
  rcases policy_of_room hRun hRoom with
    ⟨o, limiter, hPolicy, hInner⟩
  refine ⟨o, limiter, hInner, ?_⟩
  cases serve with
  | http =>
      simp [arrive, Trace.run_cons, step, hLoop, hPolicy, letIn]
  | tls =>
      simp [arrive, Trace.run_cons, step, hLoop, hPolicy, letIn]

/- And then is served, if there is a permit. -/
theorem enter_of_room
    (hRun : run serve maxPerKey pos filelimit acts = some s)
    (hLoop : s.loop = .next)
    {stream : TcpStream}
    (hRoom : s.heldFrom stream.ip < maxPerKey)
    (hFree : 0 < s.permits) :
    ∃ o limiter,
      Trace.run (step serve) s
          (arrive serve stream ++ [.acquire]) =
        some
          { s with
            limiter := limiter
            loop := .next
            accepted := s.accepted + 1
            permits := s.permits - 1
            tasks := (s.accepted, o) :: s.tasks } := by
  rcases arrive_of_room hRun hLoop hRoom with
    ⟨o, limiter, _, hArrive⟩
  refine ⟨o, limiter, Trace.run_trans hArrive ?_⟩
  simp [Trace.run_cons, step, offer, hFree]

/- What these acts bring in is of the source of the stream. -/
theorem comesFrom_enter
    {ip : IpAddr}
    {stream : TcpStream}
    (hSource : ip ∈ ips)
    (hSame : SameClass ip stream.ip) :
    ∀ a ∈ arrive serve stream ++ [.acquire],
      PipelineAct.ComesFrom ips a := by
  cases serve with
  | http =>
      simp only [arrive, List.cons_append, List.nil_append,
        List.forall_mem_cons]
      exact ⟨⟨ip, hSource, hSame⟩, trivial, by simp⟩
  | tls =>
      simp only [arrive, List.cons_append, List.nil_append,
        List.forall_mem_cons]
      exact ⟨⟨ip, hSource, hSame⟩, trivial, trivial, by simp⟩

/-
  As long as the sources have places, and the semaphore has
  permits, one of them can have one more stream served.
-/
theorem exists_serving_run
    (serve : Serve)
    (pos : 0 < maxPerKey)
    (hApart : ips.Pairwise (fun ip ip' => ¬ SameClass ip ip'))
    (hEnough : filelimit ≤ maxPerKey * ips.length)
    (n : Nat)
    (hMost : n ≤ filelimit) :
    ∃ acts s,
      (∀ a ∈ acts, PipelineAct.ComesFrom ips a) ∧
        run serve maxPerKey pos filelimit acts = some s ∧
        s.loop = .next ∧ s.handshakes = [] ∧
        s.sessions = [] ∧ s.permits + n = filelimit := by
  induction n with
  | zero =>
      exact ⟨[], _, by simp, rfl, rfl, rfl, rfl, rfl⟩
  | succ n ih =>
      rcases ih (by omega) with
        ⟨acts, s, hActs, hRun, hLoop, hHandshakes, hSessions,
          hPermits⟩
      have hTasks := (accounted_of_run hRun).permits
      have hHeld : s.held = s.tasks.map Prod.snd := by
        simp [held, waiting, hLoop, hHandshakes, hSessions]
      -- Were all of them full, there would be more tasks.
      have hPlace :
          ∃ ip ∈ ips, s.heldFrom ip < maxPerKey := by
        by_contra hFull
        push Not at hFull
        have hMany :
            maxPerKey * ips.length ≤ s.held.length := by
          refine List.mul_le_length_of_le_countP
            (fun ip (o : PermittedStream) =>
              SameClass ip o.inner.ip) ?_ hFull
          refine hApart.imp ?_
          intro ip ip' hNot o hIn' hIn
          simp only [decide_eq_true_eq, sameClass_iff] at *
          exact hNot (hIn.trans hIn'.symm)
        rw [hHeld, List.length_map] at hMany
        omega
      rcases hPlace with ⟨ip, hSource, hRoom⟩
      let stream : TcpStream :=
        ⟨s.accepted, some ⟨ip, 50000⟩⟩
      have hStream : s.heldFrom stream.ip < maxPerKey := hRoom
      rcases enter_of_room hRun hLoop hStream (by omega) with
        ⟨o, limiter, hEnter⟩
      refine ⟨_, _, ?_, Trace.run_trans hRun hEnter, rfl,
        hHandshakes, hSessions, ?_⟩
      · intro a hMem
        rcases List.mem_append.mp hMem with hOld | hNew
        · exact hActs a hOld
        · exact comesFrom_enter hSource
            (sameClass_iff.mpr rfl) a hNew
      · dsimp only
        omega

/- The places of the sources against the permits. -/
theorem exists_shutOut_iff
    (serve : Serve)
    (maxPerKey : Nat)
    (pos : 0 < maxPerKey)
    (filelimit : Nat)
    (ips : List IpAddr)
    (hApart : ips.Pairwise (fun ip ip' => ¬ SameClass ip ip'))
    (victim : TcpStream)
    (hOther : ∀ ip ∈ ips, ¬ SameClass ip victim.ip) :
    (∃ acts s t,
      (∀ a ∈ acts, PipelineAct.ComesFrom ips a) ∧
        run serve maxPerKey pos filelimit acts = some s ∧
        Trace.run (step serve) s (arrive serve victim) =
          some t ∧
        t.ShutOut victim) ↔
      filelimit ≤ maxPerKey * ips.length := by
  constructor
  · rintro ⟨acts, s, t, hActs, hRun, hArrive, hNone, _⟩
    rw [permits_of_arrive hArrive] at hNone
    exact filelimit_le_of_comesFrom hRun hActs hNone
  · intro hEnough
    rcases exists_serving_run serve pos hApart hEnough
        filelimit (Nat.le_refl _) with
      ⟨acts, s, hActs, hRun, hLoop, _, _, hPermits⟩
    have hVictim : s.heldFrom victim.ip < maxPerKey := by
      refine lt_of_eq_of_lt (List.countP_eq_zero.mpr ?_) pos
      intro o hHeld hSame
      rcases held_of_comesFrom hRun hActs hHeld with
        ⟨ip, hSource, hIn⟩
      simp only [decide_eq_true_eq] at hSame
      exact hOther ip hSource (sameClass_iff.mpr
        ((sameClass_iff.mp hIn).trans
          (sameClass_iff.mp hSame).symm))
    rcases arrive_of_room hRun hLoop hVictim with
      ⟨o, limiter, hInner, hArrive⟩
    refine ⟨acts, s, _, hActs, hRun, hArrive, ?_, _, o, rfl,
      hInner⟩
    change s.permits = 0
    omega

end Starving

end Pipeline

/- A listener when it begins to serve. -/
def Listening.pipeline (l : Listening) : Pipeline where
  limiter := l.perIp
  handshakes := []
  loop := .next
  accepted := 0
  permits := l.semaphore.permits
  tasks := []
  sessions := []

theorem Listens.pipeline_eq
    {args : Args}
    {port : UInt16}
    {l : Listening}
    (hListens : Listens args port l) :
    ∃ pos,
      l.pipeline =
        Pipeline.init args.perIpLimit.toNat pos
          args.filelimit.toNat := by
  rcases l with ⟨addr, semaphore, ⟨maxPerKey, pos, counts⟩⟩
  rcases hListens with ⟨hAddr, hSemaphore, hCap, hCounts⟩
  cases hSemaphore
  cases hCap
  cases hCounts
  exact ⟨pos, rfl⟩

/-
  On either listener of a server that was started: sources
  can shut out everyone else, by themselves and whatever
  they do, if and only if the places they may have together
  are as many as the permits.
-/
theorem Listens.shut_out_iff
    {args : Args}
    {port : UInt16}
    {l : Listening}
    (hListens : Listens args port l)
    (serve : Serve)
    (ips : List IpAddr)
    (hApart : ips.Pairwise (fun ip ip' => ¬ SameClass ip ip'))
    (victim : TcpStream)
    (hOther : ∀ ip ∈ ips, ¬ SameClass ip victim.ip) :
    (∃ acts s t,
      (∀ a ∈ acts, PipelineAct.ComesFrom ips a) ∧
        Trace.run (Pipeline.step serve) l.pipeline acts =
          some s ∧
        Trace.run (Pipeline.step serve) s
            (Pipeline.arrive serve victim) =
          some t ∧
        t.ShutOut victim) ↔
      args.filelimit.toNat ≤
        args.perIpLimit.toNat * ips.length := by
  rcases hListens.pipeline_eq with ⟨pos, hInit⟩
  rw [hInit]
  exact Pipeline.exists_shutOut_iff serve _ pos _ ips hApart
    victim hOther

/- By default it takes eight sources. -/
theorem shut_out_by_eight :
    ∃ l,
      Listens (Args.withDefaults "mles.io" "www") 443 l ∧
      ∃ acts s t,
        (∀ a ∈ acts,
          PipelineAct.ComesFrom
            ((List.range 8).map
              (fun i => .v4 (.ofNat 32 (0xc0000200 + i)))) a) ∧
          Trace.run (Pipeline.step .tls) l.pipeline acts =
            some s ∧
          Trace.run (Pipeline.step .tls) s
              (Pipeline.arrive .tls Admission.mappedPeer) =
            some t ∧
          t.ShutOut Admission.mappedPeer := by
  let l : Listening :=
    ⟨⟨.v6 Ipv6Addr.unspecified, 443⟩, ⟨256, false⟩,
      .new 32 (by decide)⟩
  have hListens :
      Listens (Args.withDefaults "mles.io" "www") 443 l :=
    ⟨rfl, rfl, rfl, rfl⟩
  refine ⟨l, hListens, ?_⟩
  exact (hListens.shut_out_iff .tls _ (by decide +kernel)
    Admission.mappedPeer (by decide +kernel)).mpr
      (by decide +kernel)

end Mles

------------------------------------------------------------
-- Giving Everything Back
------------------------------------------------------------

namespace Mles

/- No connection comes in, and no stream goes further. -/
def PipelineAct.Ends : PipelineAct → Prop
| .tcp _ _ => False
| .handshake _ done => done = false
| .acquire => True
| .upgrade _ => False
| .close _ => True

namespace Pipeline

section Draining

variable {serve : Serve}
variable {maxPerKey filelimit : Nat}
variable {pos : 0 < maxPerKey}
variable {acts : List PipelineAct}
variable {s t : Pipeline}

/-
  `serve_http` has no handshakes, and the loop of `serve_tls`
  does not end.
-/
def Runs
    (serve : Serve)
    (s : Pipeline) : Prop :=
  match serve with
  | .http => s.handshakes = []
  | .tls => s.loop ≠ .ended

theorem Step.runs
    {a : PipelineAct}
    (hRuns : Runs serve s)
    (hStep : Step serve s a t) :
    Runs serve t := by
  cases hStep with
  | failed rateLimiter conn limiter e hLoop hPolicy =>
      cases serve with
      | http => exact hRuns
      | tls => exact hRuns
  | admitted rateLimiter conn limiter stream hLoop hPolicy =>
      cases serve with
      | http => exact hRuns
      | tls => exact hRuns
  | secured i stream hLoop hFound =>
      cases serve with
      | http =>
          rw [show s.handshakes = [] from hRuns] at hFound
          cases hFound
      | tls => exact fun hEnded => ServeLoop.noConfusion hEnded
  | broken i stream hLoop hFound =>
      cases serve with
      | http =>
          rw [show s.handshakes = [] from hRuns] at hFound
          cases hFound
      | tls => exact hRuns
  | acquired c stream hLoop hFree =>
      cases serve with
      | http => exact hRuns
      | tls => exact fun hEnded => ServeLoop.noConfusion hEnded
  | _ => exact hRuns

theorem runs_of_run
    (hRun : run serve maxPerKey pos filelimit acts = some s) :
    Runs serve s := by
  refine Trace.run_induction
    (P := fun _ s => Runs serve s) ?_ ?_ hRun
  · cases serve with
    | http => rfl
    | tls => exact fun hEnded => ServeLoop.noConfusion hEnded
  · intro acts s a t _ hRuns hStep
    exact (step_sound hStep).runs hRuns

/- What is still to be dropped, the waiting stream twice. -/
def load (s : Pipeline) : Nat :=
  s.handshakes.length + 2 * s.waiting.length +
    s.tasks.length + s.sessions.length

/- Some stream can be dropped, or be served to its end. -/
theorem exists_ending_step
    (hLimit : 0 < filelimit)
    (hRun : run serve maxPerKey pos filelimit acts = some s)
    (hHeld : s.held ≠ []) :
    ∃ a t,
      PipelineAct.Ends a ∧ step serve s a = some t ∧
        t.load < s.load := by
  cases hTasks : s.tasks with
  | cons task tasks =>
      have hStep :
          step serve s (.close task.1) =
            some
              { s with
                limiter := task.2.permit.drop s.limiter
                permits := s.permits + 1
                tasks := tasks } := by
        simp [step, hTasks]
      refine ⟨.close task.1, _, trivial, hStep, ?_⟩
      simp only [load, waiting, hTasks, List.length_cons]
      omega
  | nil =>
      cases hSessions : s.sessions with
      | cons session sessions =>
          have hStep :
              step serve s (.close session.1) =
                some
                  { s with
                    limiter := session.2.permit.drop s.limiter
                    sessions := sessions } := by
            simp [step, hTasks, hSessions]
          refine ⟨.close session.1, _, trivial, hStep, ?_⟩
          simp only [load, waiting, hSessions,
            List.length_cons]
          omega
      | nil =>
          cases hLoop : s.loop with
          | acquire c stream =>
              -- All permits are free, since no task has one.
              have hPermits := (accounted_of_run hRun).permits
              rw [hTasks, List.length_nil] at hPermits
              have hStep :
                  step serve s .acquire =
                    some
                      { s with
                        loop := .next
                        permits := s.permits - 1
                        tasks := (c, stream) :: s.tasks } := by
                simp only [step, hLoop]
                exact if_pos (by omega)
              refine ⟨.acquire, _, trivial, hStep, ?_⟩
              simp only [load, waiting, hLoop, List.length_cons,
                List.length_nil]
              omega
          | next =>
              cases hHandshakes : s.handshakes with
              | cons stream handshakes =>
                  have hStep :
                      step serve s (.handshake 0 false) =
                        some
                          { s with
                            limiter :=
                              stream.permit.drop s.limiter
                            handshakes := handshakes } := by
                    simp [step, hLoop, hHandshakes]
                  refine ⟨.handshake 0 false, _, rfl, hStep, ?_⟩
                  simp only [load, waiting, hHandshakes,
                    List.length_cons]
                  omega
              | nil =>
                  exact absurd (by
                    simp [held, waiting, hLoop, hHandshakes,
                      hTasks, hSessions]) hHeld
          | ended =>
              have hRuns := runs_of_run hRun
              cases serve with
              | http =>
                  exact absurd (by
                    simp [held, waiting, hLoop, hTasks,
                      hSessions, show s.handshakes = [] from hRuns])
                    hHeld
              | tls => exact absurd hLoop hRuns

/- By induction on what is still to be dropped. -/
theorem exists_empty_run
    (hLimit : 0 < filelimit)
    (n : Nat)
    (hLoad : s.load ≤ n)
    (hRun : run serve maxPerKey pos filelimit acts = some s) :
    ∃ more t,
      (∀ a ∈ more, PipelineAct.Ends a) ∧
        run serve maxPerKey pos filelimit (acts ++ more) =
          some t ∧
        t.held = [] := by
  induction n generalizing acts s with
  | zero =>
      by_cases hHeld : s.held = []
      · refine ⟨[], s, by simp, ?_, hHeld⟩
        rw [List.append_nil]
        exact hRun
      · rcases exists_ending_step hLimit hRun hHeld with
          ⟨a, t, _, _, hLess⟩
        omega
  | succ n ih =>
      by_cases hHeld : s.held = []
      · refine ⟨[], s, by simp, ?_, hHeld⟩
        rw [List.append_nil]
        exact hRun
      · rcases exists_ending_step hLimit hRun hHeld with
          ⟨a, t, hEnds, hStep, hLess⟩
        have hNext :=
          Trace.run_snoc_eq_some_iff.mpr ⟨s, hRun, hStep⟩
        rcases ih (by omega) hNext with
          ⟨more, u, hMore, hEnd, hEmpty⟩
        refine ⟨a :: more, u, ?_, ?_, hEmpty⟩
        · exact List.forall_mem_cons.mpr ⟨hEnds, hMore⟩
        · rw [List.append_cons]
          exact hEnd

/- Nothing is left behind by the streams that are gone. -/
theorem fresh_of_held_nil
    (hRun : run serve maxPerKey pos filelimit acts = some s)
    (hEmpty : s.held = []) :
    s.limiter.counts = ∅ ∧ s.permits = filelimit := by
  have hAccounted := accounted_of_run hRun
  have hCounts := hAccounted.counts
  rw [hEmpty] at hCounts
  have hTasks : s.tasks = [] := by
    have hAll := hEmpty
    unfold held at hAll
    simpa using (List.append_eq_nil_iff.mp
      (List.append_eq_nil_iff.mp hAll).1).2
  refine ⟨hCounts.eq_empty, ?_⟩
  have hPermits := hAccounted.permits
  rw [hTasks] at hPermits
  exact hPermits

/-
  Whatever has happened: the clients can always all go away,
  and then nothing of them is left.  The limiter has no
  entry, and all permits of the semaphore are free.
-/
theorem drains
    (hLimit : 0 < filelimit)
    (hRun : run serve maxPerKey pos filelimit acts = some s) :
    ∃ more t,
      (∀ a ∈ more, PipelineAct.Ends a) ∧
        run serve maxPerKey pos filelimit (acts ++ more) =
          some t ∧
        t.held = [] ∧
        t.limiter.counts = ∅ ∧
        t.permits = filelimit := by
  rcases exists_empty_run hLimit s.load (Nat.le_refl _) hRun
    with ⟨more, t, hMore, hEnd, hEmpty⟩
  exact ⟨more, t, hMore, hEnd, hEmpty,
    fresh_of_held_nil hEnd hEmpty⟩

/- A stream waits for the only permit. -/
def waitingStream : List PipelineAct :=
  [.tcp none (.ok Admission.mappedPeer), .handshake 0 true,
    .acquire, .tcp none (.ok Admission.plainPeer),
    .handshake 0 true]

theorem drains_waitingStream :
    ∃ s,
      run .tls 4 (by decide) 1 waitingStream = some s ∧
        s.permits = 0 ∧ s.waiting.length = 1 ∧
        ∃ more t,
          (∀ a ∈ more, PipelineAct.Ends a) ∧
            run .tls 4 (by decide) 1 (waitingStream ++ more) =
              some t ∧
            t.held = [] ∧
            t.limiter.counts = ∅ ∧
            t.permits = 1 := by
  have hSome :
      (run .tls 4 (by decide) 1 waitingStream).map
          (fun s => (s.permits, s.waiting.length)) =
        some (0, 1) := by
    decide +kernel
  rcases Option.map_eq_some_iff.mp hSome with ⟨s, hRun, hEq⟩
  rcases Prod.mk.inj hEq with ⟨hPermits, hWaiting⟩
  exact ⟨s, hRun, hPermits, hWaiting, drains (by decide) hRun⟩

end Draining

end Pipeline

end Mles
