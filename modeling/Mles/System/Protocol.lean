import Mles.System.Ordering
import Mles.System.Registration

/-
  What a connection asks of the event loop.

  Every connection speaks one protocol: an `Init` with the
  hashes of its header, then the frames it reads as `Msg`s
  with the same hashes, and at some time a `Logoff`, at most
  once.  The event queue loses none of these events, and
  keeps them in order.

  Key definitions include:
    * `Sys.puts`
    * `Sys.gets`
    * `Conn.Protocol`

  Key theorems include:
    * `Sys.puts_eq_gets_append`
    * `Sys.protocol_of_run`
    * `Sys.speaks_protocol`
-/

------------------------------------------------------------
-- The Events of a Connection
------------------------------------------------------------

namespace Mles

/- The event the receiver task waits to queue. -/
def Conn.request
    (c : ConnId)
    (conn : Conn) : Option TaskEvent :=
  match conn.receiver with
  | .sendInit h ch f => some (.init h ch c c f)
  | .sendMsg h ch f => some (.msg h ch f)
  | .firstFrame => none
  | .awaitInit => none
  | .sendClose => none
  | .nextFrame => none
  | .sendNone => none
  | .done => none

/- The event the sender task waits to queue. -/
def Conn.release (conn : Conn) : Option TaskEvent :=
  match conn.sender with
  | .sendLogoff h ch => some (.logoff h ch)
  | .next => none
  | .write _ => none
  | .writeClose => none
  | .done => none

namespace Sys

/- What a step puts into the event queue. -/
def puts
    (s : Sys) : Act → List (ConnId × TaskEvent)
| .resume c =>
    (((s.conns c).request c).map (fun e => (c, e))).toList
| .logoff c =>
    ((s.conns c).release.map (fun e => (c, e))).toList
| _ => []

/- What a step takes out of it. -/
def gets
    (s : Sys) : Act → List (ConnId × TaskEvent)
| .take _ => s.events.take 1
| _ => []

/- The events of one connection. -/
def eventsOf
    (c : ConnId)
    (log : List (ConnId × TaskEvent)) : List TaskEvent :=
  (log.filter (fun e => e.1 = c)).map Prod.snd

/- The events put into the queue, and taken, in a run. -/
def putsIn
    (env : Env)
    (acts : List Act) : List (ConnId × TaskEvent) :=
  Trace.collect (step env) puts init acts

def getsIn
    (env : Env)
    (acts : List Act) : List (ConnId × TaskEvent) :=
  Trace.collect (step env) gets init acts

theorem eventsOf_append
    (c : ConnId)
    (log more : List (ConnId × TaskEvent)) :
    eventsOf c (log ++ more) =
      eventsOf c log ++ eventsOf c more := by
  simp [eventsOf]

/- The event of one task, if it belongs to `c`. -/
theorem eventsOf_toList
    (c d : ConnId)
    (e : Option TaskEvent) :
    eventsOf c ((e.map (fun e => (d, e))).toList) =
      if d = c then e.toList else [] := by
  cases e with
  | none => simp [eventsOf]
  | some e =>
      by_cases hEq : d = c
      · simp [eventsOf, hEq]
      · simp [eventsOf, hEq]

------------------------------------------------------------
-- The Event Queue
------------------------------------------------------------

/- A step of one connection's tasks queues no event. -/
theorem puts_of_local
    {env : Env}
    {c : ConnId}
    {a : Act}
    {conn' : Conn}
    {s : Sys}
    (hLocal : (s.conns c).Local env c a conn') :
    s.puts a = [] := by
  cases hLocal with
  | confirmed h hAt hErrTx =>
      simp [puts, Conn.request, hAt]
  | rejected hAt hErrTx =>
      simp [puts, Conn.request, hAt]
  | ended item sent hAt hItem hSent hNone =>
      rcases hAt with hAt | hAt
      · simp [puts, Conn.request, hAt]
      · simp [puts, Conn.request, hAt]
  | pinged _ items n closed pinger hAct =>
      rcases hAct with rfl | rfl
      · rfl
      · rfl
  | _ => rfl

/- A step of the server keeps the accounts of the queue. -/
theorem Step.events_conserved
    {env : Env}
    {s s' : Sys}
    {a : Act}
    (hStep : Step env s a s') :
    s.events ++ s.puts a = s.gets a ++ s'.events := by
  cases hStep with
  | conn c _ conn' hLocal =>
      have hNone : s.gets a = [] := by
        cases a with
        | take now => exact absurd rfl (hLocal.ne_take now)
        | _ => rfl
      rw [puts_of_local hLocal, hNone, List.append_nil]
      rfl
  | queueInit c h ch msg hAt hRoom =>
      simp [puts, gets, Conn.request, hAt]
  | queueMsg c h ch msg hAt hRoom =>
      simp [puts, gets, Conn.request, hAt]
  | queueLogoff c h ch hAt hRoom =>
      simp [puts, gets, Conn.release, hAt]
  | cleanup now hIdle => simp [puts, gets]
  | accept now c h ch tx2 errTx msg events hIdle hEvents
      hVacant =>
      simp [puts, gets, hEvents, confirm]
  | reject now c h ch tx2 errTx tx msg events hIdle hEvents
      hTaken =>
      simp [puts, gets, hEvents, confirm]
  | takeMsg now c h ch msg events txs hIdle hEvents
      hTargets =>
      simp [puts, gets, hEvents]
  | dropMsg now c h ch msg events hIdle hEvents hTargets =>
      simp [puts, gets, hEvents]
  | takeLogoff now c h ch events hIdle hEvents =>
      simp [puts, gets, hEvents]
  | replay i now ch tx2 qmsg queued msg conn' hTask hSent =>
      simp [puts, gets]
  | deliver i now ch txs tx msg conn' hTask hTx hSent =>
      simp [puts, gets]

/- The event queue loses nothing. -/
theorem puts_eq_gets_append
    {env : Env}
    {acts : List Act}
    {s : Sys}
    (hRun : run env acts = some s) :
    putsIn env acts = getsIn env acts ++ s.events :=
  Trace.collect_conserved rfl
    (fun _ _ _ hStep => (step_sound hStep).events_conserved)
    hRun

/- The events taken, with the connections they are of. -/
theorem takenIn_eq
    {env : Env}
    {acts : List Act}
    {s : Sys}
    (hRun : run env acts = some s) :
    takenIn env acts = (getsIn env acts).map Prod.snd := by
  refine Trace.run_induction
    (P := fun acts _ =>
      takenIn env acts = (getsIn env acts).map Prod.snd)
    rfl ?_ hRun
  intro acts s a s' hPrefix ih _
  unfold takenIn getsIn
  rw [Trace.collect_snoc taken a hPrefix,
    Trace.collect_snoc gets a hPrefix, List.map_append]
  unfold takenIn getsIn at ih
  rw [ih]
  cases a with
  | take now => rfl
  | _ => simp [taken, gets]

end Sys

end Mles

------------------------------------------------------------
-- The Protocol
------------------------------------------------------------

namespace Mles

/- An event of the receiver task. -/
def WsEvent.isRequest
    {T E M : Type} : WsEvent T E M → Bool
| .init _ _ _ _ _ => true
| .msg _ _ _ => true
| .logoff _ _ => false

/- The hashes are those of the header of the connection. -/
def Env.Announces
    (env : Env)
    (first : Option Read)
    (h ch : UInt64) : Prop :=
  ∃ hdr,
    env.announced first = some hdr ∧
      h = env.headerHash hdr ∧
      ch = env.channelHash hdr.channel

theorem Env.Announces.or
    {env : Env}
    {first : Option Read}
    {h ch : UInt64}
    (hAnnounces : env.Announces first h ch)
    (r : Option Read) :
    env.Announces (first.or r) h ch := by
  rcases hAnnounces with ⟨hdr, hHeader, hHash⟩
  exact ⟨hdr, announced_or hHeader r, hHash⟩

/-
  An `Init` with the first frame, under the hashes of its
  verified header, and then the frames after it as `Msg`s
  under the same hashes.
-/
def Speaks
    (env : Env)
    (c : ConnId)
    (first : Option Read)
    (es : List TaskEvent) : Prop :=
  ∃ (h ch : UInt64) (f : Frame) (fs : List Frame),
    env.Owns first h ch ∧ FirstFrameOf first c f ∧
      (∀ g ∈ fs, ∃ n m, g = .client c (n + 1) m) ∧
      es =
        .init h ch c c f ::
          fs.map (fun f => .msg h ch f)

theorem Speaks.or
    {env : Env}
    {c : ConnId}
    {first : Option Read}
    {es : List TaskEvent}
    (hSpeaks : Speaks env c first es)
    (r : Option Read) :
    Speaks env c (first.or r) es := by
  rcases hSpeaks with
    ⟨h, ch, f, fs, hOwns, ⟨msg, hFirst, hFrame⟩, hFrames,
      hEvents⟩
  refine ⟨h, ch, f, fs, hOwns.or r, ⟨msg, ?_, hFrame⟩,
    hFrames, hEvents⟩
  rw [hFirst]
  rfl

/- The first frame opens the protocol. -/
theorem speaks_init
    {env : Env}
    {c : ConnId}
    {first : Option Read}
    {h ch : UInt64}
    {f : Frame}
    (hOwns : env.Owns first h ch)
    (hFirst : FirstFrameOf first c f) :
    Speaks env c first [.init h ch c c f] :=
  ⟨h, ch, f, [], hOwns, hFirst, by simp, rfl⟩

/- A later frame goes on with it, under the same hashes. -/
theorem Speaks.snoc
    {env : Env}
    {c : ConnId}
    {first : Option Read}
    {es : List TaskEvent}
    {h ch : UInt64}
    {f : Frame}
    (hSpeaks : Speaks env c first es)
    (hOwns : env.Owns first h ch)
    (hNumber : ∃ n m, f = .client c (n + 1) m) :
    Speaks env c first (es ++ [.msg h ch f]) := by
  rcases hSpeaks with
    ⟨h', ch', g, fs, hOwns', hFrame, hFrames, hEq⟩
  rcases hOwns'.unique hOwns with ⟨rfl, rfl⟩
  refine ⟨h', ch', g, fs ++ [f], hOwns', hFrame, ?_, ?_⟩
  · intro g' hMem
    rcases List.mem_append.mp hMem with hOld | hNew
    · exact hFrames g' hOld
    · cases List.mem_singleton.mp hNew
      exact hNumber
  · rw [hEq, List.map_append]
    rfl

namespace Conn

/- The receiver task has not queued its `Init`. -/
def Silent (conn : Conn) : Prop :=
  conn.receiver = .firstFrame ∨
    ∃ h ch f, conn.receiver = .sendInit h ch f

/- The receiver task has queued its `Init`, and goes on. -/
def Asked (conn : Conn) : Prop :=
  conn.receiver = .awaitInit ∧ conn.errTx ≠ .receiver ∨
    conn.receiver = .nextFrame ∨
    ∃ h ch f, conn.receiver = .sendMsg h ch f

/- The events a connection has queued, by its state. -/
structure Protocol
    (env : Env)
    (c : ConnId)
    (first : Option Read)
    (es : List TaskEvent)
    (conn : Conn) : Prop where
  speaks :
    es.filter WsEvent.isRequest = [] ∨
      Speaks env c first (es.filter WsEvent.isRequest)
  silent :
    conn.Silent → es.filter WsEvent.isRequest = []
  asked : conn.Asked → es.filter WsEvent.isRequest ≠ []
  stays :
    conn.sender ≠ .done →
      es.filter (fun e => !e.isRequest) = []
  hashes :
    ∀ h ch,
      conn.sender = .sendLogoff h ch →
        env.Announces first h ch
  once :
    es.filter (fun e => !e.isRequest) = [] ∨
      ∃ h ch,
        env.Announces first h ch ∧
          es.filter (fun e => !e.isRequest) =
            [.logoff h ch]

theorem Change.silent
    {env : Env}
    {c : ConnId}
    {conn conn' : Conn}
    {a : Act}
    (hChange : conn.Change env c a conn')
    (hSilent : conn'.Silent) :
    conn.Silent := by
  rcases hSilent with hAt | ⟨h, ch, f, hAt⟩
  · exact Or.inl (hChange.receiver_firstFrame hAt)
  · rcases hChange.receiver_sendInit hAt with
      hOld | ⟨hFirst, _⟩
    · exact Or.inr ⟨h, ch, f, hOld⟩
    · exact Or.inl hFirst

/- Only by queueing its `Init` a receiver task has asked. -/
theorem Change.asked
    {env : Env}
    {c : ConnId}
    {first : Option Read}
    {conn conn' : Conn}
    {a : Act}
    (hHolds : Conn.Holds first conn)
    (hChange : conn.Change env c a conn')
    (hAsked : conn'.Asked) :
    conn.Asked ∨
      a = .resume c ∧
        ∃ h ch f, conn.receiver = .sendInit h ch f := by
  cases hChange with
  | own _ _ hLocal =>
      cases hLocal with
      | noFrame r hFail hAt =>
          -- The confirmation is still in the task's hands.
          rw [hHolds.eq_none hAt] at hHolds
          rcases hAsked with ⟨_, hErrTx⟩ | hNext | ⟨_, _, _, hMsg⟩
          · exact absurd hHolds.2 hErrTx
          · cases hNext
          · cases hMsg
      | badFirst msg hAt hHeader =>
          simp [Asked, quit] at hAsked
      | badAuth msg hdr hAt hHeader hAuth =>
          simp [Asked, quit] at hAsked
      | goodFirst msg hdr hAt hHeader hAuth =>
          simp [Asked] at hAsked
      | leave r n hAt hReads =>
          simp [Asked, leaveLoop] at hAsked
      | pong msg hAt => exact Or.inl (Or.inr (Or.inl hAt))
      | message msg hAt hOpen hNonzero hData =>
          exact Or.inl (Or.inr (Or.inl hAt))
      | confirmed h hAt hErrTx =>
          exact Or.inl (Or.inl ⟨hAt, by simp [hErrTx]⟩)
      | rejected hAt hErrTx => simp [Asked] at hAsked
      | ended item sent hAt hItem hSent =>
          simp [Asked] at hAsked
      | _ => exact Or.inl hAsked
  | queueInit h ch f hAt => exact Or.inr ⟨rfl, h, ch, f, hAt⟩
  | queueMsg h ch f hAt =>
      exact Or.inl (Or.inr (Or.inr ⟨h, ch, f, hAt⟩))
  | queueLogoff h ch hAt => exact Or.inl hAsked
  | answered now errTx hWaiting hAnswer =>
      exact Or.inl (Or.inl
        ⟨hWaiting.1, by simp [hWaiting.2]⟩)
  | received i now msg _ hSent =>
      rw [hSent.frame] at hAsked
      exact Or.inl hAsked
  | other _ hOther => exact Or.inl hAsked

/- The final cleanup queues what the connection shares. -/
theorem Change.announces
    {env : Env}
    {c : ConnId}
    {first : Option Read}
    {conn conn' : Conn}
    {a : Act}
    {h ch : UInt64}
    (hTraced : conn.Traced env c first)
    (hOld :
      ∀ h ch,
        conn.sender = .sendLogoff h ch →
          env.Announces first h ch)
    (hChange : conn.Change env c a conn')
    (hAt' : conn'.sender = .sendLogoff h ch) :
    env.Announces first h ch := by
  cases hChange with
  | own _ _ hLocal =>
      cases hLocal with
      | cleanup ok hAt hNonzero =>
          cases hAt'
          rcases hTraced.shared with
            ⟨hZero, _⟩ | ⟨hdr, hHeader, hHash, hChannel⟩
          · exact absurd hZero hNonzero.1
          · exact ⟨hdr, hHeader, hHash, hChannel⟩
      | finished ok hAt hZero => cases hAt'
      | taken msg items hAt hQueue hOpen => cases hAt'
      | drained items hAt hQueue => cases hAt'
      | written msg hAt => cases hAt'
      | writeFailed msg hAt => cases hAt'
      | ended item sent hAt hItem hSent =>
          rw [hSent.frame] at hAt'
          exact hOld h ch hAt'
      | _ => exact hOld h ch hAt'
  | queueLogoff h' ch' hAt => cases hAt'
  | received i now msg _ hSent =>
      rw [hSent.frame] at hAt'
      exact hOld h ch hAt'
  | _ => exact hOld h ch hAt'

end Conn

end Mles

namespace Mles

namespace Sys

section

variable {env : Env}
variable {s s' : Sys}
variable {a : Act}

/- What a step puts into the queue for one connection. -/
theorem Step.puts_cases
    (hStep : Step env s a s')
    (c : ConnId) :
    eventsOf c (s.puts a) = [] ∨
    (∃ h ch f,
      (s.conns c).receiver = .sendInit h ch f ∧
        eventsOf c (s.puts a) = [.init h ch c c f] ∧
        s'.conns c =
          { s.conns c with
            receiver := .awaitInit
            errTx := .event }) ∨
    (∃ h ch f,
      (s.conns c).receiver = .sendMsg h ch f ∧
        eventsOf c (s.puts a) = [.msg h ch f] ∧
        s'.conns c =
          { s.conns c with receiver := .nextFrame }) ∨
    (∃ h ch,
      (s.conns c).sender = .sendLogoff h ch ∧
        eventsOf c (s.puts a) = [.logoff h ch] ∧
        s'.conns c =
          Conn.finish { s.conns c with h := 0, ch := 0 }) := by
  have hOther
      {d : ConnId}
      (hNe : ¬ d = c)
      (e : Option TaskEvent) :
      eventsOf c ((e.map (fun e => (d, e))).toList) = [] := by
    rw [eventsOf_toList, if_neg hNe]
  cases hStep with
  | conn d _ conn' hLocal =>
      rw [puts_of_local hLocal]
      exact Or.inl rfl
  | queueInit d h ch f hAt hRoom =>
      by_cases hEq : d = c
      · subst hEq
        refine Or.inr (Or.inl ⟨h, ch, f, hAt, ?_, ?_⟩)
        · simp [puts, eventsOf, Conn.request, hAt]
        · simp [setConn]
      · exact Or.inl (hOther hEq _)
  | queueMsg d h ch f hAt hRoom =>
      by_cases hEq : d = c
      · subst hEq
        refine Or.inr (Or.inr (Or.inl ⟨h, ch, f, hAt, ?_, ?_⟩))
        · simp [puts, eventsOf, Conn.request, hAt]
        · simp [setConn]
      · exact Or.inl (hOther hEq _)
  | queueLogoff d h ch hAt hRoom =>
      by_cases hEq : d = c
      · subst hEq
        refine Or.inr (Or.inr (Or.inr ⟨h, ch, hAt, ?_, ?_⟩))
        · simp [puts, eventsOf, Conn.release, hAt]
        · simp [setConn]
      · exact Or.inl (hOther hEq _)
  | _ => exact Or.inl rfl

/- The receiver task's own action queues the `Init`. -/
theorem eventsOf_puts_ne_nil
    {c : ConnId}
    {h ch : UInt64}
    {f : Frame}
    (hAt : (s.conns c).receiver = .sendInit h ch f) :
    eventsOf c (s.puts (.resume c)) ≠ [] := by
  simp [puts, eventsOf, Conn.request, hAt]

end

/- An event queued is kept on its own side. -/
theorem requests_snoc
    {e : TaskEvent}
    (es : List TaskEvent)
    (hRequest : e.isRequest = true) :
    (es ++ [e]).filter WsEvent.isRequest =
        es.filter WsEvent.isRequest ++ [e] ∧
      (es ++ [e]).filter (fun e => !e.isRequest) =
        es.filter (fun e => !e.isRequest) := by
  constructor
  · simp [hRequest]
  · simp [hRequest]

theorem releases_snoc
    {e : TaskEvent}
    (es : List TaskEvent)
    (hRelease : e.isRequest = false) :
    (es ++ [e]).filter WsEvent.isRequest =
        es.filter WsEvent.isRequest ∧
      (es ++ [e]).filter (fun e => !e.isRequest) =
        es.filter (fun e => !e.isRequest) ++ [e] := by
  constructor
  · simp [hRelease]
  · simp [hRelease]

/-
  One step keeps to the protocol.  What was queued before is
  carried over to the reads of the longer run; the cases are
  the four things a step can queue for the connection.
-/
theorem Protocol.step
    {env : Env}
    {acts : List Act}
    {s s' : Sys}
    {a : Act}
    {c : ConnId}
    {es : List TaskEvent}
    (hRun : run env acts = some s)
    (hProtocol :
      (s.conns c).Protocol env c (firstRead c acts) es)
    (hStep : Step env s a s') :
    (s'.conns c).Protocol env c (firstRead c (acts ++ [a]))
      (es ++ eventsOf c (s.puts a)) := by
  have hTraced := traced_of_run hRun c
  have hChange := hStep.change (queuedInits_of_run hRun) c
  rw [firstRead_snoc]
  have hSpeaks :
      es.filter WsEvent.isRequest = [] ∨
        Speaks env c ((firstRead c acts).or (a.readOf c))
          (es.filter WsEvent.isRequest) :=
    hProtocol.speaks.imp_right (fun hOld => hOld.or _)
  have hHashes :
      ∀ h ch,
        (s'.conns c).sender = .sendLogoff h ch →
          env.Announces
            ((firstRead c acts).or (a.readOf c)) h ch :=
    fun h ch hAt =>
      (hChange.announces hTraced hProtocol.hashes hAt).or _
  have hOnce :
      es.filter (fun e => !e.isRequest) = [] ∨
        ∃ h ch,
          env.Announces
              ((firstRead c acts).or (a.readOf c)) h ch ∧
            es.filter (fun e => !e.isRequest) =
              [.logoff h ch] := by
    refine hProtocol.once.imp_right ?_
    rintro ⟨h, ch, hAnnounces, hEq⟩
    exact ⟨h, ch, hAnnounces.or _, hEq⟩
  have hStays (hAlive : (s'.conns c).sender ≠ .done) :
      es.filter (fun e => !e.isRequest) = [] :=
    hProtocol.stays (fun hDone => hAlive (hChange.done hDone))
  rcases hStep.puts_cases c with
    hNone | ⟨h, ch, f, hAt, hPuts, hNext⟩ |
    ⟨h, ch, f, hAt, hPuts, hNext⟩ | ⟨h, ch, hAt, hPuts, hNext⟩
  · rw [hNone, List.append_nil]
    refine ⟨hSpeaks, ?_, ?_, hStays, hHashes, hOnce⟩
    · exact fun hSilent =>
        hProtocol.silent (hChange.silent hSilent)
    · intro hAsked
      rcases hChange.asked hTraced.holds hAsked with
        hOld | ⟨rfl, h, ch, f, hAt⟩
      · exact hProtocol.asked hOld
      · exact absurd hNone (eventsOf_puts_ne_nil hAt)
  · -- The `Init`: nothing has been asked before.
    have hOld :=
      hProtocol.silent (Or.inr ⟨h, ch, f, hAt⟩)
    rcases hTraced.sendInit h ch f hAt with
      ⟨_, hOwns, msg, hFirst, hFrame⟩
    rcases requests_snoc es
        (rfl : (WsEvent.init h ch c c f).isRequest = true) with
      ⟨hRequests, hReleases⟩
    rw [hOld, List.nil_append] at hRequests
    rw [hPuts]
    refine ⟨?_, ?_, ?_, ?_, hHashes, ?_⟩
    · rw [hRequests]
      refine Or.inr
        (speaks_init (hOwns.or _) ⟨msg, ?_, hFrame⟩)
      rw [hFirst]
      rfl
    · intro hSilent
      rw [hNext] at hSilent
      simp [Conn.Silent] at hSilent
    · rw [hRequests]
      simp
    · rw [hReleases]
      exact hStays
    · rw [hReleases]
      exact hOnce
  · -- A `Msg`: the `Init` was queued before it.
    have hOld :=
      hProtocol.asked (Or.inr (Or.inr ⟨h, ch, f, hAt⟩))
    rcases hTraced.sendMsg h ch f hAt with ⟨hOwns, hNumber⟩
    rcases requests_snoc es
        (rfl : (WsEvent.msg h ch f).isRequest = true) with
      ⟨hRequests, hReleases⟩
    rw [hPuts]
    refine ⟨?_, ?_, ?_, ?_, hHashes, ?_⟩
    · rw [hRequests]
      exact Or.inr
        (Speaks.snoc (hSpeaks.resolve_left hOld) (hOwns.or _)
          hNumber)
    · intro hSilent
      have hBefore := hProtocol.silent (hChange.silent hSilent)
      exact absurd hBefore hOld
    · rw [hRequests]
      simp
    · rw [hReleases]
      exact hStays
    · rw [hReleases]
      exact hOnce
  · -- The `Logoff`: the sender task ends with it.
    have hOld := hProtocol.stays (by rw [hAt]; simp)
    rcases releases_snoc es
        (rfl : (WsEvent.logoff h ch).isRequest = false) with
      ⟨hRequests, hReleases⟩
    rw [hOld, List.nil_append] at hReleases
    rw [hPuts]
    refine ⟨?_, ?_, ?_, ?_, hHashes, ?_⟩
    · rw [hRequests]
      exact hSpeaks
    · rw [hRequests]
      exact fun hSilent =>
        hProtocol.silent (hChange.silent hSilent)
    · rw [hRequests]
      intro hAsked
      apply hProtocol.asked
      rw [hNext] at hAsked
      exact hAsked
    · intro hAlive
      rw [hNext] at hAlive
      exact absurd rfl hAlive
    · rw [hReleases]
      exact Or.inr
        ⟨h, ch, (hProtocol.hashes h ch hAt).or _, rfl⟩

theorem protocol_of_run
    {env : Env}
    {acts : List Act}
    {s : Sys}
    (hRun : run env acts = some s)
    (c : ConnId) :
    (s.conns c).Protocol env c (firstRead c acts)
      (eventsOf c (putsIn env acts)) := by
  refine Trace.run_induction
    (P := fun acts s =>
      (s.conns c).Protocol env c (firstRead c acts)
        (eventsOf c (putsIn env acts)))
    ?_ ?_ hRun
  · refine ⟨Or.inl rfl, fun _ => rfl, ?_, fun _ => rfl, ?_,
      Or.inl rfl⟩
    · simp [Conn.Asked, init]
    · simp [init]
  · intro acts s a s' hPrefix ih hStep
    unfold putsIn
    rw [Trace.collect_snoc puts a hPrefix, eventsOf_append]
    exact Protocol.step hPrefix ih (step_sound hStep)

/- The frames of the events of a connection, by number. -/
theorem eventsOf_ordered
    {env : Env}
    {acts : List Act}
    {s : Sys}
    (hRun : run env acts = some s)
    (c : ConnId) :
    ((eventsOf c (putsIn env acts)).filterMap
        WsEvent.frame).Pairwise Frame.Before := by
  have hQueued :
      queuedIn env acts s = (putsIn env acts).map Prod.snd := by
    rw [puts_eq_gets_append hRun, List.map_append,
      ← takenIn_eq hRun]
    rfl
  have hSorted := (inOrder_of_run hRun).sorted
  rw [hQueued] at hSorted
  refine hSorted.sublist (List.Sublist.filterMap _ ?_)
  exact List.Sublist.map _ List.filter_sublist

/-
  Every connection speaks its protocol, in every run: the
  events it queues are an `Init` with its first frame, under
  the hashes of its verified header, and then the frames it
  read, in order, under the same hashes; and at most one
  `Logoff`, under hashes it announced.  The event loop takes
  these events in the order they were queued, and loses none.
-/
theorem speaks_protocol
    {env : Env}
    {acts : List Act}
    {s : Sys}
    (hRun : run env acts = some s)
    (c : ConnId) :
    let es := eventsOf c (putsIn env acts)
    let requests := es.filter WsEvent.isRequest
    let releases := es.filter (fun e => !e.isRequest)
    es = eventsOf c (getsIn env acts) ++ eventsOf c s.events ∧
      (requests = [] ∨
        Speaks env c (firstRead c acts) requests) ∧
      (es.filterMap WsEvent.frame).Pairwise Frame.Before ∧
      (releases = [] ∨
        ∃ h ch,
          env.Announces (firstRead c acts) h ch ∧
            releases = [.logoff h ch]) := by
  have hProtocol := protocol_of_run hRun c
  refine ⟨?_, hProtocol.speaks, eventsOf_ordered hRun c,
    hProtocol.once⟩
  rw [puts_eq_gets_append hRun, eventsOf_append]

/- The `Init` is taken, and the `Logoff` is queued. -/
theorem speaks_protocol_joinAndLeave :
    ∃ s,
      run Env.sample joinAndLeave = some s ∧
        (eventsOf 0 (putsIn Env.sample joinAndLeave)).length =
          2 ∧
        eventsOf 0 (putsIn Env.sample joinAndLeave) =
          eventsOf 0 (getsIn Env.sample joinAndLeave) ++
            eventsOf 0 s.events := by
  have hSome :
      (run Env.sample joinAndLeave).isSome = true := by
    decide +kernel
  rcases Option.isSome_iff_exists.mp hSome with ⟨s, hRun⟩
  exact ⟨s, hRun, by decide +kernel,
    (speaks_protocol hRun 0).1⟩

end Sys

end Mles
