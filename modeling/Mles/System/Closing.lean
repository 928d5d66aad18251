import Mles.System.Protocol
import Mles.System.Pings

/-
  Closing is final.

  The tasks of a connection share `is_closed`, and look at
  it only between two awaits.  So a closed connection may
  still do what one of its tasks has in its hands: queue the
  event it waits to queue, and finish the write it is in.
  It does no more than that, unless it closed before its
  first frame: then its receiver task still reads the header
  and asks to join with it.

  Key definitions include:
    * `Conn.LastRequest`
    * `Conn.Closing`

  Key theorems include:
    * `Sys.closing_step`
    * `Sys.closing_of_run`
    * `Sys.closing_is_final`
-/

------------------------------------------------------------
-- A Closed Connection
------------------------------------------------------------

namespace Mles

namespace Conn

/- What the receiver task may still ask after closing. -/
def LastRequest
    (c : ConnId)
    (conn : Conn)
    (last : List TaskEvent) : Prop :=
  last = (conn.request c).toList ∨
    conn.receiver = .firstFrame ∧
      ∃ h ch f, last = [.init h ch c c f]

/-
  A connection that was closed as `conn`, and has queued
  these requests and written these frames since then.
-/
structure Closing
    (c : ConnId)
    (conn : Conn)
    (requests : List TaskEvent)
    (written : List Frame)
    (conn' : Conn) : Prop where
  closed : conn'.isClosed = true
  unread :
    conn'.receiver = .firstFrame →
      conn.receiver = .firstFrame ∧ requests = []
  asked :
    ∃ last,
      conn.LastRequest c last ∧
        requests ++ (conn'.request c).toList <+: last
  writes : written ++ conn'.writes <+: conn.writes

/- A step leaves the request of a closed connection alone. -/
theorem Change.request_of_closed
    {env : Env}
    {c : ConnId}
    {conn conn' : Conn}
    {a : Act}
    (hChange : conn.Change env c a conn')
    (hClosed : conn.isClosed = true) :
    conn'.request c = none ∨
      conn'.request c = conn.request c ∨
      conn.receiver = .firstFrame ∧
        ∃ h ch f, conn'.receiver = .sendInit h ch f := by
  cases hChange with
  | own _ _ hLocal =>
      cases hLocal with
      | goodFirst msg hdr hAt hHeader hAuth =>
          exact Or.inr (Or.inr ⟨hAt, _, _, _, rfl⟩)
      | pong msg hAt =>
          left
          simp [request, hAt]
      | message msg hAt hOpen hNonzero hData =>
          rw [hClosed] at hOpen
          cases hOpen
      | pinged _ items n closed pinger hAct =>
          exact Or.inr (Or.inl rfl)
      | taken msg items hAt hQueue hOpen =>
          exact Or.inr (Or.inl rfl)
      | drained items hAt hQueue => exact Or.inr (Or.inl rfl)
      | written msg hAt => exact Or.inr (Or.inl rfl)
      | writeFailed msg hAt => exact Or.inr (Or.inl rfl)
      | cleanup ok hAt hNonzero => exact Or.inr (Or.inl rfl)
      | finished ok hAt hZero => exact Or.inr (Or.inl rfl)
      | _ => exact Or.inl rfl
  | queueInit h ch f hAt => exact Or.inl rfl
  | queueMsg h ch f hAt => exact Or.inl rfl
  | received i now msg _ hSent =>
      rw [hSent.frame]
      exact Or.inr (Or.inl rfl)
  | _ => exact Or.inr (Or.inl rfl)

/- A closed connection starts no further write. -/
theorem Change.writes_of_closed
    {env : Env}
    {c : ConnId}
    {conn conn' : Conn}
    {a : Act}
    (hChange : conn.Change env c a conn')
    (hClosed : conn.isClosed = true) :
    conn'.writes = [] ∨ conn'.writes = conn.writes := by
  cases hChange with
  | own _ _ hLocal =>
      cases hLocal with
      | taken msg items hAt hQueue hOpen =>
          rw [hClosed] at hOpen
          cases hOpen
      | ended item sent hAt hItem hSent =>
          rw [hSent.frame]
          exact Or.inr rfl
      | drained items hAt hQueue => exact Or.inl rfl
      | written msg hAt => exact Or.inl rfl
      | writeFailed msg hAt => exact Or.inl rfl
      | cleanup ok hAt hNonzero => exact Or.inl rfl
      | finished ok hAt hZero => exact Or.inl rfl
      | _ => exact Or.inr rfl
  | queueLogoff h ch hAt => exact Or.inl rfl
  | received i now msg _ hSent =>
      rw [hSent.frame]
      exact Or.inr rfl
  | _ => exact Or.inr rfl

/- A connection as it is when it closes. -/
theorem Closing.start
    {c : ConnId}
    {conn : Conn}
    (hClosed : conn.isClosed = true) :
    Closing c conn [] [] conn where
  closed := hClosed
  unread := fun hAt => ⟨hAt, rfl⟩
  asked := ⟨_, Or.inl rfl, List.prefix_rfl⟩
  writes := List.prefix_rfl

/- A step that queues no request and completes no write. -/
theorem Closing.quiet
    {env : Env}
    {c : ConnId}
    {conn conn' conn'' : Conn}
    {a : Act}
    {requests : List TaskEvent}
    {written : List Frame}
    (hClosing : Closing c conn requests written conn')
    (hChange : conn'.Change env c a conn'') :
    Closing c conn requests written conn'' where
  closed := by
    cases hOpen : conn''.isClosed with
    | true => rfl
    | false =>
        have hWas := hChange.isClosed hOpen
        rw [hClosing.closed] at hWas
        cases hWas
  unread := fun hAt =>
    hClosing.unread (hChange.receiver_firstFrame hAt)
  asked := by
    rcases hClosing.asked with ⟨last, hLast, hPrefix⟩
    rcases hChange.request_of_closed hClosing.closed with
      hNone | hSame | ⟨hFirst, h, ch, f, hAt⟩
    · refine ⟨last, hLast, ?_⟩
      rw [hNone]
      exact (List.prefix_append_right_inj _).mpr
        (List.nil_prefix) |>.trans hPrefix
    · rw [hSame]
      exact ⟨last, hLast, hPrefix⟩
    · -- The first frame is read after the closing.
      rcases hClosing.unread hFirst with ⟨hUnread, hNone⟩
      refine ⟨[.init h ch c c f],
        Or.inr ⟨hUnread, h, ch, f, rfl⟩, ?_⟩
      rw [hNone]
      simp [request, hAt]
  writes := by
    rcases hChange.writes_of_closed hClosing.closed with
      hNone | hSame
    · rw [hNone]
      exact ((List.prefix_append_right_inj _).mpr
        (List.nil_prefix)).trans hClosing.writes
    · rw [hSame]
      exact hClosing.writes

/- The request in the receiver task's hands is queued. -/
theorem Closing.queue
    {c : ConnId}
    {conn conn' conn'' : Conn}
    {e : TaskEvent}
    {requests : List TaskEvent}
    {written : List Frame}
    (hClosing : Closing c conn requests written conn')
    (hRequest : conn'.request c = some e)
    (hNext : conn''.request c = none)
    (hRead : conn''.receiver ≠ .firstFrame)
    (hClosed : conn''.isClosed = conn'.isClosed)
    (hWrites : conn''.writes = conn'.writes) :
    Closing c conn (requests ++ [e]) written conn'' where
  closed := hClosed.trans hClosing.closed
  unread := fun hAt => absurd hAt hRead
  asked := by
    rcases hClosing.asked with ⟨last, hLast, hPrefix⟩
    refine ⟨last, hLast, ?_⟩
    rw [hRequest] at hPrefix
    rw [hNext]
    simpa using hPrefix
  writes := by
    rw [hWrites]
    exact hClosing.writes

/- The write that was under way completes. -/
theorem Closing.write
    {c : ConnId}
    {conn conn' : Conn}
    {requests : List TaskEvent}
    {written more : List Frame}
    (hClosing : Closing c conn requests written conn')
    (hWrites : written ++ more <+: conn.writes)
    (hNone : conn'.writes = []) :
    Closing c conn requests (written ++ more) conn' where
  closed := hClosing.closed
  unread := hClosing.unread
  asked := hClosing.asked
  writes := by
    rw [hNone, List.append_nil]
    exact hWrites

end Conn

end Mles

------------------------------------------------------------
-- Continuations of a Run
------------------------------------------------------------

namespace Mles

namespace Sys

/- What a step writes to the socket of one connection. -/
theorem Step.writes_cases
    {env : Env}
    {s s' : Sys}
    {a : Act}
    (hStep : Step env s a s')
    (c : ConnId) :
    Hub.sentOn c (s.writes a) = [] ∨
      Hub.sentOn c (s.writes a) = (s.conns c).writes ∧
        (s'.conns c).writes = [] := by
  cases hStep with
  | conn d _ conn' hLocal =>
      rcases writes_of_local hLocal with hNone | rfl
      · rw [hNone]
        exact Or.inl rfl
      · change
          Hub.sentOn c ((s.conns d).writes.map _) = [] ∨
            Hub.sentOn c ((s.conns d).writes.map _) = _ ∧ _
        rw [Hub.sentOn_replay]
        by_cases hEq : d = c
        · subst hEq
          rw [if_pos rfl, setConn_conns, if_pos rfl]
          refine Or.inr ⟨rfl, ?_⟩
          cases hLocal with
          | pinged _ items n closed pinger hAct =>
              rcases hAct with hAct | hAct
              · cases hAct
              · cases hAct
          | written msg hAt => rfl
          | cleanup ok hAt hNonzero => rfl
          | finished ok hAt hZero => rfl
        · rw [if_neg hEq]
          exact Or.inl rfl
  | _ => exact Or.inl rfl

/- The requests of a connection in a list of events. -/
def requestsOf
    (c : ConnId)
    (log : List (ConnId × TaskEvent)) : List TaskEvent :=
  (eventsOf c log).filter WsEvent.isRequest

theorem requestsOf_append
    (c : ConnId)
    (log more : List (ConnId × TaskEvent)) :
    requestsOf c (log ++ more) =
      requestsOf c log ++ requestsOf c more := by
  unfold requestsOf
  rw [eventsOf_append, List.filter_append]

/- One step of a closed connection. -/
theorem closing_step
    {env : Env}
    {s s' : Sys}
    {a : Act}
    {c : ConnId}
    {conn : Conn}
    {requests : List TaskEvent}
    {written : List Frame}
    (hInits : s.QueuedInits)
    (hClosing :
      Conn.Closing c conn requests written (s.conns c))
    (hStep : Step env s a s') :
    Conn.Closing c conn
      (requests ++ requestsOf c (s.puts a))
      (written ++ Hub.sentOn c (s.writes a))
      (s'.conns c) := by
  have hQuiet := hClosing.quiet (hStep.change hInits c)
  -- An event that is no request, or none at all.
  have hSilent
      (hNone : requestsOf c (s.puts a) = []) :
      Conn.Closing c conn
        (requests ++ requestsOf c (s.puts a))
        (written ++ Hub.sentOn c (s.writes a))
        (s'.conns c) := by
    rw [hNone, List.append_nil]
    rcases hStep.writes_cases c with
      hUnwritten | ⟨hWritten, hEmpty⟩
    · rw [hUnwritten, List.append_nil]
      exact hQuiet
    · refine hQuiet.write ?_ hEmpty
      rw [hWritten]
      exact hClosing.writes
  -- A request, and then nothing is written.
  have hUnwritten
      (hSame : (s'.conns c).writes = (s.conns c).writes) :
      Hub.sentOn c (s.writes a) = [] := by
    rcases hStep.writes_cases c with
      hNone | ⟨hWritten, hEmpty⟩
    · exact hNone
    · rw [hWritten, ← hSame]
      exact hEmpty
  rcases hStep.puts_cases c with
    hNone | ⟨h, ch, f, hAt, hPuts, hNext⟩ |
    ⟨h, ch, f, hAt, hPuts, hNext⟩ | ⟨h, ch, hAt, hPuts, hNext⟩
  · apply hSilent
    unfold requestsOf
    rw [hNone]
    rfl
  · have hRequests :
        requestsOf c (s.puts a) = [.init h ch c c f] := by
      unfold requestsOf
      rw [hPuts]
      rfl
    rw [hRequests, hUnwritten (by rw [hNext]; rfl),
      List.append_nil]
    apply hClosing.queue
    · simp [Conn.request, hAt]
    · rw [hNext]
      rfl
    · simp [hNext]
    · rw [hNext]
    · rw [hNext]
      rfl
  · have hRequests :
        requestsOf c (s.puts a) = [.msg h ch f] := by
      unfold requestsOf
      rw [hPuts]
      rfl
    rw [hRequests, hUnwritten (by rw [hNext]; rfl),
      List.append_nil]
    apply hClosing.queue
    · simp [Conn.request, hAt]
    · rw [hNext]
      rfl
    · simp [hNext]
    · rw [hNext]
    · rw [hNext]
      rfl
  · apply hSilent
    unfold requestsOf
    rw [hPuts]
    rfl

/- Every continuation of a run in which it closed. -/
theorem closing_of_run
    {env : Env}
    {acts more : List Act}
    {s s' : Sys}
    {c : ConnId}
    (hRun : run env acts = some s)
    (hMore : Trace.run (step env) s more = some s')
    (hClosed : (s.conns c).isClosed = true) :
    Conn.Closing c (s.conns c)
      (requestsOf c (Trace.collect (step env) puts s more))
      (Hub.sentOn c (Trace.collect (step env) writes s more))
      (s'.conns c) := by
  refine Trace.run_induction
    (P := fun more s' =>
      Conn.Closing c (s.conns c)
        (requestsOf c (Trace.collect (step env) puts s more))
        (Hub.sentOn c
          (Trace.collect (step env) writes s more))
        (s'.conns c))
    (Conn.Closing.start hClosed) ?_ hMore
  intro more t a t' hPrefix ih hStep
  rw [Trace.collect_snoc puts a hPrefix,
    Trace.collect_snoc writes a hPrefix, requestsOf_append,
    Hub.sentOn_append]
  exact closing_step
    (queuedInits_of_run (Trace.run_trans hRun hPrefix)) ih
    (step_sound hStep)

/-
  Closing is final: in every continuation the connection
  stays closed, queues no more than the request its receiver
  task waits to queue, or else the one `Init` of the header
  it still reads, and writes no more than the frame its
  sender task is writing.
-/
theorem closing_is_final
    {env : Env}
    {acts more : List Act}
    {s s' : Sys}
    {c : ConnId}
    (hRun : run env acts = some s)
    (hMore : Trace.run (step env) s more = some s')
    (hClosed : (s.conns c).isClosed = true) :
    (s'.conns c).isClosed = true ∧
      (∃ last,
        (s.conns c).LastRequest c last ∧
          requestsOf c
              (Trace.collect (step env) puts s more) <+:
            last) ∧
      Hub.sentOn c (Trace.collect (step env) writes s more) <+:
        (s.conns c).writes := by
  have hClosing := closing_of_run hRun hMore hClosed
  refine ⟨hClosing.closed, ?_, ?_⟩
  · rcases hClosing.asked with ⟨last, hLast, hPrefix⟩
    exact ⟨last, hLast,
      (List.prefix_append _ _).trans hPrefix⟩
  · exact (List.prefix_append _ _).trans hClosing.writes

/- A client given up by the pings still sends its header. -/
theorem closing_is_final_timeout :
    ∃ s s',
      run Env.sample (headerAfterTimeout.take 15) = some s ∧
        Trace.run (step Env.sample) s
            (headerAfterTimeout.drop 15) = some s' ∧
        (s.conns 0).isClosed = true ∧
        (requestsOf 0
            (Trace.collect (step Env.sample) puts s
              (headerAfterTimeout.drop 15))).length = 1 ∧
        (s'.conns 0).isClosed = true := by
  have hState :
      (run Env.sample (headerAfterTimeout.take 15)).map
          (fun s =>
            ((s.conns 0).isClosed,
              (requestsOf 0
                (Trace.collect (step Env.sample) puts s
                  (headerAfterTimeout.drop 15))).length,
              (Trace.run (step Env.sample) s
                (headerAfterTimeout.drop 15)).isSome)) =
        some (true, 1, true) := by
    decide +kernel
  rcases Option.map_eq_some_iff.mp hState with
    ⟨s, hRun, hEq⟩
  simp only [Prod.mk.injEq] at hEq
  rcases Option.isSome_iff_exists.mp hEq.2.2 with
    ⟨s', hMore⟩
  exact ⟨s, s', hRun, hMore, hEq.1, hEq.2.1,
    (closing_is_final hRun hMore hEq.1).1⟩

end Sys

end Mles
