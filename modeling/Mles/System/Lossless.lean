import Mles.System.Protocol

/-
  Nothing is lost, and nothing is doubled.

  On its way in, a frame is read from a socket, waits in the
  hands of the receiver task, waits in the event queue, and
  is taken by the event loop.  On its way out, it is sent by
  the event loop, waits in the queue of the connection, waits
  in the hands of the sender task, and is written.  Here both
  ways are accounted for, frame by frame: what entered is
  what left and what is still on the way, in order.

  What enters the way out is stated by itself, from the maps
  of the event loop: the history of its channel when the
  `Init` of a connection is accepted, and then each message
  of the channel by another member.

  Key definitions include:
    * `Sys.due`
    * `Sys.passed`

  Key theorems include:
    * `Sys.owed_eq_due`
    * `Sys.delivered_exactly`
    * `Sys.received_exactly`
-/

------------------------------------------------------------
-- From the Event Loop to the Sockets
------------------------------------------------------------

namespace Mles

/- The frames of the clients, not of the server itself. -/
def Frame.isClient : Frame → Bool
| .client _ _ _ => true
| .server _ => false

namespace Sys

/- Some other client's entry of the channel has the queue. -/
def listens
    (c : ConnId)
    (ch h : UInt64)
    (s : Sys) : Bool :=
  (s.hub.uidDb ch).entries.any
    (fun e => e.2 = c ∧ e.1 ≠ h)

/-
  What the event taken next brings to a connection: the
  history of the channel if it is its own `Init` and is
  accepted, and the message of another member.
-/
def due
    (c : ConnId)
    (s : Sys) : Act → List Frame
| .take _ =>
    match s.events with
    | (_, .init h ch tx2 _ _) :: _ =>
        if tx2 = c ∧ s.hub.entry ch h = none then
          s.hub.stored ch
        else []
    | (_, .msg h ch f) :: _ =>
        if s.listens c ch h then [f] else []
    | (_, .logoff _ _) :: _ => []
    | [] => []
| _ => []

/- What the events taken in a run brought to it. -/
def dueIn
    (env : Env)
    (acts : List Act)
    (c : ConnId) : List Frame :=
  Trace.collect (step env) (due c) init acts

theorem listens_iff
    {c : ConnId}
    {ch h : UInt64}
    {s : Sys} :
    s.listens c ch h = true ↔
      ∃ h', s.hub.entry ch h' = some c ∧ h' ≠ h := by
  unfold listens
  simp only [List.any_eq_true, decide_eq_true_eq]
  constructor
  · rintro ⟨⟨h', c'⟩, hMem, rfl, hNe⟩
    refine ⟨h', ?_, hNe⟩
    rw [Hub.entry_eq_lookup_uidDb]
    exact AList.mem_lookup_iff.mpr hMem
  · rintro ⟨h', hEntry, hNe⟩
    rw [Hub.entry_eq_lookup_uidDb] at hEntry
    exact ⟨⟨h', c⟩, AList.mem_lookup_iff.mp hEntry, rfl, hNe⟩

/- A message goes once to each queue that listens to it. -/
theorem sentOn_targets
    {env : Env}
    {acts : List Act}
    {s : Sys}
    (hRun : run env acts = some s)
    {h ch : UInt64}
    {txs : List ConnId}
    (hTargets : s.hub.targets h ch = some txs)
    (c : ConnId)
    (f : Frame) :
    Hub.sentOn c (txs.map (fun tx => (tx, f))) =
      if s.listens c ch h then [f] else [] := by
  by_cases hListens : s.listens c ch h = true
  · rcases listens_iff.mp hListens with ⟨h', hEntry, hNe⟩
    have hOnce := Hub.sentOn_step_msg_of_only env.limit
      (only_of_run hRun hEntry) h ch f 0
    rw [if_pos ⟨rfl, hNe.symm⟩] at hOnce
    rw [if_pos hListens, ← hOnce]
    simp [Hub.step, hTargets]
  · have hNotMem : c ∉ txs := by
      intro hMem
      rcases (Hub.mem_targets_iff hTargets c).mp hMem with
        ⟨xh, hNe, hEntry⟩
      exact hListens (listens_iff.mpr ⟨xh, hEntry, hNe⟩)
    rw [if_neg hListens, Hub.sentOn_fanout,
      List.count_eq_zero_of_not_mem hNotMem]
    rfl

/- The event loop sends what the event it takes brings. -/
theorem Step.pending_take
    {env : Env}
    {acts : List Act}
    {s s' : Sys}
    {now : Time}
    (hRun : run env acts = some s)
    (hStep : Step env s (.take now) s')
    (c : ConnId) :
    Hub.sentOn c s'.task.pending = due c s (.take now) := by
  cases hStep with
  | conn d _ conn' hLocal =>
      exact absurd rfl (hLocal.ne_take now)
  | accept _ d h ch tx2 errTx msg events hIdle hEvents
      hVacant =>
      rw [pending_settle]
      simp only [HubTask.pending, due, hEvents, hVacant]
      rw [Hub.sentOn_replay]
      simp
  | reject _ d h ch tx2 errTx tx msg events hIdle hEvents
      hTaken =>
      simp [confirm, setConn, hIdle, HubTask.pending, due,
        hEvents, hTaken]
  | takeMsg _ d h ch msg events txs hIdle hEvents
      hTargets =>
      rw [pending_settle]
      simp only [HubTask.pending, due, hEvents]
      exact sentOn_targets hRun hTargets c msg
  | dropMsg _ d h ch msg events hIdle hEvents hTargets =>
      -- Nobody listens to a channel that is not there.
      have hNone : s.hub.chDb.lookup ch = none :=
        Option.map_eq_none_iff.mp hTargets
      have hSilent : s.listens c ch h = false := by
        simp [listens, Hub.uidDb, hNone]
      simp [hIdle, HubTask.pending, due, hEvents, hSilent]
  | takeLogoff _ d h ch events hIdle hEvents =>
      simp [hIdle, HubTask.pending, due, hEvents]

/- What is owed to a connection is what is due to it. -/
theorem owed_eq_due
    {env : Env}
    {acts : List Act}
    {s : Sys}
    (hRun : run env acts = some s)
    (c : ConnId) :
    owed env acts s c = dueIn env acts c := by
  refine Trace.run_induction
    (P := fun acts s =>
      owed env acts s c = dueIn env acts c)
    rfl ?_ hRun
  intro acts s a s' hPrefix ih hStep
  have hSound := step_sound hStep
  unfold dueIn
  rw [Trace.collect_snoc (due c) a hPrefix]
  by_cases hTake : ∃ now, a = .take now
  · rcases hTake with ⟨now, rfl⟩
    rw [hSound.owed_take hPrefix, ih,
      hSound.pending_take hPrefix]
    rfl
  · have hNone : due c s a = [] := by
      cases a with
      | take now => exact absurd ⟨now, rfl⟩ hTake
      | _ => rfl
    rw [hSound.owed_eq hPrefix
      (fun now hEq => hTake ⟨now, hEq⟩), ih, hNone,
      List.append_nil]
    rfl

/- Only frames of the clients are due to anyone. -/
theorem isClient_of_due
    {env : Env}
    {acts : List Act}
    {s : Sys}
    (hRun : run env acts = some s)
    {c : ConnId}
    {f : Frame}
    (hDue : f ∈ dueIn env acts c) :
    f.isClient = true := by
  rw [← owed_eq_due hRun c] at hDue
  have hTaken := (sentOn_sublist_taken hRun c).subset hDue
  rcases (inOrder_of_run hRun).below f
      ((taken_sublist_queued env acts s).subset hTaken) with
    ⟨d, n, x, rfl, _⟩
  rfl

/- What is due is what was sent and is about to be. -/
theorem due_eq_sent
    {env : Env}
    {acts : List Act}
    {s : Sys}
    (hRun : run env acts = some s)
    (c : ConnId) :
    dueIn env acts c =
      (Hub.sentOn c (sentIn env acts)).filter
          Frame.isClient ++
        Hub.sentOn c s.task.pending := by
  have hSent :
      (Hub.sentOn c (sentIn env acts)).filter
          Frame.isClient =
        Hub.sentOn c (sentIn env acts) := by
    rw [List.filter_eq_self]
    intro f hMem
    apply isClient_of_due hRun (c := c)
    rw [← owed_eq_due hRun c]
    unfold owed
    rw [Hub.sentOn_append]
    exact List.mem_append_left _ hMem
  rw [← owed_eq_due hRun c, hSent]
  exact Hub.sentOn_append _ _ _

/- The frames of clients written are the first that are due. -/
theorem written_prefix_due
    {env : Env}
    {acts : List Act}
    {s : Sys}
    (hRun : run env acts = some s)
    (c : ConnId) :
    (writtenTo env acts c).filter Frame.isClient <+:
      dueIn env acts c := by
  rw [due_eq_sent hRun c]
  exact (transit_of_run (p := Frame.isClient) (fun _ => rfl)
    hRun c).begun.trans (List.prefix_append _ _)

/-
  Delivery is exact, in every run and for every connection:
  the frames of clients written to its socket are the first
  of what is due to it, and as long as its sender task still
  writes, the others wait, in order, in its queue or in the
  hands of the event loop.
-/
theorem delivered_exactly
    {env : Env}
    {acts : List Act}
    {s : Sys}
    (hRun : run env acts = some s)
    (c : ConnId) :
    (writtenTo env acts c).filter Frame.isClient <+:
        dueIn env acts c ∧
      ∀ rest,
        (s.conns c).ahead Frame.isClient = some rest →
          dueIn env acts c =
            (writtenTo env acts c).filter Frame.isClient ++
              rest ++ Hub.sentOn c s.task.pending := by
  have hTransit := transit_of_run (p := Frame.isClient)
    (fun _ => rfl) hRun c
  refine ⟨written_prefix_due hRun c, ?_⟩
  intro rest hRest
  rw [due_eq_sent hRun c, hTransit.complete rest hRest]

/- Of two listeners, one has been written the message. -/
theorem delivered_exactly_threeClients :
    ∃ s,
      run Env.sample threeClients = some s ∧
        (dueIn Env.sample threeClients 1).length = 2 ∧
        (writtenTo Env.sample threeClients 1).filter
            Frame.isClient <+:
          dueIn Env.sample threeClients 1 := by
  have hSome :
      (run Env.sample threeClients).isSome = true := by
    decide +kernel
  rcases Option.isSome_iff_exists.mp hSome with ⟨s, hRun⟩
  exact ⟨s, hRun, by decide +kernel,
    (delivered_exactly hRun 1).1⟩

end Sys

end Mles

------------------------------------------------------------
-- From the Sockets to the Event Loop
------------------------------------------------------------

namespace Mles

namespace Conn

/-
  The receiver task passes a frame on: the first one if its
  header is verified, a later one if the connection is open
  and it neither closes the socket nor answers a ping.
-/
def passes
    (env : Env)
    (conn : Conn)
    (msg : Message) : Bool :=
  match conn.receiver with
  | .firstFrame => (env.header msg).any env.verified
  | .nextFrame =>
      !conn.isClosed && conn.h ≠ 0 && !msg.isClose &&
        !msg.isPong
  | _ => false

/- What a read of the socket puts into the task's hands. -/
theorem inHand_read
    {env : Env}
    {c : ConnId}
    {r : Read}
    {conn conn' : Conn}
    (hRead : conn.read env c r = some conn') :
    conn.inHand = [] ∧
      conn'.inHand =
        match r with
        | .frame msg =>
            if conn.passes env msg then
              [.client c conn.reads msg]
            else []
        | .error => []
        | .ended => [] := by
  cases hAt : conn.receiver with
  | firstFrame =>
      refine ⟨by simp [inHand, hAt], ?_⟩
      cases r with
      | error =>
          simp only [read, hAt] at hRead
          cases hRead
          rfl
      | ended =>
          simp only [read, hAt] at hRead
          cases hRead
          rfl
      | frame msg =>
          simp only [read, hAt] at hRead
          cases hRead
          cases hHeader : env.header msg with
          | none =>
              simp [onFirstFrame, hHeader, quit, passes, hAt,
                inHand]
          | some hdr =>
              cases hAuth : env.verified hdr with
              | true =>
                  simp [onFirstFrame, hHeader, hAuth, passes,
                    hAt, inHand]
              | false =>
                  simp [onFirstFrame, hHeader, hAuth, quit,
                    passes, hAt, inHand]
  | nextFrame =>
      refine ⟨by simp [inHand, hAt], ?_⟩
      cases r with
      | error =>
          simp only [read, hAt] at hRead
          cases hRead
          rfl
      | ended =>
          simp only [read, hAt] at hRead
          cases hRead
          rfl
      | frame msg =>
          simp only [read, hAt] at hRead
          cases hRead
          cases hClosed : conn.isClosed with
          | true =>
              simp [onFrame, hClosed, leaveLoop, passes, hAt,
                inHand]
          | false =>
              by_cases hZero : conn.h = 0
              · simp [onFrame, hClosed, hZero, leaveLoop,
                  passes, hAt, inHand]
              · cases hClose : msg.isClose with
                | true =>
                    simp [onFrame, hClosed, hZero, hClose,
                      leaveLoop, passes, hAt, inHand]
                | false =>
                    cases hPong : msg.isPong with
                    | true =>
                        simp [onFrame, hClosed, hZero, hClose,
                          hPong, passes, hAt, inHand]
                    | false =>
                        simp [onFrame, hClosed, hZero, hClose,
                          hPong, passes, hAt, inHand]
  | _ => simp [read, hAt] at hRead

/- No other step of the connection's tasks takes a frame. -/
theorem Local.inHand_eq
    {env : Env}
    {c : ConnId}
    {conn conn' : Conn}
    {a : Act}
    (hLocal : conn.Local env c a conn')
    (hOther : ∀ r, a ≠ .read c r) :
    conn'.inHand = conn.inHand := by
  cases hLocal with
  | noFrame r hFail hAt => exact absurd rfl (hOther r)
  | badFirst msg hAt hHeader => exact absurd rfl (hOther _)
  | badAuth msg hdr hAt hHeader hAuth =>
      exact absurd rfl (hOther _)
  | goodFirst msg hdr hAt hHeader hAuth =>
      exact absurd rfl (hOther _)
  | leave r n hAt hReads => exact absurd rfl (hOther r)
  | pong msg hAt => exact absurd rfl (hOther _)
  | message msg hAt hOpen hNonzero hData =>
      exact absurd rfl (hOther _)
  | confirmed h hAt hErrTx => simp [inHand, hAt]
  | rejected hAt hErrTx => simp [inHand, hAt]
  | ended item sent hAt hItem hSent =>
      rcases hAt with hAt | hAt
      · simp [inHand, hAt]
      · simp [inHand, hAt]
  | _ => rfl

end Conn

namespace Sys

/- The frame of a connection a step passes on. -/
def passed
    (env : Env)
    (c : ConnId)
    (s : Sys) : Act → List Frame
| .read d (.frame msg) =>
    if d = c ∧ (s.conns c).passes env msg then
      [.client c (s.conns c).reads msg]
    else []
| _ => []

/- The frames of a connection passed on in a run. -/
def passedIn
    (env : Env)
    (acts : List Act)
    (c : ConnId) : List Frame :=
  Trace.collect (step env) (passed env c) init acts

/- The frames in hand, when the socket is not read. -/
theorem Change.inHand_cases
    {env : Env}
    {s : Sys}
    {c : ConnId}
    {a : Act}
    {conn' : Conn}
    (hChange : (s.conns c).Change env c a conn')
    (hOther : ∀ r, a ≠ .read c r)
    (hNone : eventsOf c (s.puts a) = []) :
    conn'.inHand = (s.conns c).inHand := by
  cases hChange with
  | own _ _ hLocal => exact hLocal.inHand_eq hOther
  | queueInit h ch f hAt =>
      simp [puts, eventsOf, Conn.request, hAt] at hNone
  | queueMsg h ch f hAt =>
      simp [puts, eventsOf, Conn.request, hAt] at hNone
  | received i now msg _ hSent =>
      rw [hSent.frame]
      rfl
  | _ => rfl

/- A step keeps the accounts of the receiver task. -/
theorem passed_conserved
    {env : Env}
    {s s' : Sys}
    {a : Act}
    (hInits : s.QueuedInits)
    (hStep : step env s a = some s')
    (c : ConnId) :
    (s.conns c).inHand ++ passed env c s a =
      (eventsOf c (s.puts a)).filterMap WsEvent.frame ++
        (s'.conns c).inHand := by
  have hSound := step_sound hStep
  by_cases hReads : ∃ d r, a = .read d r
  · rcases hReads with ⟨d, r, rfl⟩
    rcases Option.map_eq_some_iff.mp hStep with
      ⟨conn', hRead, rfl⟩
    have hNone : s.puts (.read d r) = [] := rfl
    rw [hNone, setConn_conns]
    by_cases hEq : c = d
    · subst hEq
      rcases Conn.inHand_read hRead with ⟨hEmpty, hPassed⟩
      rw [hEmpty, if_pos rfl, hPassed]
      cases r with
      | frame msg => simp [passed, eventsOf]
      | error => rfl
      | ended => rfl
    · rw [if_neg hEq]
      cases r with
      | frame msg => simp [passed, eventsOf, Ne.symm hEq]
      | error => simp [passed, eventsOf]
      | ended => simp [passed, eventsOf]
  · have hUnread : passed env c s a = [] := by
      cases a with
      | read d r => exact absurd ⟨d, r, rfl⟩ hReads
      | _ => rfl
    rw [hUnread, List.append_nil]
    rcases hSound.puts_cases c with
      hNone | ⟨h, ch, f, hAt, hPuts, hNext⟩ |
      ⟨h, ch, f, hAt, hPuts, hNext⟩ |
      ⟨h, ch, hAt, hPuts, hNext⟩
    · rw [hNone]
      exact (Change.inHand_cases (hSound.change hInits c)
        (fun r hEq => hReads ⟨c, r, hEq⟩) hNone).symm
    · rw [hPuts, hNext]
      simp [Conn.inHand, hAt, WsEvent.frame]
    · rw [hPuts, hNext]
      simp [Conn.inHand, hAt, WsEvent.frame]
    · rw [hPuts, hNext]
      rfl

/-
  Reception is exact, in every run and for every connection:
  the frames its receiver task passed on are those the event
  loop has taken, those that wait in the event queue, and
  the one the task still has in its hands, in order.
-/
theorem received_exactly
    {env : Env}
    {acts : List Act}
    {s : Sys}
    (hRun : run env acts = some s)
    (c : ConnId) :
    passedIn env acts c =
      (eventsOf c (getsIn env acts)).filterMap
          WsEvent.frame ++
        (eventsOf c s.events).filterMap WsEvent.frame ++
        (s.conns c).inHand := by
  have hPuts :
      passedIn env acts c =
        (eventsOf c (putsIn env acts)).filterMap
            WsEvent.frame ++
          (s.conns c).inHand := by
    refine Trace.run_induction
      (P := fun acts s =>
        passedIn env acts c =
          (eventsOf c (putsIn env acts)).filterMap
              WsEvent.frame ++
            (s.conns c).inHand)
      rfl ?_ hRun
    intro acts s a s' hPrefix ih hStep
    unfold passedIn putsIn
    rw [Trace.collect_snoc (passed env c) a hPrefix,
      Trace.collect_snoc puts a hPrefix, eventsOf_append,
      List.filterMap_append]
    unfold passedIn putsIn at ih
    rw [ih, List.append_assoc,
      passed_conserved (queuedInits_of_run hPrefix) hStep,
      List.append_assoc]
  rw [hPuts, puts_eq_gets_append hRun, eventsOf_append,
    List.filterMap_append]

/- A client joins, and its message is taken. -/
theorem received_exactly_threeClients :
    ∃ s,
      run Env.sample threeClients = some s ∧
        (passedIn Env.sample threeClients 0).length = 2 ∧
        passedIn Env.sample threeClients 0 =
          (eventsOf 0
              (getsIn Env.sample threeClients)).filterMap
              WsEvent.frame ++
            (eventsOf 0 s.events).filterMap WsEvent.frame ++
            (s.conns 0).inHand := by
  have hSome :
      (run Env.sample threeClients).isSome = true := by
    decide +kernel
  rcases Option.isSome_iff_exists.mp hSome with ⟨s, hRun⟩
  exact ⟨s, hRun, by decide +kernel, received_exactly hRun 0⟩

end Sys

end Mles
