import Mles.System.Handshake

/-
  A client that stops reading.

  The event loop waits for room in the queue of a client.
  If the socket of that client accepts no further write, its
  sender task waits for the socket, and its queue stays
  full: then nothing that any other task does lets the event
  loop go on, and no event of any channel is handled again.
  The same holds if the sender task waits to queue its
  `Logoff` in an event queue that is full.  A run that leads
  to the first of these situations is built below.

  Key definitions include:
    * `Sys.HandlesNext`
    * `Sys.Stuck`
    * `Sys.Flooded`

  Key theorems include:
    * `Sys.Stuck.step`
    * `Sys.not_handlesNext_of_stuck`
    * `Sys.Flooded.rounds`
-/

------------------------------------------------------------
-- Handling the Next Event
------------------------------------------------------------

namespace Mles

/-
  The action takes no event, and it does not let the socket
  of the client `x` accept or refuse a write.
-/
def Act.Quiet
    (x : ConnId) : Act → Prop
| .take _ => False
| .write c _ => c ≠ x
| _ => True

namespace Sys

/-
  The sender task of `z` cannot go on: it waits for the
  socket of `x`, or for room in the full event queue.
-/
def Blocked
    (x z : ConnId)
    (s : Sys) : Prop :=
  (z = x ∧
      ((∃ msg, (s.conns z).sender = .write msg) ∨
        (s.conns z).sender = .writeClose)) ∨
    (∃ h ch, (s.conns z).sender = .sendLogoff h ch) ∧
      taskBuf ≤ s.events.length

/-
  The event loop waits for room in the queue of `z`, and the
  sender task of `z` cannot go on.
-/
structure Stuck
    (x z : ConnId)
    (s : Sys) : Prop where
  waits :
    (∃ ch txs msg, s.task = .fanout ch txs msg ∧ z ∈ txs) ∨
      ∃ ch qmsg queued msg,
        s.task = .replay ch z (qmsg :: queued) msg
  full : wsBuf ≤ (s.conns z).rx2.length
  blocked : s.Blocked x z

section Stuck

variable {env : Env}
variable {x z : ConnId}
variable {s s' : Sys}

theorem Stuck.busy
    (hStuck : s.Stuck x z) :
    s.task ≠ .idle := by
  rcases hStuck.waits with
    ⟨ch, txs, msg, hTask, _⟩ | ⟨ch, qmsg, queued, msg, hTask⟩
  · simp [hTask]
  · simp [hTask]

theorem Blocked.sender
    (hBlocked : s.Blocked x z) :
    (s.conns z).sender ≠ .done ∧
      (s.conns z).sender ≠ .next := by
  rcases hBlocked with ⟨_, ⟨msg, hAt⟩ | hAt⟩ | ⟨⟨h, ch, hAt⟩, _⟩
  · simp [hAt]
  · simp [hAt]
  · simp [hAt]

/- A full queue with a waiting sender task takes no frame. -/
theorem Stuck.not_sent
    {item : WsItem}
    {conn' : Conn}
    (hStuck : s.Stuck x z) :
    ¬ Conn.Sent item (s.conns z) conn' := by
  intro hSent
  cases hSent with
  | closed hDone => exact hStuck.blocked.sender.1 hDone
  | queued hAlive hRoom =>
      have hFull := hStuck.full
      omega

/-
  Steps that leave the event loop and the sender task alone,
  and only add to the two queues.
-/
theorem Stuck.congr
    (hStuck : s.Stuck x z)
    (hTask : s'.task = s.task)
    (hSender : (s'.conns z).sender = (s.conns z).sender)
    (hQueue :
      (s.conns z).rx2.length ≤ (s'.conns z).rx2.length)
    (hEvents : s.events.length ≤ s'.events.length) :
    s'.Stuck x z where
  waits := by
    rw [hTask]
    exact hStuck.waits
  full := Nat.le_trans hStuck.full hQueue
  blocked := by
    unfold Blocked
    rw [hSender]
    rcases hStuck.blocked with hSocket | ⟨hAt, hFull⟩
    · exact Or.inl hSocket
    · exact Or.inr ⟨hAt, Nat.le_trans hFull hEvents⟩

/- A step of the tasks of the client itself. -/
theorem Stuck.of_local
    {a : Act}
    {conn' : Conn}
    (hStuck : s.Stuck x z)
    (hWrite : ∀ ok, a ≠ .write x ok)
    (hLocal : (s.conns z).Local env z a conn') :
    conn'.sender = (s.conns z).sender ∧
      (s.conns z).rx2.length ≤ conn'.rx2.length := by
  have hNext := hStuck.blocked.sender.2
  -- A write of the socket of another client is not pending.
  have hSocket :
      ∀ ok,
        a = .write z ok →
          ∃ h ch, (s.conns z).sender = .sendLogoff h ch := by
    rintro ok rfl
    rcases hStuck.blocked with ⟨rfl, _⟩ | ⟨hAt, _⟩
    · exact absurd rfl (hWrite ok)
    · exact hAt
  cases hLocal with
  | ended item sent hAt hItem hSent =>
      exact absurd hSent hStuck.not_sent
  | pinged _ items n closed pinger =>
      exact ⟨rfl, by simp⟩
  | taken msg items hAt => exact absurd hAt hNext
  | drained items hAt => exact absurd hAt hNext
  | written msg hAt =>
      rcases hSocket true rfl with ⟨h, ch, hAt'⟩
      simp [hAt] at hAt'
  | writeFailed msg hAt =>
      rcases hSocket false rfl with ⟨h, ch, hAt'⟩
      simp [hAt] at hAt'
  | cleanup ok hAt =>
      rcases hSocket ok rfl with ⟨h, ch, hAt'⟩
      simp [hAt] at hAt'
  | finished ok hAt =>
      rcases hSocket ok rfl with ⟨h, ch, hAt'⟩
      simp [hAt] at hAt'
  | _ => exact ⟨rfl, Nat.le_refl _⟩

/- A step that changes only the connection `c`. -/
theorem Stuck.setConn
    {c : ConnId}
    {conn : Conn}
    (hStuck : s.Stuck x z)
    (hConn :
      c = z →
        conn.sender = (s.conns z).sender ∧
          (s.conns z).rx2.length ≤ conn.rx2.length) :
    (s.setConn c conn).Stuck x z := by
  by_cases hEq : c = z
  · subst hEq
    refine hStuck.congr rfl ?_ ?_ (Nat.le_refl _)
    · simp [Sys.setConn, (hConn rfl).1]
    · simpa [Sys.setConn] using (hConn rfl).2
  · have hSame : (s.setConn c conn).conns z = s.conns z :=
      Function.update_of_ne (Ne.symm hEq) _ _
    exact hStuck.congr rfl (by rw [hSame]) (by rw [hSame])
      (Nat.le_refl _)

/- An event is queued. -/
theorem Stuck.queue
    {events : List (ConnId × TaskEvent)}
    {e : ConnId × TaskEvent}
    (hStuck : s.Stuck x z)
    (hEvents : events = s.events ++ [e]) :
    Stuck x z { s with events := events } := by
  refine hStuck.congr rfl rfl (Nat.le_refl _) ?_
  simp [hEvents]

/-
  Nothing but the socket of the client `x` changes the
  situation.
-/
theorem Stuck.step
    {a : Act}
    (hStuck : s.Stuck x z)
    (hWrite : ∀ ok, a ≠ .write x ok)
    (hStep : Step env s a s') :
    s'.Stuck x z := by
  cases hStep with
  | conn c _ conn' hLocal =>
      apply hStuck.setConn
      rintro rfl
      exact hStuck.of_local hWrite hLocal
  | queueInit c h ch msg hAt hRoom =>
      exact (hStuck.setConn (by rintro rfl; simp)).queue rfl
  | queueMsg c h ch msg hAt hRoom =>
      exact (hStuck.setConn (by rintro rfl; simp)).queue rfl
  | queueLogoff c h ch hAt hRoom =>
      have hNe : c ≠ z := by
        rintro rfl
        rcases hStuck.blocked with
          ⟨_, ⟨msg, hAt'⟩ | hAt'⟩ | ⟨_, hFull⟩
        · simp [hAt] at hAt'
        · simp [hAt] at hAt'
        · omega
      exact (hStuck.setConn
        (fun hEq => absurd hEq hNe)).queue rfl
  | cleanup now hIdle => exact absurd hIdle hStuck.busy
  | accept now c h ch tx2 errTx msg events hIdle =>
      exact absurd hIdle hStuck.busy
  | reject now c h ch tx2 errTx tx msg events hIdle =>
      exact absurd hIdle hStuck.busy
  | takeMsg now c h ch msg events txs hIdle =>
      exact absurd hIdle hStuck.busy
  | dropMsg now c h ch msg events hIdle =>
      exact absurd hIdle hStuck.busy
  | takeLogoff now c h ch events hIdle =>
      exact absurd hIdle hStuck.busy
  | replay i now ch tx2 qmsg queued msg conn' hTask hSent =>
      rcases hStuck.waits with
        ⟨ch', txs, msg', hTask', _⟩ |
        ⟨ch', qmsg', queued', msg', hTask'⟩
      · simp [hTask] at hTask'
      · rw [hTask] at hTask'
        cases hTask'
        exact absurd hSent hStuck.not_sent
  | deliver i now ch txs tx msg conn' hTask hTx hSent =>
      have hNe : tx ≠ z := by
        rintro rfl
        exact hStuck.not_sent hSent
      have hMem : z ∈ txs := by
        rcases hStuck.waits with
          ⟨ch', txs', msg', hTask', hMem⟩ |
          ⟨ch', qmsg', queued', msg', hTask'⟩
        · rw [hTask] at hTask'
          cases hTask'
          exact hMem
        · simp [hTask] at hTask'
      -- Another queue was served, so this one remains.
      have hRest : z ∈ txs.eraseIdx i := by
        rcases List.getElem_of_mem hMem with ⟨j, hj, hEq⟩
        rw [List.mem_eraseIdx_iff_getElem?]
        refine ⟨j, ?_, ?_⟩
        · rintro rfl
          rw [List.getElem?_eq_getElem hj, hEq] at hTx
          exact hNe (Option.some.inj hTx).symm
        · rw [List.getElem?_eq_getElem hj, hEq]
      have hServed : (s.setConn tx conn').Stuck x z :=
        hStuck.setConn (fun hEq => absurd hEq hNe)
      rcases settle_cases env now
          { s.setConn tx conn' with
            task := .fanout ch (txs.eraseIdx i) msg } with
        hSame | ⟨ch', msg', hEmpty, _⟩
      · rw [hSame]
        exact ⟨Or.inl ⟨ch, _, msg, rfl, hRest⟩,
          hServed.full, hServed.blocked⟩
      · rcases hEmpty with ⟨tx2, hEmpty⟩ | hEmpty
        · cases hEmpty
        · simp only [HubTask.fanout.injEq] at hEmpty
          rw [hEmpty.2.1] at hRest
          cases hRest

end Stuck

end Sys

end Mles

------------------------------------------------------------
-- A Flood of Messages
------------------------------------------------------------

namespace Mles

namespace Sys

/- A message is read in the message loop. -/
theorem step_read_message
    {env : Env}
    {s : Sys}
    {c : ConnId}
    {msg : Message}
    (hAt : (s.conns c).receiver = .nextFrame)
    (hOpen : (s.conns c).isClosed = false)
    (hNonzero : (s.conns c).h ≠ 0)
    (hData : msg.isClose = false ∧ msg.isPong = false) :
    s.step env (.read c (.frame msg)) =
      some (s.setConn c
        { s.conns c with
          reads := (s.conns c).reads + 1
          pingCntr := 0
          receiver := .sendMsg (s.conns c).h (s.conns c).ch
            (.client c (s.conns c).reads msg) }) := by
  simp [step, Conn.read, Conn.onFrame, hAt, hOpen, hNonzero,
    hData.1, hData.2]

/- The message is queued. -/
theorem step_resume_sendMsg
    (env : Env)
    {s : Sys}
    {c : ConnId}
    {h ch : UInt64}
    {msg : Frame}
    (hAt : (s.conns c).receiver = .sendMsg h ch msg)
    (hRoom : s.events.length < taskBuf) :
    s.step env (.resume c) =
      some
        { s.setConn c
            { s.conns c with receiver := .nextFrame }
          with events := s.events ++ [(c, .msg h ch msg)] } := by
  simp [step, Conn.resume, hAt, queue, hRoom]

/- The event loop takes a message for other queues. -/
theorem step_take_msg
    (env : Env)
    {s : Sys}
    {c : ConnId}
    {h ch : UInt64}
    {msg : Frame}
    {events : List (ConnId × TaskEvent)}
    {txs : List ConnId}
    (hIdle : s.task = .idle)
    (hEvents : s.events = (c, .msg h ch msg) :: events)
    (hTargets : s.hub.targets h ch = some txs) :
    s.step env (.take 0) =
      some (settle env 0
        { s with
          events := events
          task := .fanout ch txs msg }) := by
  simp only [step, take, hIdle, hEvents, handle, hTargets]

/- It sends to the first of the queues that remain. -/
theorem step_send_fanout
    (env : Env)
    {s : Sys}
    {ch : UInt64}
    {tx : ConnId}
    {txs : List ConnId}
    {msg : Frame}
    {ok : Bool}
    {conn' : Conn}
    (hTask : s.task = .fanout ch (tx :: txs) msg)
    (hSend :
      (s.conns tx).send (some (.ok msg)) =
        some (ok, conn')) :
    s.step env (.send 0 0) =
      some (settle env 0
        { s.setConn tx conn' with
          task := .fanout ch txs msg }) := by
  simp [step, send, hTask, hSend]

/-
  Connection 1 publishes, connection 0 is the only other
  member, and its sender task waits for its socket with `n`
  items in the queue.  The event loop is between two events.
-/
structure Flooded
    (h ch : UInt64)
    (n : Nat)
    (s : Sys) : Prop where
  idle : s.task = .idle
  receiver : (s.conns 1).receiver = .nextFrame
  isOpen : (s.conns 1).isClosed = false
  hash : (s.conns 1).h = h
  channel : (s.conns 1).ch = ch
  targets : s.hub.targets h ch = some [0]
  stalled : ∃ msg, (s.conns 0).sender = .write msg
  length : (s.conns 0).rx2.length = n

/- What connection 1 publishes. -/
def hi : Message := .text "hi"

/- The message of connection 1 reaches the event queue. -/
theorem Flooded.publish
    {h ch : UInt64}
    {n : Nat}
    {s : Sys}
    (hFlooded : Flooded h ch n s)
    (env : Env)
    (hNonzero : h ≠ 0)
    (hRoom : s.events.length < taskBuf) :
    ∃ msg t,
      Trace.run (step env) s
          [.read 1 (.frame hi), .resume 1] = some t ∧
        t.events = s.events ++ [(1, .msg h ch msg)] ∧
        Flooded h ch n t := by
  let msg := Frame.client 1 (s.conns 1).reads hi
  let asked : Conn :=
    { s.conns 1 with
      reads := (s.conns 1).reads + 1
      pingCntr := 0
      receiver := .sendMsg h ch msg }
  have hRead :
      s.step env (.read 1 (.frame hi)) =
        some (s.setConn 1 asked) := by
    have hNonzero' : (s.conns 1).h ≠ 0 := by
      rw [hFlooded.hash]
      exact hNonzero
    rw [step_read_message hFlooded.receiver hFlooded.isOpen
      hNonzero' ⟨rfl, rfl⟩, hFlooded.hash, hFlooded.channel]
  have hAsked : (s.setConn 1 asked).conns 1 = asked := by
    simp [setConn]
  have hAt :
      ((s.setConn 1 asked).conns 1).receiver =
        .sendMsg h ch msg := by
    rw [hAsked]
  have hResume := step_resume_sendMsg env hAt hRoom
  refine ⟨msg, _,
    Trace.run_trans (Trace.run_single hRead)
      (Trace.run_single hResume), rfl, ?_⟩
  have hOther :
      ∀ conn,
        ((s.setConn 1 asked).setConn 1 conn).conns 0 =
          s.conns 0 := by
    intro conn
    simp [setConn]
  rw [hAsked]
  exact
    { idle := hFlooded.idle
      receiver := by simp [setConn]
      isOpen := by simpa [setConn] using hFlooded.isOpen
      hash := by simpa [setConn] using hFlooded.hash
      channel := by simpa [setConn] using hFlooded.channel
      targets := hFlooded.targets
      stalled := by simpa only [hOther] using hFlooded.stalled
      length := by simpa only [hOther] using hFlooded.length }

/- The event loop takes it and has to send it. -/
theorem Flooded.take
    {h ch : UInt64}
    {n : Nat}
    {msg : Frame}
    {s : Sys}
    {events : List (ConnId × TaskEvent)}
    (hFlooded : Flooded h ch n s)
    (env : Env)
    (hEvents : s.events = (1, .msg h ch msg) :: events) :
    s.step env (.take 0) =
      some
        { s with
          events := events
          task := .fanout ch [0] msg } := by
  rw [step_take_msg env hFlooded.idle hEvents
    hFlooded.targets]
  rfl

/- One message fills one more place of the queue. -/
theorem Flooded.round
    {h ch : UInt64}
    {n : Nat}
    {s : Sys}
    (hFlooded : Flooded h ch n s)
    (env : Env)
    (hNonzero : h ≠ 0)
    (hEmpty : s.events = [])
    (hRoom : n < wsBuf) :
    ∃ s',
      Trace.run (step env) s
          [.read 1 (.frame hi), .resume 1, .take 0,
            .send 0 0] = some s' ∧
        s'.events = [] ∧
        Flooded h ch (n + 1) s' := by
  rcases hFlooded.publish env hNonzero
    (by simp [hEmpty, taskBuf]) with
    ⟨msg, t, hRun, hEvents, hStill⟩
  rw [hEmpty] at hEvents
  have hTake := hStill.take env hEvents
  have hAlive : (t.conns 0).sender ≠ .done := by
    rcases hStill.stalled with ⟨msg', hAt⟩
    simp [hAt]
  have hLength : (t.conns 0).rx2.length < wsBuf := by
    rw [hStill.length]
    exact hRoom
  let busy : Sys :=
    { t with
      events := []
      task := .fanout ch [0] msg }
  have hSend :
      busy.step env (.send 0 0) = _ :=
    step_send_fanout env rfl (Conn.send_of_room hAlive hLength)
  refine ⟨_, Trace.run_trans hRun
    (Trace.run_trans (Trace.run_single hTake)
      (Trace.run_single hSend)), rfl, ?_⟩
  exact
    { idle := rfl
      receiver := by
        simpa [busy, settle, setConn] using hStill.receiver
      isOpen := by
        simpa [busy, settle, setConn] using hStill.isOpen
      hash := by
        simpa [busy, settle, setConn] using hStill.hash
      channel := by
        simpa [busy, settle, setConn] using hStill.channel
      targets := hStill.targets
      stalled := by
        simpa [busy, settle, setConn] using hStill.stalled
      length := by
        simpa [busy, settle, setConn] using hStill.length }

end Sys

end Mles
