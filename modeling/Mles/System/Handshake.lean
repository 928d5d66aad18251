import Mles.System.Steps

/-
  The handshake of a connection: the first frame, the `Init`
  it queues and the confirmation it waits for.

  A connection queues at most one `Init`, carries its own
  two handles in it and waits until the event loop answers.
  With this, every step of the server changes a connection
  in one of the few ways of `Conn.Change`.

  The receiver task waits for a confirmation whose sender it
  holds itself exactly if its socket yielded no frame at
  all: `not_waitsForever_iff`.

  Key definitions include:
    * `firstRead`
    * `Sys.QueuedInits`
    * `Conn.Change`
    * `Sys.WaitsForever`

  Key theorems include:
    * `Sys.queuedInits_of_run`
    * `Sys.Step.change`
    * `Sys.not_waitsForever_iff`
    * `Sys.WaitsForever.persists`
-/

------------------------------------------------------------
-- The First Read
------------------------------------------------------------

namespace Mles

/- What an action reads from the socket of a connection. -/
def Act.readOf
    (c : ConnId) : Act → Option Read
| .read d r => if d = c then some r else none
| _ => none

/- What the socket of a connection yielded first. -/
def firstRead
    (c : ConnId)
    (acts : List Act) : Option Read :=
  acts.findSome? (Act.readOf c)

theorem firstRead_snoc
    (c : ConnId)
    (acts : List Act)
    (a : Act) :
    firstRead c (acts ++ [a]) =
      (firstRead c acts).or (a.readOf c) := by
  simp [firstRead, List.findSome?_append]

/- The first read is never taken back. -/
theorem firstRead_append
    {c : ConnId}
    {acts : List Act}
    {r : Read}
    (hFirst : firstRead c acts = some r)
    (acts' : List Act) :
    firstRead c (acts ++ acts') = some r := by
  unfold firstRead at *
  rw [List.findSome?_append, hFirst]
  rfl

end Mles

------------------------------------------------------------
-- Queued Inits
------------------------------------------------------------

namespace Mles

/- The connections whose `Init` is queued. -/
def inits : List (ConnId × TaskEvent) → List ConnId
| [] => []
| (c, .init _ _ _ _ _) :: events => c :: inits events
| (_, .msg _ _ _) :: events => inits events
| (_, .logoff _ _) :: events => inits events

theorem inits_append
    (events events' : List (ConnId × TaskEvent)) :
    inits (events ++ events') =
      inits events ++ inits events' := by
  induction events with
  | nil => rfl
  | cons e events ih =>
      rcases e with ⟨c, _ | _ | _⟩
      · simp [inits, ih]
      · simp [inits, ih]
      · simp [inits, ih]

theorem mem_inits
    {events : List (ConnId × TaskEvent)}
    {c tx2 errTx : ConnId}
    {h ch : UInt64}
    {msg : Frame}
    (hMem : (c, .init h ch tx2 errTx msg) ∈ events) :
    c ∈ inits events := by
  induction events with
  | nil => cases hMem
  | cons e events ih =>
      rcases List.mem_cons.mp hMem with hHead | hTail
      · subst hHead
        exact List.mem_cons_self
      · have hRest := ih hTail
        rcases e with ⟨d, _ | _ | _⟩
        · exact List.mem_cons_of_mem d hRest
        · exact hRest
        · exact hRest

/- A connection that waits for the answer to its `Init`. -/
def Conn.Waiting (conn : Conn) : Prop :=
  conn.receiver = .awaitInit ∧ conn.errTx = .event

/- Only the event loop ends the wait. -/
theorem Conn.Local.waiting
    {env : Env}
    {c : ConnId}
    {conn conn' : Conn}
    {a : Act}
    (hLocal : conn.Local env c a conn')
    (hWaiting : conn.Waiting) :
    conn'.Waiting := by
  rcases hWaiting with ⟨hReceiver, hErrTx⟩
  cases hLocal with
  | noFrame r hFail hAt => simp [hReceiver] at hAt
  | badFirst msg hAt hHeader => simp [hReceiver] at hAt
  | badAuth msg hdr hAt hHeader hAuth =>
      simp [hReceiver] at hAt
  | goodFirst msg hdr hAt hHeader hAuth =>
      simp [hReceiver] at hAt
  | leave r n hAt hReads => simp [hReceiver] at hAt
  | pong msg hAt => simp [hReceiver] at hAt
  | message msg hAt hOpen hNonzero hData =>
      simp [hReceiver] at hAt
  | confirmed h hAt hSent => simp [hErrTx] at hSent
  | rejected hAt hDropped => simp [hErrTx] at hDropped
  | ended item sent hAt hItem hSent =>
      simp [hReceiver] at hAt
  | pinged _ items n closed pinger hAct hItems hRoom hClosed =>
      exact ⟨hReceiver, hErrTx⟩
  | taken msg items hAt hQueue hOpen =>
      exact ⟨hReceiver, hErrTx⟩
  | drained items hAt hQueue => exact ⟨hReceiver, hErrTx⟩
  | written msg hAt => exact ⟨hReceiver, hErrTx⟩
  | writeFailed msg hAt => exact ⟨hReceiver, hErrTx⟩
  | cleanup ok hAt hNonzero => exact ⟨hReceiver, hErrTx⟩
  | finished ok hAt hZero => exact ⟨hReceiver, hErrTx⟩

theorem Conn.Sent.waiting
    {item : WsItem}
    {conn conn' : Conn}
    (hSent : Conn.Sent item conn conn')
    (hWaiting : conn.Waiting) :
    conn'.Waiting := by
  rw [hSent.frame]
  exact hWaiting

namespace Sys

/-
  A queued `Init` carries the handles of the connection that
  queued it, which waits for the answer; and no connection
  has two of them queued.
-/
structure QueuedInits (s : Sys) : Prop where
  own :
    ∀ c h ch tx2 errTx msg,
      (c, .init h ch tx2 errTx msg) ∈ s.events →
        tx2 = c ∧ errTx = c
  waiting : ∀ c ∈ inits s.events, (s.conns c).Waiting
  nodup : (inits s.events).Nodup

/- The connection of the `Init` taken next waits for it. -/
theorem QueuedInits.front
    {s : Sys}
    {c tx2 errTx : ConnId}
    {h ch : UInt64}
    {msg : Frame}
    {events : List (ConnId × TaskEvent)}
    (hInits : s.QueuedInits)
    (hEvents :
      s.events = (c, .init h ch tx2 errTx msg) :: events) :
    tx2 = c ∧ errTx = c ∧ (s.conns c).Waiting := by
  have hMem : (c, .init h ch tx2 errTx msg) ∈ s.events := by
    rw [hEvents]
    exact List.mem_cons_self
  rcases hInits.own c h ch tx2 errTx msg hMem with
    ⟨hTx, hErrTx⟩
  exact ⟨hTx, hErrTx, hInits.waiting c (mem_inits hMem)⟩

/-
  Steps that queue no `Init` and take no event: the waiting
  connections have to stay so.
-/
theorem QueuedInits.of_waiting
    {s s' : Sys}
    (hInits : s.QueuedInits)
    (hEvents : s'.events = s.events)
    (hConns :
      ∀ c, (s.conns c).Waiting → (s'.conns c).Waiting) :
    s'.QueuedInits where
  own := by
    rw [hEvents]
    exact hInits.own
  waiting := by
    rw [hEvents]
    exact fun c hMem => hConns c (hInits.waiting c hMem)
  nodup := by
    rw [hEvents]
    exact hInits.nodup

/- An update of one connection that keeps it waiting. -/
theorem waiting_setConn
    {s : Sys}
    {c : ConnId}
    {conn : Conn}
    (hConn : (s.conns c).Waiting → conn.Waiting)
    (d : ConnId)
    (hWaiting : (s.conns d).Waiting) :
    ((s.setConn c conn).conns d).Waiting :=
  forall_setConn
    (P := fun d conn => (s.conns d).Waiting → conn.Waiting)
    hConn (fun _ _ hOld => hOld) d hWaiting

/- Queueing an event that is not an `Init`. -/
theorem QueuedInits.queue
    {s s' : Sys}
    {c : ConnId}
    {e : TaskEvent}
    (hInits : s.QueuedInits)
    (hEvents : s'.events = s.events ++ [(c, e)])
    (hOther : ∀ h ch tx2 errTx msg,
      e ≠ .init h ch tx2 errTx msg)
    (hConns :
      ∀ c, (s.conns c).Waiting → (s'.conns c).Waiting) :
    s'.QueuedInits := by
  have hSame : inits s'.events = inits s.events := by
    rw [hEvents, inits_append]
    cases e with
    | init h ch tx2 errTx msg =>
        exact absurd rfl (hOther h ch tx2 errTx msg)
    | msg h ch msg => exact List.append_nil _
    | logoff h ch => exact List.append_nil _
  refine ⟨?_, ?_, ?_⟩
  · intro d h ch tx2 errTx msg hMem
    rw [hEvents, List.mem_append, List.mem_singleton] at hMem
    rcases hMem with hOld | hNew
    · exact hInits.own d h ch tx2 errTx msg hOld
    · exact absurd (congrArg Prod.snd hNew).symm
        (hOther h ch tx2 errTx msg)
  · rw [hSame]
    exact fun d hMem => hConns d (hInits.waiting d hMem)
  · rw [hSame]
    exact hInits.nodup

/- Taking an event that leaves the other waits alone. -/
theorem QueuedInits.take
    {s s' : Sys}
    {e : ConnId × TaskEvent}
    (hInits : s.QueuedInits)
    (hEvents : s.events = e :: s'.events)
    (hConns :
      ∀ c ∈ inits s'.events,
        (s.conns c).Waiting → (s'.conns c).Waiting) :
    s'.QueuedInits := by
  have hSplit :
      inits s.events = inits [e] ++ inits s'.events := by
    rw [hEvents]
    exact inits_append [e] s'.events
  refine ⟨?_, ?_, ?_⟩
  · intro c h ch tx2 errTx msg hMem
    apply hInits.own c h ch tx2 errTx msg
    rw [hEvents]
    exact List.mem_cons_of_mem e hMem
  · intro c hMem
    apply hConns c hMem
    apply hInits.waiting c
    rw [hSplit]
    exact List.mem_append_right _ hMem
  · have hNodup := hInits.nodup
    rw [hSplit] at hNodup
    exact hNodup.of_append_right

/- The answer to an `Init` concerns no other queued one. -/
theorem QueuedInits.answer
    {s s' : Sys}
    {c : ConnId}
    {h ch : UInt64}
    {tx2 errTx : ConnId}
    {msg : Frame}
    (hInits : s.QueuedInits)
    (hEvents :
      s.events =
        (c, .init h ch tx2 errTx msg) :: s'.events)
    (hConns :
      ∀ d, d ≠ errTx → s'.conns d = s.conns d) :
    s'.QueuedInits := by
  have hOwn : errTx = c := (hInits.front hEvents).2.1
  have hNotMem : c ∉ inits s'.events := by
    have hNodup := hInits.nodup
    rw [hEvents] at hNodup
    exact (List.nodup_cons.mp hNodup).1
  apply hInits.take hEvents
  intro d hMem hWaiting
  have hNe : d ≠ errTx := by
    rintro rfl
    exact hNotMem (hOwn ▸ hMem)
  rw [hConns d hNe]
  exact hWaiting

/- One step preserves the invariant. -/
theorem QueuedInits.step
    {env : Env}
    {s s' : Sys}
    {a : Act}
    (hInits : s.QueuedInits)
    (hStep : Step env s a s') :
    s'.QueuedInits := by
  cases hStep with
  | conn c _ conn' hLocal =>
      exact hInits.of_waiting rfl
        (waiting_setConn hLocal.waiting)
  | queueInit c h ch msg hAt hRoom =>
      -- The connection was not waiting, so this `Init` is
      -- its only one.
      have hNew : c ∉ inits s.events := by
        intro hMem
        have hReceiver := (hInits.waiting c hMem).1
        rw [hAt] at hReceiver
        cases hReceiver
      refine ⟨?_, ?_, ?_⟩
      · intro d h' ch' tx2 errTx msg' hMem
        rcases List.mem_append.mp hMem with hOld | hLast
        · exact hInits.own d h' ch' tx2 errTx msg' hOld
        · cases List.mem_singleton.mp hLast
          exact ⟨rfl, rfl⟩
      · intro d hMem
        rw [inits_append, List.mem_append] at hMem
        by_cases hEq : d = c
        · subst hEq
          simp [setConn_conns, Conn.Waiting]
        · rcases hMem with hOld | hLast
          · simpa [setConn_conns, hEq] using
              hInits.waiting d hOld
          · exact absurd (List.mem_singleton.mp hLast) hEq
      · rw [inits_append]
        apply List.Nodup.append hInits.nodup
        · exact List.nodup_singleton c
        · intro d hOld hLast
          cases List.mem_singleton.mp hLast
          exact hNew hOld
  | queueMsg c h ch msg hAt hRoom =>
      apply hInits.queue (c := c) (e := .msg h ch msg) rfl
      · intro h' ch' tx2 errTx msg' hEq
        cases hEq
      · apply waiting_setConn
        intro hWaiting
        rw [hWaiting.1] at hAt
        cases hAt
  | queueLogoff c h ch hAt hRoom =>
      apply hInits.queue (c := c) (e := .logoff h ch) rfl
      · intro h' ch' tx2 errTx msg' hEq
        cases hEq
      · exact waiting_setConn (fun hWaiting => hWaiting)
  | cleanup now hIdle =>
      exact hInits.of_waiting rfl (fun _ h => h)
  | accept now c h ch tx2 errTx msg events hIdle hEvents
      hVacant =>
      apply hInits.answer
      · rw [settle_events]
        exact hEvents
      · intro d hNe
        rw [settle_conns]
        exact Function.update_of_ne hNe _ _
  | reject now c h ch tx2 errTx tx msg events hIdle hEvents
      hTaken =>
      apply hInits.answer hEvents
      intro d hNe
      exact Function.update_of_ne hNe _ _
  | takeMsg now c h ch msg events txs hIdle hEvents
      hTargets =>
      apply hInits.take
      · rw [settle_events]
        exact hEvents
      · intro d hMem hWaiting
        rw [settle_conns]
        exact hWaiting
  | dropMsg now c h ch msg events hIdle hEvents hTargets =>
      exact hInits.take hEvents (fun _ _ h => h)
  | takeLogoff now c h ch events hIdle hEvents =>
      exact hInits.take hEvents (fun _ _ h => h)
  | replay i now ch tx2 qmsg queued msg conn' hTask hSent =>
      apply hInits.of_waiting
      · exact settle_events _ _ _
      · rw [settle_conns]
        exact waiting_setConn hSent.waiting
  | deliver i now ch txs tx msg conn' hTask hTx hSent =>
      apply hInits.of_waiting
      · exact settle_events _ _ _
      · rw [settle_conns]
        exact waiting_setConn hSent.waiting

/- The invariant holds in every state of every run. -/
theorem queuedInits_of_run
    {env : Env}
    {acts : List Act}
    {s : Sys}
    (hRun : run env acts = some s) :
    s.QueuedInits := by
  refine Trace.run_induction
    (P := fun _ s => s.QueuedInits) ?_ ?_ hRun
  · refine ⟨?_, ?_, List.nodup_nil⟩
    · intro c h ch tx2 errTx msg hMem
      cases hMem
    · intro c hMem
      cases hMem
  · intro acts s a s' _ hInits hStep
    exact hInits.step (step_sound hStep)

end Sys

end Mles

------------------------------------------------------------
-- Changes of a Connection
------------------------------------------------------------

namespace Mles

/-
  How a step of the server changes one connection: by a step
  of its own tasks, by the answer to its `Init`, by a frame
  put into its queue, or not at all.
-/
inductive Conn.Change
    (env : Env)
    (c : ConnId)
    (conn : Conn) : Act → Conn → Prop where
| own
    (a : Act)
    (conn' : Conn)
    (hLocal : conn.Local env c a conn') :
    Change env c conn a conn'
| queueInit
    (h ch : UInt64)
    (msg : Frame)
    (hAt : conn.receiver = .sendInit h ch msg) :
    Change env c conn (.resume c)
      { conn with receiver := .awaitInit, errTx := .event }
| queueMsg
    (h ch : UInt64)
    (msg : Frame)
    (hAt : conn.receiver = .sendMsg h ch msg) :
    Change env c conn (.resume c)
      { conn with receiver := .nextFrame }
| queueLogoff
    (h ch : UInt64)
    (hAt : conn.sender = .sendLogoff h ch) :
    Change env c conn (.logoff c)
      (Conn.finish { conn with h := 0, ch := 0 })
| answered
    (now : Time)
    (errTx : ErrTx)
    (hWaiting : conn.Waiting)
    (hAnswer : errTx = .dropped ∨ ∃ h, errTx = .sent h) :
    Change env c conn (.take now)
      { conn with errTx := errTx }
| received
    (i : Nat)
    (now : Time)
    (msg : Frame)
    (conn' : Conn)
    (hSent : Conn.Sent (some (.ok msg)) conn conn') :
    Change env c conn (.send i now) conn'
| other
    (a : Act)
    (hOther : a.readOf c = none) :
    Change env c conn a conn

/- The actions of a connection read from its own socket. -/
theorem Conn.Local.readOf_other
    {env : Env}
    {c d : ConnId}
    {conn conn' : Conn}
    {a : Act}
    (hLocal : conn.Local env c a conn')
    (hNe : d ≠ c) :
    a.readOf d = none := by
  have hRead :
      ∀ r, (Act.read c r).readOf d = none :=
    fun r => if_neg (fun hEq => hNe hEq.symm)
  cases hLocal with
  | noFrame r hFail hAt => exact hRead _
  | badFirst msg hAt hHeader => exact hRead _
  | badAuth msg hdr hAt hHeader hAuth => exact hRead _
  | goodFirst msg hdr hAt hHeader hAuth => exact hRead _
  | leave r n hAt hReads => exact hRead _
  | pong msg hAt => exact hRead _
  | message msg hAt hOpen hNonzero hData => exact hRead _
  | pinged _ items n closed pinger hAct hItems hRoom hClosed =>
      rcases hAct with rfl | rfl
      · rfl
      · rfl
  | _ => rfl

namespace Sys

/- A step that changes only the connection `c`. -/
theorem change_setConn
    {env : Env}
    {s : Sys}
    {c : ConnId}
    {conn : Conn}
    {a : Act}
    (hConn : (s.conns c).Change env c a conn)
    (hOther : ∀ d, d ≠ c → a.readOf d = none)
    (d : ConnId) :
    (s.conns d).Change env d a
      ((s.setConn c conn).conns d) :=
  forall_setConn
    (P := fun d conn => (s.conns d).Change env d a conn)
    hConn (fun d hNe => .other a (hOther d hNe)) d

/- Every step changes every connection in such a way. -/
theorem Step.change
    {env : Env}
    {s s' : Sys}
    {a : Act}
    (hInits : s.QueuedInits)
    (hStep : Step env s a s')
    (d : ConnId) :
    (s.conns d).Change env d a (s'.conns d) := by
  cases hStep with
  | conn c _ conn' hLocal =>
      exact change_setConn (.own a conn' hLocal)
        (fun _ hNe => hLocal.readOf_other hNe) d
  | queueInit c h ch msg hAt hRoom =>
      exact change_setConn (.queueInit h ch msg hAt)
        (fun _ _ => rfl) d
  | queueMsg c h ch msg hAt hRoom =>
      exact change_setConn (.queueMsg h ch msg hAt)
        (fun _ _ => rfl) d
  | queueLogoff c h ch hAt hRoom =>
      exact change_setConn (.queueLogoff h ch hAt)
        (fun _ _ => rfl) d
  | cleanup now hIdle => exact .other _ rfl
  | accept now c h ch tx2 errTx msg events hIdle hEvents
      hVacant =>
      rcases hInits.front hEvents with ⟨_, rfl, hWaiting⟩
      rw [settle_conns]
      exact change_setConn
        (.answered now _ hWaiting (Or.inr ⟨h, rfl⟩))
        (fun _ _ => rfl) d
  | reject now c h ch tx2 errTx tx msg events hIdle hEvents
      hTaken =>
      rcases hInits.front hEvents with ⟨_, rfl, hWaiting⟩
      exact change_setConn
        (.answered now _ hWaiting (Or.inl rfl))
        (fun _ _ => rfl) d
  | takeMsg now c h ch msg events txs hIdle hEvents
      hTargets =>
      rw [settle_conns]
      exact .other _ rfl
  | dropMsg now c h ch msg events hIdle hEvents hTargets =>
      exact .other _ rfl
  | takeLogoff now c h ch events hIdle hEvents =>
      exact .other _ rfl
  | replay i now ch tx2 qmsg queued msg conn' hTask hSent =>
      rw [settle_conns]
      exact change_setConn (.received i now qmsg conn' hSent)
        (fun _ _ => rfl) d
  | deliver i now ch txs tx msg conn' hTask hTx hSent =>
      rw [settle_conns]
      exact change_setConn (.received i now msg conn' hSent)
        (fun _ _ => rfl) d

/-
  A property of a connection and the first read from its
  socket holds in every state of every run, if it holds of a
  new connection and every change preserves it.
-/
theorem conn_induction
    {env : Env}
    {P : ConnId → Option Read → Conn → Prop}
    (hNew : ∀ c, P c none {})
    (hChange :
      ∀ c first conn a conn',
        P c first conn → conn.Change env c a conn' →
          P c (first.or (a.readOf c)) conn')
    {acts : List Act}
    {s : Sys}
    (hRun : run env acts = some s)
    (c : ConnId) :
    P c (firstRead c acts) (s.conns c) := by
  refine Trace.run_induction
    (P := fun acts s => P c (firstRead c acts) (s.conns c))
    ?_ ?_ hRun
  · exact hNew c
  · intro acts s a s' hPrefix hConn hStep
    rw [firstRead_snoc]
    have hInits := queuedInits_of_run hPrefix
    exact hChange c _ _ a _ hConn
      ((step_sound hStep).change hInits c)

end Sys

end Mles

------------------------------------------------------------
-- Waiting for Ever
------------------------------------------------------------

namespace Mles

/-
  Where the sender of the confirmation is, by the first read
  of the connection.
-/
def Conn.Holds : Option Read → Conn → Prop
| none, conn =>
    conn.receiver = .firstFrame ∧ conn.errTx = .receiver
| some (.frame _), conn =>
    conn.receiver ≠ .firstFrame ∧
      (conn.receiver = .awaitInit → conn.errTx ≠ .receiver)
| some .error, conn =>
    conn.receiver = .awaitInit ∧ conn.errTx = .receiver
| some .ended, conn =>
    conn.receiver = .awaitInit ∧ conn.errTx = .receiver

/- Steps of the other tasks leave the handshake alone. -/
theorem Conn.Holds.congr
    {first : Option Read}
    {conn conn' : Conn}
    (hHolds : Conn.Holds first conn)
    (hReceiver : conn'.receiver = conn.receiver)
    (hErrTx : conn'.errTx = conn.errTx) :
    Conn.Holds first conn' := by
  rcases first with _ | (_ | _ | _)
  · simpa [Conn.Holds, hReceiver, hErrTx] using hHolds
  · simpa [Conn.Holds, hReceiver, hErrTx] using hHolds
  · simpa [Conn.Holds, hReceiver, hErrTx] using hHolds
  · simpa [Conn.Holds, hReceiver, hErrTx] using hHolds

/- Before the first frame nothing has been read. -/
theorem Conn.Holds.eq_none
    {first : Option Read}
    {conn : Conn}
    (hHolds : Conn.Holds first conn)
    (hAt : conn.receiver = .firstFrame) :
    first = none := by
  rcases first with _ | (_ | _ | _)
  · rfl
  · exact absurd hAt hHolds.1
  · simp [Conn.Holds, hAt] at hHolds
  · simp [Conn.Holds, hAt] at hHolds

/- After it, a further read changes nothing. -/
theorem Conn.Holds.or_eq
    {first : Option Read}
    {conn : Conn}
    (hHolds : Conn.Holds first conn)
    (hAt : conn.receiver ≠ .firstFrame)
    (r : Option Read) :
    first.or r = first := by
  cases first with
  | none => exact absurd hHolds.1 hAt
  | some r' => rfl

/-
  A connection beyond the wait had a frame to read first.
-/
theorem Conn.Holds.frame
    {first : Option Read}
    {conn conn' : Conn}
    (hHolds : Conn.Holds first conn)
    (hFirst : conn.receiver ≠ .firstFrame)
    (hAwait :
      conn.receiver = .awaitInit → conn.errTx ≠ .receiver)
    (hFirst' : conn'.receiver ≠ .firstFrame)
    (hAwait' :
      conn'.receiver = .awaitInit → conn'.errTx ≠ .receiver) :
    Conn.Holds first conn' := by
  rcases first with _ | (_ | _ | _)
  · exact absurd hHolds.1 hFirst
  · exact ⟨hFirst', hAwait'⟩
  · exact absurd hHolds.2 (hAwait hHolds.1)
  · exact absurd hHolds.2 (hAwait hHolds.1)

theorem Conn.Local.holds
    {env : Env}
    {c : ConnId}
    {first : Option Read}
    {conn conn' : Conn}
    {a : Act}
    (hHolds : Conn.Holds first conn)
    (hLocal : conn.Local env c a conn') :
    Conn.Holds (first.or (a.readOf c)) conn' := by
  have hSelf :
      ∀ r, (Act.read c r).readOf c = some r :=
    fun r => if_pos rfl
  cases hLocal with
  | noFrame r hFail hAt =>
      rw [hHolds.eq_none hAt, hSelf]
      have hErrTx : conn.errTx = .receiver := by
        rw [hHolds.eq_none hAt] at hHolds
        exact hHolds.2
      cases r with
      | frame msg => exact absurd rfl (hFail msg)
      | error => exact ⟨rfl, hErrTx⟩
      | ended => exact ⟨rfl, hErrTx⟩
  | badFirst msg hAt hHeader =>
      rw [hHolds.eq_none hAt, hSelf]
      simp [Conn.Holds, Conn.quit]
  | badAuth msg hdr hAt hHeader hAuth =>
      rw [hHolds.eq_none hAt, hSelf]
      simp [Conn.Holds, Conn.quit]
  | goodFirst msg hdr hAt hHeader hAuth =>
      rw [hHolds.eq_none hAt, hSelf]
      simp [Conn.Holds]
  | leave r n hAt hReads =>
      rw [hHolds.or_eq (by simp [hAt])]
      exact hHolds.frame (by simp [hAt]) (by simp [hAt])
        (by simp [Conn.leaveLoop]) (by simp [Conn.leaveLoop])
  | pong msg hAt =>
      rw [hHolds.or_eq (by simp [hAt])]
      exact hHolds.congr rfl rfl
  | message msg hAt hOpen hNonzero hData =>
      rw [hHolds.or_eq (by simp [hAt])]
      exact hHolds.frame (by simp [hAt]) (by simp [hAt])
        (by simp) (by simp)
  | confirmed h hAt hErrTx =>
      rw [hHolds.or_eq (by simp [hAt])]
      exact hHolds.frame (by simp [hAt]) (by simp [hErrTx])
        (by simp) (by simp)
  | rejected hAt hErrTx =>
      rw [hHolds.or_eq (by simp [hAt])]
      exact hHolds.frame (by simp [hAt]) (by simp [hErrTx])
        (by simp) (by simp)
  | ended item sent hAt hItem hSent =>
      have hFirst : conn.receiver ≠ .firstFrame := by
        rcases hAt with hAt | hAt
        · simp [hAt]
        · simp [hAt]
      have hAwait : conn.receiver ≠ .awaitInit := by
        rcases hAt with hAt | hAt
        · simp [hAt]
        · simp [hAt]
      rw [hHolds.or_eq hFirst]
      exact hHolds.frame hFirst (fun h => absurd h hAwait)
        (by simp) (by simp)
  | pinged _ items n closed pinger hAct hItems hRoom hClosed =>
      rcases hAct with rfl | rfl
      · simp only [Act.readOf, Option.or_none]
        exact hHolds.congr rfl rfl
      · simp only [Act.readOf, Option.or_none]
        exact hHolds.congr rfl rfl
  | _ =>
      simp only [Act.readOf, Option.or_none]
      exact hHolds.congr rfl rfl

/- One change preserves it. -/
theorem Conn.Change.holds
    {env : Env}
    {c : ConnId}
    {first : Option Read}
    {conn conn' : Conn}
    {a : Act}
    (hHolds : Conn.Holds first conn)
    (hChange : conn.Change env c a conn') :
    Conn.Holds (first.or (a.readOf c)) conn' := by
  cases hChange with
  | own _ _ hLocal => exact hLocal.holds hHolds
  | queueInit h ch msg hAt =>
      simp only [Act.readOf, Option.or_none]
      exact hHolds.frame (by simp [hAt]) (by simp [hAt])
        (by simp) (by simp)
  | queueMsg h ch msg hAt =>
      simp only [Act.readOf, Option.or_none]
      exact hHolds.frame (by simp [hAt]) (by simp [hAt])
        (by simp) (by simp)
  | queueLogoff h ch hAt =>
      simp only [Act.readOf, Option.or_none]
      exact hHolds.congr rfl rfl
  | answered now errTx hWaiting hAnswer =>
      simp only [Act.readOf, Option.or_none]
      have hErrTx : errTx ≠ .receiver := by
        rcases hAnswer with rfl | ⟨h, rfl⟩
        · simp
        · simp
      exact hHolds.frame (by simp [hWaiting.1])
        (by simp [hWaiting.2]) (by simp [hWaiting.1])
        (fun _ => hErrTx)
  | received i now msg conn' hSent =>
      simp only [Act.readOf, Option.or_none]
      cases hSent with
      | closed hDone => exact hHolds
      | queued hAlive hRoom => exact hHolds.congr rfl rfl
  | other a hOther =>
      rw [hOther, Option.or_none]
      exact hHolds

namespace Sys

theorem holds_of_run
    {env : Env}
    {acts : List Act}
    {s : Sys}
    (hRun : run env acts = some s)
    (c : ConnId) :
    Conn.Holds (firstRead c acts) (s.conns c) :=
  conn_induction (P := fun _ first conn =>
      Conn.Holds first conn)
    (fun _ => ⟨rfl, rfl⟩)
    (fun _ _ _ _ _ hHolds hChange => hChange.holds hHolds)
    hRun c

/-
  The receiver task waits for the confirmation, and only the
  task itself holds the sender of it.
-/
def WaitsForever
    (s : Sys)
    (c : ConnId) : Prop :=
  (s.conns c).receiver = .awaitInit ∧
    (s.conns c).errTx = .receiver

theorem waitsForever_iff
    {env : Env}
    {acts : List Act}
    {s : Sys}
    (hRun : run env acts = some s)
    (c : ConnId) :
    s.WaitsForever c ↔
      ∃ r, firstRead c acts = some r ∧
        ∀ msg, r ≠ .frame msg := by
  have hHolds := holds_of_run hRun c
  unfold WaitsForever
  generalize firstRead c acts = first at hHolds ⊢
  rcases first with _ | (msg | _ | _)
  · simp [hHolds.1]
  · constructor
    · rintro ⟨hReceiver, hErrTx⟩
      exact absurd hErrTx (hHolds.2 hReceiver)
    · rintro ⟨r, hEq, hFail⟩
      cases hEq
      exact absurd rfl (hFail msg)
  · exact ⟨fun _ => ⟨_, rfl, by simp⟩, fun _ => hHolds⟩
  · exact ⟨fun _ => ⟨_, rfl, by simp⟩, fun _ => hHolds⟩

/- Nothing that happens later ends the wait. -/
theorem WaitsForever.persists
    {env : Env}
    {acts acts' : List Act}
    {s s' : Sys}
    {c : ConnId}
    (hWaits : s.WaitsForever c)
    (hRun : run env acts = some s)
    (hMore : Trace.run (step env) s acts' = some s') :
    s'.WaitsForever c := by
  rcases (waitsForever_iff hRun c).mp hWaits with
    ⟨r, hFirst, hFail⟩
  have hAll : run env (acts ++ acts') = some s' :=
    Trace.run_trans hRun hMore
  exact (waitsForever_iff hAll c).mpr
    ⟨r, firstRead_append hFirst acts', hFail⟩

/-
  In every run, the receiver task of a connection has not
  come to wait for itself exactly if the first thing its
  socket yielded, if anything, was a frame.
-/
theorem not_waitsForever_iff
    (env : Env)
    (acts : List Act)
    (s : Sys)
    (hRun : run env acts = some s)
    (c : ConnId) :
    ¬ s.WaitsForever c ↔
      ∀ r, firstRead c acts = some r →
        ∃ msg, r = .frame msg := by
  rw [waitsForever_iff hRun c]
  constructor
  · intro hNot r hFirst
    by_contra hNone
    exact hNot
      ⟨r, hFirst, fun msg hEq => hNone ⟨msg, hEq⟩⟩
  · rintro hFrames ⟨r, hFirst, hFail⟩
    rcases hFrames r hFirst with ⟨msg, hEq⟩
    exact hFail msg hEq

/- The receiver task waits, for the event loop. -/
theorem not_waitsForever_awaiting :
    ∃ s,
      run Env.sample [.read 0 (.frame alice), .resume 0] =
          some s ∧
        (s.conns 0).receiver = .awaitInit ∧
        (s.conns 0).errTx = .event ∧
        ¬ s.WaitsForever 0 := by
  have hEnd :
      (run Env.sample [.read 0 (.frame alice), .resume 0]).map
          (fun s => ((s.conns 0).receiver, (s.conns 0).errTx)) =
        some (.awaitInit, .event) := by
    decide +kernel
  rcases Option.map_eq_some_iff.mp hEnd with ⟨s, hRun, hEq⟩
  rw [Prod.mk.injEq] at hEq
  refine ⟨s, hRun, hEq.1, hEq.2, ?_⟩
  refine (not_waitsForever_iff Env.sample
    [.read 0 (.frame alice), .resume 0] s hRun 0).mpr ?_
  intro r hFirst
  exact ⟨_, (Option.some.inj hFirst).symm⟩

/- A client that closes its socket without a frame. -/
theorem waitsForever_ended :
    ¬ ∀ env acts s,
      run env acts = some s → ∀ c, ¬ s.WaitsForever c := by
  intro hNever
  exact hNever Env.sample [.read 0 .ended] _ rfl 0
    ⟨rfl, rfl⟩

end Sys

end Mles
