import Mles.System.BackPressure

/-
  When the event loop gets on.

  For the event at hand and for the next one, the event loop
  owes a number of frames to some queues.  It can pay them,
  without progress of the socket of the client `x`, if each
  of these queues takes them: its sender task has finished
  or finishes without a `Logoff`, or it keeps emptying the
  queue, or there is room for all of the frames; or else its
  connection is on its way out, and the event queue has room
  for its `Logoff`.  Taking the next event makes room for
  one more of them.

  Key definitions include:
    * `Sys.owesNext`
    * `Conn.Takes`
    * `Conn.Leaves`
    * `Sys.CanFinish`

  Key theorems include:
    * `Sys.makeRoom`
    * `Sys.finish`
    * `Sys.handlesNext_of_canFinish`
-/

------------------------------------------------------------
-- Queues
------------------------------------------------------------

namespace Mles

namespace Conn

/- The queue of an open connection holds only frames. -/
structure Tidy (conn : Conn) : Prop where
  pinger : conn.pinger = .sendNone → conn.isClosed = true
  receiver : conn.receiver = .sendNone → conn.isClosed = true
  frames :
    conn.isClosed = false →
      ∀ item ∈ conn.rx2, ∃ f, item = some (.ok f)
  fits : conn.rx2.length ≤ wsBuf

section Tidy

variable {conn conn' : Conn}

theorem Tidy.sent
    {item : WsItem}
    (hTidy : conn.Tidy)
    (hItem :
      conn.isClosed = false → ∃ f, item = some (.ok f))
    (hSent : Sent item conn conn') :
    conn'.Tidy := by
  cases hSent with
  | closed hDone => exact hTidy
  | queued hAlive hRoom =>
      refine
        { hTidy with
          frames := ?_
          fits := by simp; omega }
      intro hOpen item' hMem
      rcases List.mem_append.mp hMem with hOld | hNew
      · exact hTidy.frames hOpen item' hOld
      · cases List.mem_singleton.mp hNew
        exact hItem hOpen

/- Of a closed connection's queue, only the length counts. -/
theorem Tidy.of_closed
    (hClosed : conn.isClosed = true)
    (hFits : conn.rx2.length ≤ wsBuf) :
    conn.Tidy where
  pinger := fun _ => hClosed
  receiver := fun _ => hClosed
  frames := by simp [hClosed]
  fits := hFits

theorem isServer_cases
    {item : WsItem}
    (hServer : item.isServer = true) :
    item = none ∨ ∃ f, item = some (.ok f) := by
  rcases item with _ | (err | f)
  · exact Or.inl rfl
  · cases hServer
  · exact Or.inr ⟨f, rfl⟩

theorem Local.tidy
    {env : Env}
    {c : ConnId}
    {a : Act}
    (hTidy : conn.Tidy)
    (hLocal : conn.Local env c a conn') :
    conn'.Tidy := by
  cases hLocal with
  | noFrame r hFail hAt =>
      exact { hTidy with receiver := by simp }
  | badFirst msg hAt hHeader =>
      exact Tidy.of_closed rfl hTidy.fits
  | badAuth msg hdr hAt hHeader hAuth =>
      exact Tidy.of_closed rfl hTidy.fits
  | goodFirst msg hdr hAt hHeader hAuth =>
      exact { hTidy with receiver := by simp }
  | leave r n hAt hReads =>
      exact Tidy.of_closed rfl hTidy.fits
  | pong msg hAt => exact { hTidy with }
  | message msg hAt hOpen hNonzero hData =>
      exact { hTidy with receiver := by simp }
  | confirmed h hAt hErrTx =>
      exact { hTidy with receiver := by simp }
  | rejected hAt hErrTx =>
      exact Tidy.of_closed rfl hTidy.fits
  | ended item sent hAt hItem hSent hNone =>
      have hSentTidy : sent.Tidy := by
        refine hTidy.sent ?_ hSent
        intro hOpen
        rcases isServer_cases hItem with hEmpty | hFrame
        · have hClosed := hTidy.receiver (hNone hEmpty)
          simp [hOpen] at hClosed
        · exact hFrame
      exact { hSentTidy with receiver := by simp }
  | pinged _ items n closed pinger hAct hItems hRoom hClosed
      hNone hPinger hFits =>
      refine
        { pinger := hPinger
          receiver := fun hAt => hClosed (hTidy.receiver hAt)
          frames := ?_
          fits := ?_ }
      · intro hOpen item hMem
        have hOld : conn.isClosed = false := by
          cases hEq : conn.isClosed with
          | false => rfl
          | true =>
              have hNow : closed = true := hClosed hEq
              simp [hNow] at hOpen
        rcases List.mem_append.mp hMem with hMem | hNew
        · exact hTidy.frames hOld item hMem
        · rcases isServer_cases (hItems item hNew) with
            hEmpty | hFrame
          · subst hEmpty
            have hAt := hTidy.pinger (hNone hNew)
            simp [hOld] at hAt
          · exact hFrame
      · cases items with
        | nil => simpa using hTidy.fits
        | cons item items => exact hFits (by simp)
  | taken msg items hAt hQueue hOpen =>
      have hFits := hTidy.fits
      rw [hQueue] at hFits
      refine
        { hTidy with
          frames := ?_
          fits := Nat.le_of_succ_le hFits }
      intro hOpen item hMem
      apply hTidy.frames hOpen item
      rw [hQueue]
      exact List.mem_cons_of_mem _ hMem
  | drained items hAt hQueue =>
      exact
        { hTidy with
          frames := fun hOpen item hMem =>
            hTidy.frames hOpen item (hQueue.subset hMem)
          fits := Nat.le_trans hQueue.length_le hTidy.fits }
  | written msg hAt => exact { hTidy with }
  | writeFailed msg hAt =>
      exact Tidy.of_closed rfl hTidy.fits
  | cleanup ok hAt hNonzero => exact { hTidy with }
  | finished ok hAt hZero =>
      exact
        { hTidy with
          frames := by simp [finish]
          fits := by simp [finish] }

theorem Change.tidy
    {env : Env}
    {c : ConnId}
    {a : Act}
    (hTidy : conn.Tidy)
    (hChange : conn.Change env c a conn') :
    conn'.Tidy := by
  cases hChange with
  | own _ _ hLocal => exact hLocal.tidy hTidy
  | queueInit h ch msg hAt =>
      exact { hTidy with receiver := by simp }
  | queueMsg h ch msg hAt =>
      exact { hTidy with receiver := by simp }
  | queueLogoff h ch hAt =>
      exact
        { hTidy with
          frames := by simp [finish]
          fits := by simp [finish] }
  | answered now errTx hWaiting hAnswer =>
      exact { hTidy with }
  | received i now msg conn' hSent =>
      exact hTidy.sent (fun _ => ⟨msg, rfl⟩) hSent
  | other a hOther => exact hTidy

end Tidy

end Conn

end Mles

------------------------------------------------------------
-- Moves of One Connection
------------------------------------------------------------

namespace Mles

namespace Sys

/-
  The tasks of the connection `z` take the server from `s`
  to `t`, without progress of the socket of `x`.
-/
structure Moves
    (env : Env)
    (x z : ConnId)
    (s t : Sys) : Prop where
  reaches : Trace.Reaches (step env) (Act.Quiet x) s t
  task : t.task = s.task
  hub : t.hub = s.hub
  others : ∀ d, d ≠ z → t.conns d = s.conns d
  events : ∃ new, t.events = s.events ++ new

section Moves

variable {env : Env}
variable {x z : ConnId}
variable {s t u : Sys}

theorem Moves.refl :
    Moves env x z s s where
  reaches := .refl s
  task := rfl
  hub := rfl
  others := fun _ _ => rfl
  events := ⟨[], (List.append_nil _).symm⟩

theorem Moves.trans
    (hFirst : Moves env x z s t)
    (hSecond : Moves env x z t u) :
    Moves env x z s u where
  reaches := hFirst.reaches.trans hSecond.reaches
  task := hSecond.task.trans hFirst.task
  hub := hSecond.hub.trans hFirst.hub
  others := fun d hNe =>
    (hSecond.others d hNe).trans (hFirst.others d hNe)
  events := by
    rcases hFirst.events with ⟨new, hNew⟩
    rcases hSecond.events with ⟨new', hNew'⟩
    exact ⟨new ++ new', by rw [hNew', hNew, List.append_assoc]⟩

/- A step that changes only the connection. -/
theorem moves_setConn
    {a : Act}
    {conn : Conn}
    (hStep : s.step env a = some (s.setConn z conn))
    (hQuiet : a.Quiet x) :
    Moves env x z s (s.setConn z conn) where
  reaches := .single hStep hQuiet
  task := rfl
  hub := rfl
  others := fun _ hNe => Function.update_of_ne hNe _ _
  events := ⟨[], (List.append_nil _).symm⟩

variable (env x) in
/- The socket of another client takes a write. -/
theorem moves_write
    {msg : Frame}
    (hOther : z ≠ x)
    (hAt : (s.conns z).sender = .write msg) :
    ∃ t,
      Moves env x z s t ∧ t.events = s.events ∧
        t.conns z = { s.conns z with sender := .next } := by
  have hStep :
      s.step env (.write z true) =
        some (s.setConn z
          { s.conns z with sender := .next }) := by
    simp [step, Conn.write, hAt]
  exact ⟨_, moves_setConn hStep hOther, rfl, by simp [setConn]⟩

variable (env x) in
/- The sender task takes an item. -/
theorem moves_next
    {item : WsItem}
    {items : List WsItem}
    (hAt : (s.conns z).sender = .next)
    (hQueue : (s.conns z).rx2 = item :: items) :
    ∃ t sender,
      Moves env x z s t ∧ t.events = s.events ∧
        t.conns z =
          { s.conns z with rx2 := items, sender := sender } ∧
        ((s.conns z).isClosed = true →
          sender = .writeClose) ∧
        ∀ msg,
          (s.conns z).isClosed = false →
            item = some (.ok msg) → sender = .write msg := by
  have hNext :
      ∃ sender,
        (s.conns z).next (s.txLive z) =
            some { s.conns z with
              rx2 := items
              sender := sender } ∧
          ((s.conns z).isClosed = true →
            sender = .writeClose) ∧
          ∀ msg,
            (s.conns z).isClosed = false →
              item = some (.ok msg) → sender = .write msg := by
    unfold Conn.next
    rw [hAt, hQueue]
    rcases item with _ | (err | msg)
    · exact ⟨_, rfl, fun _ => rfl, by simp⟩
    · exact ⟨_, rfl, fun _ => rfl, by simp⟩
    · cases hClosed : (s.conns z).isClosed with
      | true =>
          exact ⟨.writeClose, by simp [hClosed],
            fun _ => rfl, by simp⟩
      | false =>
          exact ⟨.write msg, by simp [hClosed], by simp,
            by simp⟩
  rcases hNext with ⟨sender, hNext, hClosed, hOpen⟩
  have hStep :
      s.step env (.next z) =
        some (s.setConn z
          { s.conns z with
            rx2 := items
            sender := sender }) := by
    simp only [step, hNext]
    rfl
  exact ⟨_, sender, moves_setConn hStep trivial, rfl,
    by simp [setConn], hClosed, hOpen⟩

variable (env x) in
/- The `Logoff` is queued and the sender task finishes. -/
theorem moves_logoff
    {h ch : UInt64}
    (hAt : (s.conns z).sender = .sendLogoff h ch)
    (hRoom : s.events.length < taskBuf) :
    ∃ t,
      Moves env x z s t ∧
        t.events.length ≤ s.events.length + 1 ∧
        (t.conns z).sender = .done := by
  let t : Sys :=
    { s.setConn z
        (Conn.finish { s.conns z with h := 0, ch := 0 })
      with events := s.events ++ [(z, .logoff h ch)] }
  have hStep : s.step env (.logoff z) = some t := by
    simp [step, Conn.logoff, hAt, queue, hRoom, t]
  refine ⟨t, ?_, by simp [t], by simp [t, setConn, Conn.finish]⟩
  exact
    { reaches := .single hStep trivial
      task := rfl
      hub := rfl
      others := fun _ hNe => Function.update_of_ne hNe _ _
      events := ⟨_, rfl⟩ }

variable (env) in
/- The final cleanup of a client that owes no `Logoff`. -/
theorem moves_finish
    (hOther : z ≠ x)
    (hAt : (s.conns z).sender = .writeClose)
    (hZero : ¬ ((s.conns z).h ≠ 0 ∧ (s.conns z).ch ≠ 0)) :
    ∃ t,
      Moves env x z s t ∧ t.events = s.events ∧
        (t.conns z).sender = .done := by
  have hStep :
      s.step env (.write z true) =
        some (s.setConn z (s.conns z).finish) := by
    simp only [step, Conn.write, hAt, if_neg hZero]
    rfl
  exact ⟨_, moves_setConn hStep hOther, rfl,
    by simp [setConn, Conn.finish]⟩

variable (env) in
/- The final cleanup of another client. -/
theorem moves_writeClose
    (hOther : z ≠ x)
    (hAt : (s.conns z).sender = .writeClose)
    (hRoom : s.events.length < taskBuf) :
    ∃ t,
      Moves env x z s t ∧
        t.events.length ≤ s.events.length + 1 ∧
        (t.conns z).sender = .done := by
  by_cases hNonzero :
      (s.conns z).h ≠ 0 ∧ (s.conns z).ch ≠ 0
  · have hStep :
        s.step env (.write z true) =
          some (s.setConn z
            { s.conns z with
              sender :=
                .sendLogoff (s.conns z).h (s.conns z).ch }) := by
      simp [step, Conn.write, hAt, hNonzero]
    have hSend :
        ((s.setConn z
            { s.conns z with
              sender :=
                .sendLogoff (s.conns z).h
                  (s.conns z).ch }).conns z).sender =
          .sendLogoff (s.conns z).h (s.conns z).ch := by
      simp [setConn]
    rcases moves_logoff env x hSend hRoom with
      ⟨t, hMoves, hLength, hDone⟩
    exact ⟨t, (moves_setConn hStep hOther).trans hMoves,
      hLength, hDone⟩
  · rcases moves_finish env hOther hAt hNonzero with
      ⟨t, hMoves, hEvents, hDone⟩
    exact ⟨t, hMoves, by simp [hEvents], hDone⟩

end Moves

end Sys

end Mles

------------------------------------------------------------
-- Queues That Take Frames
------------------------------------------------------------

namespace Mles

namespace Conn

/- The sender task is in its loop. -/
def InLoop (conn : Conn) : Prop :=
  conn.sender = .next ∨ ∃ msg, conn.sender = .write msg

/- One more place, if the sender task can take an item. -/
def slack
    (x z : ConnId)
    (conn : Conn) : Nat :=
  match conn.sender with
  | .next => 1
  | .write _ => if z = x then 0 else 1
  | _ => 0

/-
  The queue of `z` takes `n` more frames, if the socket of
  `x` makes no progress.
-/
inductive Takes
    (x z : ConnId)
    (n : Nat)
    (conn : Conn) : Prop where
| finished (hDone : conn.sender = .done)
| quits
    (hOther : z ≠ x)
    (hZero : ¬ (conn.h ≠ 0 ∧ conn.ch ≠ 0))
    (hAt :
      conn.sender = .writeClose ∨
        conn.isClosed = true ∧ conn.InLoop)
| drains
    (hOther : z ≠ x)
    (hOpen : conn.isClosed = false)
    (hLoop : conn.InLoop)
| room
    (hRoom : conn.rx2.length + n ≤ wsBuf + conn.slack x z)

/-
  The sender task of `z` is going to finish without progress
  of the socket of `x`, but may have to queue a `Logoff`.
-/
def Leaves
    (x z : ConnId)
    (conn : Conn) : Prop :=
  (∃ h ch, conn.sender = .sendLogoff h ch) ∨
    z ≠ x ∧
      (conn.sender = .writeClose ∨
        conn.isClosed = true ∧ conn.InLoop)

/- Whoever leaves with an item to take is closed. -/
theorem Leaves.closed_of_slack
    {x z : ConnId}
    {conn : Conn}
    (hLeaves : conn.Leaves x z)
    (hSlack : 0 < conn.slack x z) :
    z ≠ x ∧ conn.isClosed = true := by
  rcases hLeaves with
    ⟨h, ch, hAt⟩ | ⟨hOther, hAt | ⟨hClosed, _⟩⟩
  · simp [slack, hAt] at hSlack
  · simp [slack, hAt] at hSlack
  · exact ⟨hOther, hClosed⟩

end Conn

namespace Sys

section Room

variable {env : Env}
variable {x z : ConnId}
variable {s : Sys}

variable (env) in
/- A closed connection leaves the loop of its sender task. -/
theorem moves_toClose
    (hOther : z ≠ x)
    (hClosed : (s.conns z).isClosed = true)
    (hLoop : (s.conns z).InLoop)
    (hQueue : (s.conns z).rx2 ≠ []) :
    ∃ t items,
      Moves env x z s t ∧ t.events = s.events ∧
        t.conns z =
          { s.conns z with
            rx2 := items
            sender := .writeClose } := by
  have hNext :
      ∀ s : Sys,
        (s.conns z).isClosed = true →
          (s.conns z).sender = .next →
          (s.conns z).rx2 ≠ [] →
            ∃ t items,
              Moves env x z s t ∧ t.events = s.events ∧
                t.conns z =
                  { s.conns z with
                    rx2 := items
                    sender := .writeClose } := by
    intro s hClosed hAt hQueue
    rcases List.exists_cons_of_ne_nil hQueue with
      ⟨item, items, hEq⟩
    rcases moves_next env x hAt hEq with
      ⟨t, sender, hMoves, hEvents, hConn, hClose, _⟩
    rw [hClose hClosed] at hConn
    exact ⟨t, items, hMoves, hEvents, hConn⟩
  rcases hLoop with hAt | ⟨msg, hAt⟩
  · exact hNext s hClosed hAt hQueue
  · rcases moves_write env x hOther hAt with
      ⟨t, hMoves, hEvents, hConn⟩
    rcases hNext t (by rw [hConn]; exact hClosed)
      (by rw [hConn]) (by rw [hConn]; exact hQueue) with
      ⟨u, items, hMoves', hEvents', hConn'⟩
    rw [hConn] at hConn'
    exact ⟨u, items, hMoves.trans hMoves',
      hEvents'.trans hEvents, hConn'⟩

variable (env) in
/- A connection on its way out, with something queued. -/
theorem moves_leave
    (hLeaves : (s.conns z).Leaves x z)
    (hQueue : (s.conns z).rx2 ≠ [])
    (hRoom : s.events.length < taskBuf) :
    ∃ t,
      Moves env x z s t ∧
        t.events.length ≤ s.events.length + 1 ∧
        (t.conns z).sender = .done := by
  rcases hLeaves with
    ⟨h, ch, hAt⟩ | ⟨hOther, hAt | ⟨hClosed, hLoop⟩⟩
  · exact moves_logoff env x hAt hRoom
  · exact moves_writeClose env hOther hAt hRoom
  · rcases moves_toClose env hOther hClosed hLoop hQueue with
      ⟨t, items, hMoves, hEvents, hConn⟩
    rcases moves_writeClose env hOther (by rw [hConn])
      (by rw [hEvents]; exact hRoom) with
      ⟨u, hMoves', hLength, hDone⟩
    rw [hEvents] at hLength
    exact ⟨u, hMoves.trans hMoves', hLength, hDone⟩

variable (env) in
/- Without a `Logoff` to queue it needs no room. -/
theorem moves_quit
    (hOther : z ≠ x)
    (hZero : ¬ ((s.conns z).h ≠ 0 ∧ (s.conns z).ch ≠ 0))
    (hAt :
      (s.conns z).sender = .writeClose ∨
        (s.conns z).isClosed = true ∧ (s.conns z).InLoop)
    (hQueue : (s.conns z).rx2 ≠ []) :
    ∃ t,
      Moves env x z s t ∧ t.events = s.events ∧
        (t.conns z).sender = .done := by
  rcases hAt with hAt | ⟨hClosed, hLoop⟩
  · exact moves_finish env hOther hAt hZero
  · rcases moves_toClose env hOther hClosed hLoop hQueue with
      ⟨t, items, hMoves, hEvents, hConn⟩
    rcases moves_finish env hOther (by rw [hConn])
      (by rw [hConn]; exact hZero) with
      ⟨u, hMoves', hEvents', hDone⟩
    exact ⟨u, hMoves.trans hMoves', hEvents'.trans hEvents,
      hDone⟩

variable (env) in
/- An open connection whose socket works takes an item. -/
theorem moves_drain
    (hTidy : (s.conns z).Tidy)
    (hOther : z ≠ x)
    (hOpen : (s.conns z).isClosed = false)
    (hLoop : (s.conns z).InLoop)
    (hQueue : (s.conns z).rx2 ≠ []) :
    ∃ t,
      Moves env x z s t ∧ t.events = s.events ∧
        (t.conns z).isClosed = false ∧
        (t.conns z).InLoop ∧
        (t.conns z).rx2.length < (s.conns z).rx2.length := by
  have hNext :
      ∀ s : Sys,
        (s.conns z).Tidy → (s.conns z).isClosed = false →
          (s.conns z).sender = .next →
          (s.conns z).rx2 ≠ [] →
            ∃ t,
              Moves env x z s t ∧ t.events = s.events ∧
                (t.conns z).isClosed = false ∧
                (t.conns z).InLoop ∧
                (t.conns z).rx2.length <
                  (s.conns z).rx2.length := by
    intro s hTidy hOpen hAt hQueue
    rcases List.exists_cons_of_ne_nil hQueue with
      ⟨item, items, hEq⟩
    rcases hTidy.frames hOpen item (by simp [hEq]) with
      ⟨msg, hItem⟩
    rcases moves_next env x hAt hEq with
      ⟨t, sender, hMoves, hEvents, hConn, _, hWrite⟩
    refine ⟨t, hMoves, hEvents, ?_, ?_, ?_⟩
    · rw [hConn]
      exact hOpen
    · rw [hConn]
      exact Or.inr ⟨msg, hWrite msg hOpen hItem⟩
    · rw [hConn, hEq]
      simp
  rcases hLoop with hAt | ⟨msg, hAt⟩
  · exact hNext s hTidy hOpen hAt hQueue
  · rcases moves_write env x hOther hAt with
      ⟨t, hMoves, hEvents, hConn⟩
    have hTidy' : (t.conns z).Tidy := by
      rw [hConn]
      exact { hTidy with }
    rcases hNext t hTidy' (by rw [hConn]; exact hOpen)
      (by rw [hConn]) (by rw [hConn]; exact hQueue) with
      ⟨u, hMoves', hEvents', hOpen', hLoop', hLess⟩
    rw [hConn] at hLess
    exact ⟨u, hMoves.trans hMoves', hEvents'.trans hEvents,
      hOpen', hLoop', hLess⟩

variable (env) in
/- The item that a sender task is about to take. -/
theorem moves_slack
    (hSlack : 0 < (s.conns z).slack x z)
    (hQueue : (s.conns z).rx2 ≠ []) :
    ∃ t,
      Moves env x z s t ∧ t.events = s.events ∧
        (t.conns z).rx2.length < (s.conns z).rx2.length ∧
        ((s.conns z).isClosed = true →
          (t.conns z).sender = .writeClose) := by
  have hNext :
      ∀ s : Sys,
        (s.conns z).sender = .next →
          (s.conns z).rx2 ≠ [] →
            ∃ t,
              Moves env x z s t ∧ t.events = s.events ∧
                (t.conns z).rx2.length <
                  (s.conns z).rx2.length ∧
                ((s.conns z).isClosed = true →
                  (t.conns z).sender = .writeClose) := by
    intro s hAt hQueue
    rcases List.exists_cons_of_ne_nil hQueue with
      ⟨item, items, hEq⟩
    rcases moves_next env x hAt hEq with
      ⟨t, sender, hMoves, hEvents, hConn, hClose, _⟩
    refine ⟨t, hMoves, hEvents, ?_, ?_⟩
    · rw [hConn, hEq]
      simp
    · rw [hConn]
      exact hClose
  unfold Conn.slack at hSlack
  cases hAt : (s.conns z).sender with
  | next => exact hNext s hAt hQueue
  | write msg =>
      have hOther : z ≠ x := by
        rintro rfl
        simp [hAt] at hSlack
      rcases moves_write env x hOther hAt with
        ⟨t, hMoves, hEvents, hConn⟩
      rcases hNext t (by rw [hConn])
        (by rw [hConn]; exact hQueue) with
        ⟨u, hMoves', hEvents', hLess, hClose⟩
      rw [hConn] at hLess hClose
      exact ⟨u, hMoves.trans hMoves', hEvents'.trans hEvents,
        hLess, hClose⟩
  | writeClose => simp [hAt] at hSlack
  | sendLogoff h ch => simp [hAt] at hSlack
  | done => simp [hAt] at hSlack

variable (env) in
/-
  A queue that takes frames takes one of them now, and its
  connection is no further from its end.
-/
theorem moves_takes
    {n : Nat}
    (hTidy : (s.conns z).Tidy)
    (hTakes : (s.conns z).Takes x z (n + 1)) :
    ∃ t,
      Moves env x z s t ∧ t.events = s.events ∧
        (t.conns z).Takes x z (n + 1) ∧
        ((t.conns z).sender = .done ∨
          (t.conns z).rx2.length < wsBuf) ∧
        ((s.conns z).Leaves x z →
          (t.conns z).sender = .done ∨
            (t.conns z).Leaves x z) := by
  by_cases hNow : (s.conns z).rx2.length < wsBuf
  · exact ⟨s, .refl, rfl, hTakes, Or.inr hNow, Or.inr⟩
  · have hFull : (s.conns z).rx2.length = wsBuf :=
      Nat.le_antisymm hTidy.fits (Nat.le_of_not_lt hNow)
    have hQueue : (s.conns z).rx2 ≠ [] := by
      intro hEmpty
      simp [hEmpty, wsBuf] at hFull
    cases hTakes with
    | finished hDone =>
        exact ⟨s, .refl, rfl, .finished hDone, Or.inl hDone,
          Or.inr⟩
    | quits hOther hZero hAt =>
        rcases moves_quit env hOther hZero hAt hQueue with
          ⟨t, hMoves, hEvents, hDone⟩
        exact ⟨t, hMoves, hEvents, .finished hDone,
          Or.inl hDone, fun _ => Or.inl hDone⟩
    | drains hOther hOpen hLoop =>
        rcases moves_drain env hTidy hOther hOpen hLoop
          hQueue with
          ⟨t, hMoves, hEvents, hOpen', hLoop', hLess⟩
        refine ⟨t, hMoves, hEvents,
          .drains hOther hOpen' hLoop', Or.inr (hFull ▸ hLess),
          ?_⟩
        -- An open connection in its loop does not leave.
        rintro (⟨h, ch, hAt⟩ | ⟨_, hAt | ⟨hClosed, _⟩⟩)
        · simp [Conn.InLoop, hAt] at hLoop
        · simp [Conn.InLoop, hAt] at hLoop
        · simp [hOpen] at hClosed
    | room hFits =>
        -- One frame is owed, and one item about to go.
        have hSlack : 0 < (s.conns z).slack x z := by
          omega
        have hOne : (s.conns z).slack x z ≤ 1 := by
          unfold Conn.slack
          split
          · omega
          · split
            · omega
            · omega
          · omega
        rcases moves_slack env hSlack hQueue with
          ⟨t, hMoves, hEvents, hLess, hClose⟩
        refine ⟨t, hMoves, hEvents, .room (by omega),
          Or.inr (hFull ▸ hLess), ?_⟩
        intro hLeaves
        rcases hLeaves.closed_of_slack hSlack with
          ⟨hOther, hClosed⟩
        exact Or.inr (Or.inr ⟨hOther, Or.inl (hClose hClosed)⟩)

/-
  The queues of the two lists take the frames owed to them:
  those of `leaving` after their connections have finished,
  and those of `later` when an event has been taken between
  the frames `owed` and the frames of `next`.
-/
structure Able
    (x : ConnId)
    (leaving later owed next : List ConnId)
    (s : Sys) : Prop where
  room : leaving.length + s.events.length ≤ taskBuf
  roomNext :
    leaving.length + later.length + s.events.length ≤
      taskBuf + 1
  takes :
    ∀ z ∈ owed ++ next,
      (s.conns z).Takes x z ((owed ++ next).count z) ∨
        z ∈ leaving ∧ (s.conns z).Leaves x z ∨
        z ∈ later ∧ (s.conns z).Leaves x z ∧
          (s.conns z).Takes x z (owed.count z)

/- Moves of one connection that keep the others able. -/
theorem Able.of_moves
    {t : Sys}
    {leaving leaving' later owed next : List ConnId}
    (hAble : s.Able x leaving later owed next)
    (hMoves : Moves env x z s t)
    (hRoom :
      leaving'.length + t.events.length ≤
        leaving.length + s.events.length)
    (hLeaving : ∀ d ∈ leaving, d ≠ z → d ∈ leaving')
    (hTakes :
      (t.conns z).Takes x z ((owed ++ next).count z) ∨
        z ∈ leaving' ∧ (t.conns z).Leaves x z ∨
        z ∈ later ∧ (t.conns z).Leaves x z ∧
          (t.conns z).Takes x z (owed.count z)) :
    t.Able x leaving' later owed next where
  room := Nat.le_trans hRoom hAble.room
  roomNext := by
    have hOld := hAble.roomNext
    omega
  takes := by
    intro d hMem
    by_cases hEq : d = z
    · subst hEq
      exact hTakes
    · rw [hMoves.others d hEq]
      rcases hAble.takes d hMem with
        hOld | ⟨hIn, hLeaves⟩ | hLater
      · exact Or.inl hOld
      · exact Or.inr (Or.inl ⟨hLeaving d hIn hEq, hLeaves⟩)
      · exact Or.inr (Or.inr hLater)

variable (env) in
/- The next frame owed finds room, or a closed queue. -/
theorem makeRoom
    {leaving later owed next : List ConnId}
    (hTidy : (s.conns z).Tidy)
    (hAble : s.Able x leaving later (z :: owed) next) :
    ∃ t leaving',
      Moves env x z s t ∧
        t.Able x leaving' later (z :: owed) next ∧
        ((t.conns z).sender = .done ∨
          (t.conns z).rx2.length < wsBuf) := by
  have hMem : z ∈ (z :: owed) ++ next := List.mem_cons_self
  have hFits := hAble.takes z hMem
  have hStays
      {t : Sys}
      (hMoves : Moves env x z s t)
      (hEvents : t.events = s.events) :=
    hAble.of_moves hMoves (Nat.le_of_eq (by rw [hEvents]))
      (fun d (hIn : d ∈ leaving) _ => hIn)
  rw [List.cons_append, List.count_cons_self,
    List.count_cons_self] at hFits
  rcases hFits with
    hTakes | ⟨hIn, hLeaves⟩ | ⟨hIn, hLeaves, hTakes⟩
  · rcases moves_takes env hTidy hTakes with
      ⟨t, hMoves, hEvents, hTakes', hReady, _⟩
    refine ⟨t, leaving, hMoves, hStays hMoves hEvents ?_,
      hReady⟩
    rw [List.cons_append, List.count_cons_self]
    exact Or.inl hTakes'
  · by_cases hNow : (s.conns z).rx2.length < wsBuf
    · exact ⟨s, leaving, .refl, hAble, Or.inr hNow⟩
    · have hQueue : (s.conns z).rx2 ≠ [] := by
        intro hEmpty
        simp [hEmpty, wsBuf] at hNow
      have hSome : 0 < leaving.length :=
        List.length_pos_of_mem hIn
      have hRoom := hAble.room
      rcases moves_leave env hLeaves hQueue (by omega) with
        ⟨t, hMoves, hLength, hDone⟩
      have hShorter := List.length_erase_of_mem hIn
      refine ⟨t, leaving.erase z, hMoves,
        hAble.of_moves hMoves (by omega) ?_
          (Or.inl (.finished hDone)), Or.inl hDone⟩
      exact fun d hMem hNe =>
        (List.mem_erase_of_ne hNe).mpr hMem
  · rcases moves_takes env hTidy hTakes with
      ⟨t, hMoves, hEvents, hTakes', hReady, hEnd⟩
    refine ⟨t, leaving, hMoves, hStays hMoves hEvents ?_,
      hReady⟩
    rw [List.count_cons_self]
    rcases hEnd hLeaves with hDone | hLeaves'
    · exact Or.inl (.finished hDone)
    · exact Or.inr (Or.inr ⟨hIn, hLeaves', hTakes'⟩)

end Room

end Sys

end Mles

------------------------------------------------------------
-- What the Event Loop Owes
------------------------------------------------------------

namespace Mles

/- The queues an event at hand still has to be sent on. -/
def HubTask.owes : HubTask → List ConnId
| .idle => []
| .replay _ tx2 queued _ => queued.map (fun _ => tx2)
| .fanout _ txs _ => txs

/- The queues an event will have to be sent on. -/
def Hub.owes
    (hub : Hub ConnId Frame) : TaskEvent → List ConnId
| .init h ch tx2 _ _ =>
    if (hub.entry ch h).isNone then
      (hub.stored ch).map (fun _ => tx2)
    else []
| .msg h ch _ => (hub.targets h ch).getD []
| .logoff _ _ => []

namespace Sys

/- The maps after the event at hand. -/
def hubAfter
    (env : Env)
    (s : Sys) : Hub ConnId Frame :=
  match s.task with
  | .idle => s.hub
  | .replay ch _ _ msg => s.hub.record env.limit ch msg 0
  | .fanout ch _ msg => s.hub.record env.limit ch msg 0

/- Some run leads to the state. -/
def Reachable
    (env : Env)
    (s : Sys) : Prop :=
  ∃ acts, run env acts = some s

theorem Reachable.step
    {env : Env}
    {s t : Sys}
    {a : Act}
    (hReachable : s.Reachable env)
    (hStep : s.step env a = some t) :
    t.Reachable env := by
  rcases hReachable with ⟨acts, hRun⟩
  exact ⟨_, Trace.run_trans hRun (Trace.run_single hStep)⟩

theorem Reachable.reaches
    {env : Env}
    {allowed : Act → Prop}
    {s t : Sys}
    (hReachable : s.Reachable env)
    (hReaches : Trace.Reaches (Sys.step env) allowed s t) :
    t.Reachable env := by
  rcases hReachable with ⟨acts, hRun⟩
  rcases hReaches with ⟨acts', hRun', _⟩
  exact ⟨_, Trace.run_trans hRun hRun'⟩

theorem Reachable.tidy
    {env : Env}
    {s : Sys}
    (hReachable : s.Reachable env)
    (c : ConnId) :
    (s.conns c).Tidy := by
  rcases hReachable with ⟨acts, hRun⟩
  refine conn_induction (P := fun _ _ conn => conn.Tidy)
    ?_ ?_ hRun c
  · intro c
    exact ⟨by simp, by simp, by simp, by simp⟩
  · intro c first conn a conn' hTidy hChange
    exact hChange.tidy hTidy

/- The event loop does not rest with nothing left to send. -/
def Settled (s : Sys) : Prop :=
  s.task.owes = [] → s.task = .idle

theorem settled_settle
    (env : Env)
    (now : Time)
    (s : Sys) :
    (settle env now s).Settled := by
  unfold Settled settle
  cases hTask : s.task with
  | idle => simp [hTask]
  | replay ch tx2 queued msg =>
      cases queued with
      | nil => simp
      | cons qmsg queued => simp [hTask, HubTask.owes]
  | fanout ch txs msg =>
      cases txs with
      | nil => simp
      | cons tx txs => simp [hTask, HubTask.owes]

theorem Reachable.settled
    {env : Env}
    {s : Sys}
    (hReachable : s.Reachable env) :
    s.Settled := by
  rcases hReachable with ⟨acts, hRun⟩
  refine Trace.run_induction (P := fun _ s => s.Settled)
    (fun _ => rfl) ?_ hRun
  intro acts s a s' _ hSettled hStep
  cases step_sound hStep with
  | accept => exact settled_settle _ _ _
  | takeMsg => exact settled_settle _ _ _
  | replay => exact settled_settle _ _ _
  | deliver => exact settled_settle _ _ _
  | _ => exact hSettled

/- Settling changes neither what is owed nor the outcome. -/
theorem owes_settle
    (env : Env)
    (now : Time)
    (s : Sys) :
    (settle env now s).task.owes = s.task.owes := by
  rcases settle_cases env now s with
    hSame | ⟨ch, msg, hAt, hEq⟩
  · rw [hSame]
  · rw [hEq]
    rcases hAt with ⟨tx2, hAt⟩ | hAt
    · rw [hAt]
      rfl
    · rw [hAt]
      rfl

theorem hubAfter_settle
    (env : Env)
    (s : Sys) :
    (settle env 0 s).hubAfter env = s.hubAfter env := by
  rcases settle_cases env 0 s with
    hSame | ⟨ch, msg, hAt, hEq⟩
  · rw [hSame]
  · rw [hEq]
    rcases hAt with ⟨tx2, hAt⟩ | hAt
    · simp [hubAfter, hAt]
    · simp [hubAfter, hAt]

end Sys

------------------------------------------------------------
-- Paying
------------------------------------------------------------

/- One of the frames owed has been sent. -/
theorem Conn.Takes.sent
    {x z : ConnId}
    {n : Nat}
    {item : WsItem}
    {conn conn' : Conn}
    (hTakes : conn.Takes x z (n + 1))
    (hSent : Conn.Sent item conn conn') :
    conn'.Takes x z n := by
  cases hSent with
  | closed hDone => exact .finished hDone
  | queued hAlive hRoom =>
      cases hTakes with
      | finished hDone => exact absurd hDone hAlive
      | quits hOther hZero hAt =>
          exact .quits hOther hZero hAt
      | drains hOther hOpen hLoop =>
          exact .drains hOther hOpen hLoop
      | room hFits =>
          refine .room ?_
          have hSame :
              ({ conn with rx2 := conn.rx2 ++ [item] } :
                Conn).slack x z = conn.slack x z := rfl
          rw [hSame, List.length_append, List.length_singleton]
          omega

theorem Conn.Leaves.sent
    {x z : ConnId}
    {item : WsItem}
    {conn conn' : Conn}
    (hLeaves : conn.Leaves x z)
    (hSent : Conn.Sent item conn conn') :
    conn'.Leaves x z := by
  rw [hSent.frame]
  exact hLeaves

/- A send that does not have to wait. -/
theorem Conn.exists_send
    {conn : Conn}
    (item : WsItem)
    (hReady :
      conn.sender = .done ∨ conn.rx2.length < wsBuf) :
    ∃ ok conn', conn.send item = some (ok, conn') := by
  by_cases hDone : conn.sender = .done
  · exact ⟨false, conn, if_pos hDone⟩
  · rcases hReady with hEq | hRoom
    · exact absurd hEq hDone
    · exact ⟨true, _, Conn.send_of_room hDone hRoom⟩

namespace Sys

section Pay

variable {env : Env}
variable {x z : ConnId}
variable {s : Sys}
variable {leaving later owed next : List ConnId}

/- A frame owed to `z` is put into its queue. -/
theorem Able.sent
    {item : WsItem}
    {conn' : Conn}
    (hAble : s.Able x leaving later (z :: owed) next)
    (hSent : Conn.Sent item (s.conns z) conn') :
    (s.setConn z conn').Able x leaving later owed next where
  room := hAble.room
  roomNext := hAble.roomNext
  takes := by
    refine forall_setConn
      (P := fun d conn =>
        d ∈ owed ++ next →
          conn.Takes x d ((owed ++ next).count d) ∨
            d ∈ leaving ∧ conn.Leaves x d ∨
            d ∈ later ∧ conn.Leaves x d ∧
              conn.Takes x d (owed.count d)) ?_ ?_
    · intro hMem
      have hOld :=
        hAble.takes z (List.mem_cons_of_mem z hMem)
      rw [List.cons_append, List.count_cons_self,
        List.count_cons_self] at hOld
      rcases hOld with
        hTakes | ⟨hIn, hLeaves⟩ | ⟨hIn, hLeaves, hTakes⟩
      · exact Or.inl (hTakes.sent hSent)
      · exact Or.inr (Or.inl ⟨hIn, hLeaves.sent hSent⟩)
      · exact Or.inr (Or.inr
          ⟨hIn, hLeaves.sent hSent, hTakes.sent hSent⟩)
    · intro d hNe hMem
      have hOld :=
        hAble.takes d (List.mem_cons_of_mem z hMem)
      rw [List.cons_append,
        List.count_cons_of_ne (Ne.symm hNe),
        List.count_cons_of_ne (Ne.symm hNe)] at hOld
      exact hOld

/- Only the connections and the event queue matter. -/
theorem Able.congr
    {t : Sys}
    (hAble : s.Able x leaving later owed next)
    (hConns : t.conns = s.conns)
    (hEvents : t.events = s.events) :
    t.Able x leaving later owed next where
  room := by
    rw [hEvents]
    exact hAble.room
  roomNext := by
    rw [hEvents]
    exact hAble.roomNext
  takes := by
    rw [hConns]
    exact hAble.takes

variable (env) in
/- The event loop sends the next frame it owes. -/
theorem pay
    {rest : List ConnId}
    (hOwes : s.task.owes = z :: rest)
    (hReady :
      (s.conns z).sender = .done ∨
        (s.conns z).rx2.length < wsBuf)
    (hAble : s.Able x leaving later (z :: rest) next) :
    ∃ t,
      s.step env (.send 0 0) = some t ∧
        t.task.owes = rest ∧
        t.Able x leaving later rest next ∧
        t.events = s.events ∧
        t.hubAfter env = s.hubAfter env := by
  cases hTask : s.task with
  | idle =>
      rw [hTask] at hOwes
      cases hOwes
  | replay ch tx2 queued msg =>
      rw [hTask] at hOwes
      cases queued with
      | nil => cases hOwes
      | cons qmsg queued =>
          have hHead : tx2 = z := (List.cons.inj hOwes).1
          have hRest := (List.cons.inj hOwes).2
          subst hHead
          subst hRest
          rcases Conn.exists_send (some (.ok qmsg)) hReady
            with ⟨ok, conn', hSend⟩
          refine ⟨settle env 0
            { s.setConn tx2 conn' with
              task := .replay ch tx2 queued msg }, ?_, ?_,
            ?_, ?_, ?_⟩
          · simp only [step, send, hTask, hSend]
          · exact owes_settle _ _ _
          · exact (hAble.sent (Conn.send_sound hSend)).congr
              (settle_conns _ _ _) (settle_events _ _ _)
          · exact settle_events _ _ _
          · rw [hubAfter_settle]
            simp [hubAfter, hTask]
  | fanout ch txs msg =>
      rw [hTask] at hOwes
      cases hOwes
      rcases Conn.exists_send (some (.ok msg)) hReady with
        ⟨ok, conn', hSend⟩
      refine ⟨settle env 0
        { s.setConn z conn' with
          task := .fanout ch rest msg }, ?_, ?_, ?_, ?_, ?_⟩
      · exact step_send_fanout env hTask hSend
      · exact owes_settle _ _ _
      · exact (hAble.sent (Conn.send_sound hSend)).congr
          (settle_conns _ _ _) (settle_events _ _ _)
      · exact settle_events _ _ _
      · rw [hubAfter_settle]
        simp [hubAfter, hTask]

/-
  The event at hand is finished, frame by frame.
-/
theorem finish
    {rest : List ConnId}
    (hReachable : s.Reachable env)
    (hOwes : s.task.owes = rest)
    (hAble : s.Able x leaving later rest next) :
    ∃ t leaving',
      Trace.Reaches (step env) (Act.Quiet x) s t ∧
        t.task = .idle ∧
        t.Able x leaving' later [] next ∧
        (∃ new, t.events = s.events ++ new) ∧
        t.hub = s.hubAfter env := by
  induction rest generalizing s leaving with
  | nil =>
      have hIdle := hReachable.settled hOwes
      exact ⟨s, leaving, .refl s, hIdle, hAble,
        ⟨[], (List.append_nil _).symm⟩,
        by simp [hubAfter, hIdle]⟩
  | cons z rest ih =>
      rcases makeRoom env (hReachable.tidy z) hAble with
        ⟨t, leaving', hMoves, hAble', hReady⟩
      have hOwes' : t.task.owes = z :: rest := by
        rw [hMoves.task]
        exact hOwes
      rcases pay env hOwes' hReady hAble' with
        ⟨u, hSend, hRest, hLeft, hEvents, hAfter⟩
      have hReachable' :=
        (hReachable.reaches hMoves.reaches).step hSend
      rcases ih hReachable' hRest hLeft with
        ⟨v, leaving'', hReaches, hIdle, hDone, hNew, hHub⟩
      refine ⟨v, leaving'', ?_, hIdle, hDone, ?_, ?_⟩
      · exact hMoves.reaches.trans
          ((Trace.Reaches.single hSend trivial).trans
            hReaches)
      · rcases hMoves.events with ⟨new, hFirst⟩
        rcases hNew with ⟨new', hSecond⟩
        exact ⟨new ++ new',
          by rw [hSecond, hEvents, hFirst, List.append_assoc]⟩
      · rw [hHub, hAfter]
        simp [hubAfter, hMoves.task, hMoves.hub]

end Pay

section Next

variable {x : ConnId}
variable {s t : Sys}
variable {leaving later owed : List ConnId}

/- What an answer to an `Init` leaves of a connection. -/
def SameQueue (conn conn' : Conn) : Prop :=
  conn'.sender = conn.sender ∧
    conn'.isClosed = conn.isClosed ∧
    conn'.rx2 = conn.rx2 ∧ conn'.h = conn.h ∧
    conn'.ch = conn.ch

theorem SameQueue.takes
    {z : ConnId}
    {n : Nat}
    {conn conn' : Conn}
    (hSame : SameQueue conn conn')
    (hTakes : conn.Takes x z n) :
    conn'.Takes x z n := by
  rcases hSame with ⟨hSender, hClosed, hQueue, hHash, hChannel⟩
  cases hTakes with
  | finished hDone => exact .finished (hSender.trans hDone)
  | quits hOther hZero hAt =>
      refine .quits hOther ?_ ?_
      · rw [hHash, hChannel]
        exact hZero
      · unfold Conn.InLoop at *
        rw [hSender, hClosed]
        exact hAt
  | drains hOther hOpen hLoop =>
      refine .drains hOther (hClosed.trans hOpen) ?_
      unfold Conn.InLoop at *
      rw [hSender]
      exact hLoop
  | room hFits =>
      refine .room ?_
      unfold Conn.slack at *
      rw [hSender, hQueue]
      exact hFits

theorem SameQueue.leaves
    {z : ConnId}
    {conn conn' : Conn}
    (hSame : SameQueue conn conn')
    (hLeaves : conn.Leaves x z) :
    conn'.Leaves x z := by
  unfold Conn.Leaves Conn.InLoop at *
  rw [hSame.1, hSame.2.1]
  exact hLeaves

/-
  With the event at hand finished, taking the next one makes
  room for one more `Logoff`.
-/
theorem Able.confirm
    {events : List (ConnId × TaskEvent)}
    {e : ConnId × TaskEvent}
    (hAble : s.Able x leaving later [] owed)
    (hEvents : s.events = e :: events)
    (hTail : t.events = events)
    (hConns : ∀ z, SameQueue (s.conns z) (t.conns z)) :
    t.Able x (leaving ++ later) [] owed [] where
  room := by
    have hRoom := hAble.roomNext
    rw [hEvents, List.length_cons] at hRoom
    rw [hTail, List.length_append]
    omega
  roomNext := by
    have hRoom := hAble.roomNext
    rw [hEvents, List.length_cons] at hRoom
    rw [hTail, List.length_append, List.length_nil]
    omega
  takes := by
    intro z hMem
    rw [List.append_nil] at hMem ⊢
    rcases hAble.takes z hMem with
      hTakes | ⟨hIn, hLeaves⟩ | ⟨hIn, hLeaves, _⟩
    · exact Or.inl ((hConns z).takes hTakes)
    · exact Or.inr (Or.inl
        ⟨List.mem_append_left _ hIn,
          (hConns z).leaves hLeaves⟩)
    · exact Or.inr (Or.inl
        ⟨List.mem_append_right _ hIn,
          (hConns z).leaves hLeaves⟩)

end Next

end Sys

end Mles
