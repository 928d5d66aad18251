import Mles.System.Basic

/-
  What one step of the server can do, said once.

  `Conn.Local` lists the ways in which a connection changes
  by itself, one constructor for each way through the code
  between two awaits.  `Sys.Step` adds the steps that queue
  an event and the steps of the event loop.  Every invariant
  of the server is proved by cases on these relations;
  `Sys.step_sound` connects them to the executable step.

  Key definitions include:
    * `Conn.Local`
    * `Sys.Step`

  Key theorems include:
    * `Sys.step_sound`
-/

------------------------------------------------------------
-- Queues
------------------------------------------------------------

namespace Mles

/- The items the tasks of a connection queue themselves. -/
def WsItem.isServer : WsItem → Bool
| none => true
| some (.ok (.server _)) => true
| some (.ok (.client _ _ _)) => false
| some (.error _) => false

namespace Conn

/- The content of a queue after a send that completed. -/
inductive Sent
    (item : WsItem)
    (conn : Conn) : Conn → Prop where
| closed (hDone : conn.sender = .done) :
    Sent item conn conn
| queued
    (hAlive : conn.sender ≠ .done)
    (hRoom : conn.rx2.length < wsBuf) :
    Sent item conn
      { conn with rx2 := conn.rx2 ++ [item] }

theorem send_sound
    {item : WsItem}
    {conn conn' : Conn}
    {ok : Bool}
    (hSend : conn.send item = some (ok, conn')) :
    Sent item conn conn' := by
  unfold send at hSend
  by_cases hDone : conn.sender = .done
  · rw [if_pos hDone] at hSend
    cases hSend
    exact .closed hDone
  · rw [if_neg hDone] at hSend
    by_cases hRoom : conn.rx2.length < wsBuf
    · rw [if_pos hRoom] at hSend
      cases hSend
      exact .queued hDone hRoom
    · rw [if_neg hRoom] at hSend
      cases hSend

/- A send to a queue with room. -/
theorem send_of_room
    {item : WsItem}
    {conn : Conn}
    (hAlive : conn.sender ≠ .done)
    (hRoom : conn.rx2.length < wsBuf) :
    conn.send item =
      some (true, { conn with rx2 := conn.rx2 ++ [item] }) := by
  unfold send
  rw [if_neg hAlive, if_pos hRoom]

/- A send to a full queue waits. -/
theorem send_of_full
    {item : WsItem}
    {conn : Conn}
    (hAlive : conn.sender ≠ .done)
    (hFull : ¬ conn.rx2.length < wsBuf) :
    conn.send item = none := by
  unfold send
  rw [if_neg hAlive, if_neg hFull]

/- A send that completed changes no more than the queue. -/
theorem Sent.frame
    {item : WsItem}
    {conn conn' : Conn}
    (hSent : Sent item conn conn') :
    conn' = { conn with rx2 := conn'.rx2 } := by
  cases hSent with
  | closed hDone => rfl
  | queued hAlive hRoom => rfl

end Conn

end Mles

------------------------------------------------------------
-- Steps of One Connection
------------------------------------------------------------

namespace Mles

namespace Conn

/-
  The steps of the connection `c` that queue no event.  The
  ping task is summed up in one constructor: it may change
  the counter, close the connection and queue items of its
  own.
-/
inductive Local
    (env : Env)
    (c : ConnId)
    (conn : Conn) : Act → Conn → Prop where
| noFrame
    (r : Read)
    (hFail : ∀ msg, r ≠ .frame msg)
    (hAt : conn.receiver = .firstFrame) :
    Local env c conn (.read c r)
      { conn with receiver := .awaitInit }
| badFirst
    (msg : Message)
    (hAt : conn.receiver = .firstFrame)
    (hHeader : env.header msg = none) :
    Local env c conn (.read c (.frame msg))
      (Conn.quit { conn with reads := conn.reads + 1 })
| badAuth
    (msg : Message)
    (hdr : MlesHeader)
    (hAt : conn.receiver = .firstFrame)
    (hHeader : env.header msg = some hdr)
    (hAuth : env.verified hdr = false) :
    Local env c conn (.read c (.frame msg))
      (Conn.quit
        { conn with
          reads := conn.reads + 1
          h := env.headerHash hdr
          ch := env.channelHash hdr.channel })
| goodFirst
    (msg : Message)
    (hdr : MlesHeader)
    (hAt : conn.receiver = .firstFrame)
    (hHeader : env.header msg = some hdr)
    (hAuth : env.verified hdr = true) :
    Local env c conn (.read c (.frame msg))
      { conn with
        reads := conn.reads + 1
        h := env.headerHash hdr
        ch := env.channelHash hdr.channel
        receiver := .sendInit (env.headerHash hdr)
          (env.channelHash hdr.channel)
          (.client c conn.reads msg) }
| leave
    (r : Read)
    (n : Nat)
    (hAt : conn.receiver = .nextFrame)
    (hReads : conn.reads ≤ n) :
    Local env c conn (.read c r)
      (Conn.leaveLoop { conn with reads := n })
| pong
    (msg : Message)
    (hAt : conn.receiver = .nextFrame) :
    Local env c conn (.read c (.frame msg))
      { conn with reads := conn.reads + 1, pingCntr := 0 }
| message
    (msg : Message)
    (hAt : conn.receiver = .nextFrame)
    (hOpen : conn.isClosed = false)
    (hNonzero : conn.h ≠ 0)
    (hData : msg.isClose = false ∧ msg.isPong = false) :
    Local env c conn (.read c (.frame msg))
      { conn with
        reads := conn.reads + 1
        pingCntr := 0
        receiver := .sendMsg conn.h conn.ch
          (.client c conn.reads msg) }
| confirmed
    (h : UInt64)
    (hAt : conn.receiver = .awaitInit)
    (hErrTx : conn.errTx = .sent h) :
    Local env c conn (.resume c)
      { conn with receiver := .nextFrame }
| rejected
    (hAt : conn.receiver = .awaitInit)
    (hErrTx : conn.errTx = .dropped) :
    Local env c conn (.resume c)
      { conn with
        isClosed := true
        h := 0
        ch := 0
        receiver := .sendClose }
| ended
    (item : WsItem)
    (conn' : Conn)
    (hAt :
      conn.receiver = .sendClose ∨
        conn.receiver = .sendNone)
    (hItem : item.isServer = true)
    (hSent : Sent item conn conn')
    (hNone : item = none → conn.receiver = .sendNone) :
    Local env c conn (.resume c)
      { conn' with receiver := .done }
| pinged
    (a : Act)
    (items : List WsItem)
    (n : UInt64)
    (closed : Bool)
    (pinger : Pinger)
    (hAct : a = .tick c ∨ a = .ping c)
    (hItems : ∀ item ∈ items, item.isServer = true)
    (hRoom : items ≠ [] → conn.sender ≠ .done)
    (hClosed : conn.isClosed = true → closed = true)
    (hNone : none ∈ items → conn.pinger = .sendNone)
    (hPinger : pinger = .sendNone → closed = true)
    (hFits :
      items ≠ [] → (conn.rx2 ++ items).length ≤ wsBuf) :
    Local env c conn a
      { conn with
        rx2 := conn.rx2 ++ items
        pingCntr := n
        isClosed := closed
        pinger := pinger }
| taken
    (msg : Frame)
    (items : List WsItem)
    (hAt : conn.sender = .next)
    (hQueue : conn.rx2 = some (.ok msg) :: items)
    (hOpen : conn.isClosed = false) :
    Local env c conn (.next c)
      { conn with rx2 := items, sender := .write msg }
| drained
    (items : List WsItem)
    (hAt : conn.sender = .next)
    (hQueue : items <:+ conn.rx2) :
    Local env c conn (.next c)
      { conn with rx2 := items, sender := .writeClose }
| written
    (msg : Frame)
    (hAt : conn.sender = .write msg) :
    Local env c conn (.write c true)
      { conn with sender := .next }
| writeFailed
    (msg : Frame)
    (hAt : conn.sender = .write msg) :
    Local env c conn (.write c false)
      { conn with isClosed := true, sender := .writeClose }
| cleanup
    (ok : Bool)
    (hAt : conn.sender = .writeClose)
    (hNonzero : conn.h ≠ 0 ∧ conn.ch ≠ 0) :
    Local env c conn (.write c ok)
      { conn with sender := .sendLogoff conn.h conn.ch }
| finished
    (ok : Bool)
    (hAt : conn.sender = .writeClose)
    (hZero : ¬ (conn.h ≠ 0 ∧ conn.ch ≠ 0)) :
    Local env c conn (.write c ok) conn.finish

theorem read_sound
    {env : Env}
    {c : ConnId}
    {r : Read}
    {conn conn' : Conn}
    (hRead : conn.read env c r = some conn') :
    Local env c conn (.read c r) conn' := by
  unfold read at hRead
  cases hAt : conn.receiver with
  | firstFrame =>
      cases r with
      | frame msg =>
          simp only [hAt, Option.some.injEq] at hRead
          subst hRead
          unfold onFirstFrame
          cases hHeader : env.header msg with
          | none => exact .badFirst msg hAt hHeader
          | some hdr =>
              cases hAuth : env.verified hdr with
              | true =>
                  simp only [hAuth, if_true]
                  exact .goodFirst msg hdr hAt hHeader hAuth
              | false =>
                  simp only [hAuth, Bool.false_eq_true,
                    if_false]
                  exact .badAuth msg hdr hAt hHeader hAuth
      | error =>
          simp only [hAt, Option.some.injEq] at hRead
          subst hRead
          exact .noFrame _ (fun msg h => by cases h) hAt
      | ended =>
          simp only [hAt, Option.some.injEq] at hRead
          subst hRead
          exact .noFrame _ (fun msg h => by cases h) hAt
  | nextFrame =>
      cases r with
      | frame msg =>
          simp only [hAt, Option.some.injEq] at hRead
          subst hRead
          unfold onFrame
          by_cases hOpen : conn.isClosed = true
          · rw [if_pos hOpen]
            exact .leave _ _ hAt (Nat.le_succ _)
          · rw [if_neg hOpen]
            by_cases hZero : conn.h = 0
            · rw [if_pos hZero]
              exact .leave _ _ hAt (Nat.le_succ _)
            · rw [if_neg hZero]
              cases hClose : msg.isClose with
              | true =>
                  exact .leave _ _ hAt (Nat.le_succ _)
              | false =>
                  cases hPong : msg.isPong with
                  | true => exact .pong msg hAt
                  | false =>
                      exact .message msg hAt
                        (by simpa using hOpen) hZero
                        ⟨hClose, hPong⟩
      | error =>
          simp only [hAt, Option.some.injEq] at hRead
          subst hRead
          exact .leave _ conn.reads hAt (Nat.le_refl _)
      | ended =>
          simp only [hAt, Option.some.injEq] at hRead
          subst hRead
          exact .leave _ conn.reads hAt (Nat.le_refl _)
  | sendInit h ch msg => simp [hAt] at hRead
  | awaitInit => simp [hAt] at hRead
  | sendClose => simp [hAt] at hRead
  | sendMsg h ch msg => simp [hAt] at hRead
  | sendNone => simp [hAt] at hRead
  | done => simp [hAt] at hRead

/- A step of the receiver task that queues nothing. -/
theorem resume_sound
    {env : Env}
    {c : ConnId}
    {conn conn' : Conn}
    (hResume : conn.resume c = some (conn', none)) :
    Local env c conn (.resume c) conn' := by
  unfold resume at hResume
  cases hAt : conn.receiver with
  | awaitInit =>
      cases hErrTx : conn.errTx with
      | sent h =>
          simp only [hAt, hErrTx, Option.some.injEq,
            Prod.mk.injEq, and_true] at hResume
          subst hResume
          rw [← hErrTx]
          exact .confirmed h hAt hErrTx
      | dropped =>
          simp only [hAt, hErrTx, Option.some.injEq,
            Prod.mk.injEq, and_true] at hResume
          subst hResume
          rw [← hErrTx]
          exact .rejected hAt hErrTx
      | receiver => simp [hAt, hErrTx] at hResume
      | event => simp [hAt, hErrTx] at hResume
  | sendClose =>
      simp only [hAt, Option.map_eq_some_iff] at hResume
      rcases hResume with ⟨⟨ok, sent⟩, hSend, hEq⟩
      cases hEq
      exact .ended _ sent (Or.inl hAt) rfl (send_sound hSend)
        (by simp)
  | sendNone =>
      simp only [hAt, Option.map_eq_some_iff] at hResume
      rcases hResume with ⟨⟨ok, sent⟩, hSend, hEq⟩
      cases hEq
      exact .ended _ sent (Or.inr hAt) rfl (send_sound hSend)
        (fun _ => hAt)
  | firstFrame => simp [hAt] at hResume
  | sendInit h ch msg => simp [hAt] at hResume
  | nextFrame => simp [hAt] at hResume
  | sendMsg h ch msg => simp [hAt] at hResume
  | done => simp [hAt] at hResume

/- The test of the ping loop sends nothing. -/
theorem pingLoop_pinger
    (conn : Conn) :
    conn.pingLoop.pinger ≠ .sendNone := by
  unfold pingLoop
  cases conn.isClosed with
  | true => simp
  | false => simp

/- No task of a connection takes the events. -/
theorem Local.ne_take
    {env : Env}
    {c : ConnId}
    {conn conn' : Conn}
    {a : Act}
    (hLocal : conn.Local env c a conn')
    (now : Time) :
    a ≠ .take now := by
  rintro rfl
  cases hLocal with
  | pinged _ items n closed pinger hAct =>
      rcases hAct with hAct | hAct
      · cases hAct
      · cases hAct

theorem tick_sound
    {env : Env}
    {c : ConnId}
    {conn conn' : Conn}
    (hTick : conn.tick = some conn') :
    Local env c conn (.tick c) conn' := by
  unfold tick at hTick
  have hPinger :
      ∃ pinger, pinger ≠ .sendNone ∧
        conn' = { conn with pinger := pinger } := by
    cases hAt : conn.pinger with
    | firstTick =>
        simp only [hAt, Option.some.injEq] at hTick
        exact ⟨_, pingLoop_pinger conn, hTick.symm⟩
    | tick =>
        simp only [hAt, Option.some.injEq] at hTick
        exact ⟨.sendPing, by simp, hTick.symm⟩
    | sendPing => simp [hAt] at hTick
    | sendNone => simp [hAt] at hTick
    | done => simp [hAt] at hTick
  rcases hPinger with ⟨pinger, hNe, hEq⟩
  have hStep :=
    @Local.pinged env c conn (.tick c) [] conn.pingCntr
      conn.isClosed pinger (Or.inl rfl) (by simp) (by simp)
      (fun h => h) (by simp) (fun h => absurd h hNe)
      (by simp)
  rw [List.append_nil] at hStep
  rw [hEq]
  exact hStep

/- A send of the ping task that went through. -/
theorem pinged_of_sent
    {env : Env}
    {c : ConnId}
    {item : WsItem}
    {conn sent : Conn}
    (hItem : item.isServer = true)
    (hSent : Sent item conn sent)
    (n : UInt64)
    (closed : Bool)
    (pinger : Pinger)
    (hClosed : conn.isClosed = true → closed = true)
    (hNone : item = none → conn.pinger = .sendNone)
    (hPinger : pinger = .sendNone → closed = true) :
    Local env c conn (.ping c)
      { sent with
        pingCntr := n
        isClosed := closed
        pinger := pinger } := by
  cases hSent with
  | closed hDone =>
      have hStep :=
        @Local.pinged env c conn (.ping c) [] n closed pinger
          (Or.inr rfl) (by simp) (by simp) hClosed (by simp)
          hPinger (by simp)
      rw [List.append_nil] at hStep
      exact hStep
  | queued hAlive hRoom =>
      exact .pinged (.ping c) [item] n closed pinger
        (Or.inr rfl) (by simpa using hItem)
        (fun _ => hAlive) hClosed
        (fun hMem => hNone (List.mem_singleton.mp hMem).symm)
        hPinger (fun _ => by simp; omega)

theorem ping_sound
    {env : Env}
    {c : ConnId}
    {conn conn' : Conn}
    (hPing : conn.ping = some conn') :
    Local env c conn (.ping c) conn' := by
  unfold ping at hPing
  cases hAt : conn.pinger with
  | sendPing =>
      simp only [hAt] at hPing
      cases hSend :
          conn.send (some (.ok (.server (.ping [])))) with
      | none => simp [hSend] at hPing
      | some r =>
          rcases r with ⟨ok, sent⟩
          have hSent := send_sound hSend
          have hClosed : conn.isClosed = sent.isClosed := by
            rw [hSent.frame]
          cases ok with
          | false =>
              simp only [hSend, Option.some.injEq] at hPing
              subst hPing
              exact pinged_of_sent rfl hSent sent.pingCntr
                sent.isClosed .done (fun h => hClosed ▸ h)
                (by simp) (by simp)
          | true =>
              simp only [hSend] at hPing
              by_cases hCount : sent.pingCntr > 2
              · rw [if_pos hCount] at hPing
                cases hPing
                exact pinged_of_sent rfl hSent _ true _
                  (fun _ => rfl) (by simp) (fun _ => rfl)
              · rw [if_neg hCount] at hPing
                cases hPing
                exact pinged_of_sent rfl hSent _
                  sent.isClosed _ (fun h => hClosed ▸ h)
                  (by simp)
                  (fun h => absurd h (pingLoop_pinger _))
  | sendNone =>
      simp only [hAt, Option.map_eq_some_iff] at hPing
      rcases hPing with ⟨⟨ok, sent⟩, hSend, hEq⟩
      have hSent := send_sound hSend
      have hClosed : conn.isClosed = sent.isClosed := by
        rw [hSent.frame]
      subst hEq
      exact pinged_of_sent rfl hSent sent.pingCntr
        sent.isClosed .done (fun h => hClosed ▸ h)
        (fun _ => hAt) (by simp)
  | firstTick => simp [hAt] at hPing
  | tick => simp [hAt] at hPing
  | done => simp [hAt] at hPing

theorem next_sound
    {env : Env}
    {c : ConnId}
    {live : Bool}
    {conn conn' : Conn}
    (hNext : conn.next live = some conn') :
    Local env c conn (.next c) conn' := by
  unfold next at hNext
  cases hAt : conn.sender with
  | next =>
      simp only [hAt] at hNext
      cases hQueue : conn.rx2 with
      | nil =>
          rw [hQueue] at hNext
          cases live with
          | true => simp at hNext
          | false =>
              simp only [Bool.false_eq_true, if_false,
                Option.some.injEq] at hNext
              subst hNext
              rw [← hQueue]
              exact .drained conn.rx2 hAt List.suffix_rfl
      | cons item items =>
          have hSuffix : items <:+ conn.rx2 := by
            rw [hQueue]
            exact List.suffix_cons item items
          rw [hQueue] at hNext
          rcases item with _ | (err | msg)
          · cases hNext
            exact .drained items hAt hSuffix
          · cases hNext
            exact .drained items hAt hSuffix
          · cases hOpen : conn.isClosed with
            | true =>
                simp only [hOpen, if_true,
                  Option.some.injEq] at hNext
                subst hNext
                rw [← hOpen]
                exact .drained items hAt hSuffix
            | false =>
                simp only [hOpen, Bool.false_eq_true,
                  if_false, Option.some.injEq] at hNext
                subst hNext
                rw [← hOpen]
                exact .taken msg items hAt hQueue hOpen
  | write msg => simp [hAt] at hNext
  | writeClose => simp [hAt] at hNext
  | sendLogoff h ch => simp [hAt] at hNext
  | done => simp [hAt] at hNext

theorem write_sound
    {env : Env}
    {c : ConnId}
    {ok : Bool}
    {conn conn' : Conn}
    (hWrite : conn.write ok = some conn') :
    Local env c conn (.write c ok) conn' := by
  unfold write at hWrite
  cases hAt : conn.sender with
  | write msg =>
      cases ok with
      | true =>
          simp only [hAt, if_true, Option.some.injEq]
            at hWrite
          subst hWrite
          exact .written msg hAt
      | false =>
          simp only [hAt, Bool.false_eq_true, if_false,
            Option.some.injEq] at hWrite
          subst hWrite
          exact .writeFailed msg hAt
  | writeClose =>
      simp only [hAt] at hWrite
      by_cases hNonzero : conn.h ≠ 0 ∧ conn.ch ≠ 0
      · rw [if_pos hNonzero] at hWrite
        cases hWrite
        exact .cleanup ok hAt hNonzero
      · rw [if_neg hNonzero] at hWrite
        cases hWrite
        exact .finished ok hAt hNonzero
  | next => simp [hAt] at hWrite
  | sendLogoff h ch => simp [hAt] at hWrite
  | done => simp [hAt] at hWrite

end Conn

end Mles

------------------------------------------------------------
-- Settling
------------------------------------------------------------

namespace Mles

namespace Sys

@[simp] theorem setConn_events
    (s : Sys)
    (c : ConnId)
    (conn : Conn) :
    (s.setConn c conn).events = s.events := rfl

@[simp] theorem setConn_hub
    (s : Sys)
    (c : ConnId)
    (conn : Conn) :
    (s.setConn c conn).hub = s.hub := rfl

@[simp] theorem setConn_task
    (s : Sys)
    (c : ConnId)
    (conn : Conn) :
    (s.setConn c conn).task = s.task := rfl

theorem setConn_conns
    (s : Sys)
    (c : ConnId)
    (conn : Conn)
    (d : ConnId) :
    (s.setConn c conn).conns d =
      if d = c then conn else s.conns d :=
  Function.update_apply s.conns c conn d

/- One connection is new, and the others are as they were. -/
theorem forall_setConn
    {P : ConnId → Conn → Prop}
    {s : Sys}
    {c : ConnId}
    {conn : Conn}
    (hConn : P c conn)
    (hOther : ∀ d, d ≠ c → P d (s.conns d))
    (d : ConnId) :
    P d ((s.setConn c conn).conns d) := by
  rw [setConn_conns]
  by_cases hEq : d = c
  · subst hEq
    rw [if_pos rfl]
    exact hConn
  · rw [if_neg hEq]
    exact hOther d hEq

/-
  A settled state is the state itself, or the message of a
  turn that has nothing left to send is stored.
-/
theorem settle_cases
    (env : Env)
    (now : Time)
    (s : Sys) :
    settle env now s = s ∨
      ∃ ch msg,
        ((∃ tx2, s.task = .replay ch tx2 [] msg) ∨
          s.task = .fanout ch [] msg) ∧
        settle env now s =
          { s with
            hub := s.hub.record env.limit ch msg now
            task := .idle } := by
  unfold settle
  cases hTask : s.task with
  | idle => exact Or.inl rfl
  | replay ch tx2 queued msg =>
      cases queued with
      | nil =>
          exact Or.inr ⟨ch, msg, Or.inl ⟨tx2, rfl⟩, rfl⟩
      | cons qmsg queued => exact Or.inl rfl
  | fanout ch txs msg =>
      cases txs with
      | nil => exact Or.inr ⟨ch, msg, Or.inr rfl, rfl⟩
      | cons tx txs => exact Or.inl rfl

@[simp] theorem settle_conns
    (env : Env)
    (now : Time)
    (s : Sys) :
    (settle env now s).conns = s.conns := by
  rcases settle_cases env now s with hEq | ⟨_, _, _, hEq⟩
  · rw [hEq]
  · rw [hEq]

@[simp] theorem settle_events
    (env : Env)
    (now : Time)
    (s : Sys) :
    (settle env now s).events = s.events := by
  rcases settle_cases env now s with hEq | ⟨_, _, _, hEq⟩
  · rw [hEq]
  · rw [hEq]

@[simp] theorem settle_chDb
    (env : Env)
    (now : Time)
    (s : Sys) :
    (settle env now s).hub.chDb = s.hub.chDb := by
  rcases settle_cases env now s with hEq | ⟨_, _, _, hEq⟩
  · rw [hEq]
  · rw [hEq]
    rfl

@[simp] theorem settle_entry
    (env : Env)
    (now : Time)
    (s : Sys)
    (ch h : UInt64) :
    (settle env now s).hub.entry ch h =
      s.hub.entry ch h := by
  unfold Hub.entry
  rw [settle_chDb]

end Sys

end Mles

------------------------------------------------------------
-- Steps of the Server
------------------------------------------------------------

namespace Mles

namespace Sys

/- The steps of the server, one constructor for each way. -/
inductive Step
    (env : Env)
    (s : Sys) : Act → Sys → Prop where
| conn
    (c : ConnId)
    (a : Act)
    (conn' : Conn)
    (hLocal : (s.conns c).Local env c a conn') :
    Step env s a (s.setConn c conn')
| queueInit
    (c : ConnId)
    (h ch : UInt64)
    (msg : Frame)
    (hAt : (s.conns c).receiver = .sendInit h ch msg)
    (hRoom : s.events.length < taskBuf) :
    Step env s (.resume c)
      { s.setConn c
          { s.conns c with
            receiver := .awaitInit
            errTx := .event }
        with events := s.events ++ [(c, .init h ch c c msg)] }
| queueMsg
    (c : ConnId)
    (h ch : UInt64)
    (msg : Frame)
    (hAt : (s.conns c).receiver = .sendMsg h ch msg)
    (hRoom : s.events.length < taskBuf) :
    Step env s (.resume c)
      { s.setConn c { s.conns c with receiver := .nextFrame }
        with events := s.events ++ [(c, .msg h ch msg)] }
| queueLogoff
    (c : ConnId)
    (h ch : UInt64)
    (hAt : (s.conns c).sender = .sendLogoff h ch)
    (hRoom : s.events.length < taskBuf) :
    Step env s (.logoff c)
      { s.setConn c
          (Conn.finish { s.conns c with h := 0, ch := 0 })
        with events := s.events ++ [(c, .logoff h ch)] }
| cleanup
    (now : Time)
    (hIdle : s.task = .idle) :
    Step env s (.cleanup now)
      { s with hub := s.hub.cleanup now }
| accept
    (now : Time)
    (c : ConnId)
    (h ch : UInt64)
    (tx2 errTx : ConnId)
    (msg : Frame)
    (events : List (ConnId × TaskEvent))
    (hIdle : s.task = .idle)
    (hEvents :
      s.events = (c, .init h ch tx2 errTx msg) :: events)
    (hVacant : s.hub.entry ch h = none) :
    Step env s (.take now)
      (settle env now
        { Sys.confirm
            { s with
              events := events
              hub := (s.hub.register h ch tx2 now).1 }
            errTx (.sent h)
          with task :=
            .replay ch tx2 (s.hub.stored ch) msg })
| reject
    (now : Time)
    (c : ConnId)
    (h ch : UInt64)
    (tx2 errTx tx : ConnId)
    (msg : Frame)
    (events : List (ConnId × TaskEvent))
    (hIdle : s.task = .idle)
    (hEvents :
      s.events = (c, .init h ch tx2 errTx msg) :: events)
    (hTaken : s.hub.entry ch h = some tx) :
    Step env s (.take now)
      (Sys.confirm { s with events := events } errTx .dropped)
| takeMsg
    (now : Time)
    (c : ConnId)
    (h ch : UInt64)
    (msg : Frame)
    (events : List (ConnId × TaskEvent))
    (txs : List ConnId)
    (hIdle : s.task = .idle)
    (hEvents : s.events = (c, .msg h ch msg) :: events)
    (hTargets : s.hub.targets h ch = some txs) :
    Step env s (.take now)
      (settle env now
        { s with
          events := events
          task := .fanout ch txs msg })
| dropMsg
    (now : Time)
    (c : ConnId)
    (h ch : UInt64)
    (msg : Frame)
    (events : List (ConnId × TaskEvent))
    (hIdle : s.task = .idle)
    (hEvents : s.events = (c, .msg h ch msg) :: events)
    (hTargets : s.hub.targets h ch = none) :
    Step env s (.take now) { s with events := events }
| takeLogoff
    (now : Time)
    (c : ConnId)
    (h ch : UInt64)
    (events : List (ConnId × TaskEvent))
    (hIdle : s.task = .idle)
    (hEvents : s.events = (c, .logoff h ch) :: events) :
    Step env s (.take now)
      { s with events := events, hub := s.hub.logoff h ch }
| replay
    (i : Nat)
    (now : Time)
    (ch : UInt64)
    (tx2 : ConnId)
    (qmsg : Frame)
    (queued : List Frame)
    (msg : Frame)
    (conn' : Conn)
    (hTask : s.task = .replay ch tx2 (qmsg :: queued) msg)
    (hSent :
      Conn.Sent (some (.ok qmsg)) (s.conns tx2) conn') :
    Step env s (.send i now)
      (settle env now
        { s.setConn tx2 conn' with
          task := .replay ch tx2 queued msg })
| deliver
    (i : Nat)
    (now : Time)
    (ch : UInt64)
    (txs : List ConnId)
    (tx : ConnId)
    (msg : Frame)
    (conn' : Conn)
    (hTask : s.task = .fanout ch txs msg)
    (hTx : txs[i]? = some tx)
    (hSent :
      Conn.Sent (some (.ok msg)) (s.conns tx) conn') :
    Step env s (.send i now)
      (settle env now
        { s.setConn tx conn' with
          task := .fanout ch (txs.eraseIdx i) msg })

/- A step that queues an event needs room for it. -/
theorem queue_eq_some_iff
    {s s' : Sys}
    {c : ConnId}
    {e : TaskEvent} :
    s.queue c e = some s' ↔
      s.events.length < taskBuf ∧
        s' = { s with events := s.events ++ [(c, e)] } := by
  unfold queue
  by_cases hRoom : s.events.length < taskBuf
  · simp [hRoom, eq_comm]
  · simp [hRoom]

/- The events a receiver task queues. -/
theorem resume_some_cases
    {c : ConnId}
    {conn conn' : Conn}
    {e : TaskEvent}
    (hResume : conn.resume c = some (conn', some e)) :
    (∃ h ch msg,
      conn.receiver = .sendInit h ch msg ∧
        e = .init h ch c c msg ∧
        conn' =
          { conn with
            receiver := .awaitInit
            errTx := .event }) ∨
    (∃ h ch msg,
      conn.receiver = .sendMsg h ch msg ∧
        e = .msg h ch msg ∧
        conn' = { conn with receiver := .nextFrame }) := by
  unfold Conn.resume at hResume
  cases hAt : conn.receiver with
  | sendInit h ch msg =>
      simp only [hAt, Option.some.injEq, Prod.mk.injEq]
        at hResume
      exact Or.inl
        ⟨h, ch, msg, rfl, hResume.2.symm, hResume.1.symm⟩
  | sendMsg h ch msg =>
      simp only [hAt, Option.some.injEq, Prod.mk.injEq]
        at hResume
      exact Or.inr
        ⟨h, ch, msg, rfl, hResume.2.symm, hResume.1.symm⟩
  | awaitInit =>
      cases hErrTx : conn.errTx with
      | sent h => simp [hAt, hErrTx] at hResume
      | dropped => simp [hAt, hErrTx] at hResume
      | receiver => simp [hAt, hErrTx] at hResume
      | event => simp [hAt, hErrTx] at hResume
  | sendClose => simp [hAt] at hResume
  | sendNone => simp [hAt] at hResume
  | firstFrame => simp [hAt] at hResume
  | nextFrame => simp [hAt] at hResume
  | done => simp [hAt] at hResume

/- Every turn of the event loop is one of those above. -/
theorem take_sound
    {env : Env}
    {now : Time}
    {s s' : Sys}
    (hTake : s.take env now = some s') :
    Step env s (.take now) s' := by
  unfold take at hTake
  cases hTask : s.task with
  | replay ch tx2 queued msg => simp [hTask] at hTake
  | fanout ch txs msg => simp [hTask] at hTake
  | idle =>
      rw [hTask] at hTake
      cases hEvents : s.events with
      | nil => simp [hEvents] at hTake
      | cons head events =>
          rcases head with ⟨c, e⟩
          simp only [hEvents, Option.some.injEq] at hTake
          subst hTake
          rw [← hTask]
          cases e with
          | init h ch tx2 errTx msg =>
              cases hEntry : s.hub.entry ch h with
              | none =>
                  have hStep :=
                    @Step.accept env s now c h ch tx2 errTx
                      msg events hTask hEvents hEntry
                  simp only [handle,
                    Hub.register_of_none hEntry]
                  simp only [Hub.register_of_none hEntry]
                    at hStep
                  exact hStep
              | some tx =>
                  simp only [handle,
                    Hub.register_of_some hEntry]
                  exact .reject now c h ch tx2 errTx tx msg
                    events hTask hEvents hEntry
          | msg h ch msg =>
              cases hTargets : s.hub.targets h ch with
              | none =>
                  simp only [handle, hTargets]
                  exact .dropMsg now c h ch msg events hTask
                    hEvents hTargets
              | some txs =>
                  simp only [handle, hTargets]
                  exact .takeMsg now c h ch msg events txs
                    hTask hEvents hTargets
          | logoff h ch =>
              exact .takeLogoff now c h ch events hTask
                hEvents

/- Every send of the event loop is one of those above. -/
theorem send_sound
    {env : Env}
    {i : Nat}
    {now : Time}
    {s s' : Sys}
    (hSend : s.send env i now = some s') :
    Step env s (.send i now) s' := by
  unfold send at hSend
  cases hTask : s.task with
  | idle => simp [hTask] at hSend
  | replay ch tx2 queued msg =>
      cases queued with
      | nil => simp [hTask] at hSend
      | cons qmsg queued =>
          simp only [hTask] at hSend
          cases hQueue :
              (s.conns tx2).send (some (.ok qmsg)) with
          | none => simp [hQueue] at hSend
          | some r =>
              rcases r with ⟨ok, conn'⟩
              simp only [hQueue, Option.some.injEq] at hSend
              subst hSend
              exact .replay i now ch tx2 qmsg queued msg
                conn' hTask (Conn.send_sound hQueue)
  | fanout ch txs msg =>
      simp only [hTask] at hSend
      cases hTx : txs[i]? with
      | none => simp [hTx] at hSend
      | some tx =>
          simp only [hTx] at hSend
          cases hQueue :
              (s.conns tx).send (some (.ok msg)) with
          | none => simp [hQueue] at hSend
          | some r =>
              rcases r with ⟨ok, conn'⟩
              simp only [hQueue, Option.some.injEq] at hSend
              subst hSend
              exact .deliver i now ch txs tx msg conn' hTask
                hTx (Conn.send_sound hQueue)

theorem step_sound
    {env : Env}
    {s s' : Sys}
    {a : Act}
    (hStep : s.step env a = some s') :
    Step env s a s' := by
  cases a with
  | read c r =>
      rcases Option.map_eq_some_iff.mp hStep with
        ⟨conn', hRead, hEq⟩
      subst hEq
      exact .conn c _ conn' (Conn.read_sound hRead)
  | resume c =>
      unfold step at hStep
      cases hResume : (s.conns c).resume c with
      | none => simp [hResume] at hStep
      | some r =>
          rcases r with ⟨conn', _ | e⟩
          · simp only [hResume, Option.some.injEq] at hStep
            subst hStep
            exact .conn c _ conn' (Conn.resume_sound hResume)
          · simp only [hResume] at hStep
            rcases queue_eq_some_iff.mp hStep with
              ⟨hRoom, hEq⟩
            subst hEq
            rcases resume_some_cases hResume with
              ⟨h, ch, msg, hAt, rfl, rfl⟩ |
              ⟨h, ch, msg, hAt, rfl, rfl⟩
            · exact .queueInit c h ch msg hAt hRoom
            · exact .queueMsg c h ch msg hAt hRoom
  | tick c =>
      rcases Option.map_eq_some_iff.mp hStep with
        ⟨conn', hTick, hEq⟩
      subst hEq
      exact .conn c _ conn' (Conn.tick_sound hTick)
  | ping c =>
      rcases Option.map_eq_some_iff.mp hStep with
        ⟨conn', hPing, hEq⟩
      subst hEq
      exact .conn c _ conn' (Conn.ping_sound hPing)
  | next c =>
      rcases Option.map_eq_some_iff.mp hStep with
        ⟨conn', hNext, hEq⟩
      subst hEq
      exact .conn c _ conn' (Conn.next_sound hNext)
  | write c ok =>
      rcases Option.map_eq_some_iff.mp hStep with
        ⟨conn', hWrite, hEq⟩
      subst hEq
      exact .conn c _ conn' (Conn.write_sound hWrite)
  | logoff c =>
      unfold step Conn.logoff at hStep
      cases hAt : (s.conns c).sender with
      | sendLogoff h ch =>
          simp only [hAt] at hStep
          rcases queue_eq_some_iff.mp hStep with
            ⟨hRoom, hEq⟩
          subst hEq
          exact .queueLogoff c h ch hAt hRoom
      | next => simp [hAt] at hStep
      | write msg => simp [hAt] at hStep
      | writeClose => simp [hAt] at hStep
      | done => simp [hAt] at hStep
  | cleanup now =>
      unfold step at hStep
      cases hTask : s.task with
      | idle =>
          simp only [hTask, Option.some.injEq] at hStep
          subst hStep
          rw [← hTask]
          exact .cleanup now hTask
      | replay ch tx2 queued msg => simp [hTask] at hStep
      | fanout ch txs msg => simp [hTask] at hStep
  | take now => exact take_sound hStep
  | send i now => exact send_sound hStep

end Sys

end Mles

------------------------------------------------------------
-- Effects on the Event Queue and the Registry
------------------------------------------------------------

namespace Mles

namespace Sys

/- What a step does to the event queue. -/
theorem Step.events_cases
    {env : Env}
    {s s' : Sys}
    {a : Act}
    (hStep : Step env s a s') :
    (s'.events = s.events ∧ (∀ now, a ≠ .take now) ∧
      ∀ c, a ≠ .logoff c) ∨
    (∃ now e, a = .take now ∧ s.events = e :: s'.events) ∨
    (∃ c h ch msg,
      a = .resume c ∧
        (s.conns c).receiver = .sendInit h ch msg ∧
        s'.events = s.events ++ [(c, .init h ch c c msg)]) ∨
    (∃ c h ch msg,
      a = .resume c ∧
        (s.conns c).receiver = .sendMsg h ch msg ∧
        s'.events = s.events ++ [(c, .msg h ch msg)]) ∨
    (∃ c h ch,
      a = .logoff c ∧
        (s.conns c).sender = .sendLogoff h ch ∧
        (s'.conns c).sender = .done ∧
        s'.events = s.events ++ [(c, .logoff h ch)]) := by
  cases hStep with
  | conn c _ conn' hLocal =>
      refine Or.inl ⟨rfl, hLocal.ne_take, ?_⟩
      intro d hEq
      subst hEq
      cases hLocal with
      | pinged _ items n closed pinger hAct =>
          rcases hAct with hAct | hAct
          · cases hAct
          · cases hAct
  | queueInit c h ch msg hAt hRoom =>
      exact Or.inr (Or.inr (Or.inl
        ⟨c, h, ch, msg, rfl, hAt, rfl⟩))
  | queueMsg c h ch msg hAt hRoom =>
      exact Or.inr (Or.inr (Or.inr (Or.inl
        ⟨c, h, ch, msg, rfl, hAt, rfl⟩)))
  | queueLogoff c h ch hAt hRoom =>
      refine Or.inr (Or.inr (Or.inr (Or.inr
        ⟨c, h, ch, rfl, hAt, ?_, rfl⟩)))
      simp [setConn, Conn.finish]
  | cleanup now hIdle =>
      exact Or.inl ⟨rfl, by simp, by simp⟩
  | accept now c h ch tx2 errTx msg events hIdle hEvents
      hVacant =>
      refine Or.inr (Or.inl
        ⟨now, (c, .init h ch tx2 errTx msg), rfl, ?_⟩)
      rw [settle_events]
      exact hEvents
  | reject now c h ch tx2 errTx tx msg events hIdle hEvents
      hTaken =>
      exact Or.inr (Or.inl ⟨now, _, rfl, hEvents⟩)
  | takeMsg now c h ch msg events txs hIdle hEvents
      hTargets =>
      refine Or.inr (Or.inl
        ⟨now, (c, .msg h ch msg), rfl, ?_⟩)
      rw [settle_events]
      exact hEvents
  | dropMsg now c h ch msg events hIdle hEvents hTargets =>
      exact Or.inr (Or.inl ⟨now, _, rfl, hEvents⟩)
  | takeLogoff now c h ch events hIdle hEvents =>
      exact Or.inr (Or.inl ⟨now, _, rfl, hEvents⟩)
  | replay i now ch tx2 qmsg queued msg conn' hTask hSent =>
      refine Or.inl ⟨?_, by simp, by simp⟩
      exact settle_events _ _ _
  | deliver i now ch txs tx msg conn' hTask hTx hSent =>
      refine Or.inl ⟨?_, by simp, by simp⟩
      exact settle_events _ _ _

/- Where the events of the queue come from. -/
theorem Step.mem_events
    {env : Env}
    {s s' : Sys}
    {a : Act}
    {e : ConnId × TaskEvent}
    (hStep : Step env s a s')
    (hMem : e ∈ s'.events) :
    e ∈ s.events ∨
    (∃ c h ch msg,
      a = .resume c ∧
        (s.conns c).receiver = .sendInit h ch msg ∧
        e = (c, .init h ch c c msg)) ∨
    (∃ c h ch msg,
      a = .resume c ∧
        (s.conns c).receiver = .sendMsg h ch msg ∧
        e = (c, .msg h ch msg)) ∨
    (∃ c h ch,
      a = .logoff c ∧
        (s.conns c).sender = .sendLogoff h ch ∧
        e = (c, .logoff h ch)) := by
  rcases hStep.events_cases with
    ⟨hSame, _, _⟩ | ⟨now, e', _, hTail⟩ |
    ⟨c, h, ch, msg, hAct, hAt, hEvents⟩ |
    ⟨c, h, ch, msg, hAct, hAt, hEvents⟩ |
    ⟨c, h, ch, hAct, hAt, _, hEvents⟩
  · rw [hSame] at hMem
    exact Or.inl hMem
  · rw [hTail]
    exact Or.inl (List.mem_cons_of_mem e' hMem)
  · rw [hEvents, List.mem_append, List.mem_singleton] at hMem
    rcases hMem with hOld | hNew
    · exact Or.inl hOld
    · exact Or.inr (Or.inl ⟨c, h, ch, msg, hAct, hAt, hNew⟩)
  · rw [hEvents, List.mem_append, List.mem_singleton] at hMem
    rcases hMem with hOld | hNew
    · exact Or.inl hOld
    · exact Or.inr (Or.inr (Or.inl
        ⟨c, h, ch, msg, hAct, hAt, hNew⟩))
  · rw [hEvents, List.mem_append, List.mem_singleton] at hMem
    rcases hMem with hOld | hNew
    · exact Or.inl hOld
    · exact Or.inr (Or.inr (Or.inr
        ⟨c, h, ch, hAct, hAt, hNew⟩))

/- What a step does to the registered queues. -/
theorem Step.entry_cases
    {env : Env}
    {s s' : Sys}
    {a : Act}
    (hStep : Step env s a s') :
    (∀ ch h, s'.hub.entry ch h = s.hub.entry ch h) ∨
    (∃ now c h ch tx2 errTx msg,
      a = .take now ∧
        s.events =
          (c, .init h ch tx2 errTx msg) :: s'.events ∧
        s.hub.entry ch h = none ∧
        (s'.conns errTx).errTx = .sent h ∧
        ∀ ch' h',
          s'.hub.entry ch' h' =
            if ch' = ch ∧ h' = h then some tx2
            else s.hub.entry ch' h') ∨
    (∃ now c h ch,
      a = .take now ∧
        s.events = (c, .logoff h ch) :: s'.events ∧
        ∀ ch' h',
          s'.hub.entry ch' h' =
            if ch' = ch ∧ h' = h then none
            else s.hub.entry ch' h') := by
  cases hStep with
  | accept now c h ch tx2 errTx msg events hIdle hEvents
      hVacant =>
      refine Or.inr (Or.inl
        ⟨now, c, h, ch, tx2, errTx, msg, rfl, ?_, hVacant, ?_,
          ?_⟩)
      · rw [settle_events]
        exact hEvents
      · rw [settle_conns]
        simp [confirm, setConn]
      · intro ch' h'
        rw [settle_entry]
        simp [confirm, setConn, Hub.entry_register, hVacant]
  | takeLogoff now c h ch events hIdle hEvents =>
      exact Or.inr (Or.inr
        ⟨now, c, h, ch, rfl, hEvents,
          Hub.entry_logoff h ch s.hub⟩)
  | takeMsg now c h ch msg events txs hIdle hEvents
      hTargets =>
      exact Or.inl (fun ch h => settle_entry _ _ _ ch h)
  | replay i now ch tx2 qmsg queued msg conn' hTask hSent =>
      exact Or.inl (fun ch h => settle_entry _ _ _ ch h)
  | deliver i now ch txs tx msg conn' hTask hTx hSent =>
      exact Or.inl (fun ch h => settle_entry _ _ _ ch h)
  | _ => exact Or.inl (fun ch h => rfl)

end Sys

end Mles
