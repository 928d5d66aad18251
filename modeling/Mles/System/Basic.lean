import Mles.Library.Trace
import Mles.Auth
import Mles.Hub.Basic

/-
  The running WebSocket server (`src/websocket.rs`): the
  receiver, ping and sender tasks of any number of
  connections, their bounded queues, and the event loop.

  The program runs on a single-threaded runtime, so tasks
  interleave at their await points.  The state of a task is
  the await it stands at, with the local values it keeps; an
  action lets one task run from one await to the next.  The
  action also carries what the environment decides: the
  frame read from a socket, whether a write succeeded, the
  reading of the clock.  An action is not possible while its
  await is pending: a send to a full queue waits for room.

  What is not in this repository is a parameter: the hash
  function, the JSON parser, and the value of `MLES_KEY`.

  Key definitions include:
    * `Env`
    * `Frame`
    * `Conn`
    * `Sys`
    * `Act`
    * `Sys.step`
    * `Sys.run`
-/

------------------------------------------------------------
-- Parameters
------------------------------------------------------------

namespace Mles

/- `WS_BUF`, the capacity of a client's queue. -/
def wsBuf : Nat := 128

/- `TASK_BUF`, the capacity of the event queue. -/
def taskBuf : Nat := 16

/- Connections are numbered. -/
abbrev ConnId := Nat

structure Env where
  sip : List UInt8 → UInt64
  parse : String → Option MlesHeader
  mlesKey : Option String
  limit : UInt32

namespace Env

/- The value stored in `h`: the hash of the whole header. -/
def headerHash
    (env : Env)
    (hdr : MlesHeader) : UInt64 :=
  (hdr.hash SipHash.Hasher.new).finish env.sip

/- The value stored in `ch`. -/
def channelHash
    (env : Env)
    (channel : String) : UInt64 :=
  env.sip (asBytes channel)

/-
  The checks of the first frame before authentication: a
  text that parses to a header whose uid and channel are
  ASCII and not empty.
-/
def header
    (env : Env)
    (msg : Message) : Option MlesHeader :=
  match msg.toStr with
  | none => none
  | some text =>
      match env.parse text with
      | none => none
      | some hdr =>
          if !isAscii hdr.uid || !isAscii hdr.channel then
            none
          else if hdr.uid == "" || hdr.channel == "" then
            none
          else
            some hdr

/- `verify_auth` on the fields of a header. -/
def verified
    (env : Env)
    (hdr : MlesHeader) : Bool :=
  verifyAuth env.sip env.mlesKey hdr.uid hdr.channel
    hdr.auth

end Env

/-
  A frame inside the server, with its provenance: the
  `seq`-th frame read from a connection, or one the server
  made itself.  No task looks at the provenance.
-/
inductive Frame where
| client (origin : ConnId) (seq : Nat) (msg : Message)
| server (msg : Message)
deriving DecidableEq, Repr

/- `Option<Result<Message, warp::Error>>`. -/
abbrev WsItem := Option (Except String Frame)

/- The events of the connections' tasks. -/
abbrev TaskEvent := WsEvent ConnId ConnId Frame

/- What reading from a socket yields. -/
inductive Read where
| frame (msg : Message)
| error
| ended
deriving DecidableEq, Repr

end Mles

------------------------------------------------------------
-- One Connection
------------------------------------------------------------

namespace Mles

/-
  Where the sender of the confirmation is: still captured by
  the receiver task, inside the `Init` event, used, or
  dropped.
-/
inductive ErrTx where
| receiver
| event
| sent (h : UInt64)
| dropped
deriving DecidableEq, Repr

/- The awaits of the receiver task. -/
inductive Receiver where
| firstFrame
| sendInit (h ch : UInt64) (msg : Frame)
| awaitInit
| sendClose
| nextFrame
| sendMsg (h ch : UInt64) (msg : Frame)
| sendNone
| done
deriving DecidableEq, Repr

/- The awaits of the ping task. -/
inductive Pinger where
| firstTick
| tick
| sendPing
| sendNone
| done
deriving DecidableEq, Repr

/- The awaits of the sender task. -/
inductive Sender where
| next
| write (msg : Frame)
| writeClose
| sendLogoff (h ch : UInt64)
| done
deriving DecidableEq, Repr

/-
  A connection: the values its tasks share, its queue, and
  its three tasks.  `reads` counts the frames read so far.
-/
structure Conn where
  h : UInt64 := 0
  ch : UInt64 := 0
  pingCntr : UInt64 := 0
  isClosed : Bool := false
  rx2 : List WsItem := []
  errTx : ErrTx := .receiver
  reads : Nat := 0
  receiver : Receiver := .firstFrame
  pinger : Pinger := .firstTick
  sender : Sender := .next

namespace Conn

/-
  Send into the connection's queue.  The receiving half is
  dropped with the sender task, and then the send fails; a
  full queue makes it wait.
-/
def send
    (item : WsItem)
    (conn : Conn) : Option (Bool × Conn) :=
  if conn.sender = .done then
    some (false, conn)
  else if conn.rx2.length < wsBuf then
    some (true, { conn with rx2 := conn.rx2 ++ [item] })
  else
    none

------------------------------------------------------------
-- The Receiver Task
------------------------------------------------------------

/-
  Close and return.  A confirmation sender that was not
  moved into an event is dropped with the task.
-/
def quit (conn : Conn) : Conn :=
  { conn with
    isClosed := true
    receiver := .done
    errTx := .dropped }

/- The first frame. -/
def onFirstFrame
    (env : Env)
    (c : ConnId)
    (msg : Message)
    (conn : Conn) : Conn :=
  let frame := Frame.client c conn.reads msg
  let conn := { conn with reads := conn.reads + 1 }
  match env.header msg with
  | none => conn.quit
  | some hdr =>
      let h := env.headerHash hdr
      let ch := env.channelHash hdr.channel
      -- Both values are shared before authentication.
      let conn := { conn with h := h, ch := ch }
      if env.verified hdr then
        { conn with receiver := .sendInit h ch frame }
      else
        conn.quit

/- Leave the message loop. -/
def leaveLoop (conn : Conn) : Conn :=
  { conn with isClosed := true, receiver := .sendNone }

/- A frame of the message loop. -/
def onFrame
    (c : ConnId)
    (msg : Message)
    (conn : Conn) : Conn :=
  let frame := Frame.client c conn.reads msg
  let conn := { conn with reads := conn.reads + 1 }
  if conn.isClosed then
    conn.leaveLoop
  else if conn.h = 0 then
    conn.leaveLoop
  else if msg.isClose then
    conn.leaveLoop
  else
    let conn := { conn with pingCntr := 0 }
    if msg.isPong then
      conn
    else
      { conn with
        receiver := .sendMsg conn.h conn.ch frame }

/-
  The socket yields.  Without a first frame the task goes on
  to wait for the confirmation, and keeps its sender.
-/
def read
    (env : Env)
    (c : ConnId)
    (r : Read)
    (conn : Conn) : Option Conn :=
  match conn.receiver with
  | .firstFrame =>
      match r with
      | .frame msg => some (conn.onFirstFrame env c msg)
      | .error => some { conn with receiver := .awaitInit }
      | .ended => some { conn with receiver := .awaitInit }
  | .nextFrame =>
      match r with
      | .frame msg => some (conn.onFrame c msg)
      | .error => some conn.leaveLoop
      | .ended => some conn.leaveLoop
  | _ => none

/-
  Another await of the receiver task completes, with the
  event this queues.
-/
def resume
    (c : ConnId)
    (conn : Conn) : Option (Conn × Option TaskEvent) :=
  match conn.receiver with
  | .sendInit h ch msg =>
      some
        ({ conn with receiver := .awaitInit, errTx := .event },
          some (.init h ch c c msg))
  | .awaitInit =>
      match conn.errTx with
      | .sent _ =>
          some ({ conn with receiver := .nextFrame }, none)
      | .dropped =>
          some
            ({ conn with
                isClosed := true
                h := 0
                ch := 0
                receiver := .sendClose },
              none)
      | .receiver => none
      | .event => none
  | .sendClose =>
      (conn.send (some (.ok (.server (.close none))))).map
        (fun r => ({ r.2 with receiver := .done }, none))
  | .sendMsg h ch msg =>
      some
        ({ conn with receiver := .nextFrame },
          some (.msg h ch msg))
  | .sendNone =>
      (conn.send none).map
        (fun r => ({ r.2 with receiver := .done }, none))
  | .firstFrame => none
  | .nextFrame => none
  | .done => none

------------------------------------------------------------
-- The Ping Task
------------------------------------------------------------

/- The test of the ping loop. -/
def pingLoop (conn : Conn) : Conn :=
  { conn with
    pinger := if conn.isClosed then .done else .tick }

/- A tick of the ping interval. -/
def tick (conn : Conn) : Option Conn :=
  match conn.pinger with
  | .firstTick => some conn.pingLoop
  | .tick => some { conn with pinger := .sendPing }
  | _ => none

/- A send of the ping task completes. -/
def ping (conn : Conn) : Option Conn :=
  match conn.pinger with
  | .sendPing =>
      match conn.send (some (.ok (.server (.ping [])))) with
      | none => none
      | some (false, conn) =>
          some { conn with pinger := .done }
      | some (true, conn) =>
          let pingCnt := conn.pingCntr
          let conn := { conn with pingCntr := pingCnt + 1 }
          if pingCnt > 2 then
            some
              { conn with
                isClosed := true
                pinger := .sendNone }
          else
            some conn.pingLoop
  | .sendNone =>
      (conn.send none).map
        (fun r => { r.2 with pinger := .done })
  | _ => none

------------------------------------------------------------
-- The Sender Task
------------------------------------------------------------

/- The task returns and drops its half of the queue. -/
def finish (conn : Conn) : Conn :=
  { conn with rx2 := [], sender := .done }

/-
  The queue yields.  `live` tells that some sending half of
  the queue still exists; an empty queue ends without one.
-/
def next
    (live : Bool)
    (conn : Conn) : Option Conn :=
  match conn.sender with
  | .next =>
      match conn.rx2 with
      | some (.ok msg) :: items =>
          let conn := { conn with rx2 := items }
          if conn.isClosed then
            some { conn with sender := .writeClose }
          else
            some { conn with sender := .write msg }
      | _ :: items =>
          some
            { conn with rx2 := items, sender := .writeClose }
      | [] =>
          if live then none
          else some { conn with sender := .writeClose }
  | _ => none

/- A write to the socket completes, or fails. -/
def write
    (ok : Bool)
    (conn : Conn) : Option Conn :=
  match conn.sender with
  | .write _ =>
      if ok then
        some { conn with sender := .next }
      else
        some
          { conn with isClosed := true, sender := .writeClose }
  | .writeClose =>
      if conn.h ≠ 0 ∧ conn.ch ≠ 0 then
        some { conn with sender := .sendLogoff conn.h conn.ch }
      else
        some conn.finish
  | _ => none

/- The `Logoff` of the final cleanup is queued. -/
def logoff (conn : Conn) : Option (Conn × TaskEvent) :=
  match conn.sender with
  | .sendLogoff h ch =>
      some
        (Conn.finish { conn with h := 0, ch := 0 },
          .logoff h ch)
  | _ => none

end Conn

end Mles

------------------------------------------------------------
-- The Whole Server
------------------------------------------------------------

namespace Mles

/-
  The awaits of the event loop: between two events, within
  the replay of an accepted `Init`, within the fan-out of a
  `Msg`.
-/
inductive HubTask where
| idle
| replay (ch : UInt64) (tx2 : ConnId)
    (queued : List Frame) (msg : Frame)
| fanout (ch : UInt64) (txs : List ConnId) (msg : Frame)
deriving DecidableEq, Repr

/- The event loop is replaying to a queue. -/
def HubTask.replaysTo
    (c : ConnId) : HubTask → Bool
| .replay _ tx2 _ _ => tx2 = c
| .fanout _ _ _ => false
| .idle => false

/-
  The event queue keeps, next to each event, the connection
  that queued it.  No task looks at it.
-/
structure Sys where
  conns : ConnId → Conn
  events : List (ConnId × TaskEvent)
  hub : Hub ConnId Frame
  task : HubTask

/- What may happen next. -/
inductive Act where
| read (c : ConnId) (r : Read)
| resume (c : ConnId)
| tick (c : ConnId)
| ping (c : ConnId)
| next (c : ConnId)
| write (c : ConnId) (ok : Bool)
| logoff (c : ConnId)
| cleanup (now : Time)
| take (now : Time)
| send (i : Nat) (now : Time)
deriving DecidableEq, Repr

namespace Sys

def init : Sys where
  conns := fun _ => {}
  events := []
  hub := Hub.new
  task := .idle

def setConn
    (s : Sys)
    (c : ConnId)
    (conn : Conn) : Sys :=
  { s with conns := Function.update s.conns c conn }

/- Queue an event, if there is room. -/
def queue
    (s : Sys)
    (c : ConnId)
    (e : TaskEvent) : Option Sys :=
  if s.events.length < taskBuf then
    some { s with events := s.events ++ [(c, e)] }
  else
    none

/- An event carries the sending half of a queue. -/
def carriesTx
    (c : ConnId) : ConnId × TaskEvent → Bool
| (_, .init _ _ tx2 _ _) => tx2 = c
| (_, .msg _ _ _) => false
| (_, .logoff _ _) => false

/- Some sending half of the connection's queue exists. -/
def txLive
    (s : Sys)
    (c : ConnId) : Bool :=
  (s.conns c).receiver ≠ .done ||
    (s.conns c).pinger ≠ .done ||
    s.events.any (carriesTx c) ||
    s.task.replaysTo c ||
    s.hub.chDb.entries.any
      (fun e => e.2.entries.any (fun t => t.2 = c))

------------------------------------------------------------
-- The Event Loop
------------------------------------------------------------

/- With nothing left to send, the message is stored. -/
def settle
    (env : Env)
    (now : Time)
    (s : Sys) : Sys :=
  match s.task with
  | .replay ch _ [] msg =>
      { s with
        hub := s.hub.record env.limit ch msg now
        task := .idle }
  | .fanout ch [] msg =>
      { s with
        hub := s.hub.record env.limit ch msg now
        task := .idle }
  | _ => s

/- The confirmation is sent or dropped. -/
def confirm
    (s : Sys)
    (c : ConnId)
    (errTx : ErrTx) : Sys :=
  s.setConn c { s.conns c with errTx := errTx }

/- Handle an event up to its first await. -/
def handle
    (env : Env)
    (now : Time)
    (s : Sys) : TaskEvent → Sys
| .init h ch tx2 errTx msg =>
    match s.hub.register h ch tx2 now with
    | (hub, some queued) =>
        settle env now
          { Sys.confirm { s with hub := hub } errTx (.sent h)
            with task := .replay ch tx2 queued msg }
    | (hub, none) =>
        Sys.confirm { s with hub := hub } errTx .dropped
| .msg h ch msg =>
    match s.hub.targets h ch with
    | some txs =>
        settle env now { s with task := .fanout ch txs msg }
    | none => s
| .logoff h ch => { s with hub := s.hub.logoff h ch }

/- Take the next event. -/
def take
    (env : Env)
    (now : Time)
    (s : Sys) : Option Sys :=
  match s.task with
  | .idle =>
      match s.events with
      | (_, e) :: events =>
          some (handle env now { s with events := events } e)
      | [] => none
  | _ => none

/-
  A send of the event loop completes, with or without an
  error.  A map is iterated in no particular order, so any
  of the remaining queues of a fan-out may be next.
-/
def send
    (env : Env)
    (i : Nat)
    (now : Time)
    (s : Sys) : Option Sys :=
  match s.task with
  | .idle => none
  | .replay _ _ [] _ => none
  | .replay ch tx2 (qmsg :: queued) msg =>
      match (s.conns tx2).send (some (.ok qmsg)) with
      | none => none
      | some (_, conn) =>
          some (settle env now
            { s.setConn tx2 conn with
              task := .replay ch tx2 queued msg })
  | .fanout ch txs msg =>
      match txs[i]? with
      | none => none
      | some tx =>
          match (s.conns tx).send (some (.ok msg)) with
          | none => none
          | some (_, conn) =>
              some (settle env now
                { s.setConn tx conn with
                  task := .fanout ch (txs.eraseIdx i) msg })

------------------------------------------------------------
-- Steps
------------------------------------------------------------

/- One task runs from one await to the next. -/
def step
    (env : Env)
    (s : Sys) : Act → Option Sys
| .read c r =>
    ((s.conns c).read env c r).map (s.setConn c)
| .resume c =>
    match (s.conns c).resume c with
    | none => none
    | some (conn, none) => some (s.setConn c conn)
    | some (conn, some e) => (s.setConn c conn).queue c e
| .tick c => (s.conns c).tick.map (s.setConn c)
| .ping c => (s.conns c).ping.map (s.setConn c)
| .next c =>
    ((s.conns c).next (s.txLive c)).map (s.setConn c)
| .write c ok => ((s.conns c).write ok).map (s.setConn c)
| .logoff c =>
    match (s.conns c).logoff with
    | none => none
    | some (conn, e) => (s.setConn c conn).queue c e
| .cleanup now =>
    match s.task with
    | .idle => some { s with hub := s.hub.cleanup now }
    | _ => none
| .take now => s.take env now
| .send i now => s.send env i now

/- Perform actions from the start of the server. -/
def run
    (env : Env)
    (acts : List Act) : Option Sys :=
  Trace.run (step env) init acts

end Sys

end Mles

------------------------------------------------------------
-- A Sample Environment
------------------------------------------------------------

namespace Mles

/- The text of a header without `auth`. -/
def headerText
    (uid channel : String) : String :=
  "\x7b\"uid\":\"" ++ uid ++ "\",\"channel\":\"" ++
    channel ++ "\"\x7d"

/- The text of a header with `auth`. -/
def headerTextAuth
    (uid channel auth : String) : String :=
  "\x7b\"uid\":\"" ++ uid ++ "\",\"channel\":\"" ++
    channel ++ "\",\"auth\":\"" ++ auth ++ "\"\x7d"

/- The first frames of the sample clients. -/
def alice : Message :=
  .text (headerText "alice" "news")

def bob : Message :=
  .text (headerText "bob" "news")

def aliceAuth : Message :=
  .text (headerTextAuth "alice" "news" "a41c27caeaf22b26")

/-
  The hash function of the server, no `MLES_KEY`, a history
  of one message, and a parser for the sample headers.
-/
def Env.sample : Env where
  sip := SipHash.sipHash24 0 0
  parse := fun text =>
    if some text = alice.toStr then
      some ⟨"alice", "news", none⟩
    else if some text = bob.toStr then
      some ⟨"bob", "news", none⟩
    else if some text = aliceAuth.toStr then
      some ⟨"alice", "news", some "a41c27caeaf22b26"⟩
    else
      none
  mlesKey := none
  limit := 1

def aliceHash : UInt64 :=
  Env.sample.headerHash ⟨"alice", "news", none⟩

def newsHash : UInt64 :=
  Env.sample.channelHash "news"

end Mles
