import Mles.System.Progress

/-
  Pings and the clients that answer them.

  The ping task counts its pings, and the receiver task
  takes the count back when it reads a frame in its message
  loop.  Before the loop it reads one frame, which must be
  the header, and while it waits for the confirmation or for
  room in the event queue it reads none.  So a client that
  answers every ping in time is still at the mercy of the
  server: its pong may come in place of the header, or wait
  unread while the pings are counted.

  The sockets are made explicit here: what a client has put
  on its socket, the pings written to it that it has not
  answered yet, and how many ticks it is since the server
  had caught up, with every ping written and every pong
  read.  What carries the proof is that every ping counted
  is still on its way: it waits to be written, the client
  owes the answer, or the answer waits to be read.

  Key definitions include:
    * `Net`
    * `Net.step`
    * `Net.pending`
    * `Net.Responsive`
    * `Net.Attentive`
    * `Conn.Alive`

  Key theorems include:
    * `Net.sys_of_run`
    * `Net.Keeps.act`
    * `Net.not_dropped_for_silence`
-/

------------------------------------------------------------
-- Sockets
------------------------------------------------------------

namespace Mles

def Message.isPing : Message → Bool
| .ping _ => true
| _ => false

def Frame.msg : Frame → Message
| .client _ _ msg => msg
| .server msg => msg

def WsItem.isPing : WsItem → Bool
| some (.ok f) => f.msg.isPing
| _ => false

def Sender.isPing : Sender → Bool
| .write f => f.msg.isPing
| _ => false

/- The pings on their way to the socket. -/
def Conn.pings (conn : Conn) : Nat :=
  conn.rx2.countP WsItem.isPing + conn.sender.isPing.toNat

/-
  The server with its sockets: the frames each client has
  sent, the pings it owes an answer to, and the ticks since
  the server had caught up with it.
-/
structure Net where
  sys : Sys
  sent : ConnId → List Message
  owed : ConnId → Nat
  since : ConnId → Nat

/- A client sends a frame, or the server makes a step. -/
inductive NetAct where
| put (c : ConnId) (msg : Message)
| act (a : Act)
deriving DecidableEq, Repr

namespace Net

def init : Net where
  sys := Sys.init
  sent := fun _ => []
  owed := fun _ => 0
  since := fun _ => 0

/- The frames on the way to the receiver task. -/
def unread
    (w : Net)
    (c : ConnId) : List Message :=
  (w.sent c).drop (w.sys.conns c).reads

/- The pings that wait to be written, and pongs to be read. -/
def pending
    (w : Net)
    (c : ConnId) : Nat :=
  (w.sys.conns c).pings + (w.unread c).countP Message.isPong

/- No ping waits to be written, and no pong to be read. -/
def caughtUp
    (w : Net)
    (c : ConnId) : Bool :=
  w.pending c = 0

/- A socket yields what the client has sent, in order. -/
def delivers
    (w : Net) : Act → Bool
| .read c (.frame msg) => (w.unread c).head? = some msg
| _ => true

def put
    (w : Net)
    (c : ConnId)
    (msg : Message) : Net :=
  { w with
    sent := Function.update w.sent c (w.sent c ++ [msg])
    owed :=
      if msg.isPong then
        Function.update w.owed c (w.owed c - 1)
      else w.owed }

/- A ping that is written is to be answered. -/
def owedAfter
    (w : Net) : Act → ConnId → Nat
| .write c true =>
    if (w.sys.conns c).sender.isPing then
      Function.update w.owed c (w.owed c + 1)
    else w.owed
| _ => w.owed

/- The first tick is at once, and no ping follows on it. -/
def sinceAfter
    (w : Net) : Act → ConnId → Nat
| .tick c =>
    if (w.sys.conns c).pinger = .tick then
      Function.update w.since c
        (if w.caughtUp c then 1 else w.since c + 1)
    else w.since
| _ => w.since

def step
    (env : Env)
    (w : Net) : NetAct → Option Net
| .put c msg => some (w.put c msg)
| .act a =>
    if w.delivers a then
      (w.sys.step env a).map (fun sys =>
        { sys := sys
          sent := w.sent
          owed := w.owedAfter a
          since := w.sinceAfter a })
    else none

def run
    (env : Env)
    (acts : List NetAct) : Option Net :=
  Trace.run (step env) init acts

/- The steps of the server in a run with its sockets. -/
def serverActs (acts : List NetAct) : List Act :=
  acts.filterMap (fun a =>
    match a with
    | .put _ _ => none
    | .act a => some a)

/- The sockets leave the server the runs that it has. -/
theorem sys_of_run
    {env : Env}
    {acts : List NetAct}
    {w : Net}
    (hRun : run env acts = some w) :
    Sys.run env (serverActs acts) = some w.sys := by
  refine Trace.run_induction
    (P := fun acts w =>
      Sys.run env (serverActs acts) = some w.sys)
    rfl ?_ hRun
  intro acts w a w' _ hSys hStep
  have hSnoc :
      serverActs (acts ++ [a]) =
        serverActs acts ++ serverActs [a] :=
    List.filterMap_append
  rw [hSnoc]
  cases a with
  | put c msg =>
      cases hStep
      change Sys.run env (serverActs acts ++ []) = some w.sys
      rw [List.append_nil]
      exact hSys
  | act a =>
      simp only [step] at hStep
      split at hStep
      · rcases Option.map_eq_some_iff.mp hStep with
          ⟨sys, hNext, hEq⟩
        cases hEq
        exact Trace.run_trans hSys (Trace.run_single hNext)
      · cases hStep

end Net

end Mles

------------------------------------------------------------
-- Open Connections
------------------------------------------------------------

namespace Mles

namespace Conn

/-
  An open connection of a client that answers its pings.
  Every ping that is counted is still on its way, or its
  pong is; and the counter is at most the number of ticks
  since the server had caught up, and one less while a ping
  is being sent.
-/
structure Alive
    (sent : List Message)
    (owed since : Nat)
    (conn : Conn) : Prop where
  sender :
    conn.sender = .next ∨ ∃ f, conn.sender = .write f
  receiver :
    conn.receiver ≠ .sendClose ∧
      conn.receiver ≠ .sendNone ∧ conn.receiver ≠ .done
  pinger : conn.pinger ≠ .sendNone ∧ conn.pinger ≠ .done
  frames : ∀ item ∈ conn.rx2, ∃ f, item = some (.ok f)
  hash :
    (conn.receiver = .firstFrame ∨
        conn.receiver = .awaitInit) ∧
        conn.errTx = .receiver ∨
      conn.h ≠ 0
  onTheWay :
    conn.pingCntr.toNat ≤
      conn.pings + owed +
        (sent.drop conn.reads).countP Message.isPong
  counted :
    conn.pingCntr.toNat +
        (if conn.pinger = .sendPing then 1 else 0) ≤ since
  few : conn.pinger = .sendPing → conn.pingCntr.toNat < 3

section Alive

variable {sent : List Message} {owed since : Nat}
variable {conn conn' : Conn}

theorem alive_new :
    ({} : Conn).Alive [] 0 0 where
  sender := Or.inl rfl
  receiver := by simp
  pinger := by simp
  frames := by simp
  hash := Or.inl ⟨Or.inl rfl, rfl⟩
  onTheWay := by simp
  counted := by simp
  few := by simp

------------------------------------------------------------
-- The Client
------------------------------------------------------------

/- A pong answers for the ping, until it is read. -/
theorem Alive.put
    (hAlive : conn.Alive sent owed since)
    (hReads : conn.reads ≤ sent.length)
    (msg : Message) :
    conn.Alive (sent ++ [msg])
      (if msg.isPong then owed - 1 else owed) since := by
  refine { hAlive with onTheWay := ?_ }
  have hOnTheWay := hAlive.onTheWay
  have hDrop :
      (sent ++ [msg]).drop conn.reads =
        sent.drop conn.reads ++ [msg] :=
    List.drop_append_of_le_length hReads
  rw [hDrop, List.countP_append, List.countP_singleton]
  by_cases hPong : msg.isPong = true
  · rw [if_pos hPong, if_pos hPong]
    omega
  · rw [if_neg hPong, if_neg hPong]
    exact hOnTheWay

------------------------------------------------------------
-- The Ping Task
------------------------------------------------------------

/- A tick before which every ping was answered. -/
theorem Alive.tick
    (hAlive : conn.Alive sent owed since)
    (hTick : conn.tick = some conn')
    (hOpen : conn.isClosed = false)
    (hOwed : conn.pinger = .tick → owed = 0)
    {pending : Nat}
    (hPending :
      pending =
        conn.pings +
          (sent.drop conn.reads).countP Message.isPong)
    (hSoon :
      conn.pinger = .tick → pending < 3 ∨ since < 3) :
    conn'.Alive sent owed
      (if conn.pinger = .tick then
        if pending = 0 then 1 else since + 1
      else since) := by
  have hCounted := hAlive.counted
  have hOnTheWay := hAlive.onTheWay
  unfold Conn.tick at hTick
  cases hPinger : conn.pinger with
  | firstTick =>
      rw [hPinger] at hTick
      cases hTick
      rw [if_neg (by simp)]
      simp only [hPinger] at hCounted
      refine { hAlive with
        pinger := by simp [pingLoop, hOpen]
        counted := ?_
        few := by simp [pingLoop, hOpen] }
      simpa [pingLoop, hOpen] using hCounted
  | tick =>
      rw [hPinger] at hTick hOwed hSoon
      cases hTick
      rw [if_pos rfl]
      -- Nothing is owed, so what is counted is pending.
      have hNone := hOwed rfl
      have hFew : conn.pingCntr.toNat < 3 := by
        rcases hSoon rfl with hFew | hFew
        · omega
        · omega
      refine { hAlive with
        pinger := by simp
        counted := ?_
        few := fun _ => hFew }
      simp only [if_true]
      by_cases hUp : pending = 0
      · rw [if_pos hUp]
        omega
      · rw [if_neg hUp]
        omega
  | sendPing =>
      rw [hPinger] at hTick
      cases hTick
  | sendNone =>
      rw [hPinger] at hTick
      cases hTick
  | done =>
      rw [hPinger] at hTick
      cases hTick

/- A queue of an open connection takes a frame. -/
theorem Alive.queued
    (hAlive : conn.Alive sent owed since)
    {f : Frame}
    (hSent : Sent (some (.ok f)) conn conn') :
    conn'.Alive sent owed since := by
  cases hSent with
  | closed hDone => exact hAlive
  | queued hNotDone hRoom =>
      refine { hAlive with frames := ?_, onTheWay := ?_ }
      · intro item hMem
        rcases List.mem_append.mp hMem with hOld | hNew
        · exact hAlive.frames item hOld
        · cases List.mem_singleton.mp hNew
          exact ⟨f, rfl⟩
      · have hOnTheWay := hAlive.onTheWay
        simp only [pings, List.countP_append] at hOnTheWay ⊢
        omega

/- A ping is sent, and its count closes nothing. -/
theorem Alive.ping
    (hAlive : conn.Alive sent owed since)
    (hPing : conn.ping = some conn')
    (hOpen : conn.isClosed = false) :
    conn'.isClosed = false ∧ conn'.Alive sent owed since := by
  have hCounted := hAlive.counted
  have hOnTheWay := hAlive.onTheWay
  unfold Conn.ping at hPing
  cases hPinger : conn.pinger with
  | sendPing =>
      rw [if_pos hPinger] at hCounted
      rw [hPinger] at hPing
      simp only at hPing
      have hNotDone : conn.sender ≠ .done := by
        rcases hAlive.sender with hNext | ⟨f, hWrite⟩
        · simp [hNext]
        · simp [hWrite]
      have hLess := hAlive.few hPinger
      have hFew : ¬ conn.pingCntr > 2 := by
        rw [gt_iff_lt, UInt64.lt_iff_toNat_lt]
        change ¬ 2 < conn.pingCntr.toNat
        omega
      have hMore :
          (conn.pingCntr + 1).toNat =
            conn.pingCntr.toNat + 1 := by
        rw [UInt64.toNat_add]
        change (conn.pingCntr.toNat + 1) % 2 ^ 64 = _
        omega
      by_cases hRoom : conn.rx2.length < wsBuf
      · rw [send_of_room hNotDone hRoom] at hPing
        simp only at hPing
        rw [if_neg hFew] at hPing
        cases hPing
        refine ⟨hOpen, ?_⟩
        refine
          { sender := hAlive.sender
            receiver := hAlive.receiver
            pinger := by simp [pingLoop, hOpen]
            frames := ?_
            hash := hAlive.hash
            onTheWay := ?_
            counted := ?_
            few := by simp [pingLoop, hOpen] }
        · exact (hAlive.queued (.queued hNotDone hRoom)).frames
        · -- One more is counted, and one more is queued.
          simp only [pings, pingLoop, List.countP_append,
            List.countP_singleton, WsItem.isPing, Frame.msg,
            Message.isPing, if_true, hMore] at hOnTheWay ⊢
          omega
        · simp only [pingLoop, hOpen]
          simp only [Bool.false_eq_true, if_false,
            reduceCtorEq, hMore]
          omega
      · rw [send_of_full hNotDone hRoom] at hPing
        cases hPing
  | sendNone => exact absurd hPinger hAlive.pinger.1
  | firstTick =>
      rw [hPinger] at hPing
      cases hPing
  | tick =>
      rw [hPinger] at hPing
      cases hPing
  | done =>
      rw [hPinger] at hPing
      cases hPing

------------------------------------------------------------
-- The Sender Task
------------------------------------------------------------

/- A ping leaves the queue for the socket. -/
theorem Alive.next
    (hAlive : conn.Alive sent owed since)
    (hNext : conn.next true = some conn')
    (hOpen : conn.isClosed = false) :
    conn'.Alive sent owed since := by
  unfold Conn.next at hNext
  rcases hAlive.sender with hSender | ⟨f, hSender⟩
  · rw [hSender] at hNext
    simp only at hNext
    cases hQueue : conn.rx2 with
    | nil =>
        rw [hQueue] at hNext
        cases hNext
    | cons item items =>
        rcases hAlive.frames item (by simp [hQueue]) with
          ⟨f, rfl⟩
        rw [hQueue] at hNext
        simp only [hOpen] at hNext
        cases hNext
        refine
          { hAlive with
            sender := Or.inr ⟨f, rfl⟩
            frames := ?_
            onTheWay := ?_ }
        · intro item hMem
          apply hAlive.frames item
          rw [hQueue]
          exact List.mem_cons_of_mem _ hMem
        · have hOnTheWay := hAlive.onTheWay
          simp only [pings, hQueue, hSender,
            List.countP_cons, WsItem.isPing, Sender.isPing,
            Bool.toNat_false] at hOnTheWay ⊢
          cases hPing : f.msg.isPing with
          | false => simpa [hPing] using hOnTheWay
          | true => simpa [hPing] using hOnTheWay
  · rw [hSender] at hNext
    cases hNext

/- A ping that is written is to be answered. -/
theorem Alive.write
    (hAlive : conn.Alive sent owed since)
    {ok : Bool}
    (hWrite : conn.write ok = some conn')
    (hOpen : conn'.isClosed = false) :
    conn'.Alive sent
      (if ok = true ∧ conn.sender.isPing = true then owed + 1
        else owed)
      since := by
  unfold Conn.write at hWrite
  rcases hAlive.sender with hSender | ⟨f, hSender⟩
  · rw [hSender] at hWrite
    cases hWrite
  · rw [hSender] at hWrite
    cases ok with
    | false =>
        cases hWrite
        cases hOpen
    | true =>
        cases hWrite
        refine
          { hAlive with
            sender := Or.inl rfl
            onTheWay := ?_ }
        have hOnTheWay := hAlive.onTheWay
        unfold pings at hOnTheWay ⊢
        by_cases hPing : conn.sender.isPing = true
        · rw [if_pos ⟨rfl, hPing⟩]
          rw [hPing] at hOnTheWay
          simp only [Bool.toNat_true, Sender.isPing,
            Bool.toNat_false] at hOnTheWay ⊢
          omega
        · rw [if_neg (fun hBoth => hPing hBoth.2)]
          rw [Bool.eq_false_iff.mpr hPing] at hOnTheWay
          exact hOnTheWay

------------------------------------------------------------
-- The Receiver Task
------------------------------------------------------------

/- The frame read was the first of the unread ones. -/
theorem drop_of_head
    {msg : Message}
    (hHead : (sent.drop conn.reads).head? = some msg) :
    conn.reads < sent.length ∧
      sent.drop conn.reads =
        msg :: sent.drop (conn.reads + 1) := by
  have hLess : conn.reads < sent.length := by
    by_contra hNot
    rw [List.drop_eq_nil_of_le (Nat.not_lt.mp hNot)] at hHead
    cases hHead
  refine ⟨hLess, ?_⟩
  rw [List.drop_eq_getElem_cons hLess] at hHead ⊢
  cases hHead
  rfl

/- The first frame is the header, and not a pong. -/
theorem Alive.firstFrame
    {env : Env}
    {c : ConnId}
    (hAlive : conn.Alive sent owed since)
    {msg : Message}
    (hHead : (sent.drop conn.reads).head? = some msg)
    (hPong : msg.isPong = false)
    (hHash :
      ∀ hdr, env.header msg = some hdr →
        env.headerHash hdr ≠ 0)
    (hOpen : (conn.onFirstFrame env c msg).isClosed = false) :
    (conn.onFirstFrame env c msg).Alive sent owed since := by
  unfold onFirstFrame at hOpen ⊢
  cases hHeader : env.header msg with
  | none =>
      rw [hHeader] at hOpen
      cases hOpen
  | some hdr =>
      rw [hHeader] at hOpen
      simp only at hOpen ⊢
      split at hOpen
      · rename_i hVerified
        rw [if_pos hVerified]
        refine
          { hAlive with
            receiver := by simp
            hash := Or.inr (hHash hdr hHeader)
            onTheWay := ?_ }
        have hOnTheWay := hAlive.onTheWay
        rw [(drop_of_head hHead).2, List.countP_cons,
          hPong] at hOnTheWay
        exact hOnTheWay
      · cases hOpen

/- Without a first frame the task waits all the same. -/
theorem Alive.noFrame
    (hAlive : conn.Alive sent owed since) :
    Conn.Alive sent owed since
      { conn with receiver := .awaitInit } := by
  refine
    { hAlive with
      receiver := by simp
      hash := ?_ }
  rcases hAlive.hash with ⟨_, hErrTx⟩ | hHash
  · exact Or.inl ⟨Or.inr rfl, hErrTx⟩
  · exact Or.inr hHash

/- In the loop, every frame but a close resets the counter. -/
theorem Alive.frame
    {c : ConnId}
    (hAlive : conn.Alive sent owed since)
    (hAt : conn.receiver = .nextFrame)
    (hOpen : conn.isClosed = false)
    (msg : Message) :
    (msg.isPong = true →
        (conn.onFrame c msg).isClosed = false) ∧
      ((conn.onFrame c msg).isClosed = false →
        (conn.onFrame c msg).Alive sent owed since) := by
  have hCounted := hAlive.counted
  have hNonzero : conn.h ≠ 0 := by
    rcases hAlive.hash with ⟨hFirst, _⟩ | hNonzero
    · rw [hAt] at hFirst
      rcases hFirst with hFirst | hFirst
      · cases hFirst
      · cases hFirst
    · exact hNonzero
  unfold onFrame
  simp only [hOpen, Bool.false_eq_true, if_false, hNonzero]
  by_cases hClose : msg.isClose = true
  · rw [if_pos hClose]
    constructor
    · intro hPong
      cases msg with
      | close frame => cases hPong
      | _ => cases hClose
    · intro hLeft
      cases hLeft
  · rw [if_neg hClose]
    by_cases hPong : msg.isPong = true
    · rw [if_pos hPong]
      refine ⟨fun _ => rfl, fun _ => ?_⟩
      refine
        { hAlive with
          onTheWay := Nat.zero_le _
          counted := ?_
          few := fun _ => Nat.zero_lt_succ 2 }
      simp only [UInt64.toNat_zero]
      omega
    · rw [if_neg hPong]
      refine ⟨fun hYes => absurd hYes hPong, fun _ => ?_⟩
      refine
        { hAlive with
          receiver := by simp
          hash := Or.inr hNonzero
          onTheWay := Nat.zero_le _
          counted := ?_
          few := fun _ => Nat.zero_lt_succ 2 }
      simp only [UInt64.toNat_zero]
      omega

------------------------------------------------------------
-- The Other Steps
------------------------------------------------------------

/- The step is none of those of `c` that are about pings. -/
def Quiet
    (c : ConnId) : Act → Prop
| .read d _ => d ≠ c
| .tick d => d ≠ c
| .ping d => d ≠ c
| .next d => d ≠ c
| .write d _ => d ≠ c
| _ => True

theorem Change.alive
    {env : Env}
    {c : ConnId}
    {a : Act}
    (hAlive : conn.Alive sent owed since)
    (hChange : conn.Change env c a conn')
    (hQuiet : Quiet c a)
    (hOpen : conn'.isClosed = false) :
    conn'.Alive sent owed since := by
  -- A receiver task past the first frame has the hash.
  have hNonzero
      (hFirst : conn.receiver ≠ .firstFrame)
      (hWaits :
        conn.receiver = .awaitInit →
          conn.errTx ≠ .receiver) :
      conn.h ≠ 0 := by
    rcases hAlive.hash with ⟨hAt | hAt, hErrTx⟩ | hHash
    · exact absurd hAt hFirst
    · exact absurd hErrTx (hWaits hAt)
    · exact hHash
  cases hChange with
  | own _ _ hLocal =>
      cases hLocal with
      | confirmed h hAt hErrTx =>
          have hHash :=
            hNonzero (by simp [hAt]) (by simp [hErrTx])
          exact
            { hAlive with
              receiver := by simp
              hash := Or.inr hHash }
      | rejected hAt hErrTx => cases hOpen
      | ended item sent hAt hItem hSent hNone =>
          rcases hAt with hAt | hAt
          · exact absurd hAt hAlive.receiver.1
          · exact absurd hAt hAlive.receiver.2.1
      | pinged _ items n closed pinger hAct =>
          rcases hAct with rfl | rfl
          · exact absurd rfl hQuiet
          · exact absurd rfl hQuiet
      | _ => exact absurd rfl hQuiet
  | queueInit h ch msg hAt =>
      have hHash := hNonzero (by simp [hAt]) (by simp [hAt])
      exact
        { hAlive with
          receiver := by simp
          hash := Or.inr hHash }
  | queueMsg h ch msg hAt =>
      have hHash := hNonzero (by simp [hAt]) (by simp [hAt])
      exact
        { hAlive with
          receiver := by simp
          hash := Or.inr hHash }
  | queueLogoff h ch hAt =>
      rcases hAlive.sender with hSender | ⟨f, hSender⟩
      · rw [hAt] at hSender
        cases hSender
      · rw [hAt] at hSender
        cases hSender
  | answered now errTx hWaiting hAnswer =>
      have hHash :=
        hNonzero (by simp [hWaiting.1]) (by simp [hWaiting.2])
      exact { hAlive with hash := Or.inr hHash }
  | received i now msg _ hSent => exact hAlive.queued hSent
  | other _ hOther => exact hAlive

end Alive

end Conn

end Mles

------------------------------------------------------------
-- Runs
------------------------------------------------------------

namespace Mles

namespace Conn

variable {conn conn' : Conn}

/- What is closed stays closed. -/
theorem Local.isClosed
    {env : Env}
    {c : ConnId}
    {a : Act}
    (hLocal : conn.Local env c a conn')
    (hClosed : conn.isClosed = true) :
    conn'.isClosed = true := by
  cases hLocal with
  | badFirst msg hAt hHeader => rfl
  | badAuth msg hdr hAt hHeader hAuth => rfl
  | leave r n hAt hReads => rfl
  | rejected hAt hErrTx => rfl
  | writeFailed msg hAt => rfl
  | pinged _ items n closed pinger hAct hItems hRoom hStays =>
      exact hStays hClosed
  | ended item _ hAt hItem hSent hNone =>
      rw [hSent.frame]
      exact hClosed
  | _ => exact hClosed

theorem Change.isClosed
    {env : Env}
    {c : ConnId}
    {a : Act}
    (hChange : conn.Change env c a conn')
    (hOpen : conn'.isClosed = false) :
    conn.isClosed = false := by
  cases hClosed : conn.isClosed with
  | false => rfl
  | true =>
      rw [← hOpen]
      symm
      cases hChange with
      | own _ _ hLocal => exact hLocal.isClosed hClosed
      | received i now msg _ hSent =>
          rw [hSent.frame]
          exact hClosed
      | _ => exact hClosed

/- Only reading counts as reading. -/
theorem Change.reads_eq
    {env : Env}
    {c : ConnId}
    {a : Act}
    (hChange : conn.Change env c a conn')
    (hRead : ∀ r, a ≠ .read c r) :
    conn'.reads = conn.reads := by
  cases hChange with
  | own _ _ hLocal =>
      cases hLocal with
      | ended item _ hAt hItem hSent hNone =>
          rw [hSent.frame]
      | noFrame r hFail hAt => rfl
      | badFirst msg hAt hHeader => exact absurd rfl (hRead _)
      | badAuth msg hdr hAt hHeader hAuth =>
          exact absurd rfl (hRead _)
      | goodFirst msg hdr hAt hHeader hAuth =>
          exact absurd rfl (hRead _)
      | leave r n hAt hReads => exact absurd rfl (hRead _)
      | pong msg hAt => exact absurd rfl (hRead _)
      | message msg hAt hOpen hNonzero hData =>
          exact absurd rfl (hRead _)
      | _ => rfl
  | received i now msg _ hSent =>
      rw [hSent.frame]
  | _ => rfl

/- A frame is read whatever becomes of it. -/
theorem reads_onFirstFrame
    (env : Env)
    (c : ConnId)
    (msg : Message)
    (conn : Conn) :
    (conn.onFirstFrame env c msg).reads = conn.reads + 1 := by
  unfold onFirstFrame
  cases env.header msg with
  | none => rfl
  | some hdr =>
      dsimp only
      split
      · rfl
      · rfl

theorem reads_onFrame
    (c : ConnId)
    (msg : Message)
    (conn : Conn) :
    (conn.onFrame c msg).reads = conn.reads + 1 := by
  unfold onFrame
  dsimp only
  split
  · rfl
  · split
    · rfl
    · split
      · rfl
      · split
        · rfl
        · rfl

end Conn

namespace Net

/- What is kept up for the connection `c`. -/
structure Keeps
    (w : Net)
    (c : ConnId) : Prop where
  reads : (w.sys.conns c).reads ≤ (w.sent c).length
  alive :
    (w.sys.conns c).isClosed = false →
      (w.sys.conns c).Alive (w.sent c) (w.owed c) (w.since c)

/-
  The client of `c` has answered every ping that was written
  to it, when the next one is due.
-/
def Responsive
    (c : ConnId)
    (w : Net)
    (a : NetAct) : Prop :=
  a = .act (.tick c) →
    (w.sys.conns c).pinger = .tick → w.owed c = 0

/-
  The server pays attention to `c`: the header comes before
  any pong, with a hash that is not zero, and when a ping is
  due, few pings and pongs wait, or it is not long since the
  server had caught up.
-/
structure Attentive
    (env : Env)
    (c : ConnId)
    (w : Net)
    (a : NetAct) : Prop where
  header :
    ∀ msg, a = .act (.read c (.frame msg)) →
      (w.sys.conns c).receiver = .firstFrame →
        msg.isPong = false ∧
          ∀ hdr, env.header msg = some hdr →
            env.headerHash hdr ≠ 0
  soon :
    a = .act (.tick c) →
      (w.sys.conns c).pinger = .tick →
        w.pending c < 3 ∨ w.since c < 3

/-
  The step is a ping of `c` or the arrival of a pong, and
  closes the connection.
-/
def Drops
    (env : Env)
    (c : ConnId)
    (w : Net)
    (a : NetAct) : Prop :=
  (a = .act (.ping c) ∨
      ∃ data, a = .act (.read c (.frame (.pong data)))) ∧
    (w.sys.conns c).isClosed = false ∧
    ∃ w', step env w a = some w' ∧
      (w'.sys.conns c).isClosed = true

theorem step_act
    {env : Env}
    {w w' : Net}
    {a : Act}
    (hStep : step env w (.act a) = some w') :
    w.delivers a = true ∧
      ∃ sys, w.sys.step env a = some sys ∧
        w' = ⟨sys, w.sent, w.owedAfter a, w.sinceAfter a⟩ := by
  simp only [step] at hStep
  split at hStep
  · rename_i hDelivers
    rcases Option.map_eq_some_iff.mp hStep with
      ⟨sys, hNext, hEq⟩
    exact ⟨hDelivers, sys, hNext, hEq.symm⟩
  · cases hStep

section Steps

variable {env : Env} {w : Net} {c : ConnId} {sys : Sys}

theorem conns_setConn_self
    (conn : Conn) :
    (w.sys.setConn c conn).conns c = conn := by
  rw [Sys.setConn_conns, if_pos rfl]

theorem Keeps.put
    (hKeeps : w.Keeps c)
    (d : ConnId)
    (msg : Message) :
    (w.put d msg).Keeps c := by
  by_cases hEq : d = c
  · subst hEq
    have hSent :
        (w.put d msg).sent d = w.sent d ++ [msg] :=
      Function.update_self _ _ _
    have hOwed :
        (w.put d msg).owed d =
          if msg.isPong then w.owed d - 1 else w.owed d := by
      cases hPong : msg.isPong with
      | false => simp [Net.put, hPong]
      | true => simp [Net.put, hPong]
    constructor
    · rw [hSent, List.length_append]
      exact Nat.le_add_right_of_le hKeeps.reads
    · intro hOpen
      rw [hSent, hOwed]
      exact (hKeeps.alive hOpen).put hKeeps.reads msg
  · have hSent : (w.put d msg).sent c = w.sent c :=
      Function.update_of_ne (Ne.symm hEq) _ _
    have hOwed : (w.put d msg).owed c = w.owed c := by
      cases hPong : msg.isPong with
      | false => simp [Net.put, hPong]
      | true => simp [Net.put, hPong, Ne.symm hEq]
    constructor
    · rw [hSent]
      exact hKeeps.reads
    · intro hOpen
      rw [hSent, hOwed]
      exact hKeeps.alive hOpen

/- The own steps of `c` that are about pings. -/
theorem Keeps.tick
    (hKeeps : w.Keeps c)
    (hOwed : (w.sys.conns c).pinger = .tick → w.owed c = 0)
    (hSoon :
      (w.sys.conns c).pinger = .tick →
        w.pending c < 3 ∨ w.since c < 3)
    (hStep : w.sys.step env (.tick c) = some sys)
    (hOpen : (w.sys.conns c).isClosed = false) :
    (sys.conns c).Alive (w.sent c)
      (w.owedAfter (.tick c) c)
      (w.sinceAfter (.tick c) c) := by
  rcases Option.map_eq_some_iff.mp hStep with
    ⟨conn, hTick, rfl⟩
  have hAlive :=
    (hKeeps.alive hOpen).tick hTick hOpen hOwed rfl hSoon
  have hSince :
      w.sinceAfter (.tick c) c =
        if (w.sys.conns c).pinger = .tick then
          if w.pending c = 0 then 1 else w.since c + 1
        else w.since c := by
    by_cases hPinger : (w.sys.conns c).pinger = .tick
    · simp [sinceAfter, hPinger, caughtUp]
    · simp [sinceAfter, hPinger]
  rw [conns_setConn_self, hSince]
  exact hAlive

theorem Keeps.ping
    (hKeeps : w.Keeps c)
    (hStep : w.sys.step env (.ping c) = some sys)
    (hOpen : (w.sys.conns c).isClosed = false) :
    (sys.conns c).isClosed = false ∧
      (sys.conns c).Alive (w.sent c) (w.owed c)
        (w.since c) := by
  rcases Option.map_eq_some_iff.mp hStep with
    ⟨conn, hPing, rfl⟩
  rw [conns_setConn_self]
  exact (hKeeps.alive hOpen).ping hPing hOpen

theorem Keeps.next
    (hKeeps : w.Keeps c)
    (hStep : w.sys.step env (.next c) = some sys)
    (hOpen : (w.sys.conns c).isClosed = false) :
    (sys.conns c).Alive (w.sent c) (w.owed c)
      (w.since c) := by
  have hAlive := hKeeps.alive hOpen
  have hLive : w.sys.txLive c = true := by
    unfold Sys.txLive
    simp [hAlive.receiver.2.2]
  rcases Option.map_eq_some_iff.mp hStep with
    ⟨conn, hNext, rfl⟩
  rw [hLive] at hNext
  rw [conns_setConn_self]
  exact hAlive.next hNext hOpen

theorem Keeps.write
    (hKeeps : w.Keeps c)
    {ok : Bool}
    (hStep : w.sys.step env (.write c ok) = some sys)
    (hWas : (w.sys.conns c).isClosed = false)
    (hOpen : (sys.conns c).isClosed = false) :
    (sys.conns c).Alive (w.sent c)
      (w.owedAfter (.write c ok) c) (w.since c) := by
  rcases Option.map_eq_some_iff.mp hStep with
    ⟨conn, hWrite, rfl⟩
  rw [conns_setConn_self] at hOpen ⊢
  have hOwed :
      w.owedAfter (.write c ok) c =
        if ok = true ∧
            (w.sys.conns c).sender.isPing = true then
          w.owed c + 1
        else w.owed c := by
    cases ok with
    | false => rfl
    | true =>
        cases hPing : (w.sys.conns c).sender.isPing with
        | false => simp [owedAfter, hPing]
        | true => simp [owedAfter, hPing]
  rw [hOwed]
  exact (hKeeps.alive hWas).write hWrite hOpen

theorem head_of_delivers
    {msg : Message}
    (hDelivers : w.delivers (.read c (.frame msg)) = true) :
    ((w.sent c).drop (w.sys.conns c).reads).head? =
      some msg :=
  of_decide_eq_true hDelivers

/-
  What a read leaves of the connection `c`: a pong closes
  nothing, and what is open is kept up.
-/
structure ReadKept
    (w : Net)
    (c : ConnId)
    (r : Read)
    (conn : Conn) : Prop where
  reads : conn.reads ≤ (w.sent c).length
  pong :
    ∀ data, r = .frame (.pong data) →
      (w.sys.conns c).isClosed = false →
        conn.isClosed = false
  alive :
    (w.sys.conns c).isClosed = false →
      conn.isClosed = false →
        conn.Alive (w.sent c) (w.owed c) (w.since c)

theorem Keeps.firstFrame
    (hKeeps : w.Keeps c)
    {msg : Message}
    (hDelivers : w.delivers (.read c (.frame msg)) = true)
    (hPong : msg.isPong = false)
    (hHash :
      ∀ hdr, env.header msg = some hdr →
        env.headerHash hdr ≠ 0) :
    w.ReadKept c (.frame msg)
      ((w.sys.conns c).onFirstFrame env c msg) := by
  have hHead := head_of_delivers hDelivers
  constructor
  · rw [Conn.reads_onFirstFrame]
    exact (Conn.drop_of_head hHead).1
  · rintro data hEq _
    cases hEq
    cases hPong
  · intro hOpen
    exact (hKeeps.alive hOpen).firstFrame hHead hPong hHash

theorem Keeps.frame
    (hKeeps : w.Keeps c)
    {msg : Message}
    (hAt : (w.sys.conns c).receiver = .nextFrame)
    (hDelivers : w.delivers (.read c (.frame msg)) = true) :
    w.ReadKept c (.frame msg)
      ((w.sys.conns c).onFrame c msg) := by
  constructor
  · rw [Conn.reads_onFrame]
    exact (Conn.drop_of_head (head_of_delivers hDelivers)).1
  · rintro data hEq hOpen
    cases hEq
    exact ((hKeeps.alive hOpen).frame hAt hOpen _).1 rfl
  · intro hOpen
    exact ((hKeeps.alive hOpen).frame hAt hOpen msg).2

/- The socket yields what is not a frame. -/
theorem Keeps.readFailed
    (hKeeps : w.Keeps c)
    {r : Read}
    (hFail : ∀ msg, r ≠ .frame msg)
    {conn : Conn}
    (hReads : conn.reads = (w.sys.conns c).reads)
    (hAlive :
      (w.sys.conns c).isClosed = false →
        conn.isClosed = false →
          conn.Alive (w.sent c) (w.owed c) (w.since c)) :
    w.ReadKept c r conn := by
  constructor
  · rw [hReads]
    exact hKeeps.reads
  · intro data hEq
    exact absurd hEq (hFail _)
  · exact hAlive

/- The socket yields, and a pong closes nothing. -/
theorem Keeps.read
    (hKeeps : w.Keeps c)
    {r : Read}
    (hDelivers : w.delivers (.read c r) = true)
    (hHeader :
      ∀ msg, r = .frame msg →
        (w.sys.conns c).receiver = .firstFrame →
          msg.isPong = false ∧
            ∀ hdr, env.header msg = some hdr →
              env.headerHash hdr ≠ 0)
    (hStep : w.sys.step env (.read c r) = some sys) :
    w.ReadKept c r (sys.conns c) := by
  rcases Option.map_eq_some_iff.mp hStep with
    ⟨conn, hRead, rfl⟩
  rw [conns_setConn_self]
  unfold Conn.read at hRead
  cases hAt : (w.sys.conns c).receiver with
  | firstFrame =>
      rw [hAt] at hRead
      cases r with
      | frame msg =>
          cases hRead
          rcases hHeader msg rfl hAt with ⟨hPong, hHash⟩
          exact hKeeps.firstFrame hDelivers hPong hHash
      | error =>
          cases hRead
          exact hKeeps.readFailed (by simp) rfl
            (fun hOpen _ => (hKeeps.alive hOpen).noFrame)
      | ended =>
          cases hRead
          exact hKeeps.readFailed (by simp) rfl
            (fun hOpen _ => (hKeeps.alive hOpen).noFrame)
  | nextFrame =>
      rw [hAt] at hRead
      cases r with
      | frame msg =>
          cases hRead
          exact hKeeps.frame hAt hDelivers
      | error =>
          cases hRead
          refine hKeeps.readFailed (by simp) rfl ?_
          intro _ hLeft
          cases hLeft
      | ended =>
          cases hRead
          refine hKeeps.readFailed (by simp) rfl ?_
          intro _ hLeft
          cases hLeft
  | _ =>
      rw [hAt] at hRead
      cases hRead

theorem owedAfter_of_quiet
    {a : Act}
    (hQuiet : Conn.Quiet c a) :
    w.owedAfter a c = w.owed c := by
  cases a with
  | write d ok =>
      have hNe : c ≠ d := Ne.symm hQuiet
      cases ok with
      | false => rfl
      | true =>
          cases hPing : (w.sys.conns d).sender.isPing with
          | false => simp [owedAfter, hPing]
          | true => simp [owedAfter, hPing, hNe]
  | _ => rfl

theorem sinceAfter_of_quiet
    {a : Act}
    (hQuiet : Conn.Quiet c a) :
    w.sinceAfter a c = w.since c := by
  cases a with
  | tick d =>
      have hNe : c ≠ d := Ne.symm hQuiet
      by_cases hPinger : (w.sys.conns d).pinger = .tick
      · simp [sinceAfter, hPinger, hNe]
      · simp [sinceAfter, hPinger]
  | _ => rfl

/- One step of the server. -/
theorem Keeps.act
    (hKeeps : w.Keeps c)
    {acts : List Act}
    (hRun : Sys.run env acts = some w.sys)
    {a : Act}
    (hResponsive : Responsive c w (.act a))
    (hAttentive : Attentive env c w (.act a))
    (hDelivers : w.delivers a = true)
    (hStep : w.sys.step env a = some sys) :
    Keeps ⟨sys, w.sent, w.owedAfter a, w.sinceAfter a⟩ c := by
  have hChange :=
    (Sys.step_sound hStep).change
      (Sys.queuedInits_of_run hRun) c
  have hReads (hNoRead : ∀ r, a ≠ .read c r) :
      (sys.conns c).reads ≤ (w.sent c).length := by
    rw [hChange.reads_eq hNoRead]
    exact hKeeps.reads
  by_cases hQuiet : Conn.Quiet c a
  · constructor
    · apply hReads
      rintro r rfl
      exact hQuiet rfl
    · intro hOpen
      simp only [owedAfter_of_quiet hQuiet,
        sinceAfter_of_quiet hQuiet]
      exact hChange.alive
        (hKeeps.alive (hChange.isClosed hOpen)) hQuiet hOpen
  · cases a with
    | read d r =>
        have hEq : d = c := not_not.mp hQuiet
        subst hEq
        have hRead :=
          hKeeps.read hDelivers
            (fun msg hMsg hAt =>
              hAttentive.header msg (by rw [hMsg]) hAt)
            hStep
        exact ⟨hRead.reads, fun hOpen =>
          hRead.alive (hChange.isClosed hOpen) hOpen⟩
    | tick d =>
        have hEq : d = c := not_not.mp hQuiet
        subst hEq
        exact ⟨hReads (by simp), fun hOpen =>
          hKeeps.tick (hResponsive rfl) (hAttentive.soon rfl)
            hStep (hChange.isClosed hOpen)⟩
    | ping d =>
        have hEq : d = c := not_not.mp hQuiet
        subst hEq
        exact ⟨hReads (by simp), fun hOpen =>
          (hKeeps.ping hStep (hChange.isClosed hOpen)).2⟩
    | next d =>
        have hEq : d = c := not_not.mp hQuiet
        subst hEq
        exact ⟨hReads (by simp), fun hOpen =>
          hKeeps.next hStep (hChange.isClosed hOpen)⟩
    | write d ok =>
        have hEq : d = c := not_not.mp hQuiet
        subst hEq
        exact ⟨hReads (by simp), fun hOpen =>
          hKeeps.write hStep (hChange.isClosed hOpen) hOpen⟩
    | _ => exact absurd trivial hQuiet

/- No step of such a run drops the connection. -/
theorem Keeps.not_drops
    (hKeeps : w.Keeps c)
    {a : NetAct}
    (hAttentive : Attentive env c w a) :
    ¬ Drops env c w a := by
  rintro ⟨hAct, hOpen, w', hStep, hClosed⟩
  rcases hAct with rfl | ⟨data, rfl⟩
  · rcases step_act hStep with ⟨_, sys, hNext, rfl⟩
    rw [(hKeeps.ping hNext hOpen).1] at hClosed
    cases hClosed
  · rcases step_act hStep with ⟨hDelivers, sys, hNext, rfl⟩
    have hRead :=
      hKeeps.read hDelivers
        (fun msg hMsg hAt =>
          hAttentive.header msg (by rw [hMsg]) hAt)
        hNext
    rw [hRead.pong data rfl hOpen] at hClosed
    cases hClosed

end Steps

theorem keeps_of_run
    {env : Env}
    {c : ConnId}
    {acts : List NetAct}
    {w : Net}
    (hResponsive :
      Trace.Along (step env) (Responsive c) init acts)
    (hAttentive :
      Trace.Along (step env) (Attentive env c) init acts)
    (hRun : run env acts = some w) :
    w.Keeps c := by
  refine Trace.run_induction_along
    (P := fun acts w =>
      Trace.Along (step env) (Attentive env c) init acts →
        w.Keeps c)
    ?_ ?_ hResponsive hRun hAttentive
  · intro _
    exact ⟨Nat.le_refl _, fun _ => Conn.alive_new⟩
  · intro acts w a w' hPrefix ih hResponds hStep hAll
    have hKeeps := ih hAll.init
    cases a with
    | put d msg =>
        cases hStep
        exact hKeeps.put d msg
    | act a =>
        rcases step_act hStep with ⟨hDelivers, sys, hNext, rfl⟩
        exact hKeeps.act (sys_of_run hPrefix) hResponds
          (hAll.last hPrefix) hDelivers hNext

/-
  For any number of connections and in any interleaving: a
  client that answers every ping written to it before the
  next one is due is never dropped for silence or for its
  pongs, in the runs in which the server pays attention.
-/
theorem not_dropped_for_silence
    (env : Env)
    (c : ConnId)
    (acts : List NetAct)
    (hResponsive :
      Trace.Along (step env) (Responsive c) init acts)
    (hAttentive :
      Trace.Along (step env) (Attentive env c) init acts) :
    Trace.Along (step env)
      (fun w a => ¬ Drops env c w a) init acts := by
  intro before a behind w hSplit hRun
  subst hSplit
  have hKeeps :=
    keeps_of_run hResponsive.init hAttentive.init hRun
  exact hKeeps.not_drops
    (hAttentive before a behind w rfl hRun)

end Net

end Mles

------------------------------------------------------------
-- Checked Runs
------------------------------------------------------------

namespace Mles

namespace Net

/- The conditions, as a run can be checked for them. -/
def responsive
    (c : ConnId)
    (w : Net)
    (a : NetAct) : Bool :=
  a ≠ .act (.tick c) || (w.sys.conns c).pinger ≠ .tick ||
    w.owed c = 0

def attentive
    (env : Env)
    (c : ConnId)
    (w : Net) : NetAct → Bool
| .act (.read d (.frame msg)) =>
    d ≠ c || (w.sys.conns c).receiver ≠ .firstFrame ||
      !msg.isPong &&
        (env.header msg).all
          (fun hdr => env.headerHash hdr ≠ 0)
| .act (.tick d) =>
    d ≠ c || (w.sys.conns c).pinger ≠ .tick ||
      w.pending c < 3 || w.since c < 3
| _ => true

def drops
    (env : Env)
    (c : ConnId)
    (w : Net)
    (a : NetAct) : Bool :=
  (match a with
    | .act (.ping d) => d = c
    | .act (.read d (.frame (.pong _))) => d = c
    | _ => false) &&
    !(w.sys.conns c).isClosed &&
    (step env w a).any (fun w' => (w'.sys.conns c).isClosed)

theorem responsive_sound
    (c : ConnId)
    (w : Net)
    (a : NetAct)
    (hOk : responsive c w a = true) :
    Responsive c w a := by
  rintro rfl hPinger
  simpa [responsive, hPinger] using hOk

theorem attentive_sound
    (env : Env)
    (c : ConnId)
    (w : Net)
    (a : NetAct)
    (hOk : attentive env c w a = true) :
    Attentive env c w a := by
  constructor
  · rintro msg rfl hAt
    simp only [attentive, ne_eq, not_true_eq_false,
      decide_false, Bool.false_or, hAt, Bool.and_eq_true,
      Bool.not_eq_true'] at hOk
    refine ⟨hOk.1, ?_⟩
    intro hdr hHeader
    have hAll := hOk.2
    rw [hHeader] at hAll
    simpa using hAll
  · rintro rfl hPinger
    simpa [attentive, hPinger, or_assoc] using hOk

theorem drops_sound
    {env : Env}
    {c : ConnId}
    {w : Net}
    {a : NetAct}
    (hOk : drops env c w a = true) :
    Drops env c w a := by
  unfold drops at hOk
  rw [Bool.and_eq_true, Bool.and_eq_true,
    Bool.not_eq_true', Option.any_eq_true] at hOk
  rcases hOk with ⟨⟨hAct, hOpen⟩, w', hStep, hClosed⟩
  refine ⟨?_, hOpen, w', hStep, hClosed⟩
  split at hAct
  · exact Or.inl (by rw [of_decide_eq_true hAct])
  · rename_i d data
    exact Or.inr ⟨data, by rw [of_decide_eq_true hAct]⟩
  · cases hAct

/- A run whose last step drops the connection. -/
theorem not_along_of_drops
    {env : Env}
    {c : ConnId}
    {acts : List NetAct}
    {a : NetAct}
    (hDrops :
      (run env acts).any (fun w => drops env c w a) = true) :
    ¬ Trace.Along (step env)
        (fun w a => ¬ Drops env c w a) init (acts ++ [a]) := by
  intro hAlong
  rw [Option.any_eq_true] at hDrops
  rcases hDrops with ⟨w, hRun, hLast⟩
  exact hAlong.last hRun (drops_sound hLast)

/- A ping is sent, written and answered. -/
def answeredPing : List NetAct :=
  [.act (.tick 0), .act (.ping 0), .act (.next 0),
    .act (.write 0 true), .put 0 (.pong [])]

/- The header, up to the wait for its confirmation. -/
def sendsHeader : List NetAct :=
  [.put 0 alice, .act (.read 0 (.frame alice)),
    .act (.resume 0), .act (.tick 0)]

/- The pong is read only after the next tick. -/
def lateRead : List NetAct :=
  [.act (.tick 0), .act (.ping 0),
    .act (.read 0 (.frame (.pong []))), .act (.next 0),
    .act (.write 0 true), .put 0 (.pong [])]

/-
  The event loop takes its time, but not too much: three
  pings are answered before the confirmation, and the pongs
  are read after it, the later ones always after a tick.
-/
def slowStart : List NetAct :=
  sendsHeader ++ answeredPing ++ answeredPing ++
    answeredPing ++
    [.act (.take 0), .act (.resume 0),
      .act (.read 0 (.frame (.pong []))),
      .act (.read 0 (.frame (.pong []))),
      .act (.read 0 (.frame (.pong [])))] ++
    answeredPing ++ lateRead ++ lateRead ++ lateRead ++
    lateRead

theorem not_dropped_slowStart :
    ∃ w,
      run Env.sample slowStart = some w ∧
        (w.sys.conns 0).isClosed = false ∧
        Trace.Along (step Env.sample)
          (fun w a => ¬ Drops Env.sample 0 w a) init
          slowStart := by
  have hRun :
      (run Env.sample slowStart).any
        (fun w => !(w.sys.conns 0).isClosed) = true := by
    decide +kernel
  rw [Option.any_eq_true] at hRun
  rcases hRun with ⟨w, hRun, hOpen⟩
  refine ⟨w, hRun, by simpa using hOpen, ?_⟩
  refine not_dropped_for_silence Env.sample 0 slowStart ?_ ?_
  · exact Trace.Along.of_check (responsive_sound 0)
      (by decide +kernel)
  · exact Trace.Along.of_check (attentive_sound Env.sample 0)
      (by decide +kernel)

/-
  Two runs with clients that answer every ping at once: the
  first pong comes before the header, or the event loop is
  slow to confirm the header and four pings are counted.
-/
theorem responsive_client_dropped :
    ∃ early late : List NetAct,
      early =
          .act (.tick 0) :: answeredPing ++
            [.act (.read 0 (.frame (.pong [])))] ∧
        late =
          sendsHeader ++ answeredPing ++ answeredPing ++
            answeredPing ++
            [.act (.tick 0), .act (.ping 0)] ∧
        Trace.Along (step Env.sample) (Responsive 0) init
          early ∧
        Trace.Along (step Env.sample) (Responsive 0) init
          late ∧
        ¬ Trace.Along (step Env.sample)
            (fun w a => ¬ Drops Env.sample 0 w a) init early ∧
        ¬ Trace.Along (step Env.sample)
            (fun w a => ¬ Drops Env.sample 0 w a) init
            late := by
  refine ⟨_, _, rfl, rfl, ?_, ?_, ?_, ?_⟩
  · exact Trace.Along.of_check (responsive_sound 0)
      (by decide +kernel)
  · exact Trace.Along.of_check (responsive_sound 0)
      (by decide +kernel)
  · exact not_along_of_drops (by decide +kernel)
  · have hLate :
        sendsHeader ++ answeredPing ++ answeredPing ++
            answeredPing ++ [.act (.tick 0), .act (.ping 0)] =
          (sendsHeader ++ answeredPing ++ answeredPing ++
            answeredPing ++ [.act (.tick 0)]) ++
            [.act (.ping 0)] :=
      rfl
    rw [hLate]
    exact not_along_of_drops (by decide +kernel)

end Net

end Mles
