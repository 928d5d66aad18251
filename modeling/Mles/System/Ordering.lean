import Mles.Hub.Order
import Mles.System.Publishing
import Mles.System.Refinement

/-
  The order of delivery, from socket to socket.

  The frames of one client go through one place at a time:
  the hands of its receiver task, the event queue, the event
  loop.  So they are handled in the order they were read.
  What the event loop sends on a queue stands in the order
  it handled it, and what is written to a socket is the
  beginning of what was sent on the queue: the sender task
  may stop at any point, and writes nothing after that.

  Two clients of one channel are sent the same frames while
  both are registered, those of clients with their own
  hashes apart; so of these frames one of them has been
  written a beginning of what the other has.

  Key definitions include:
    * `Frame.Before`
    * `Sys.InOrder`
    * `Sys.writtenTo`
    * `Conn.Transit`
    * `Sys.jointlyIn`
    * `Sys.Joint`

  Key theorems include:
    * `Sys.inOrder_of_run`
    * `Sys.sentOn_sublist_taken`
    * `Sys.written_prefix_sent`
    * `Sys.joint_of_run`
    * `Sys.delivery_in_order`
-/

------------------------------------------------------------
-- Frames of One Client
------------------------------------------------------------

namespace Mles

/- The frame an event carries. -/
def WsEvent.frame
    {T E M : Type} : WsEvent T E M → Option M
| .init _ _ _ _ m => some m
| .msg _ _ m => some m
| .logoff _ _ => none

/- The header hash of the client an event is from. -/
def WsEvent.hash
    {T E M : Type} : WsEvent T E M → UInt64
| .init h _ _ _ _ => h
| .msg h _ _ => h
| .logoff h _ => h

/- The queue an event carries. -/
def WsEvent.tx2
    {T E M : Type} : WsEvent T E M → Option T
| .init _ _ tx2 _ _ => some tx2
| .msg _ _ _ => none
| .logoff _ _ => none

/- If both are of one client, the first was read first. -/
def Frame.Before (f g : Frame) : Prop :=
  ∀ c n m x y,
    f = .client c n x → g = .client c m y → n < m

/- The number of a frame among those of a client. -/
def Frame.seqOf
    (c : ConnId) : Frame → Option Nat
| .client d n _ => if d = c then some n else none
| .server _ => none

/- The frame the receiver task is about to queue. -/
def Conn.inHand (conn : Conn) : List Frame :=
  match conn.receiver with
  | .sendInit _ _ f => [f]
  | .sendMsg _ _ f => [f]
  | .firstFrame => []
  | .awaitInit => []
  | .sendClose => []
  | .nextFrame => []
  | .sendNone => []
  | .done => []

/-
  What a step may do to the hands of a receiver task: leave
  them, empty them, or put the next frame into them.
-/
def Conn.Handed
    (c : ConnId)
    (conn conn' : Conn) : Prop :=
  conn.reads ≤ conn'.reads ∧
      (conn'.inHand = conn.inHand ∨ conn'.inHand = []) ∨
    ∃ msg,
      conn'.inHand = [.client c conn.reads msg] ∧
        conn'.reads = conn.reads + 1

theorem Conn.Change.handed
    {env : Env}
    {c : ConnId}
    {conn conn' : Conn}
    {a : Act}
    (hChange : conn.Change env c a conn') :
    Conn.Handed c conn conn' := by
  cases hChange with
  | own _ _ hLocal =>
      cases hLocal with
      | noFrame r hFail hAt =>
          exact Or.inl ⟨Nat.le_refl _, Or.inr rfl⟩
      | badFirst msg hAt hHeader =>
          exact Or.inl ⟨Nat.le_succ _, Or.inr rfl⟩
      | badAuth msg hdr hAt hHeader hAuth =>
          exact Or.inl ⟨Nat.le_succ _, Or.inr rfl⟩
      | goodFirst msg hdr hAt hHeader hAuth =>
          exact Or.inr ⟨msg, rfl, rfl⟩
      | leave r n hAt hReads =>
          exact Or.inl ⟨hReads, Or.inr rfl⟩
      | pong msg hAt =>
          refine Or.inl ⟨Nat.le_succ _, Or.inr ?_⟩
          simp [inHand, hAt]
      | message msg hAt hOpen hNonzero hData =>
          exact Or.inr ⟨msg, rfl, rfl⟩
      | confirmed h hAt hErrTx =>
          exact Or.inl ⟨Nat.le_refl _, Or.inr rfl⟩
      | rejected hAt hErrTx =>
          exact Or.inl ⟨Nat.le_refl _, Or.inr rfl⟩
      | ended item sent hAt hItem hSent =>
          rw [hSent.frame]
          exact Or.inl ⟨Nat.le_refl _, Or.inr rfl⟩
      | _ => exact Or.inl ⟨Nat.le_refl _, Or.inl rfl⟩
  | queueInit h ch msg hAt =>
      exact Or.inl ⟨Nat.le_refl _, Or.inr rfl⟩
  | queueMsg h ch msg hAt =>
      exact Or.inl ⟨Nat.le_refl _, Or.inr rfl⟩
  | queueLogoff h ch hAt =>
      exact Or.inl ⟨Nat.le_refl _, Or.inl rfl⟩
  | answered now errTx hWaiting hAnswer =>
      exact Or.inl ⟨Nat.le_refl _, Or.inl rfl⟩
  | received i now msg _ hSent =>
      rw [hSent.frame]
      exact Or.inl ⟨Nat.le_refl _, Or.inl rfl⟩
  | other _ hOther =>
      exact Or.inl ⟨Nat.le_refl _, Or.inl rfl⟩

end Mles

------------------------------------------------------------
-- From the Socket to the Event Loop
------------------------------------------------------------

namespace Mles

namespace Sys

/-
  The frames queued so far, taken or not, and those in the
  hands of the receiver tasks, all in the order of reading.
-/
structure InOrder
    (frames : List Frame)
    (conns : ConnId → Conn) : Prop where
  sorted : frames.Pairwise Frame.Before
  below :
    ∀ f ∈ frames,
      ∃ c n x, f = .client c n x ∧ n < (conns c).reads
  hand :
    ∀ c, ∀ g ∈ (conns c).inHand,
      (∃ n x, g = .client c n x ∧ n < (conns c).reads) ∧
        ∀ f ∈ frames, f.Before g

theorem reads_le_of_handed
    {c : ConnId}
    {conn conn' : Conn}
    (hHanded : Conn.Handed c conn conn') :
    conn.reads ≤ conn'.reads := by
  rcases hHanded with ⟨hReads, _⟩ | ⟨msg, _, hReads⟩
  · exact hReads
  · omega

/- A step that queues no frame. -/
theorem InOrder.step
    {frames : List Frame}
    {conns conns' : ConnId → Conn}
    (hOrder : InOrder frames conns)
    (hHanded : ∀ c, Conn.Handed c (conns c) (conns' c)) :
    InOrder frames conns' where
  sorted := hOrder.sorted
  below := by
    intro f hMem
    rcases hOrder.below f hMem with ⟨c, n, x, rfl, hLt⟩
    exact ⟨c, n, x, rfl,
      Nat.lt_of_lt_of_le hLt (reads_le_of_handed (hHanded c))⟩
  hand := by
    intro c g hMem
    rcases hHanded c with
      ⟨hReads, hSame | hNone⟩ | ⟨msg, hNew, hReads⟩
    · rw [hSame] at hMem
      rcases hOrder.hand c g hMem with
        ⟨⟨n, x, rfl, hLt⟩, hBefore⟩
      exact ⟨⟨n, x, rfl, Nat.lt_of_lt_of_le hLt hReads⟩,
        hBefore⟩
    · rw [hNone] at hMem
      cases hMem
    · -- What was queued of this client was read before.
      rw [hNew] at hMem
      cases List.mem_singleton.mp hMem
      refine ⟨⟨_, msg, rfl, by omega⟩, ?_⟩
      intro f hOld c' n m x y hF hG
      cases hG
      rcases hOrder.below f hOld with ⟨d, k, z, hEq, hLt⟩
      rw [hEq] at hF
      cases hF
      exact hLt

/- The frame in a receiver task's hands is queued. -/
theorem InOrder.queue
    {frames : List Frame}
    {conns conns' : ConnId → Conn}
    {c : ConnId}
    {f : Frame}
    (hOrder : InOrder frames conns)
    (hHanded : ∀ c, Conn.Handed c (conns c) (conns' c))
    (hHand : f ∈ (conns c).inHand)
    (hEmpty : (conns' c).inHand = []) :
    InOrder (frames ++ [f]) conns' := by
  have hNext := hOrder.step hHanded
  rcases hOrder.hand c f hHand with
    ⟨⟨n, x, rfl, hLt⟩, hBefore⟩
  have hReads := reads_le_of_handed (hHanded c)
  refine ⟨?_, ?_, ?_⟩
  · rw [List.pairwise_append]
    refine ⟨hOrder.sorted, List.pairwise_singleton _ _, ?_⟩
    intro g hMem h hLast
    cases List.mem_singleton.mp hLast
    exact hBefore g hMem
  · intro g hMem
    rcases List.mem_append.mp hMem with hOld | hLast
    · exact hNext.below g hOld
    · cases List.mem_singleton.mp hLast
      exact ⟨c, n, x, rfl, by omega⟩
  · intro d g hMem
    rcases hNext.hand d g hMem with ⟨hOwn, hAfter⟩
    refine ⟨hOwn, ?_⟩
    intro h hQueued
    rcases List.mem_append.mp hQueued with hOld | hLast
    · exact hAfter h hOld
    · -- No other client has this frame's place.
      cases List.mem_singleton.mp hLast
      rcases hOwn with ⟨k, y, rfl, _⟩
      intro c' i j x' y' hF hG
      cases hF
      cases hG
      rw [hEmpty] at hMem
      cases hMem

/- All events queued in a run, those taken first. -/
def queuedIn
    (env : Env)
    (acts : List Act)
    (s : Sys) : List TaskEvent :=
  takenIn env acts ++ s.events.map Prod.snd

/- The receiver task that queues an event has no frame left. -/
theorem Step.inHand_resume
    {env : Env}
    {s s' : Sys}
    {c : ConnId}
    (hStep : Step env s (.resume c) s')
    (hMore : s'.events ≠ s.events) :
    (s'.conns c).inHand = [] := by
  cases hStep with
  | conn d _ conn' hLocal => exact absurd rfl hMore
  | queueInit _ h ch msg hAt hRoom =>
      simp [setConn, Conn.inHand]
  | queueMsg _ h ch msg hAt hRoom =>
      simp [setConn, Conn.inHand]

/- What a step adds to the events queued. -/
theorem Step.queuedIn_cases
    {env : Env}
    {acts : List Act}
    {s s' : Sys}
    {a : Act}
    (hRun : run env acts = some s)
    (hStep : Step env s a s') :
    queuedIn env (acts ++ [a]) s' = queuedIn env acts s ∨
    ∃ c e,
      queuedIn env (acts ++ [a]) s' =
          queuedIn env acts s ++ [e] ∧
        ((∃ h ch f,
            e = .init h ch c c f ∧
              (s.conns c).receiver = .sendInit h ch f ∧
              (s'.conns c).inHand = []) ∨
          (∃ h ch f,
            e = .msg h ch f ∧
              (s.conns c).receiver = .sendMsg h ch f ∧
              (s'.conns c).inHand = []) ∨
          ∃ h ch, e = .logoff h ch) := by
  have hLog :
      takenIn env (acts ++ [a]) =
        takenIn env acts ++ s.taken a :=
    Trace.collect_snoc taken a hRun
  have hGrown :
      ∀ e, s.events ++ [e] ≠ s.events := by
    intro e hEq
    have hLength := congrArg List.length hEq
    simp at hLength
  unfold queuedIn
  rw [hLog]
  rcases hStep.events_cases with
    ⟨hSame, hOther, _⟩ | ⟨now, e, rfl, hTail⟩ |
    ⟨c, h, ch, f, rfl, hAt, hEvents⟩ |
    ⟨c, h, ch, f, rfl, hAt, hEvents⟩ |
    ⟨c, h, ch, rfl, hAt, _, hEvents⟩
  · left
    have hNone : s.taken a = [] := by
      cases a with
      | take now => exact absurd rfl (hOther now)
      | _ => rfl
    rw [hNone, hSame, List.append_nil]
  · left
    simp [taken, hTail]
  · right
    refine ⟨c, .init h ch c c f, ?_,
      Or.inl ⟨h, ch, f, rfl, hAt, ?_⟩⟩
    · simp [taken, hEvents]
    · exact hStep.inHand_resume (hEvents ▸ hGrown _)
  · right
    refine ⟨c, .msg h ch f, ?_,
      Or.inr (Or.inl ⟨h, ch, f, rfl, hAt, ?_⟩)⟩
    · simp [taken, hEvents]
    · exact hStep.inHand_resume (hEvents ▸ hGrown _)
  · right
    refine ⟨c, .logoff h ch, ?_,
      Or.inr (Or.inr ⟨h, ch, rfl⟩)⟩
    simp [taken, hEvents]

theorem inOrder_of_run
    {env : Env}
    {acts : List Act}
    {s : Sys}
    (hRun : run env acts = some s) :
    InOrder ((queuedIn env acts s).filterMap WsEvent.frame)
      s.conns := by
  refine Trace.run_induction
    (P := fun acts s =>
      InOrder ((queuedIn env acts s).filterMap WsEvent.frame)
        s.conns)
    ?_ ?_ hRun
  · refine ⟨List.Pairwise.nil, ?_, ?_⟩
    · intro f hMem
      cases hMem
    · intro c g hMem
      cases hMem
  · intro acts s a s' hPrefix hOrder hStep
    have hSound := step_sound hStep
    have hHanded :
        ∀ c, Conn.Handed c (s.conns c) (s'.conns c) :=
      fun c =>
        (hSound.change (queuedInits_of_run hPrefix) c).handed
    rcases hSound.queuedIn_cases hPrefix with
      hSame | ⟨c, e, hMore, hInit | hMsg | hLogoff⟩
    · rw [hSame]
      exact hOrder.step hHanded
    · rcases hInit with ⟨h, ch, f, rfl, hAt, hEmpty⟩
      rw [hMore, List.filterMap_append]
      exact hOrder.queue hHanded
        (by simp [Conn.inHand, hAt]) hEmpty
    · rcases hMsg with ⟨h, ch, f, rfl, hAt, hEmpty⟩
      rw [hMore, List.filterMap_append]
      exact hOrder.queue hHanded
        (by simp [Conn.inHand, hAt]) hEmpty
    · rcases hLogoff with ⟨h, ch, rfl⟩
      rw [hMore, List.filterMap_append]
      change InOrder (_ ++ []) _
      rw [List.append_nil]
      exact hOrder.step hHanded

/- Every `Init` carries the first frame of its client. -/
theorem init_of_queuedIn
    {env : Env}
    {acts : List Act}
    {s : Sys}
    (hRun : run env acts = some s)
    {h ch : UInt64}
    {tx2 errTx : ConnId}
    {f : Frame}
    (hMem : .init h ch tx2 errTx f ∈ queuedIn env acts s) :
    ∃ x, f = .client tx2 0 x := by
  refine Trace.run_induction
    (P := fun acts s =>
      ∀ h ch tx2 errTx f,
        .init h ch tx2 errTx f ∈ queuedIn env acts s →
          ∃ x, f = .client tx2 0 x)
    ?_ ?_ hRun h ch tx2 errTx f hMem
  · intro h ch tx2 errTx f hMem
    cases hMem
  · intro acts s a s' hPrefix hInits hStep h ch tx2 errTx f hMem
    rcases (step_sound hStep).queuedIn_cases hPrefix with
      hSame | ⟨c, e, hMore, hInit | hMsg | hLogoff⟩
    · rw [hSame] at hMem
      exact hInits h ch tx2 errTx f hMem
    · rcases hInit with ⟨h', ch', f', rfl, hAt, _⟩
      rw [hMore, List.mem_append, List.mem_singleton] at hMem
      rcases hMem with hOld | hNew
      · exact hInits h ch tx2 errTx f hOld
      · cases hNew
        rcases ((traced_of_run hPrefix _).sendInit h ch f
          hAt).2.2 with ⟨msg, _, hFrame⟩
        exact ⟨msg, hFrame⟩
    · rcases hMsg with ⟨h', ch', f', rfl, _⟩
      rw [hMore, List.mem_append, List.mem_singleton] at hMem
      rcases hMem with hOld | hNew
      · exact hInits h ch tx2 errTx f hOld
      · cases hNew
    · rcases hLogoff with ⟨h', ch', rfl⟩
      rw [hMore, List.mem_append, List.mem_singleton] at hMem
      rcases hMem with hOld | hNew
      · exact hInits h ch tx2 errTx f hOld
      · cases hNew

/- No connection brings its queue twice. -/
theorem nodup_tx2_taken
    {env : Env}
    {acts : List Act}
    {s : Sys}
    (hRun : run env acts = some s) :
    ((takenIn env acts).filterMap WsEvent.tx2).Nodup := by
  have hSorted := (inOrder_of_run hRun).sorted
  have hTaken :
      ((takenIn env acts).filterMap WsEvent.frame).Pairwise
        Frame.Before := by
    refine hSorted.sublist (List.Sublist.filterMap _ ?_)
    exact List.sublist_append_left _ _
  have hInits :
      ∀ e ∈ takenIn env acts, ∀ tx, e.tx2 = some tx →
        ∃ x, e.frame = some (.client tx 0 x) := by
    intro e hMem tx hTx
    cases e with
    | init h ch tx2 errTx f =>
        cases hTx
        rcases init_of_queuedIn hRun
          (List.mem_append_left _ hMem) with ⟨x, rfl⟩
        exact ⟨x, rfl⟩
    | msg h ch f => cases hTx
    | logoff h ch => cases hTx
  rw [List.pairwise_filterMap] at hTaken
  rw [List.Nodup, List.pairwise_filterMap]
  refine hTaken.imp_of_mem ?_
  intro e e' hMem hMem' hBefore tx hTx tx' hTx' hEq
  subst hEq
  rcases hInits e hMem tx hTx with ⟨x, hFrame⟩
  rcases hInits e' hMem' tx hTx' with ⟨x', hFrame'⟩
  exact absurd
    (hBefore _ hFrame _ hFrame' tx 0 0 x x' rfl rfl)
    (Nat.lt_irrefl 0)

end Sys

end Mles

------------------------------------------------------------
-- From the Event Loop to the Queues
------------------------------------------------------------

namespace Mles

/- The turns that took these events brought their frames. -/
theorem Event.message_eq_bare
    {T M : Type}
    (e : Event T M) :
    e.message = e.bare.bind WsEvent.frame := by
  cases e with
  | init h ch tx2 m created now => rfl
  | msg h ch m now => rfl
  | logoff h ch => rfl
  | cleanup now => rfl

theorem Event.tx2_eq_bare
    {T M : Type}
    (e : Event T M) :
    e.tx2 = e.bare.bind WsEvent.tx2 := by
  cases e with
  | init h ch tx2 m created now => rfl
  | msg h ch m now => rfl
  | logoff h ch => rfl
  | cleanup now => rfl

theorem WsEvent.frame_bare
    {T E M : Type}
    (e : WsEvent T E M) :
    e.bare.frame = e.frame := by
  cases e with
  | init h ch tx2 errTx m => rfl
  | msg h ch m => rfl
  | logoff h ch => rfl

theorem WsEvent.tx2_bare
    {T E M : Type}
    (e : WsEvent T E M) :
    e.bare.tx2 = e.tx2 := by
  cases e with
  | init h ch tx2 errTx m => rfl
  | msg h ch m => rfl
  | logoff h ch => rfl

namespace Sys

theorem messages_eq_taken
    {env : Env}
    {acts : List Act}
    {es : List (Event ConnId Frame)}
    (hEvents :
      es.filterMap Event.bare =
        (takenIn env acts).map WsEvent.bare) :
    Hub.messages es =
      (takenIn env acts).filterMap WsEvent.frame := by
  have hBare := congrArg (List.filterMap WsEvent.frame)
    hEvents
  simp only [List.filterMap_filterMap, List.filterMap_map,
    Function.comp_def, ← Event.message_eq_bare,
    WsEvent.frame_bare] at hBare
  exact hBare

/- So no turn brings a queue that was brought before. -/
theorem nodup_queues
    {env : Env}
    {acts : List Act}
    {s : Sys}
    (hRun : run env acts = some s)
    {es : List (Event ConnId Frame)}
    (hEvents :
      es.filterMap Event.bare =
        (takenIn env acts).map WsEvent.bare) :
    (Hub.queues es).Nodup := by
  have hQueues :
      Hub.queues es =
        (takenIn env acts).filterMap WsEvent.tx2 := by
    have hBare := congrArg (List.filterMap WsEvent.tx2)
      hEvents
    simp only [List.filterMap_filterMap, List.filterMap_map,
      Function.comp_def, ← Event.tx2_eq_bare,
      WsEvent.tx2_bare] at hBare
    exact hBare
  rw [hQueues]
  exact nodup_tx2_taken hRun

/-
  What has been sent on a queue, and is about to be sent,
  stands in the order of the events.
-/
theorem sentOn_sublist_taken
    {env : Env}
    {acts : List Act}
    {s : Sys}
    (hRun : run env acts = some s)
    (tx : ConnId) :
    (Hub.sentOn tx
        (sentIn env acts ++ s.task.pending)).Sublist
      ((takenIn env acts).filterMap WsEvent.frame) := by
  rcases refines_of_run hRun 0 with ⟨es, hAgrees⟩
  have hOnce := nodup_queues hRun hAgrees.events
  rw [← hAgrees.sent tx, ← messages_eq_taken hAgrees.events]
  exact Hub.sentOn_sublist env.limit hOnce tx

end Sys

end Mles

------------------------------------------------------------
-- From the Queues to the Sockets
------------------------------------------------------------

namespace Mles

/- The frames of a queue. -/
def WsItem.frame : WsItem → Option Frame
| some (.ok f) => some f
| some (.error _) => none
| none => none

theorem WsItem.frame_eq_some_iff
    {item : WsItem}
    {f : Frame} :
    item.frame = some f ↔ item = some (.ok f) := by
  rcases item with _ | (error | g)
  · simp [WsItem.frame]
  · simp [WsItem.frame]
  · simp [WsItem.frame]

namespace Conn

/-
  The frames that are still to be written, of those that
  meet `p`; none once the sender task writes no more.
-/
def ahead
    (p : Frame → Bool)
    (conn : Conn) : Option (List Frame) :=
  let queued := (conn.rx2.filterMap WsItem.frame).filter p
  match conn.sender with
  | .next => some queued
  | .write f => some ([f].filter p ++ queued)
  | .writeClose => none
  | .sendLogoff _ _ => none
  | .done => none

/-
  What was sent to the connection, against what was written
  to its socket.
-/
structure Transit
    (p : Frame → Bool)
    (sent written : List Frame)
    (conn : Conn) : Prop where
  complete :
    ∀ rest, conn.ahead p = some rest → sent = written ++ rest
  begun : written <+: sent

/- The frame a completed write has written. -/
def writes (conn : Conn) : List Frame :=
  match conn.sender with
  | .write f => [f]
  | .next => []
  | .writeClose => []
  | .sendLogoff _ _ => []
  | .done => []

section Transit

variable {p : Frame → Bool}
variable {sent written : List Frame}
variable {conn conn' : Conn}

theorem Transit.of_ahead
    (hTransit : Transit p sent written conn)
    (hAhead :
      ∀ rest, conn'.ahead p = some rest →
        conn.ahead p = some rest) :
    Transit p sent written conn' where
  complete := fun rest hRest =>
    hTransit.complete rest (hAhead rest hRest)
  begun := hTransit.begun

/- Steps that leave the queue and the sender task alone. -/
theorem Transit.congr
    (hTransit : Transit p sent written conn)
    (hQueue : conn'.rx2 = conn.rx2)
    (hSender : conn'.sender = conn.sender) :
    Transit p sent written conn' := by
  apply hTransit.of_ahead
  intro rest hRest
  rw [← hRest]
  unfold ahead
  rw [hQueue, hSender]

/- The frames of the server itself do not count. -/
theorem filter_frame_append
    (hServer : ∀ msg, p (.server msg) = false)
    {items : List WsItem}
    (hItems : ∀ item ∈ items, item.isServer = true)
    (rx2 : List WsItem) :
    ((rx2 ++ items).filterMap WsItem.frame).filter p =
      (rx2.filterMap WsItem.frame).filter p := by
  have hNone : (items.filterMap WsItem.frame).filter p = [] := by
    rw [List.filter_eq_nil_iff]
    intro f hMem
    rcases List.mem_filterMap.mp hMem with
      ⟨item, hItem, hFrame⟩
    rw [WsItem.frame_eq_some_iff] at hFrame
    subst hFrame
    rcases isServer_ok (hItems _ hItem) with ⟨msg, rfl⟩
    simp [hServer]
  rw [List.filterMap_append, List.filter_append, hNone,
    List.append_nil]

/- A frame is sent to the connection. -/
theorem Transit.send
    {f : Frame}
    (hTransit : Transit p sent written conn)
    (hSent : Sent (some (.ok f)) conn conn') :
    Transit p (sent ++ [f].filter p) written conn' := by
  cases hSent with
  | closed hDone =>
      refine ⟨?_, hTransit.begun.trans
        (List.prefix_append _ _)⟩
      intro rest hRest
      simp [ahead, hDone] at hRest
  | queued hAlive hRoom =>
      refine ⟨?_, hTransit.begun.trans
        (List.prefix_append _ _)⟩
      intro rest hRest
      simp only [ahead, List.filterMap_append,
        List.filter_append] at hRest
      have hNew :
          [some (.ok f)].filterMap WsItem.frame = [f] := rfl
      cases hSender : conn.sender with
      | next =>
          have hOld := hTransit.complete
            ((conn.rx2.filterMap WsItem.frame).filter p)
            (by simp [ahead, hSender])
          rw [hOld, List.append_assoc]
          rw [hSender, hNew] at hRest
          cases hRest
          rfl
      | write g =>
          have hOld := hTransit.complete
            ([g].filter p ++
              (conn.rx2.filterMap WsItem.frame).filter p)
            (by simp [ahead, hSender])
          rw [hOld, List.append_assoc]
          rw [hSender, hNew] at hRest
          cases hRest
          rw [List.append_assoc]
      | writeClose =>
          rw [hSender] at hRest
          cases hRest
      | sendLogoff h ch =>
          rw [hSender] at hRest
          cases hRest
      | done => exact absurd hSender hAlive

/- A step of the connection's own tasks. -/
theorem Transit.local
    {env : Env}
    {c : ConnId}
    {a : Act}
    (hServer : ∀ msg, p (.server msg) = false)
    (hTransit : Transit p sent written conn)
    (hLocal : conn.Local env c a conn')
    (hOther : a ≠ .write c true) :
    Transit p sent written conn' := by
  have hStop :
      conn'.ahead p = none → Transit p sent written conn' := by
    intro hNone
    apply hTransit.of_ahead
    intro rest hRest
    rw [hNone] at hRest
    cases hRest
  cases hLocal with
  | ended item sent hAt hItem hSent =>
      cases hSent with
      | closed hDone => exact hTransit.congr rfl rfl
      | queued hAlive hRoom =>
          apply hTransit.of_ahead
          intro rest hRest
          rw [← hRest]
          unfold ahead
          simp only
          rw [filter_frame_append hServer
            (by simpa using hItem)]
  | pinged _ items n closed pinger hAct hItems =>
      apply hTransit.of_ahead
      intro rest hRest
      rw [← hRest]
      unfold ahead
      simp only
      rw [filter_frame_append hServer hItems]
  | taken msg items hAt hQueue hOpen =>
      apply hTransit.of_ahead
      intro rest hRest
      rw [← hRest]
      simp [ahead, hAt, hQueue, WsItem.frame,
        List.filter_cons]
      split <;> simp
  | drained items hAt hQueue => exact hStop rfl
  | written msg hAt => exact absurd rfl hOther
  | writeFailed msg hAt => exact hStop rfl
  | cleanup ok hAt hNonzero => exact hStop rfl
  | finished ok hAt hZero => exact hStop rfl
  | _ => exact hTransit.congr rfl rfl

/- A write of the sender task completes. -/
theorem Transit.write
    {env : Env}
    {c : ConnId}
    (hTransit : Transit p sent written conn)
    (hLocal : conn.Local env c (.write c true) conn') :
    Transit p sent (written ++ conn.writes.filter p)
      conn' := by
  cases hLocal with
  | pinged _ items n closed pinger hAct =>
      rcases hAct with hAct | hAct
      · cases hAct
      · cases hAct
  | written msg hAt =>
      have hAll := hTransit.complete
        ([msg].filter p ++
          (conn.rx2.filterMap WsItem.frame).filter p)
        (by simp [ahead, hAt])
      have hWrites : conn.writes = [msg] := by
        simp [writes, hAt]
      rw [hWrites]
      refine ⟨?_, ?_⟩
      · intro rest hRest
        cases hRest
        rw [hAll, List.append_assoc]
      · rw [hAll, ← List.append_assoc]
        exact List.prefix_append _ _
  | cleanup ok hAt hNonzero =>
      have hWrites : conn.writes = [] := by
        simp [writes, hAt]
      rw [hWrites, List.filter_nil, List.append_nil]
      exact hTransit.of_ahead (by simp [ahead])
  | finished ok hAt hZero =>
      have hWrites : conn.writes = [] := by
        simp [writes, hAt]
      rw [hWrites, List.filter_nil, List.append_nil]
      exact hTransit.of_ahead (by simp [ahead, finish])

end Transit

end Conn

end Mles

namespace Mles

namespace Sys

/- The frame a step writes to a socket. -/
def writes
    (s : Sys) : Act → List (ConnId × Frame)
| .write c true => (s.conns c).writes.map (fun f => (c, f))
| _ => []

/- The frames written to the socket of a connection. -/
def writtenTo
    (env : Env)
    (acts : List Act)
    (tx : ConnId) : List Frame :=
  Hub.sentOn tx (Trace.collect (step env) writes init acts)

/- Only a write of its own connection writes. -/
theorem writes_of_local
    {env : Env}
    {c : ConnId}
    {a : Act}
    {s : Sys}
    {conn' : Conn}
    (hLocal : (s.conns c).Local env c a conn') :
    s.writes a = [] ∨ a = .write c true := by
  cases hLocal with
  | pinged _ items n closed pinger hAct =>
      rcases hAct with rfl | rfl
      · exact Or.inl rfl
      · exact Or.inl rfl
  | written msg hAt => exact Or.inr rfl
  | cleanup ok hAt hNonzero =>
      cases ok with
      | true => exact Or.inr rfl
      | false => exact Or.inl rfl
  | finished ok hAt hZero =>
      cases ok with
      | true => exact Or.inr rfl
      | false => exact Or.inl rfl
  | _ => exact Or.inl rfl

/- The logs of a step, for the connection it concerns. -/
theorem transit_setConn
    {p : Frame → Bool}
    {s : Sys}
    {sent written : ConnId → List Frame}
    (hTransit :
      ∀ tx, (s.conns tx).Transit p (sent tx) (written tx))
    {c : ConnId}
    {conn : Conn}
    (sends writes : List Frame)
    (hConn :
      conn.Transit p (sent c ++ sends.filter p)
        (written c ++ writes.filter p))
    (tx : ConnId) :
    ((s.setConn c conn).conns tx).Transit p
      (sent tx ++
        (Hub.sentOn tx
          (sends.map (fun f => (c, f)))).filter p)
      (written tx ++
        (Hub.sentOn tx
          (writes.map (fun f => (c, f)))).filter p) := by
  rw [Hub.sentOn_replay, Hub.sentOn_replay]
  refine forall_setConn
    (P := fun tx conn =>
      conn.Transit p
        (sent tx ++ (if c = tx then sends else []).filter p)
        (written tx ++ (if c = tx then writes else []).filter p))
    ?_ ?_ tx
  · rw [if_pos rfl, if_pos rfl]
    exact hConn
  · intro d hNe
    rw [if_neg (fun hEq => hNe hEq.symm),
      if_neg (fun hEq => hNe hEq.symm)]
    simpa using hTransit d

/- A step that neither sends nor writes. -/
theorem transit_quiet
    {p : Frame → Bool}
    {s : Sys}
    {sent written : ConnId → List Frame}
    (hTransit :
      ∀ tx, (s.conns tx).Transit p (sent tx) (written tx))
    {c : ConnId}
    {conn : Conn}
    (hConn : conn.Transit p (sent c) (written c))
    (tx : ConnId) :
    ((s.setConn c conn).conns tx).Transit p (sent tx ++ [])
      (written tx ++ []) := by
  have hNone :
      conn.Transit p (sent c ++ ([] : List Frame).filter p)
        (written c ++ ([] : List Frame).filter p) := by
    simpa using hConn
  simpa using transit_setConn hTransit [] [] hNone tx

theorem Step.transit
    {env : Env}
    {p : Frame → Bool}
    {s s' : Sys}
    {a : Act}
    {sent written : ConnId → List Frame}
    (hServer : ∀ msg, p (.server msg) = false)
    (hTransit :
      ∀ tx, (s.conns tx).Transit p (sent tx) (written tx))
    (hStep : Step env s a s')
    (tx : ConnId) :
    (s'.conns tx).Transit p
      (sent tx ++ (Hub.sentOn tx (s.sends a)).filter p)
      (written tx ++ (Hub.sentOn tx (s.writes a)).filter p) := by
  cases hStep with
  | conn c _ conn' hLocal =>
      rw [(taken_sends_of_local hLocal s).2]
      by_cases hWrite : a = .write c true
      · subst hWrite
        have hConn := (hTransit c).write hLocal
        rw [← List.append_nil (sent c)] at hConn
        exact transit_setConn hTransit [] _ hConn tx
      · rcases writes_of_local hLocal with hNone | hSome
        · rw [hNone]
          exact transit_quiet hTransit
            ((hTransit c).local hServer hLocal hWrite) tx
        · exact absurd hSome hWrite
  | queueInit c h ch msg hAt hRoom =>
      refine transit_quiet hTransit ?_ tx
      exact (hTransit c).congr rfl rfl
  | queueMsg c h ch msg hAt hRoom =>
      refine transit_quiet hTransit ?_ tx
      exact (hTransit c).congr rfl rfl
  | queueLogoff c h ch hAt hRoom =>
      exact transit_quiet hTransit
        ((hTransit c).of_ahead (by simp [Conn.ahead, Conn.finish]))
        tx
  | cleanup now hIdle =>
      simpa [sends, writes] using hTransit tx
  | accept now c h ch tx2 errTx msg events hIdle hEvents
      hVacant =>
      rw [settle_conns]
      refine transit_quiet hTransit ?_ tx
      exact (hTransit errTx).congr rfl rfl
  | reject now c h ch tx2 errTx tx' msg events hIdle hEvents
      hTaken =>
      refine transit_quiet hTransit ?_ tx
      exact (hTransit errTx).congr rfl rfl
  | takeMsg now c h ch msg events txs hIdle hEvents
      hTargets =>
      rw [settle_conns]
      simpa [sends, writes] using hTransit tx
  | dropMsg now c h ch msg events hIdle hEvents hTargets =>
      simpa [sends, writes] using hTransit tx
  | takeLogoff now c h ch events hIdle hEvents =>
      simpa [sends, writes] using hTransit tx
  | replay i now ch tx2 qmsg queued msg conn' hTask hSent =>
      rw [settle_conns]
      have hConn := (hTransit tx2).send hSent
      rw [← List.append_nil (written tx2)] at hConn
      have hSends :
          s.sends (.send i now) =
            [qmsg].map (fun f => (tx2, f)) := by
        simp [sends, hTask]
      rw [hSends]
      exact transit_setConn hTransit _ [] hConn tx
  | deliver i now ch txs tx' msg conn' hTask hTx hSent =>
      rw [settle_conns]
      have hConn := (hTransit tx').send hSent
      rw [← List.append_nil (written tx')] at hConn
      have hSends :
          s.sends (.send i now) =
            [msg].map (fun f => (tx', f)) := by
        simp [sends, hTask, hTx]
      rw [hSends]
      exact transit_setConn hTransit _ [] hConn tx

/- What was sent and what was written, after every run. -/
theorem transit_of_run
    {env : Env}
    {acts : List Act}
    {s : Sys}
    {p : Frame → Bool}
    (hServer : ∀ msg, p (.server msg) = false)
    (hRun : run env acts = some s)
    (tx : ConnId) :
    (s.conns tx).Transit p
      ((Hub.sentOn tx (sentIn env acts)).filter p)
      ((writtenTo env acts tx).filter p) := by
  refine Trace.run_induction
    (P := fun acts (s : Sys) =>
      ∀ tx,
        (s.conns tx).Transit p
          ((Hub.sentOn tx (sentIn env acts)).filter p)
          ((writtenTo env acts tx).filter p))
    ?_ ?_ hRun tx
  · intro tx
    refine ⟨?_, List.prefix_rfl⟩
    intro rest hRest
    cases hRest
    rfl
  · intro acts s a s' hPrefix hTransit hStep tx
    unfold sentIn writtenTo
    rw [Trace.collect_snoc sends a hPrefix,
      Trace.collect_snoc writes a hPrefix,
      Hub.sentOn_append, Hub.sentOn_append,
      List.filter_append, List.filter_append]
    exact (step_sound hStep).transit hServer hTransit tx

/-
  What is written to a socket is the beginning of what was
  sent to its queue, the frames of the server itself apart.
-/
theorem written_prefix_sent
    {env : Env}
    {acts : List Act}
    {s : Sys}
    {p : Frame → Bool}
    (hServer : ∀ msg, p (.server msg) = false)
    (hRun : run env acts = some s)
    (tx : ConnId) :
    (writtenTo env acts tx).filter p <+:
      (Hub.sentOn tx (sentIn env acts)).filter p :=
  (transit_of_run hServer hRun tx).begun

end Sys

end Mles

------------------------------------------------------------
-- Two Clients of a Channel
------------------------------------------------------------

namespace Mles

namespace Sys

/-
  The frame a step takes from the event queue, if `b` and
  `c` are registered for the hashes `hb` and `hc` of the
  channel then and the frame is of a client with another
  header hash.
-/
def jointly
    (ch hb hc : UInt64)
    (b c : ConnId)
    (s : Sys) : Act → List Frame
| .take _ =>
    match s.events with
    | (_, e) :: _ =>
        if (s.hub.entry ch hb = some b ∧
              s.hub.entry ch hc = some c) ∧
            e.hash ≠ hb ∧ e.hash ≠ hc then
          e.frame.toList
        else []
    | [] => []
| _ => []

/- All these frames of a run. -/
def jointlyIn
    (env : Env)
    (acts : List Act)
    (ch hb hc : UInt64)
    (b c : ConnId) : List Frame :=
  Trace.collect (step env) (jointly ch hb hc b c) init acts

/- What has been sent to a connection, or is about to be. -/
def owed
    (env : Env)
    (acts : List Act)
    (s : Sys)
    (tx : ConnId) : List Frame :=
  Hub.sentOn tx (sentIn env acts ++ s.task.pending)

/- Storing the message leaves nothing less to send. -/
@[simp] theorem pending_settle
    (env : Env)
    (now : Time)
    (s : Sys) :
    (settle env now s).task.pending = s.task.pending := by
  rcases settle_cases env now s with
    hEq | ⟨ch, msg, ⟨tx2, hTask⟩ | hTask, hEq⟩
  · rw [hEq]
  · rw [hEq, hTask]
    rfl
  · rw [hEq, hTask]
    rfl

/- Only taking an event gives the event loop more to send. -/
theorem Step.owed_eq
    {env : Env}
    {acts : List Act}
    {s s' : Sys}
    {a : Act}
    (hRun : run env acts = some s)
    (hStep : Step env s a s')
    (hOther : ∀ now, a ≠ .take now)
    (tx : ConnId) :
    owed env (acts ++ [a]) s' tx = owed env acts s tx := by
  have hLog :
      sentIn env (acts ++ [a]) =
        sentIn env acts ++ s.sends a :=
    Trace.collect_snoc sends a hRun
  have hPending :
      Hub.sentOn tx (s.sends a ++ s'.task.pending) =
        Hub.sentOn tx s.task.pending := by
    cases hStep with
    | conn c _ conn' hLocal =>
        rw [(taken_sends_of_local hLocal s).2]
        rfl
    | replay i now ch tx2 qmsg queued msg conn' hTask hSent =>
        rw [pending_settle]
        simp [sends, hTask, HubTask.pending]
    | deliver i now ch txs tx' msg conn' hTask hTx hSent =>
        rw [pending_settle]
        simp only [sends, hTask, hTx, HubTask.pending,
          Option.toList_some, List.map_cons, List.map_nil]
        exact sentOn_eraseIdx hTx msg tx
    | accept now => exact absurd rfl (hOther now)
    | reject now => exact absurd rfl (hOther now)
    | takeMsg now => exact absurd rfl (hOther now)
    | dropMsg now => exact absurd rfl (hOther now)
    | takeLogoff now => exact absurd rfl (hOther now)
    | _ => rfl
  unfold owed
  rw [hLog, List.append_assoc, Hub.sentOn_append, hPending,
    ← Hub.sentOn_append]

/- What taking an event gives the event loop to send. -/
theorem Step.owed_take
    {env : Env}
    {acts : List Act}
    {s s' : Sys}
    {now : Time}
    (hRun : run env acts = some s)
    (hStep : Step env s (.take now) s')
    (tx : ConnId) :
    owed env (acts ++ [.take now]) s' tx =
      owed env acts s tx ++
        Hub.sentOn tx s'.task.pending := by
  have hLog :
      sentIn env (acts ++ [.take now]) =
        sentIn env acts ++ s.sends (.take now) :=
    Trace.collect_snoc sends _ hRun
  have hIdle : s.task = .idle := by
    cases hStep with
    | conn c _ conn' hLocal =>
        exact absurd rfl (hLocal.ne_take now)
    | accept _ c h ch tx2 errTx msg events hIdle => exact hIdle
    | reject _ c h ch tx2 errTx tx' msg events hIdle =>
        exact hIdle
    | takeMsg _ c h ch msg events txs hIdle => exact hIdle
    | dropMsg _ c h ch msg events hIdle => exact hIdle
    | takeLogoff _ c h ch events hIdle => exact hIdle
  unfold owed
  rw [hLog, hIdle, Hub.sentOn_append, Hub.sentOn_append,
    Hub.sentOn_append]
  simp [sends, HubTask.pending]

/- The frame that is taken next has not been sent yet. -/
theorem frame_fresh
    {env : Env}
    {acts : List Act}
    {s : Sys}
    (hRun : run env acts = some s)
    {c : ConnId}
    {e : TaskEvent}
    {events : List (ConnId × TaskEvent)}
    (hEvents : s.events = (c, e) :: events)
    {f : Frame}
    (hFrame : e.frame = some f) :
    f ∉ (takenIn env acts).filterMap WsEvent.frame := by
  have hOrder := inOrder_of_run hRun
  have hSplit :
      (queuedIn env acts s).filterMap WsEvent.frame =
        (takenIn env acts).filterMap WsEvent.frame ++
          f :: (events.map Prod.snd).filterMap
            WsEvent.frame := by
    unfold queuedIn
    rw [hEvents, List.filterMap_append, List.map_cons,
      List.filterMap_cons, hFrame]
  rw [hSplit] at hOrder
  intro hMem
  have hBefore :=
    (List.pairwise_append.mp hOrder.sorted).2.2 f hMem f
      List.mem_cons_self
  rcases hOrder.below f (List.mem_append_left _ hMem) with
    ⟨d, n, x, rfl, _⟩
  exact absurd (hBefore d n n x x rfl rfl) (Nat.lt_irrefl n)

/- A registered queue stands in one entry. -/
theorem only_of_run
    {env : Env}
    {acts : List Act}
    {s : Sys}
    (hRun : run env acts = some s)
    {ch h : UInt64}
    {c : ConnId}
    (hEntry : s.hub.entry ch h = some c) :
    Hub.Only s.hub c ch h := by
  have hReg := registrations_of_run hRun
  refine ⟨hEntry, ?_⟩
  intro ch' h' hOther
  have hSame :=
    (hReg.registered ch' h' c hOther).1.unique
      (hReg.registered ch h c hEntry).1
  exact ⟨hSame.2, hSame.1⟩

/-
  Two connections are owed the same of the frames that were
  handled while both were registered.
-/
structure Joint
    (env : Env)
    (acts : List Act)
    (ch hb hc : UInt64)
    (b c : ConnId)
    (s : Sys) : Prop where
  known :
    ∀ f ∈ jointlyIn env acts ch hb hc b c,
      f ∈ (takenIn env acts).filterMap WsEvent.frame
  answered :
    jointlyIn env acts ch hb hc b c ≠ [] →
      (∃ h, (s.conns b).errTx = .sent h) ∧
        ∃ h, (s.conns c).errTx = .sent h
  same :
    (owed env acts s b).filter
        (· ∈ jointlyIn env acts ch hb hc b c) =
      (owed env acts s c).filter
        (· ∈ jointlyIn env acts ch hb hc b c)

/- A frame that was not sent does not change the choice. -/
theorem filter_mem_append
    {sent joint new : List Frame}
    (hFresh : ∀ f ∈ new, f ∉ sent) :
    sent.filter (· ∈ joint ++ new) =
      sent.filter (· ∈ joint) := by
  apply List.filter_congr
  intro f hMem
  have hNot : f ∉ new := fun hNew => hFresh f hNew hMem
  simp [hNot]

/- What a taken event adds to the joint frames. -/
theorem jointly_take
    {ch hb hc : UInt64}
    {b c : ConnId}
    {s : Sys}
    {now : Time}
    {d : ConnId}
    {e : TaskEvent}
    {events : List (ConnId × TaskEvent)}
    (hEvents : s.events = (d, e) :: events) :
    (jointly ch hb hc b c s (.take now) = [] ∨
      jointly ch hb hc b c s (.take now) = e.frame.toList ∧
        (s.hub.entry ch hb = some b ∧
          s.hub.entry ch hc = some c) ∧
        e.hash ≠ hb ∧ e.hash ≠ hc) := by
  unfold jointly
  rw [hEvents]
  simp only
  split
  · rename_i hBoth
    exact Or.inr ⟨rfl, hBoth⟩
  · exact Or.inl rfl

/- The two are owed the same of what an event brings. -/
theorem Step.same_pending
    {env : Env}
    {acts : List Act}
    {s s' : Sys}
    {now : Time}
    {ch hb hc : UInt64}
    {b c d : ConnId}
    {e : TaskEvent}
    {joint : List Frame}
    (hRun : run env acts = some s)
    (hStep : Step env s (.take now) s')
    (hEvents : s.events = (d, e) :: s'.events)
    (hFresh : ∀ f, e.frame = some f → f ∉ joint)
    (hAnswered :
      joint ++ jointly ch hb hc b c s (.take now) ≠ [] →
        (∃ h, (s.conns b).errTx = .sent h) ∧
          ∃ h, (s.conns c).errTx = .sent h) :
    (Hub.sentOn b s'.task.pending).filter
        (· ∈ joint ++ jointly ch hb hc b c s (.take now)) =
      (Hub.sentOn c s'.task.pending).filter
        (· ∈ joint ++ jointly ch hb hc b c s (.take now)) := by
  cases hStep with
  | conn _ _ conn' hLocal =>
      exact absurd rfl (hLocal.ne_take now)
  | accept _ d' h ch' tx2 errTx msg events hIdle hFront
      hVacant =>
      rcases (queuedInits_of_run hRun).front hFront with
        ⟨hOwn, _, hWaiting⟩
      rw [← hOwn] at hWaiting
      rw [pending_settle]
      simp only [HubTask.pending]
      rw [Hub.sentOn_replay, Hub.sentOn_replay]
      -- The `Init` of one of the two: nothing is joint yet.
      by_cases hNone :
          joint ++ jointly ch hb hc b c s (.take now) = []
      · rw [hNone]
        simp
      · rcases hAnswered hNone with ⟨⟨h₁, hB⟩, h₂, hC⟩
        have hNeB : tx2 ≠ b := by
          rintro rfl
          rw [hWaiting.2] at hB
          cases hB
        have hNeC : tx2 ≠ c := by
          rintro rfl
          rw [hWaiting.2] at hC
          cases hC
        rw [if_neg hNeB, if_neg hNeC]
  | reject _ d' h ch' tx2 errTx tx msg events hIdle hFront
      hTaken =>
      simp [confirm, hIdle, HubTask.pending]
  | takeMsg _ d' h ch' msg events txs hIdle hFront hTargets =>
      have hHead :=
        (List.cons.inj (hFront.symm.trans hEvents)).1
      cases hHead
      rw [pending_settle]
      simp only [HubTask.pending]
      have hTurn :
          ∀ tx,
            Hub.sentOn tx (txs.map (fun tx => (tx, msg))) =
              Hub.sentOn tx
                (s.hub.step env.limit
                  (.msg h ch' msg now)).2 := by
        intro tx
        simp [Hub.step, hTargets]
      rcases jointly_take hEvents with
        hNone | ⟨hNew, ⟨hB, hC⟩, hNeB, hNeC⟩
      · -- The message is not joint, and it is all there is.
        have hNothing :
            ∀ tx,
              (Hub.sentOn tx
                (txs.map (fun tx => (tx, msg)))).filter
                  (· ∈ joint) = [] := by
          intro tx
          rw [List.filter_eq_nil_iff, Hub.sentOn_fanout]
          intro f hMem
          rw [List.eq_of_mem_replicate hMem]
          simpa using hFresh msg rfl
        rw [hNone, List.append_nil, hNothing, hNothing]
      · have hSentB := Hub.sentOn_step_msg_of_only env.limit
          (only_of_run hRun hB) h ch' msg now
        have hSentC := Hub.sentOn_step_msg_of_only env.limit
          (only_of_run hRun hC) h ch' msg now
        simp only [WsEvent.hash] at hNeB hNeC
        rw [hTurn, hTurn, hSentB, hSentC]
        simp [hNeB, hNeC]
  | dropMsg _ d' h ch' msg events hIdle hFront hTargets =>
      simp [hIdle, HubTask.pending]
  | takeLogoff _ d' h ch' events hIdle hFront =>
      simp [hIdle, HubTask.pending]

section Joint

variable {env : Env}
variable {acts : List Act}
variable {ch hb hc : UInt64}
variable {b c : ConnId}
variable {s s' : Sys}
variable {a : Act}

/- A confirmation stays. -/
theorem Step.sent_of_sent
    (hRun : run env acts = some s)
    (hStep : Step env s a s')
    {d : ConnId}
    (hSent : ∃ h, (s.conns d).errTx = .sent h) :
    ∃ h, (s'.conns d).errTx = .sent h := by
  rcases hSent with ⟨h, hSent⟩
  exact ⟨h, (hStep.change (queuedInits_of_run hRun) d).sent
    (traced_of_run hRun d) hSent⟩

/- A step that takes no event. -/
theorem Joint.step_other
    (hJoint : Joint env acts ch hb hc b c s)
    (hRun : run env acts = some s)
    (hStep : Step env s a s')
    (hOther : ∀ now, a ≠ .take now) :
    Joint env (acts ++ [a]) ch hb hc b c s' := by
  have hSame :
      jointlyIn env (acts ++ [a]) ch hb hc b c =
        jointlyIn env acts ch hb hc b c := by
    unfold jointlyIn
    rw [Trace.collect_snoc _ a hRun]
    cases a with
    | take now => exact absurd rfl (hOther now)
    | _ => exact List.append_nil _
  have hTaken :
      takenIn env (acts ++ [a]) =
        takenIn env acts ++ s.taken a :=
    Trace.collect_snoc taken a hRun
  refine ⟨?_, ?_, ?_⟩
  · rw [hSame, hTaken, List.filterMap_append]
    intro f hMem
    exact List.mem_append_left _ (hJoint.known f hMem)
  · rw [hSame]
    intro hSome
    rcases hJoint.answered hSome with ⟨hB, hC⟩
    exact ⟨hStep.sent_of_sent hRun hB,
      hStep.sent_of_sent hRun hC⟩
  · rw [hSame, hStep.owed_eq hRun hOther,
      hStep.owed_eq hRun hOther]
    exact hJoint.same

/- A step that takes an event. -/
theorem Joint.step_take
    {now : Time}
    (hJoint : Joint env acts ch hb hc b c s)
    (hRun : run env acts = some s)
    (hStep : Step env s (.take now) s')
    {d : ConnId}
    {e : TaskEvent}
    (hEvents : s.events = (d, e) :: s'.events) :
    Joint env (acts ++ [.take now]) ch hb hc b c s' := by
  have hMore :
      jointlyIn env (acts ++ [.take now]) ch hb hc b c =
        jointlyIn env acts ch hb hc b c ++
          jointly ch hb hc b c s (.take now) :=
    Trace.collect_snoc _ _ hRun
  have hTaken :
      takenIn env (acts ++ [.take now]) =
        takenIn env acts ++ [e] := by
    have hLog :
        takenIn env (acts ++ [.take now]) =
          takenIn env acts ++ s.taken (.take now) :=
      Trace.collect_snoc taken _ hRun
    rw [hLog]
    simp [taken, hEvents]
  have hFresh :
      ∀ f, e.frame = some f →
        f ∉ (takenIn env acts).filterMap WsEvent.frame :=
    fun f hFrame => frame_fresh hRun hEvents hFrame
  have hNew :
      ∀ f ∈ jointly ch hb hc b c s (.take now),
        e.frame = some f := by
    intro f hMem
    rcases jointly_take hEvents with hNone | ⟨hSome, _⟩
    · rw [hNone] at hMem
      cases hMem
    · rw [hSome] at hMem
      exact Option.mem_toList.mp hMem
  have hAnswered :
      jointlyIn env acts ch hb hc b c ++
          jointly ch hb hc b c s (.take now) ≠ [] →
        (∃ h, (s.conns b).errTx = .sent h) ∧
          ∃ h, (s.conns c).errTx = .sent h := by
    intro hSome
    by_cases hOld : jointlyIn env acts ch hb hc b c = []
    · rcases jointly_take hEvents with
        hNone | ⟨_, ⟨hB, hC⟩, _⟩
      · exact absurd (by rw [hOld, hNone]; rfl) hSome
      · have hReg := registrations_of_run hRun
        exact ⟨⟨hb, (hReg.registered ch hb b hB).2⟩,
          hc, (hReg.registered ch hc c hC).2⟩
    · exact hJoint.answered hOld
  have hOwed :
      ∀ tx,
        (owed env acts s tx).filter
            (· ∈ jointlyIn env acts ch hb hc b c ++
              jointly ch hb hc b c s (.take now)) =
          (owed env acts s tx).filter
            (· ∈ jointlyIn env acts ch hb hc b c) := by
    intro tx
    apply filter_mem_append
    intro f hMem hSent
    exact hFresh f (hNew f hMem)
      ((sentOn_sublist_taken hRun tx).subset hSent)
  refine ⟨?_, ?_, ?_⟩
  · rw [hMore, hTaken, List.filterMap_append]
    intro f hMem
    rcases List.mem_append.mp hMem with hOld | hLast
    · exact List.mem_append_left _ (hJoint.known f hOld)
    · apply List.mem_append_right
      exact List.mem_filterMap.mpr
        ⟨e, List.mem_singleton_self e, hNew f hLast⟩
  · rw [hMore]
    intro hSome
    rcases hAnswered hSome with ⟨hB, hC⟩
    exact ⟨hStep.sent_of_sent hRun hB,
      hStep.sent_of_sent hRun hC⟩
  · rw [hMore, hStep.owed_take hRun, hStep.owed_take hRun,
      List.filter_append, List.filter_append, hOwed, hOwed,
      hJoint.same]
    congr 1
    refine hStep.same_pending hRun hEvents ?_ hAnswered
    intro f hFrame hMem
    exact hFresh f hFrame (hJoint.known f hMem)

theorem joint_of_run
    (hRun : run env acts = some s)
    (ch hb hc : UInt64)
    (b c : ConnId) :
    Joint env acts ch hb hc b c s := by
  refine Trace.run_induction
    (P := fun acts s => Joint env acts ch hb hc b c s)
    ?_ ?_ hRun
  · refine ⟨?_, ?_, rfl⟩
    · intro f hMem
      cases hMem
    · intro hSome
      exact absurd rfl hSome
  · intro acts s a s' hPrefix hJoint hStep
    have hSound := step_sound hStep
    by_cases hTake : ∃ now, a = .take now
    · rcases hTake with ⟨now, rfl⟩
      rcases hSound.events_cases with
        ⟨_, hOther, _⟩ | ⟨now', ⟨d, e⟩, _, hEvents⟩ |
        ⟨_, _, _, _, hAct, _⟩ | ⟨_, _, _, _, hAct, _⟩ |
        ⟨_, _, _, hAct, _⟩
      · exact absurd rfl (hOther now)
      · exact hJoint.step_take hPrefix hSound hEvents
      · cases hAct
      · cases hAct
      · cases hAct
    · exact hJoint.step_other hPrefix hSound
        (fun now hEq => hTake ⟨now, hEq⟩)

end Joint

------------------------------------------------------------
-- Delivery in Order
------------------------------------------------------------

/- The frames of a client stand in the order of reading. -/
theorem pairwise_seqOf
    {frames : List Frame}
    (hSorted : frames.Pairwise Frame.Before)
    (a : ConnId) :
    (frames.filterMap (Frame.seqOf a)).Pairwise (· < ·) := by
  rw [List.pairwise_filterMap]
  refine hSorted.imp ?_
  intro f g hBefore n hN m hM
  cases f with
  | server msg => cases hN
  | client c i x =>
      cases g with
      | server msg => cases hM
      | client d j y =>
          simp only [Frame.seqOf,
            Option.ite_none_right_eq_some, Option.some.injEq]
            at hN hM
          rcases hN with ⟨rfl, rfl⟩
          rcases hM with ⟨rfl, rfl⟩
          exact hBefore _ _ _ x y rfl rfl

/- What was taken is what was queued first. -/
theorem taken_sublist_queued
    (env : Env)
    (acts : List Act)
    (s : Sys) :
    ((takenIn env acts).filterMap WsEvent.frame).Sublist
      ((queuedIn env acts s).filterMap WsEvent.frame) :=
  List.Sublist.filterMap _ (List.sublist_append_left _ _)

/- One client's frames, as they come to another. -/
theorem written_in_order
    {env : Env}
    {acts : List Act}
    {s : Sys}
    (hRun : run env acts = some s)
    (a b : ConnId) :
    ((writtenTo env acts b).filterMap
      (Frame.seqOf a)).Pairwise (· < ·) := by
  have hServer :
      ∀ msg, (Frame.seqOf a (.server msg)).isSome = false :=
    fun _ => rfl
  have hFrames :
      (writtenTo env acts b).filterMap (Frame.seqOf a) =
        ((writtenTo env acts b).filter
          (fun f => (Frame.seqOf a f).isSome)).filterMap
            (Frame.seqOf a) := by
    rw [List.filterMap_filter]
    congr 1
    funext f
    cases Frame.seqOf a f with
    | none => rfl
    | some n => rfl
  have hSent :
      (Hub.sentOn b (sentIn env acts)).Sublist
        (owed env acts s b) := by
    unfold owed
    rw [Hub.sentOn_append]
    exact List.sublist_append_left _ _
  rw [hFrames]
  apply pairwise_seqOf
  refine (inOrder_of_run hRun).sorted.sublist
    (List.Sublist.trans ?_ (taken_sublist_queued env acts s))
  refine List.Sublist.trans ?_ (sentOn_sublist_taken hRun b)
  exact (written_prefix_sent hServer hRun b).sublist.trans
    (List.filter_sublist.trans hSent)

/- A socket is written a beginning of what is owed to it. -/
theorem written_prefix_owed
    {env : Env}
    {acts : List Act}
    {s : Sys}
    (hRun : run env acts = some s)
    {joint : List Frame}
    (hKnown :
      ∀ f ∈ joint,
        f ∈ (takenIn env acts).filterMap WsEvent.frame)
    (tx : ConnId) :
    (writtenTo env acts tx).filter (· ∈ joint) <+:
      (owed env acts s tx).filter (· ∈ joint) := by
  have hServer :
      ∀ msg, decide (Frame.server msg ∈ joint) = false := by
    intro msg
    rw [decide_eq_false_iff_not]
    intro hMem
    rcases (inOrder_of_run hRun).below _
        ((taken_sublist_queued env acts s).subset
          (hKnown _ hMem)) with
      ⟨d, n, x, hFrame, _⟩
    cases hFrame
  refine (written_prefix_sent hServer hRun tx).trans ?_
  unfold owed
  rw [Hub.sentOn_append, List.filter_append]
  exact List.prefix_append _ _

/-
  In every run: the frames of a client that are written to
  the socket of another one appear in the order they were
  read, each at most once; and of two clients of a channel,
  one has been written a beginning of what the other has, of
  the frames that clients with other hashes sent and the
  event loop handled while both were registered.
-/
theorem delivery_in_order
    (env : Env)
    (acts : List Act)
    (s : Sys)
    (hRun : run env acts = some s) :
    (∀ a b, a ≠ b →
      ((writtenTo env acts b).filterMap
        (Frame.seqOf a)).Pairwise (· < ·)) ∧
    ∀ ch hb hc b c,
      let joint := jointlyIn env acts ch hb hc b c
      (writtenTo env acts b).filter (· ∈ joint) <+:
          (writtenTo env acts c).filter (· ∈ joint) ∨
        (writtenTo env acts c).filter (· ∈ joint) <+:
          (writtenTo env acts b).filter (· ∈ joint) := by
  refine ⟨fun a b _ => written_in_order hRun a b, ?_⟩
  intro ch hb hc b c joint
  have hJoint := joint_of_run hRun ch hb hc b c
  have hSame := hJoint.same
  exact List.prefix_or_prefix_of_prefix
    (written_prefix_owed hRun hJoint.known b)
    (hSame ▸ written_prefix_owed hRun hJoint.known c)

/-
  Three clients join, the first says something, and of the
  other two only one has been written it so far.
-/
def threeClients : List Act :=
  [.read 0 (.frame alice), .resume 0, .take 0, .resume 0,
    .read 1 (.frame bob), .resume 1, .take 0, .send 0 0,
    .read 2 (.frame aliceAuth), .resume 2, .take 0, .send 0 0,
    .read 0 (.frame (.text "hi")), .resume 0, .take 0,
    .send 0 0, .send 0 0, .next 1, .write 1 true, .next 1,
    .write 1 true]

theorem delivery_in_order_threeClients :
    ∃ s,
      run Env.sample threeClients = some s ∧
        writtenTo Env.sample threeClients 1 =
          [.client 0 0 alice, .client 0 1 (.text "hi")] ∧
        ((writtenTo Env.sample threeClients 1).filterMap
          (Frame.seqOf 0)).Pairwise (· < ·) := by
  have hDone :
      (run Env.sample threeClients).isSome = true ∧
        writtenTo Env.sample threeClients 1 =
          [.client 0 0 alice, .client 0 1 (.text "hi")] := by
    decide +kernel
  rcases Option.isSome_iff_exists.mp hDone.1 with ⟨s, hRun⟩
  exact ⟨s, hRun, hDone.2,
    (delivery_in_order _ _ s hRun).1 0 1 (by decide)⟩

end Sys

end Mles
