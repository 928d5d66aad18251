import Mles.System.Steps
import Mles.Hub.Delivery

/-
  The event loop among the tasks is the event loop alone.

  In the running server the handling of one event is spread
  over many steps, with the steps of other tasks in between.
  Whenever it is between two events, its maps are those of
  `Hub.run` on the events taken from the queue so far, and
  each client has been sent the same frames in the same
  order.  So what holds of every sequence of events holds of
  every run of the server.

  Key definitions include:
    * `Sys.taken`
    * `Sys.sends`
    * `Sys.Refines`

  Key theorems include:
    * `Sys.Refines.step`
    * `Sys.refines_of_run`
    * `Sys.hub_eq_after`
-/

------------------------------------------------------------
-- What the Event Loop Did
------------------------------------------------------------

namespace Mles

/- An event without the handle of its confirmation. -/
def WsEvent.bare
    {T E M : Type} : WsEvent T E M → WsEvent T Unit M
| .init h ch tx2 _ m => .init h ch tx2 () m
| .msg h ch m => .msg h ch m
| .logoff h ch => .logoff h ch

/- What a turn took from the queue; a cleanup nothing. -/
def Event.bare
    {T M : Type} : Event T M → Option (WsEvent T Unit M)
| .init h ch tx2 m _ _ => some (.init h ch tx2 () m)
| .msg h ch m _ => some (.msg h ch m)
| .logoff h ch => some (.logoff h ch)
| .cleanup _ => none

namespace HubTask

/- The frames still to be sent for the event at hand. -/
def pending : HubTask → List (ConnId × Frame)
| .idle => []
| .replay _ tx2 queued _ => queued.map (fun q => (tx2, q))
| .fanout _ txs msg => txs.map (fun tx => (tx, msg))

/- The maps once the event at hand is done with. -/
def finish
    (limit : UInt32)
    (now : Time)
    (hub : Hub ConnId Frame) : HubTask → Hub ConnId Frame
| .idle => hub
| .replay ch _ _ msg => hub.record limit ch msg now
| .fanout ch _ msg => hub.record limit ch msg now

end HubTask

namespace Sys

/- The event a step takes from the queue. -/
def taken
    (s : Sys) : Act → List TaskEvent
| .take _ => (s.events.take 1).map Prod.snd
| _ => []

/- The frame a step of the event loop sends. -/
def sends
    (s : Sys) : Act → List (ConnId × Frame)
| .send i _ =>
    match s.task with
    | .idle => []
    | .replay _ tx2 queued _ =>
        (queued.take 1).map (fun q => (tx2, q))
    | .fanout _ txs msg =>
        (txs[i]?).toList.map (fun tx => (tx, msg))
| _ => []

/- The events taken in a run, and the frames sent. -/
def takenIn
    (env : Env)
    (acts : List Act) : List TaskEvent :=
  Trace.collect (step env) taken init acts

def sentIn
    (env : Env)
    (acts : List Act) : List (ConnId × Frame) :=
  Trace.collect (step env) sends init acts

end Sys

end Mles

------------------------------------------------------------
-- Simulation
------------------------------------------------------------

namespace Mles

namespace Sys

/-
  The event loop alone, on these turns, takes these events,
  comes to these maps, and sends on each queue these frames.
-/
structure Agrees
    (limit : UInt32)
    (es : List (Event ConnId Frame))
    (events : List TaskEvent)
    (log : List (ConnId × Frame))
    (hub : Hub ConnId Frame) : Prop where
  events :
    es.filterMap Event.bare = events.map WsEvent.bare
  hub : Hub.after limit es = hub
  sent :
    ∀ tx, Hub.sentOn tx (Hub.run limit Hub.new es).2 =
      Hub.sentOn tx log

/-
  The event at hand counts as done: its frames as sent, its
  message as stored at any time to come.
-/
def Refines
    (env : Env)
    (events : List TaskEvent)
    (log : List (ConnId × Frame))
    (s : Sys) : Prop :=
  ∀ now, ∃ es,
    Agrees env.limit es events (log ++ s.task.pending)
      (s.task.finish env.limit now s.hub)

/- One more turn of the event loop alone. -/
theorem Agrees.snoc
    {limit : UInt32}
    {es : List (Event ConnId Frame)}
    {events new : List TaskEvent}
    {log : List (ConnId × Frame)}
    {hub : Hub ConnId Frame}
    (hAgrees : Agrees limit es events log hub)
    (e : Event ConnId Frame)
    (hBare : e.bare.toList = new.map WsEvent.bare) :
    Agrees limit (es ++ [e]) (events ++ new)
      (log ++ (hub.step limit e).2) (hub.step limit e).1 where
  events := by
    rw [List.filterMap_append, hAgrees.events,
      List.map_append, ← hBare]
    cases hEvent : e.bare with
    | none => simp [hEvent]
    | some bare => simp [hEvent]
  hub := by
    rw [Hub.after_snoc, hAgrees.hub]
  sent := by
    intro tx
    have hHub : (Hub.run limit Hub.new es).1 = hub :=
      hAgrees.hub
    rw [Hub.run_append, hHub, Hub.sentOn_append,
      Hub.sentOn_append, hAgrees.sent tx]
    simp [Hub.run]

section

variable {env : Env}
variable {events : List TaskEvent}
variable {log : List (ConnId × Frame)}
variable {s t : Sys}

theorem Refines.idle
    (hRefines : s.Refines env events log)
    (hIdle : s.task = .idle) :
    ∃ es, Agrees env.limit es events log s.hub := by
  rcases hRefines 0 with ⟨es, hAgrees⟩
  rw [hIdle] at hAgrees
  refine ⟨es, ?_⟩
  simpa [HubTask.pending, HubTask.finish] using hAgrees

/- A step that sends what was pending, or nothing. -/
theorem Refines.sent
    {new : List (ConnId × Frame)}
    (hRefines : s.Refines env events log)
    (hFinish :
      ∀ now, t.task.finish env.limit now t.hub =
        s.task.finish env.limit now s.hub)
    (hPending :
      ∀ tx, Hub.sentOn tx (new ++ t.task.pending) =
        Hub.sentOn tx s.task.pending) :
    t.Refines env events (log ++ new) := by
  intro now
  rcases hRefines now with ⟨es, hAgrees⟩
  refine ⟨es, hAgrees.events, ?_, ?_⟩
  · rw [hFinish now]
    exact hAgrees.hub
  · intro tx
    rw [hAgrees.sent tx, List.append_assoc,
      Hub.sentOn_append, Hub.sentOn_append, hPending tx]

/- A step that begins a turn, and may leave it at hand. -/
theorem Refines.turn
    {new : List TaskEvent}
    (hRefines : s.Refines env events log)
    (hIdle : s.task = .idle)
    (e : Time → Event ConnId Frame)
    (hBare :
      ∀ now, (e now).bare.toList = new.map WsEvent.bare)
    (hTurn :
      ∀ now, s.hub.step env.limit (e now) =
        (t.task.finish env.limit now t.hub,
          t.task.pending)) :
    t.Refines env (events ++ new) log := by
  intro now
  rcases hRefines.idle hIdle with ⟨es, hAgrees⟩
  have hNext := hAgrees.snoc (e now) (hBare now)
  rw [hTurn now] at hNext
  exact ⟨es ++ [e now], hNext⟩

/- Storing the message ends a turn that sent all it had. -/
theorem Refines.settle
    (hRefines : s.Refines env events log)
    (now : Time) :
    (Sys.settle env now s).Refines env events log := by
  rcases settle_cases env now s with
    hEq | ⟨ch, msg, hDone, hEq⟩
  · rw [hEq]
    exact hRefines
  · intro now'
    rcases hRefines now with ⟨es, hAgrees⟩
    refine ⟨es, ?_⟩
    rw [hEq]
    rcases hDone with ⟨tx2, hTask⟩ | hTask
    · rw [hTask] at hAgrees
      exact hAgrees
    · rw [hTask] at hAgrees
      exact hAgrees

end

/- The steps of one connection's tasks concern neither. -/
theorem taken_sends_of_local
    {env : Env}
    {c : ConnId}
    {a : Act}
    {conn conn' : Conn}
    (hLocal : conn.Local env c a conn')
    (s : Sys) :
    s.taken a = [] ∧ s.sends a = [] := by
  cases hLocal with
  | pinged _ items n closed pinger hAct =>
      rcases hAct with rfl | rfl
      · exact ⟨rfl, rfl⟩
      · exact ⟨rfl, rfl⟩
  | _ => exact ⟨rfl, rfl⟩

/- A send of a fan-out, in whichever order. -/
theorem sentOn_eraseIdx
    {txs : List ConnId}
    {i : Nat}
    {tx : ConnId}
    (hTx : txs[i]? = some tx)
    (msg : Frame)
    (tx' : ConnId) :
    Hub.sentOn tx'
        ([(tx, msg)] ++
          (txs.eraseIdx i).map (fun tx => (tx, msg))) =
      Hub.sentOn tx' (txs.map (fun tx => (tx, msg))) := by
  rcases List.getElem?_eq_some_iff.mp hTx with ⟨hLt, hGet⟩
  have hPerm : (tx :: txs.eraseIdx i).Perm txs := by
    rw [← hGet]
    exact List.getElem_cons_eraseIdx_perm hLt
  have hCons :
      [(tx, msg)] ++
          (txs.eraseIdx i).map (fun tx => (tx, msg)) =
        (tx :: txs.eraseIdx i).map (fun tx => (tx, msg)) :=
    rfl
  rw [hCons, Hub.sentOn_fanout, Hub.sentOn_fanout,
    hPerm.count_eq]

theorem Refines.step
    {env : Env}
    {events : List TaskEvent}
    {log : List (ConnId × Frame)}
    {s t : Sys}
    {a : Act}
    (hRefines : s.Refines env events log)
    (hStep : Step env s a t) :
    t.Refines env (events ++ s.taken a)
      (log ++ s.sends a) := by
  cases hStep with
  | conn c a conn' hLocal =>
      rcases taken_sends_of_local hLocal s with
        ⟨hTaken, hSends⟩
      rw [hTaken, hSends, List.append_nil]
      exact hRefines.sent (fun _ => rfl) (fun _ => rfl)
  | queueInit c h ch msg hAt hRoom =>
      rw [show s.taken (.resume c) = [] from rfl,
        List.append_nil]
      exact hRefines.sent (fun _ => rfl) (fun _ => rfl)
  | queueMsg c h ch msg hAt hRoom =>
      rw [show s.taken (.resume c) = [] from rfl,
        List.append_nil]
      exact hRefines.sent (fun _ => rfl) (fun _ => rfl)
  | queueLogoff c h ch hAt hRoom =>
      rw [show s.taken (.logoff c) = [] from rfl,
        List.append_nil]
      exact hRefines.sent (fun _ => rfl) (fun _ => rfl)
  | cleanup now hIdle =>
      simp only [sends, List.append_nil]
      refine hRefines.turn hIdle (fun _ => .cleanup now)
        (fun _ => rfl) (fun _ => ?_)
      simp [Hub.step, hIdle, HubTask.finish, HubTask.pending]
  | accept now c h ch tx2 errTx msg rest hIdle hEvents hVacant =>
      simp only [sends, List.append_nil]
      refine Refines.settle (hRefines.turn hIdle
        (fun now' => .init h ch tx2 msg now now') ?_ ?_) now
      · intro now'
        simp [taken, hEvents, Event.bare, WsEvent.bare]
      · intro now'
        exact Hub.step_init_of_none hVacant env.limit tx2 msg
          now now'
  | reject now c h ch tx2 errTx tx msg rest hIdle hEvents hTaken =>
      simp only [sends, List.append_nil]
      refine hRefines.turn hIdle
        (fun now' => .init h ch tx2 msg now now') ?_ ?_
      · intro now'
        simp [taken, hEvents, Event.bare, WsEvent.bare]
      · intro now'
        rw [Hub.step_init_of_some hTaken]
        simp [confirm, setConn, hIdle, HubTask.finish,
          HubTask.pending]
  | takeMsg now c h ch msg rest txs hIdle hEvents hTargets =>
      simp only [sends, List.append_nil]
      refine Refines.settle (hRefines.turn hIdle
        (fun now' => .msg h ch msg now') ?_ ?_) now
      · intro now'
        simp [taken, hEvents, Event.bare, WsEvent.bare]
      · intro now'
        simp [Hub.step, hTargets, HubTask.finish,
          HubTask.pending]
  | dropMsg now c h ch msg rest hIdle hEvents hTargets =>
      simp only [sends, List.append_nil]
      refine hRefines.turn hIdle
        (fun now' => .msg h ch msg now') ?_ ?_
      · intro now'
        simp [taken, hEvents, Event.bare, WsEvent.bare]
      · intro now'
        simp [Hub.step, hTargets, hIdle, HubTask.finish,
          HubTask.pending]
  | takeLogoff now c h ch rest hIdle hEvents =>
      simp only [sends, List.append_nil]
      refine hRefines.turn hIdle (fun _ => .logoff h ch) ?_ ?_
      · intro now'
        simp [taken, hEvents, Event.bare, WsEvent.bare]
      · intro now'
        simp [Hub.step, hIdle, HubTask.finish, HubTask.pending]
  | replay i now ch tx2 qmsg queued msg conn' hTask hSent =>
      simp only [taken, List.append_nil]
      refine Refines.settle (hRefines.sent ?_ ?_) now
      · intro now'
        rw [hTask]
        rfl
      · intro tx
        simp [sends, hTask, HubTask.pending]
  | deliver i now ch txs tx msg conn' hTask hTx hSent =>
      simp only [taken, List.append_nil]
      refine Refines.settle (hRefines.sent ?_ ?_) now
      · intro now'
        rw [hTask]
        rfl
      · intro tx'
        simp only [sends, hTask, hTx, HubTask.pending,
          Option.toList_some, List.map_cons, List.map_nil]
        exact sentOn_eraseIdx hTx msg tx'

theorem refines_of_run
    {env : Env}
    {acts : List Act}
    {s : Sys}
    (hRun : run env acts = some s) :
    s.Refines env (takenIn env acts) (sentIn env acts) := by
  refine Trace.run_induction
    (P := fun acts s =>
      s.Refines env (takenIn env acts) (sentIn env acts))
    ?_ ?_ hRun
  · exact fun _ => ⟨[], rfl, rfl, fun _ => rfl⟩
  · intro acts s a t hPrefix ih hStep
    have hNext := ih.step (step_sound hStep)
    unfold takenIn sentIn
    rw [Trace.collect_snoc taken a hPrefix,
      Trace.collect_snoc sends a hPrefix]
    exact hNext

/-
  Between two events, the event loop of the running server
  is where the event loop alone is after the same events.
-/
theorem hub_eq_after
    {env : Env}
    {acts : List Act}
    {s : Sys}
    (hRun : run env acts = some s)
    (hIdle : s.task = .idle) :
    ∃ es,
      es.filterMap Event.bare =
          (takenIn env acts).map WsEvent.bare ∧
        s.hub = Hub.after env.limit es ∧
        ∀ tx,
          Hub.sentOn tx (sentIn env acts) =
            Hub.sentOn tx
              (Hub.run env.limit Hub.new es).2 := by
  rcases (refines_of_run hRun).idle hIdle with ⟨es, hAgrees⟩
  exact ⟨es, hAgrees.events, hAgrees.hub.symm,
    fun tx => (hAgrees.sent tx).symm⟩

/- A client has joined, and its header is the history. -/
theorem hub_eq_after_join :
    ∃ s es,
      run Env.sample
          [.read 0 (.frame alice), .resume 0, .take 0] =
        some s ∧
        s.hub.stored newsHash = [.client 0 0 alice] ∧
        s.hub = Hub.after Env.sample.limit es := by
  have hState :
      (run Env.sample
          [.read 0 (.frame alice), .resume 0, .take 0]).map
          (fun s => (s.task, s.hub.stored newsHash)) =
        some (.idle, [.client 0 0 alice]) := by
    decide +kernel
  rcases Option.map_eq_some_iff.mp hState with
    ⟨s, hRun, hEq⟩
  simp only [Prod.mk.injEq] at hEq
  rcases hub_eq_after hRun hEq.1 with ⟨es, _, hHub, _⟩
  exact ⟨s, es, hRun, hEq.2, hHub⟩

end Sys

end Mles
