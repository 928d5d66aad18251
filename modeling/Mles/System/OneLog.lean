import Mles.Hub.Windows
import Mles.System.Lossless

/-
  One log for each channel.

  Whatever the tasks do and in whatever order: everything
  that is written to the socket of a client, the frames of
  the server itself apart, is the beginning of one window of
  the log of one channel.  The log keeps the order in which
  the event loop takes the events, and no frame stands in it
  twice.  So any two clients of a channel have seen the same
  conversation, from where each of them came to it: in one
  order, with nothing left out but what they said themselves
  and the greetings of others.

  Key theorems include:
    * `Sys.nodup_log`
    * `Sys.one_log`
-/

------------------------------------------------------------
-- The Log
------------------------------------------------------------

namespace Mles

namespace Sys

/- The frames of the log are frames taken, in their order. -/
theorem log_sublist_taken
    {env : Env}
    {acts : List Act}
    {es : List (Event ConnId Frame)}
    (hEvents :
      es.filterMap Event.bare =
        (takenIn env acts).map WsEvent.bare)
    (ch : UInt64) :
    ((Hub.board env.limit ch es).log.map
        Board.Entry.message).Sublist
      ((takenIn env acts).filterMap WsEvent.frame) := by
  rw [← messages_eq_taken hEvents]
  exact Hub.log_sublist env.limit ch es

/- No frame is taken twice, or stands in a log twice. -/
theorem nodup_log
    {env : Env}
    {acts : List Act}
    {s : Sys}
    (hRun : run env acts = some s)
    {es : List (Event ConnId Frame)}
    (hEvents :
      es.filterMap Event.bare =
        (takenIn env acts).map WsEvent.bare)
    (ch : UInt64) :
    ((Hub.board env.limit ch es).log.map
      Board.Entry.message).Nodup := by
  have hTaken := (log_sublist_taken hEvents ch).trans
    (taken_sublist_queued env acts s)
  have hOrder := inOrder_of_run hRun
  refine (hOrder.sorted.sublist hTaken).imp_of_mem ?_
  intro f g hMem _ hBefore hSame
  subst hSame
  rcases hOrder.below f (hTaken.subset hMem) with
    ⟨c, n, x, rfl, _⟩
  exact absurd (hBefore _ _ _ x x rfl rfl) (Nat.lt_irrefl n)

/- The event at hand registers nobody any more. -/
theorem entry_finish
    (limit : UInt32)
    (now : Time)
    (hub : Hub ConnId Frame)
    (task : HubTask)
    (ch h : UInt64) :
    (task.finish limit now hub).entry ch h =
      hub.entry ch h := by
  cases task with
  | idle => rfl
  | replay ch' tx2 queued msg => rfl
  | fanout ch' txs msg => rfl

/-
  In every state the server comes to there is one log for
  each channel, without a frame twice and in the order of
  the events, such that for every connection: what has been
  written to it is a beginning of what it is owed, and that
  is nothing, or one window of the log of its channel, which
  ends with the log as long as it is registered.
-/
theorem one_log
    {env : Env}
    (hLimit : 0 < env.limit.toNat)
    {acts : List Act}
    {s : Sys}
    (hRun : run env acts = some s) :
    ∃ es : List (Event ConnId Frame),
      es.filterMap Event.bare =
          (takenIn env acts).map WsEvent.bare ∧
      (∀ ch,
        ((Hub.board env.limit ch es).log.map
            Board.Entry.message).Nodup ∧
          ((Hub.board env.limit ch es).log.map
              Board.Entry.message).Sublist
            ((takenIn env acts).filterMap WsEvent.frame)) ∧
      ∀ c,
        (writtenTo env acts c).filter Frame.isClient <+:
            owed env acts s c ∧
          ((owed env acts s c = [] ∧
              ∀ ch h, s.hub.entry ch h ≠ some c) ∨
            ∃ ch h stop,
              Board.Window env.limit.toNat
                (Hub.board env.limit ch es).log h stop
                (owed env acts s c) ∧
              ((∃ ch' h', s.hub.entry ch' h' = some c) →
                s.hub.entry ch h = some c ∧
                  stop =
                    (Hub.board env.limit ch es).log.length)) := by
  rcases refines_of_run hRun 0 with ⟨es, hAgrees⟩
  have hEvents := hAgrees.events
  have hEntry (ch h : UInt64) :
      (Hub.after env.limit es).entry ch h =
        s.hub.entry ch h := by
    rw [hAgrees.hub, entry_finish]
  refine ⟨es, hEvents, ?_, ?_⟩
  · exact fun ch =>
      ⟨nodup_log hRun hEvents ch, log_sublist_taken hEvents ch⟩
  · intro c
    have hOwed :
        owed env acts s c =
          Hub.sentOn c (Hub.run env.limit Hub.new es).2 :=
      (hAgrees.sent c).symm
    constructor
    · rw [owed_eq_due hRun c]
      exact written_prefix_due hRun c
    · have hWindow := Hub.sentOn_window_of_once hLimit
        (nodup_queues hRun hEvents) c
      simp only [Hub.Absent, hEntry] at hWindow
      rw [hOwed]
      exact hWindow

/- The second of three clients was written two frames. -/
theorem one_log_threeClients :
    ∃ s,
      run Env.sample threeClients = some s ∧
        ∃ es ch h stop,
          es.filterMap Event.bare =
              (takenIn Env.sample threeClients).map
                WsEvent.bare ∧
            Board.Window 1 (Hub.board 1 ch es).log h stop
              (owed Env.sample threeClients s 1) := by
  have hSome :
      (run Env.sample threeClients).isSome = true ∧
        ((writtenTo Env.sample threeClients 1).filter
          Frame.isClient).length = 2 := by
    decide +kernel
  rcases Option.isSome_iff_exists.mp hSome.1 with ⟨s, hRun⟩
  rcases one_log (show 0 < Env.sample.limit.toNat by decide)
      hRun with ⟨es, hEvents, _, hAll⟩
  rcases hAll 1 with
    ⟨hWritten, ⟨hNothing, _⟩ | ⟨ch, h, stop, hWindow, _⟩⟩
  · rw [hNothing, List.prefix_nil] at hWritten
    rw [hWritten] at hSome
    exact absurd hSome.2 (by decide)
  · exact ⟨s, hRun, es, ch, h, stop, hEvents, hWindow⟩

end Sys

end Mles
