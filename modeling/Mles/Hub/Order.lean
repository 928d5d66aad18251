import Mles.Hub.Delivery
import Mles.Hub.History

/-
  The order of what the event loop stores and sends.

  Over a sequence of events in which no queue is brought by
  two `Init`s, the history of every channel and the frames
  sent on every queue stand in the order in which the events
  brought them, and nothing is sent twice on one queue: both
  are sublists of the messages of the events.

  Key definitions include:
    * `Event.message`
    * `Hub.messages`

  Key theorems include:
    * `Hub.stored_step_sublist`
    * `Hub.only_of_entry`
    * `Hub.sentOn_sublist`
-/

------------------------------------------------------------
-- The Messages of the Events
------------------------------------------------------------

namespace Mles

/- The message an event brings, whatever becomes of it. -/
def Event.message
    {T M : Type} : Event T M → Option M
| .init _ _ _ m _ _ => some m
| .msg _ _ m _ => some m
| .logoff _ _ => none
| .cleanup _ => none

namespace Hub

variable {T M : Type}

def messages (es : List (Event T M)) : List M :=
  es.filterMap Event.message

theorem messages_snoc
    (es : List (Event T M))
    (e : Event T M) :
    messages (es ++ [e]) =
      messages es ++ e.message.toList := by
  unfold messages
  rw [List.filterMap_append]
  cases hMessage : e.message with
  | none => simp [hMessage]
  | some msg => simp [hMessage]

/- A message that counts is the message of the event. -/
theorem message_of_counted
    {hub : Hub T M}
    {ch : UInt64}
    {e : Event T M}
    {msg : M}
    {now : Time}
    (hCounted : hub.counted ch e = some (msg, now)) :
    e.message = some msg := by
  cases e with
  | init h ch' tx2 m created t =>
      simp only [counted, Option.ite_none_right_eq_some,
        Option.some.injEq, Prod.mk.injEq] at hCounted
      rw [Event.message, hCounted.2.1]
  | msg h ch' m t =>
      simp only [counted, Option.ite_none_right_eq_some,
        Option.some.injEq, Prod.mk.injEq] at hCounted
      rw [Event.message, hCounted.2.1]
  | logoff h ch' => cases hCounted
  | cleanup t => cases hCounted

theorem addMessage_sublist
    (msg : M)
    (limit : UInt32)
    (queue : List M) :
    (addMessage msg limit queue).Sublist
      (queue ++ [msg]) := by
  unfold addMessage
  apply List.Sublist.append_right
  split
  · exact List.tail_sublist queue
  · exact List.Sublist.refl queue

/- One turn adds at most its message to a history. -/
theorem stored_step_sublist
    (limit : UInt32)
    (hub : Hub T M)
    (e : Event T M)
    (ch : UInt64) :
    ((hub.step limit e).1.stored ch).Sublist
      (hub.stored ch ++ e.message.toList) := by
  unfold stored
  cases hNext : (hub.step limit e).1.msgDb.lookup ch with
  | none => exact List.nil_sublist _
  | some info' =>
      cases hInfo : hub.msgDb.lookup ch with
      | none =>
          rcases lookup_step_of_none hInfo hNext with
            ⟨h, tx2, msg, created, now, rfl, _, rfl⟩
          exact addMessage_sublist msg limit []
      | some info =>
          cases hCounted : hub.counted ch e with
          | some counted =>
              rcases counted with ⟨msg, now⟩
              rw [lookup_step_of_counted hCounted hInfo]
                at hNext
              cases hNext
              rw [message_of_counted hCounted]
              exact addMessage_sublist msg limit info.messages
          | none =>
              rw [info_eq_of_not_counted hCounted hInfo hNext]
              exact List.sublist_append_left _ _

theorem stored_sublist
    (limit : UInt32)
    (es : List (Event T M))
    (ch : UInt64) :
    ((after limit es).stored ch).Sublist (messages es) := by
  induction es using List.reverseRecOn with
  | nil => exact List.nil_sublist _
  | append_singleton es e ih =>
      rw [after_snoc, messages_snoc]
      exact (stored_step_sublist limit _ e ch).trans
        (ih.append_right _)

end Hub

end Mles

------------------------------------------------------------
-- Queues Brought Once
------------------------------------------------------------

namespace Mles

namespace Hub

variable {T M : Type}

/- The queues of a sequence of events. -/
def queues (es : List (Event T M)) : List T :=
  es.filterMap Event.tx2

theorem queues_snoc
    (es : List (Event T M))
    (e : Event T M) :
    queues (es ++ [e]) = queues es ++ e.tx2.toList := by
  unfold queues
  rw [List.filterMap_append]
  cases hTx : e.tx2 with
  | none => simp [hTx]
  | some tx => simp [hTx]

variable [DecidableEq T]

/- A queue that no event has brought. -/
theorem absent_of_not_mem_queues
    (limit : UInt32)
    {es : List (Event T M)}
    {tx : T}
    (hNew : tx ∉ queues es) :
    sentOn tx (run limit new es).2 = [] ∧
      Absent (after limit es) tx := by
  apply sentOn_run_of_absent limit (absent_new tx)
  intro e hMem hTx
  exact hNew (List.mem_filterMap.mpr ⟨e, hMem, hTx⟩)

/- A queue brought once is registered in one entry. -/
theorem only_of_entry
    (limit : UInt32)
    {es : List (Event T M)}
    (hOnce : (queues es).Nodup)
    {tx : T}
    {ch h : UInt64}
    (hEntry : (after limit es).entry ch h = some tx) :
    Only (after limit es) tx ch h := by
  induction es using List.reverseRecOn
    generalizing ch h with
  | nil => cases hEntry
  | append_singleton es e ih =>
      rw [queues_snoc] at hOnce
      have hBefore := (List.nodup_append.mp hOnce).1
      rw [after_snoc] at hEntry ⊢
      rcases entry_step_cases hEntry with
        hOld | ⟨hVacant, msg, created, now, rfl⟩
      · have hHeld := ih hBefore hOld
        refine only_step limit hHeld ?_ ?_
        · -- A second `Init` would bring the queue again.
          intro hTx
          have hMem : tx ∈ queues es := by
            by_contra hNew
            exact (absent_of_not_mem_queues limit hNew).2 ch h
              hOld
          exact (List.nodup_append.mp hOnce).2.2 tx hMem tx
            (by simp [hTx]) rfl
        · rintro rfl
          rw [entry_step_logoff, if_pos ⟨rfl, rfl⟩] at hEntry
          cases hEntry
      · have hNew : tx ∉ queues es := by
          intro hMem
          exact (List.nodup_append.mp hOnce).2.2 tx hMem tx
            (by simp [Event.tx2]) rfl
        exact only_step_init limit
          (absent_of_not_mem_queues limit hNew).2 hVacant msg
          created now

/- What a turn sends on a queue is its message, or all. -/
theorem sentOn_step_cases
    (limit : UInt32)
    {es : List (Event T M)}
    (hOnce : (queues es).Nodup)
    (tx : T)
    (e : Event T M) :
    (sentOn tx ((after limit es).step limit e).2).Sublist
        e.message.toList ∨
      e.tx2 = some tx ∧
        ∃ ch,
          (sentOn tx ((after limit es).step limit e).2).Sublist
            ((after limit es).stored ch) := by
  cases e with
  | init h ch tx2 msg created now =>
      by_cases hTx : tx2 = tx
      · subst hTx
        refine Or.inr ⟨rfl, ch, ?_⟩
        cases hEntry : (after limit es).entry ch h with
        | none =>
            rw [step_init_of_none hEntry, sentOn_replay,
              if_pos rfl]
        | some old =>
            rw [step_init_of_some hEntry]
            exact List.nil_sublist _
      · rw [sentOn_step_init_of_ne limit _ h ch hTx]
        exact Or.inl (List.nil_sublist _)
  | msg h ch msg now =>
      left
      by_cases hHeld :
          ∃ ch' h', (after limit es).entry ch' h' = some tx
      · rcases hHeld with ⟨ch', h', hEntry⟩
        rw [sentOn_step_msg_of_only limit
          (only_of_entry limit hOnce hEntry)]
        split
        · exact List.Sublist.refl _
        · exact List.nil_sublist _
      · have hAbsent : Absent (after limit es) tx :=
          fun ch' h' hEntry => hHeld ⟨ch', h', hEntry⟩
        rw [sentOn_step_of_absent limit hAbsent
          (by simp [Event.tx2])]
        exact List.nil_sublist _
  | logoff h ch => exact Or.inl (List.nil_sublist _)
  | cleanup now => exact Or.inl (List.nil_sublist _)

theorem sentOn_sublist
    (limit : UInt32)
    {es : List (Event T M)}
    (hOnce : (queues es).Nodup)
    (tx : T) :
    (sentOn tx (run limit new es).2).Sublist
      (messages es) := by
  induction es using List.reverseRecOn with
  | nil => exact List.nil_sublist _
  | append_singleton es e ih =>
      rw [queues_snoc] at hOnce
      have hBefore := (List.nodup_append.mp hOnce).1
      rw [run_append, sentOn_append, messages_snoc]
      have hStep := sentOn_step_cases limit hBefore tx e
      simp only [run, List.append_nil]
      rcases hStep with hOwn | ⟨hTx, ch, hAll⟩
      · exact (ih hBefore).append hOwn
      · -- Its own `Init` is the first to send on a queue.
        have hNew : tx ∉ queues es := by
          intro hMem
          exact (List.nodup_append.mp hOnce).2.2 tx hMem tx
            (by simp [hTx]) rfl
        rw [(absent_of_not_mem_queues limit hNew).1,
          List.nil_append]
        exact (hAll.trans (stored_sublist limit es ch)).trans
          (List.sublist_append_left _ _)

end Hub

end Mles
