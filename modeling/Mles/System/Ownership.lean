import Mles.System.Protocol

/-
  Who removes a registration.

  The receiver task shares the hashes of its header before
  the event loop has answered, and takes them back when it
  sees a rejection.  A final cleanup that loads them in
  between is hasty: its `Logoff` may hit the entry of
  somebody else.  Every other `Logoff` is of a connection
  whose `Init` was accepted, and finds the entry of this
  connection.

  Key definitions include:
    * `HastyIn`
    * `Sys.Clear`
    * `Sys.OwnLogoffs`
    * `Sys.RemovedByOwner`

  Key theorems include:
    * `heir_of_holder`
    * `Sys.loaded_of_run`
    * `Sys.ownership_of_run`
    * `Sys.removedByOwner_of_run`
-/

------------------------------------------------------------
-- The Heir of an Entry
------------------------------------------------------------

namespace Mles

theorem heir_append
    (ch h : UInt64)
    (owner : Option ConnId)
    (events events' : List (ConnId × TaskEvent)) :
    heir ch h owner (events ++ events') =
      heir ch h (heir ch h owner events) events' := by
  induction events generalizing owner with
  | nil => rfl
  | cons e events ih =>
      rw [List.cons_append, heir_cons, ih,
        heir_cons ch h owner e events]

/-
  Every `Logoff` of these events finds the entry of its own
  connection, or none.
-/
def Orderly
    (ch h : UInt64)
    (owner : Option ConnId)
    (events : List (ConnId × TaskEvent)) : Prop :=
  ∀ before c behind,
    events = before ++ (c, .logoff h ch) :: behind →
      heir ch h owner before = none ∨
        heir ch h owner before = some c

theorem Orderly.behind
    {ch h : UInt64}
    {owner : Option ConnId}
    {events events' : List (ConnId × TaskEvent)}
    (hOrderly : Orderly ch h owner (events ++ events')) :
    Orderly ch h (heir ch h owner events) events' := by
  intro before c behind hSplit
  rw [← heir_append]
  apply hOrderly (events ++ before) c behind
  rw [hSplit, List.append_assoc]

theorem Orderly.tail
    {ch h : UInt64}
    {owner : Option ConnId}
    {e : ConnId × TaskEvent}
    {events : List (ConnId × TaskEvent)}
    (hOrderly : Orderly ch h owner (e :: events)) :
    Orderly ch h (heir ch h owner [e]) events := by
  have hSplit : Orderly ch h owner ([e] ++ events) := hOrderly
  exact hSplit.behind

/- One more event at the end. -/
theorem Orderly.snoc
    {ch h : UInt64}
    {owner : Option ConnId}
    {e : ConnId × TaskEvent}
    {events : List (ConnId × TaskEvent)}
    (hOrderly : Orderly ch h owner events)
    (hNew :
      ∀ c, e = (c, .logoff h ch) →
        heir ch h owner events = none ∨
          heir ch h owner events = some c) :
    Orderly ch h owner (events ++ [e]) := by
  intro before c behind hSplit
  rcases Trace.snoc_eq_split hSplit with
    ⟨rfl, hLast, _⟩ | ⟨rest, _, hOld⟩
  · exact hNew c hLast
  · exact hOrderly before c rest hOld

/-
  The owner of an entry stays the owner, while it has no
  `Logoff` queued itself.
-/
theorem heir_of_holder
    {ch h : UInt64}
    {c : ConnId}
    {events : List (ConnId × TaskEvent)}
    (hOrderly : Orderly ch h (some c) events)
    (hStays : (c, .logoff h ch) ∉ events) :
    heir ch h (some c) events = some c := by
  induction events with
  | nil => rfl
  | cons e events ih =>
      have hKept : heir ch h (some c) [e] = some c := by
        rcases e with ⟨d, ⟨h', ch', tx2, errTx, f⟩ |
          ⟨h', ch', f⟩ | ⟨h', ch'⟩⟩
        · rw [heir, heir]
          simp
        · rfl
        · rw [heir, heir]
          by_cases hPair : ch = ch' ∧ h = h'
          · rcases hPair with ⟨rfl, rfl⟩
            -- It would be a `Logoff` of the owner.
            rcases hOrderly [] d events rfl with hNone | hOwn
            · cases hNone
            · cases hOwn
              exact absurd List.mem_cons_self hStays
          · rw [if_neg hPair]
      have hOrderly' := hOrderly.tail
      rw [hKept] at hOrderly'
      rw [heir_cons, hKept]
      exact ih hOrderly'
        (fun hMem => hStays (List.mem_cons_of_mem e hMem))

------------------------------------------------------------
-- Leaving an Entry to a Connection
------------------------------------------------------------

/- The event asks for a registration under the two hashes. -/
def asksFor
    (h ch : UInt64) : ConnId × TaskEvent → Bool
| (_, .init h' ch' _ _ _) => ch = ch' ∧ h = h'
| (_, .msg _ _ _) => false
| (_, .logoff _ _) => false

/- An `Init` carries the queue of its own connection. -/
def OwnQueues
    (events : List (ConnId × TaskEvent)) : Prop :=
  ∀ c h ch tx2 errTx f,
    (c, .init h ch tx2 errTx f) ∈ events → tx2 = c

theorem OwnQueues.mono
    {events events' : List (ConnId × TaskEvent)}
    (hOwn : OwnQueues events)
    (hSubset : events' ⊆ events) :
    OwnQueues events' :=
  fun c h ch tx2 errTx f hMem =>
    hOwn c h ch tx2 errTx f (hSubset hMem)

/- A connection that asks for a free entry becomes its owner. -/
theorem heir_of_asksFor
    {h ch : UInt64}
    {owner : Option ConnId}
    {e : ConnId × TaskEvent}
    (hOwn : OwnQueues [e])
    (hAsks : asksFor h ch e = true)
    (hOwner : owner = none ∨ owner = some e.1) :
    heir ch h owner [e] = some e.1 := by
  rcases e with ⟨c, ⟨h', ch', tx2, errTx, f⟩ |
    ⟨h', ch', f⟩ | ⟨h', ch'⟩⟩
  · have hPair : ch = ch' ∧ h = h' := by
      simpa [asksFor] using hAsks
    have hTx := hOwn c h' ch' tx2 errTx f List.mem_cons_self
    rw [heir, heir, if_pos hPair, hTx]
    rcases hOwner with rfl | rfl
    · rfl
    · rfl
  · cases hAsks
  · cases hAsks

/-
  Every other connection that asks for the entry in these
  events logs off behind it.
-/
def othersLeave
    (c : ConnId)
    (h ch : UInt64) : List (ConnId × TaskEvent) → Bool
| [] => true
| e :: events =>
    (!asksFor h ch e || e.1 = c ||
        events.contains (e.1, .logoff h ch)) &&
      othersLeave c h ch events

/-
  If all others leave, the owner among them, they leave the
  entry to the connection, or to nobody.
-/
theorem heir_of_othersLeave
    {c : ConnId}
    {h ch : UInt64}
    {owner : Option ConnId}
    {events : List (ConnId × TaskEvent)}
    (hOwn : OwnQueues events)
    (hOwner :
      ∀ d, owner = some d → d ≠ c →
        (d, .logoff h ch) ∈ events)
    (hOthers : othersLeave c h ch events = true) :
    heir ch h owner events = none ∨
      heir ch h owner events = some c := by
  induction events generalizing owner with
  | nil =>
      cases owner with
      | none => exact Or.inl rfl
      | some d =>
          by_cases hEq : d = c
          · rw [hEq]
            exact Or.inr rfl
          · exact absurd (hOwner d rfl hEq) (by simp)
  | cons e events ih =>
      rw [othersLeave, Bool.and_eq_true] at hOthers
      rw [heir_cons]
      have hTail := hOwn.mono (List.subset_cons_self e events)
      refine ih hTail ?_ hOthers.2
      intro d hHeir hNe
      have hOld (hSame : owner = some d)
          (hOther : e ≠ (d, .logoff h ch)) :
          (d, .logoff h ch) ∈ events := by
        rcases List.mem_cons.mp (hOwner d hSame hNe) with
          hHead | hTail
        · exact absurd hHead.symm hOther
        · exact hTail
      rcases e with ⟨d', ⟨h', ch', tx2, errTx, f⟩ |
        ⟨h', ch', f⟩ | ⟨h', ch'⟩⟩
      · rw [heir, heir] at hHeir
        by_cases hPair : ch = ch' ∧ h = h'
        · rw [if_pos hPair] at hHeir
          cases hOwner' : owner with
          | some d'' =>
              rw [hOwner'] at hHeir
              cases hHeir
              exact hOld hOwner' (by simp)
          | none =>
              -- The asker becomes the owner, and leaves.
              have hTx := hOwn d' h' ch' tx2 errTx f
                List.mem_cons_self
              rw [hOwner'] at hHeir
              have hEq : tx2 = d := Option.some.inj hHeir
              rw [← hEq, hTx] at hNe ⊢
              simpa [asksFor, hPair, hNe] using hOthers.1
        · rw [if_neg hPair] at hHeir
          exact hOld hHeir (by simp)
      · exact hOld hHeir (by simp)
      · rw [heir, heir] at hHeir
        by_cases hPair : ch = ch' ∧ h = h'
        · rw [if_pos hPair] at hHeir
          cases hHeir
        · rw [if_neg hPair] at hHeir
          refine hOld hHeir ?_
          intro hEq
          cases hEq
          exact hPair ⟨rfl, rfl⟩

end Mles

------------------------------------------------------------
-- Hasty Cleanups
------------------------------------------------------------

namespace Mles

/- The receiver task saw the answer to its `Init`. -/
def AnsweredIn
    (env : Env)
    (acts : List Act)
    (c : ConnId) : Prop :=
  ∃ before behind s,
    acts = before ++ .resume c :: behind ∧
      Sys.run env before = some s ∧
      (s.conns c).receiver = .awaitInit

/-
  The final cleanup loaded the hashes before the receiver
  task saw the answer to its `Init`.
-/
def HastyIn
    (env : Env)
    (acts : List Act)
    (c : ConnId) : Prop :=
  ∃ before ok behind s,
    acts = before ++ .write c ok :: behind ∧
      Sys.run env before = some s ∧
      (s.conns c).sender = .writeClose ∧
      ¬ AnsweredIn env before c

theorem HastyIn.append
    {env : Env}
    {acts : List Act}
    {c : ConnId}
    (hHasty : HastyIn env acts c)
    (acts' : List Act) :
    HastyIn env (acts ++ acts') c := by
  rcases hHasty with ⟨before, ok, behind, s, rfl, hRest⟩
  exact ⟨before, ok, behind ++ acts', s, by simp, hRest⟩

namespace Conn

/- The receiver task has taken its hashes back. -/
def Withdrawn (conn : Conn) : Prop :=
  conn.h = 0 ∧ conn.errTx = .dropped ∧
    (conn.receiver = .sendClose ∨ conn.receiver = .done)

theorem Local.withdrawn
    {env : Env}
    {c : ConnId}
    {conn conn' : Conn}
    {a : Act}
    (hWithdrawn : conn.Withdrawn)
    (hLocal : conn.Local env c a conn') :
    conn'.Withdrawn := by
  rcases hWithdrawn with ⟨hZero, hErrTx, hReceiver⟩
  cases hLocal with
  | noFrame r hFail hAt => simp [hAt] at hReceiver
  | badFirst msg hAt hHeader => simp [hAt] at hReceiver
  | badAuth msg hdr hAt hHeader hAuth =>
      simp [hAt] at hReceiver
  | goodFirst msg hdr hAt hHeader hAuth =>
      simp [hAt] at hReceiver
  | leave r n hAt hReads => simp [hAt] at hReceiver
  | pong msg hAt => simp [hAt] at hReceiver
  | message msg hAt hOpen hNonzero hData =>
      simp [hAt] at hReceiver
  | confirmed h hAt hSent => simp [hAt] at hReceiver
  | rejected hAt hDropped => simp [hAt] at hReceiver
  | ended item sent hAt hItem hSent =>
      refine ⟨?_, ?_, Or.inr rfl⟩
      · rw [hSent.frame]
        exact hZero
      · rw [hSent.frame]
        exact hErrTx
  | _ => exact ⟨hZero, hErrTx, hReceiver⟩

theorem Change.withdrawn
    {env : Env}
    {c : ConnId}
    {conn conn' : Conn}
    {a : Act}
    (hWithdrawn : conn.Withdrawn)
    (hChange : conn.Change env c a conn') :
    conn'.Withdrawn := by
  cases hChange with
  | own _ _ hLocal => exact hLocal.withdrawn hWithdrawn
  | queueInit h ch msg hAt =>
      simp [Withdrawn, hAt] at hWithdrawn
  | queueMsg h ch msg hAt =>
      simp [Withdrawn, hAt] at hWithdrawn
  | queueLogoff h ch hAt => exact ⟨rfl, hWithdrawn.2⟩
  | answered now errTx hWaiting hAnswer =>
      simp [Withdrawn, hWaiting.2] at hWithdrawn
  | received i now msg conn' hSent =>
      rw [hSent.frame]
      exact hWithdrawn
  | other a hOther => exact hWithdrawn

end Conn

namespace Sys

/- Taking an event leaves the others in the queue. -/
theorem Step.events_of_take
    {env : Env}
    {s s' : Sys}
    {now : Time}
    {e : ConnId × TaskEvent}
    {events : List (ConnId × TaskEvent)}
    (hStep : Step env s (.take now) s')
    (hFront : s.events = e :: events) :
    s.events = e :: s'.events := by
  rcases hStep.events_cases with
    ⟨_, hOther, _⟩ | ⟨_, e', _, hTake⟩ |
    ⟨_, _, _, _, hAct, _⟩ | ⟨_, _, _, _, hAct, _⟩ |
    ⟨_, _, _, hAct, _⟩
  · exact absurd rfl (hOther now)
  · rw [hFront] at hTake ⊢
    cases hTake
    rfl
  · cases hAct
  · cases hAct
  · cases hAct

/- The receiver task sees the answer. -/
theorem Step.answer_seen
    {env : Env}
    {s s' : Sys}
    {c : ConnId}
    (hAwait : (s.conns c).receiver = .awaitInit)
    (hStep : Step env s (.resume c) s') :
    (∃ h, (s.conns c).errTx = .sent h) ∨
      (s'.conns c).Withdrawn := by
  cases hStep with
  | conn d _ conn' hLocal =>
      cases hLocal with
      | confirmed h hAt hSent => exact Or.inl ⟨h, hSent⟩
      | rejected hAt hDropped =>
          refine Or.inr ?_
          simp [setConn, Conn.Withdrawn, hDropped]
      | ended item sent hAt hItem hSent =>
          simp [hAwait] at hAt
      | pinged _ items n closed pinger hAct =>
          simp at hAct
  | queueInit d h ch msg hAt => simp [hAwait] at hAt
  | queueMsg d h ch msg hAt => simp [hAwait] at hAt

/-
  A receiver task that has seen the answer was accepted, or
  it has taken its hashes back.
-/
theorem answered_of_run
    {env : Env}
    {acts : List Act}
    {s : Sys}
    {c : ConnId}
    (hRun : run env acts = some s)
    (hAnswered : AnsweredIn env acts c) :
    (∃ h, (s.conns c).errTx = .sent h) ∨
      (s.conns c).Withdrawn := by
  refine Trace.run_induction
    (P := fun acts s =>
      AnsweredIn env acts c →
        (∃ h, (s.conns c).errTx = .sent h) ∨
          (s.conns c).Withdrawn)
    ?_ ?_ hRun hAnswered
  · rintro ⟨before, behind, s, hSplit, _⟩
    have hLength := congrArg List.length hSplit
    simp at hLength
  · rintro acts s a s' hPrefix ih hStep
      ⟨before, behind, t, hSplit, hBefore, hAwait⟩
    have hPrefix : run env acts = some s := hPrefix
    have hStep := step_sound hStep
    have hChange := hStep.change (queuedInits_of_run hPrefix) c
    have hTraced := traced_of_run hPrefix c
    rcases Trace.snoc_eq_split hSplit with
      ⟨rfl, rfl, _⟩ | ⟨rest, _, rfl⟩
    · rw [hPrefix] at hBefore
      cases hBefore
      rcases hStep.answer_seen hAwait with
        ⟨h, hSent⟩ | hWithdrawn
      · exact Or.inl ⟨h, hChange.sent hTraced hSent⟩
      · exact Or.inr hWithdrawn
    · rcases ih ⟨before, rest, t, rfl, hBefore, hAwait⟩ with
        ⟨h, hSent⟩ | hWithdrawn
      · exact Or.inl ⟨h, hChange.sent hTraced hSent⟩
      · exact Or.inr (hChange.withdrawn hWithdrawn)

/-
  A final cleanup that has loaded hashes was hasty, or its
  connection was accepted.
-/
theorem loaded_of_run
    {env : Env}
    {acts : List Act}
    {s : Sys}
    {c : ConnId}
    {h ch : UInt64}
    (hRun : run env acts = some s)
    (hAt : (s.conns c).sender = .sendLogoff h ch) :
    HastyIn env acts c ∨
      ∃ h', (s.conns c).errTx = .sent h' := by
  refine Trace.run_induction
    (P := fun acts s =>
      (s.conns c).sender = .sendLogoff h ch →
        HastyIn env acts c ∨
          ∃ h', (s.conns c).errTx = .sent h')
    ?_ ?_ hRun hAt
  · simp [init]
  · intro acts s a s' hPrefix ih hStep hAt'
    have hChange :=
      (step_sound hStep).change (queuedInits_of_run hPrefix) c
    have hKept :
        ∀ h', (s.conns c).errTx = .sent h' →
          (s'.conns c).errTx = .sent h' :=
      fun h' hSent =>
        hChange.sent (traced_of_run hPrefix c) hSent
    rcases hChange.sender_sendLogoff hAt' with
      hOld | ⟨ok, rfl, hClose, hNonzero⟩
    · rcases ih hOld with hHasty | ⟨h', hSent⟩
      · exact Or.inl (hHasty.append _)
      · exact Or.inr ⟨h', hKept h' hSent⟩
    · by_cases hAnswered : AnsweredIn env acts c
      · rcases answered_of_run hPrefix hAnswered with
          ⟨h', hSent⟩ | hWithdrawn
        · exact Or.inr ⟨h', hKept h' hSent⟩
        · exact absurd hWithdrawn.1 hNonzero
      · exact Or.inl
          ⟨acts, ok, [], s, rfl, hPrefix, hClose, hAnswered⟩

/- A duplicate logs off only by a hasty cleanup. -/
theorem hasty_of_rejected
    {env : Env}
    {acts : List Act}
    {s : Sys}
    {c : ConnId}
    {h ch : UInt64}
    (hRun : run env acts = some s)
    (hRejected : RejectedIn env acts c)
    (hAt : (s.conns c).sender = .sendLogoff h ch) :
    HastyIn env acts c := by
  rcases loaded_of_run hRun hAt with hHasty | ⟨h', hSent⟩
  · exact hHasty
  · rw [(answers_of_run hRun).rejected c hRejected] at hSent
    cases hSent

end Sys

end Mles

------------------------------------------------------------
-- Removal by the Owner
------------------------------------------------------------

namespace Mles

namespace Sys

/-
  Every other connection that holds the entry, or asks for
  it in these events, logs off from it in them.
-/
def Clear
    (s : Sys)
    (c : ConnId)
    (h ch : UInt64)
    (events : List (ConnId × TaskEvent)) : Prop :=
  (∀ d ∈ s.hub.entry ch h, d ≠ c →
      (d, .logoff h ch) ∈ events) ∧
    othersLeave c h ch events = true

/-
  Up to the connection's own `Init`, or to the end of the
  event queue, all others leave the entry.
-/
def FreeFor
    (s : Sys)
    (c : ConnId)
    (h ch : UInt64) : Prop :=
  ∃ n ≤ s.events.length,
    s.Clear c h ch (s.events.take n) ∧
      ∀ e ∈ s.events[n]?, asksFor h ch e = true ∧ e.1 = c

instance
    (s : Sys)
    (c : ConnId)
    (h ch : UInt64)
    (events : List (ConnId × TaskEvent)) :
    Decidable (s.Clear c h ch events) :=
  inferInstanceAs (Decidable (_ ∧ _))

instance
    (s : Sys)
    (c : ConnId)
    (h ch : UInt64) :
    Decidable (s.FreeFor c h ch) :=
  inferInstanceAs
    (Decidable (∃ n, n ≤ s.events.length ∧ _ ∧ _))

/-
  Where a `Logoff` of a hasty cleanup is queued, the `Init`
  of the connection has been accepted meanwhile, or its
  entry is free for it.
-/
def OwnLogoffs
    (env : Env)
    (acts : List Act) : Prop :=
  ∀ before c behind s h ch,
    acts = before ++ .logoff c :: behind →
      run env before = some s →
        (s.conns c).sender = .sendLogoff h ch →
          HastyIn env before c →
            (s.conns c).errTx = .sent h ∨ s.FreeFor c h ch

theorem OwnLogoffs.init
    {env : Env}
    {acts acts' : List Act}
    (hOwn : OwnLogoffs env (acts ++ acts')) :
    OwnLogoffs env acts := by
  rintro before c behind s h ch rfl
  exact hOwn before c (behind ++ acts') s h ch (by simp)

/- Every queued `Logoff` finds its own entry, or none. -/
def QueuedLogoffs (s : Sys) : Prop :=
  ∀ ch h, Orderly ch h (s.hub.entry ch h) s.events

/-
  An accepted connection holds its entry, until its own
  `Logoff` is taken.
-/
def Held
    (env : Env)
    (acts : List Act)
    (s : Sys) : Prop :=
  ∀ c h ch,
    (s.conns c).errTx = .sent h →
      env.Owns (firstRead c acts) h ch →
        (c, .logoff h ch) ∉ getsIn env acts →
          s.hub.entry ch h = some c

/- Its `Logoff` is taken only after it has been queued. -/
theorem not_taken_of_alive
    {env : Env}
    {acts : List Act}
    {s : Sys}
    {c : ConnId}
    (hRun : run env acts = some s)
    (hAlive : (s.conns c).sender ≠ .done)
    (h ch : UInt64) :
    (c, .logoff h ch) ∉ getsIn env acts ∧
      (c, .logoff h ch) ∉ s.events := by
  have hNone := (protocol_of_run hRun c).stays hAlive
  have hNotPut : (c, .logoff h ch) ∉ putsIn env acts := by
    intro hMem
    have hRelease :
        .logoff h ch ∈
          (eventsOf c (putsIn env acts)).filter
            (fun e => !e.isRequest) := by
      simp [eventsOf, WsEvent.isRequest, hMem]
    rw [hNone] at hRelease
    cases hRelease
  rw [puts_eq_gets_append hRun, List.mem_append] at hNotPut
  exact not_or.mp hNotPut

/-
  The hashes a final cleanup has loaded are those of the
  registration, if the connection was accepted.
-/
theorem owns_of_accepted
    {env : Env}
    {acts : List Act}
    {s : Sys}
    {c : ConnId}
    {h ch h' : UInt64}
    (hRun : run env acts = some s)
    (hAt : (s.conns c).sender = .sendLogoff h ch)
    (hSent : (s.conns c).errTx = .sent h') :
    h' = h ∧ env.Owns (firstRead c acts) h ch := by
  rcases (protocol_of_run hRun c).hashes h ch hAt with
    ⟨hdr, hHeader, rfl, rfl⟩
  rcases (answers_of_run hRun).sent c h' hSent with
    ⟨ch', _, hdr', hHeader', hAuth, rfl, rfl⟩
  rw [hHeader] at hHeader'
  cases hHeader'
  exact ⟨rfl, hdr, hHeader, hAuth, rfl, rfl⟩

/- A free entry will be the connection's own, or nobody's. -/
theorem FreeFor.inherits
    {s : Sys}
    {c : ConnId}
    {h ch : UInt64}
    (hInits : s.QueuedInits)
    (hLogoffs : s.QueuedLogoffs)
    (hStays : (c, .logoff h ch) ∉ s.events)
    (hFree : s.FreeFor c h ch) :
    heir ch h (s.hub.entry ch h) s.events = none ∨
      heir ch h (s.hub.entry ch h) s.events = some c := by
  rcases hFree with ⟨n, _, ⟨hOwner, hOthers⟩, hNext⟩
  rw [← List.head?_drop] at hNext
  have hEvents := (List.take_append_drop n s.events).symm
  generalize s.events.take n = ahead at hEvents hOwner hOthers
  generalize s.events.drop n = behind at hEvents hNext
  have hOwn : OwnQueues s.events :=
    fun d h ch tx2 errTx f hMem =>
      (hInits.own d h ch tx2 errTx f hMem).1
  have hOrderly := hLogoffs ch h
  rw [hEvents] at hStays hOwn hOrderly ⊢
  have hAhead :=
    heir_of_othersLeave
      (hOwn.mono (List.subset_append_left ahead behind))
      hOwner hOthers
  rw [heir_append]
  cases behind with
  | nil => exact hAhead
  | cons e rest =>
      rcases hNext e rfl with ⟨hAsks, rfl⟩
      -- Its own `Init` is accepted, or it is the owner.
      have hTaken :=
        heir_of_asksFor (hOwn.mono (by simp)) hAsks hAhead
      have hRest := hOrderly.behind.tail
      rw [hTaken] at hRest
      rw [heir_cons, hTaken]
      refine Or.inr (heir_of_holder hRest ?_)
      exact fun hMem => hStays (by simp [hMem])

section Step

variable {env : Env}
variable {acts : List Act}
variable {s s' : Sys}
variable {a : Act}

/- The facts about the state before a step. -/
variable (hRun : run env acts = some s)
variable (hStep : Step env s a s')
variable (hLogoffs : s.QueuedLogoffs)
variable (hHeld : Held env acts s)

include hRun hLogoffs hHeld

/- The `Logoff` of an accepted connection finds its entry. -/
theorem Held.inherits
    {c : ConnId}
    {h ch : UInt64}
    (hAt : (s.conns c).sender = .sendLogoff h ch)
    (hSent : ∃ h', (s.conns c).errTx = .sent h') :
    heir ch h (s.hub.entry ch h) s.events = some c := by
  rcases hSent with ⟨h', hSent⟩
  rcases owns_of_accepted hRun hAt hSent with ⟨rfl, hOwns⟩
  rcases not_taken_of_alive hRun
    (show (s.conns c).sender ≠ .done by simp [hAt]) h' ch with
    ⟨hNotTaken, hNotQueued⟩
  have hEntry := hHeld c h' ch hSent hOwns hNotTaken
  have hOrderly := hLogoffs ch h'
  rw [hEntry] at hOrderly ⊢
  exact heir_of_holder hOrderly hNotQueued

include hStep

/- What is queued keeps finding its own entry, or none. -/
theorem QueuedLogoffs.step
    (hOwn : OwnLogoffs env (acts ++ [a])) :
    s'.QueuedLogoffs := by
  have hQueue
      {e : ConnId × TaskEvent}
      (hOther : ∀ now, a ≠ .take now)
      (hEvents : s'.events = s.events ++ [e])
      (hNew :
        ∀ c h ch, e = (c, .logoff h ch) →
          heir ch h (s.hub.entry ch h) s.events = none ∨
            heir ch h (s.hub.entry ch h) s.events = some c) :
      s'.QueuedLogoffs := by
    intro ch h
    rw [hStep.entry_other hOther, hEvents]
    exact (hLogoffs ch h).snoc (fun c hEq => hNew c h ch hEq)
  rcases hStep.events_cases with
    ⟨hSame, hOther, _⟩ | ⟨now, e, rfl, hTake⟩ |
    ⟨c, h, ch, msg, rfl, hAt, hEvents⟩ |
    ⟨c, h, ch, msg, rfl, hAt, hEvents⟩ |
    ⟨c, h, ch, rfl, hAt, _, hEvents⟩
  · intro ch h
    rw [hStep.entry_other hOther, hSame]
    exact hLogoffs ch h
  · intro ch h
    have hOrderly := hLogoffs ch h
    rw [hTake] at hOrderly
    rw [hStep.entry_take hTake]
    exact hOrderly.tail
  · exact hQueue (by simp) hEvents (by simp)
  · exact hQueue (by simp) hEvents (by simp)
  · refine hQueue (by simp) hEvents ?_
    intro c' h' ch' hEq
    cases hEq
    have hStays :=
      (not_taken_of_alive hRun
        (show (s.conns c).sender ≠ .done by simp [hAt])
        h ch).2
    rcases loaded_of_run hRun hAt with hHasty | hSent
    · rcases hOwn acts c [] s h ch rfl hRun hAt hHasty with
        hSent | hFree
      · exact Or.inr
          (hHeld.inherits hRun hLogoffs hAt ⟨h, hSent⟩)
      · exact hFree.inherits (queuedInits_of_run hRun) hLogoffs
          hStays
    · exact Or.inr (hHeld.inherits hRun hLogoffs hAt hSent)

/- The holder of an entry is the one accepted for it. -/
theorem Held.step :
    Held env (acts ++ [a]) s' := by
  intro c h ch hSent' hOwns' hNotTaken
  have hInits := queuedInits_of_run hRun
  have hGets :
      getsIn env (acts ++ [a]) = getsIn env acts ++ s.gets a :=
    Trace.collect_snoc gets a hRun
  rw [hGets, List.mem_append, not_or] at hNotTaken
  rw [firstRead_snoc] at hOwns'
  rcases hStep.errTx_sent hSent' with
    hSent | ⟨now, d, ch', tx2, f, events, rfl, hIdle, hFront,
      hVacant⟩
  · rcases (answers_of_run hRun).sent c h hSent with
      ⟨ch', _, hOwns⟩
    have hEq := ((hOwns.or _).unique hOwns').2
    subst hEq
    have hEntry := hHeld c h ch' hSent hOwns hNotTaken.1
    rcases hStep.entry_cases with
      hSame | ⟨_, _, h', ch, _, _, _, _, _, hVacant, _, hNew⟩ |
      ⟨now, d, h', ch, rfl, hEvents, hErased⟩
    · rw [hSame]
      exact hEntry
    · rw [hNew]
      by_cases hPair : ch' = ch ∧ h = h'
      · rw [hPair.1, hPair.2, hVacant] at hEntry
        cases hEntry
      · rw [if_neg hPair]
        exact hEntry
    · rw [hErased]
      by_cases hPair : ch' = ch ∧ h = h'
      · rcases hPair with ⟨rfl, rfl⟩
        -- The `Logoff` taken would be its own.
        have hOrderly := hLogoffs ch' h
        rw [hEntry] at hOrderly
        rcases hOrderly [] d s'.events hEvents with
          hNone | hOwner
        · cases hNone
        · cases hOwner
          simp [gets, hEvents] at hNotTaken
      · rw [if_neg hPair]
        exact hEntry
  · -- The `Init` of the connection is accepted.
    have hMem : (d, .init h ch' tx2 c f) ∈ s.events := by
      rw [hFront]
      exact List.mem_cons_self
    rcases hInits.own d h ch' tx2 c f hMem with ⟨rfl, rfl⟩
    have hOwns :=
      ((registrations_of_run hRun).queued _ h ch' _ _ f hMem).1
    have hEq := ((hOwns.or _).unique hOwns').2
    subst hEq
    have hTake := hStep.events_of_take hFront
    rw [hStep.entry_take hTake, hVacant, heir, heir,
      if_pos ⟨rfl, rfl⟩]
    rfl

end Step

theorem ownership_of_run
    {env : Env}
    {acts : List Act}
    {s : Sys}
    (hOwn : OwnLogoffs env acts)
    (hRun : run env acts = some s) :
    s.QueuedLogoffs ∧ Held env acts s := by
  refine Trace.run_induction
    (P := fun acts s =>
      OwnLogoffs env acts → s.QueuedLogoffs ∧ Held env acts s)
    ?_ ?_ hRun hOwn
  · intro _
    refine ⟨?_, ?_⟩
    · intro ch h before c behind hSplit
      have hLength := congrArg List.length hSplit
      simp [init] at hLength
    · intro c h ch hSent
      cases hSent
  · intro acts s a s' hPrefix ih hStep hOwn
    have hStep := step_sound hStep
    rcases ih hOwn.init with ⟨hLogoffs, hHeld⟩
    exact
      ⟨QueuedLogoffs.step hPrefix hStep hLogoffs hHeld hOwn,
        Held.step hPrefix hStep hLogoffs hHeld⟩

/-
  If the step takes a registered queue out of the registry,
  it handles a `Logoff` that the connection of this queue
  queued itself.
-/
def RemovedByOwner
    (s : Sys)
    (a : Act)
    (s' : Sys) : Prop :=
  ∀ ch h c,
    s.hub.entry ch h = some c →
      s'.hub.entry ch h ≠ some c →
        ∃ now events,
          a = .take now ∧
            s.events = (c, .logoff h ch) :: events

/-
  Only the owner of an entry removes it, in every run whose
  hasty cleanups queue their `Logoff`s for own entries.
-/
theorem removedByOwner_of_run
    (env : Env)
    (acts : List Act)
    (s s' : Sys)
    (a : Act)
    (hOwn : OwnLogoffs env acts)
    (hRun : run env acts = some s)
    (hStep : s.step env a = some s') :
    s.RemovedByOwner a s' := by
  intro ch h c hEntry hGone
  have hLogoffs := (ownership_of_run hOwn hRun).1 ch h
  rcases (step_sound hStep).entry_cases with
    hSame | ⟨now, d, h', ch', tx2, errTx, msg, _, _, hVacant,
      _, hNew⟩ | ⟨now, d, h', ch', hTake, hEvents, hErased⟩
  · rw [hSame] at hGone
    exact absurd hEntry hGone
  · rw [hNew] at hGone
    by_cases hPair : ch = ch' ∧ h = h'
    · rw [hPair.1, hPair.2, hVacant] at hEntry
      cases hEntry
    · rw [if_neg hPair] at hGone
      exact absurd hEntry hGone
  · rw [hErased] at hGone
    by_cases hPair : ch = ch' ∧ h = h'
    · rcases hPair with ⟨rfl, rfl⟩
      -- The `Logoff` is at the front of the queue, so the
      -- entry is the one it was queued for.
      rcases hLogoffs [] d s'.events hEvents with
        hNone | hOwn
      · rw [heir, hEntry] at hNone
        cases hNone
      · rw [heir, hEntry] at hOwn
        cases hOwn
        exact ⟨now, s'.events, hTake, hEvents⟩
    · rw [if_neg hPair] at hGone
      exact absurd hEntry hGone

/- The condition at one step, as a test of every `Logoff`. -/
def ownLogoff
    (s : Sys) : Act → Bool
| .logoff c =>
    match (s.conns c).sender with
    | .sendLogoff h ch =>
        (s.conns c).errTx = .sent h || s.FreeFor c h ch
    | _ => true
| _ => true

theorem OwnLogoffs.of_check
    {env : Env}
    {acts : List Act}
    (hCheck :
      Trace.check (step env) ownLogoff Sys.init acts = true) :
    OwnLogoffs env acts := by
  intro before c behind s h ch hSplit hRun hAt _
  have hAlong :
      Trace.Along (step env)
        (fun s a => s.ownLogoff a = true) Sys.init acts :=
    Trace.Along.of_check (fun _ _ hTest => hTest) hCheck
  have hTest := hAlong before _ behind s hSplit hRun
  simpa [ownLogoff, hAt] using hTest

/-
  A duplicate sees its rejection and finishes, a client
  whose socket fails early logs off before its `Init` has
  been taken, and the first client leaves.
-/
def allLeave : List Act :=
  [.read 0 (.frame alice), .resume 0, .take 0,
    .read 1 (.frame alice), .resume 1, .take 0, .resume 1,
    .resume 1, .next 1, .write 1 true,
    .read 2 (.frame bob), .resume 2, .tick 2, .tick 2, .ping 2,
    .next 2, .write 2 false, .write 2 true, .logoff 2,
    .take 0, .send 0 0, .take 0,
    .resume 0, .read 0 (.frame (.close none)), .resume 0,
    .next 0, .write 0 true, .logoff 0]

theorem removedByOwner_allLeave :
    ∃ s s',
      run Env.sample allLeave = some s ∧
        s.step Env.sample (.take 0) = some s' ∧
        s.hub.entry newsHash aliceHash = some 0 ∧
        s'.hub.entry newsHash aliceHash = none ∧
        s.RemovedByOwner (.take 0) s' := by
  have hOwn : OwnLogoffs Env.sample allLeave :=
    OwnLogoffs.of_check (by decide +kernel)
  have hBefore :
      (run Env.sample allLeave).map
          (fun s => s.hub.entry newsHash aliceHash) =
        some (some 0) := by
    decide +kernel
  have hAfter :
      (run Env.sample (allLeave ++ [.take 0])).map
          (fun s => s.hub.entry newsHash aliceHash) =
        some none := by
    decide +kernel
  rcases Option.map_eq_some_iff.mp hAfter with
    ⟨s', hRun', hGone⟩
  rcases Trace.run_snoc_eq_some_iff.mp hRun' with
    ⟨s, hRun, hStep⟩
  have hRun : run Env.sample allLeave = some s := hRun
  rw [hRun] at hBefore
  exact ⟨s, s', hRun, hStep, Option.some.inj hBefore, hGone,
    removedByOwner_of_run _ _ s s' _ hOwn hRun hStep⟩

/-
  A second client sends the header of the first, and its
  socket fails before it has learnt of the rejection.
-/
def duplicateFails : List Act :=
  [.read 0 (.frame alice), .resume 0, .take 0,
    .read 1 (.frame alice), .resume 1, .tick 1, .tick 1, .ping 1,
    .next 1, .write 1 false, .write 1 true, .logoff 1,
    .take 0]

theorem removed_by_duplicate :
    ¬ ∀ env acts s s' a,
      run env acts = some s → s.step env a = some s' →
        s.RemovedByOwner a s' := by
  intro hAll
  have hBefore :
      (run Env.sample duplicateFails).map
          (fun s => (s.hub.entry newsHash aliceHash,
            s.events)) =
        some (some 0, [(1, .logoff aliceHash newsHash)]) := by
    decide +kernel
  have hAfter :
      (run Env.sample (duplicateFails ++ [.take 0])).map
          (fun s => s.hub.entry newsHash aliceHash) =
        some none := by
    decide +kernel
  rcases Option.map_eq_some_iff.mp hAfter with
    ⟨s', hRun', hGone⟩
  rcases Trace.run_snoc_eq_some_iff.mp hRun' with
    ⟨s, hRun, hStep⟩
  have hRun : run Env.sample duplicateFails = some s := hRun
  rw [hRun] at hBefore
  have hState := Option.some.inj hBefore
  simp only [Prod.mk.injEq] at hState
  rcases hAll _ _ s s' _ hRun hStep newsHash aliceHash 0
    hState.1 (by simp [hGone]) with ⟨now, events, _, hEvents⟩
  rw [hState.2] at hEvents
  cases hEvents

end Sys

end Mles
