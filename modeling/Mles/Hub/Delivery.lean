import Mles.Hub.Basic

/-
  Exact delivery: what the event loop sends on the queue of
  one accepted `Init`, over any sequence of events.

  A queue is followed through two phases.  Until its `Init`
  is accepted and again from its `Logoff` on, no entry holds
  it (`Absent`); in between exactly one entry does (`Only`).
  One turn of the loop sends nothing on an absent queue, and
  on the queue of the client `h` of the channel `ch` exactly
  the message of a `Msg` of `ch` by another client.

  Key definitions include:
    * `Hub.live`

  Key theorems include:
    * `Hub.sentOn_step_of_absent`
    * `Hub.sentOn_run_of_only`
    * `Hub.sentOn_run_init`
-/

------------------------------------------------------------
-- Frames Sent on One Queue
------------------------------------------------------------

namespace Mles

namespace Hub

variable {T M : Type} [DecidableEq T]

@[simp] theorem sentOn_nil
    (tx : T) :
    sentOn tx ([] : List (T × M)) = [] := rfl

theorem sentOn_append
    (tx : T)
    (xs ys : List (T × M)) :
    sentOn tx (xs ++ ys) = sentOn tx xs ++ sentOn tx ys := by
  simp [sentOn]

/- A replay goes to one queue. -/
theorem sentOn_replay
    (tx tx2 : T)
    (queued : List M) :
    sentOn tx (queued.map (fun qmsg => (tx2, qmsg))) =
      if tx2 = tx then queued else [] := by
  induction queued with
  | nil => simp
  | cons qmsg queued ih =>
      rw [List.map_cons, ← List.singleton_append,
        sentOn_append, ih]
      by_cases hTx : tx2 = tx
      · simp [sentOn, hTx]
      · simp [sentOn, hTx]

/- A fan-out reaches a queue once per entry holding it. -/
theorem sentOn_fanout
    (tx : T)
    (txs : List T)
    (msg : M) :
    sentOn tx (txs.map (fun tx' => (tx', msg))) =
      List.replicate (txs.count tx) msg := by
  induction txs with
  | nil => simp
  | cons tx' txs ih =>
      rw [List.map_cons, ← List.singleton_append,
        sentOn_append, ih]
      by_cases hTx : tx' = tx
      · simp [sentOn, hTx, List.replicate_succ]
      · simp [sentOn, hTx]

------------------------------------------------------------
-- Phases of a Queue
------------------------------------------------------------

/- No entry holds the queue. -/
def Absent
    (hub : Hub T M)
    (tx : T) : Prop :=
  ∀ ch h, hub.entry ch h ≠ some tx

/- The one entry that holds the queue. -/
structure Only
    (hub : Hub T M)
    (tx : T)
    (ch h : UInt64) : Prop where
  held : hub.entry ch h = some tx
  unique :
    ∀ ch' h', hub.entry ch' h' = some tx →
      ch' = ch ∧ h' = h

omit [DecidableEq T] in
theorem absent_new
    (tx : T) :
    Absent (new : Hub T M) tx := by
  intro ch h
  simp

end Hub

namespace Event

variable {T M : Type}

/- The queue brought by an `Init`. -/
def tx2 : Event T M → Option T
| .init _ _ tx2 _ _ _ => some tx2
| .msg _ _ _ _ => none
| .logoff _ _ => none
| .cleanup _ => none

end Event

namespace Hub

variable {T M : Type} [DecidableEq T]

/- Only its own `Init` makes an absent queue present. -/
omit [DecidableEq T] in
theorem absent_step
    (limit : UInt32)
    {hub : Hub T M}
    {tx : T}
    {e : Event T M}
    (hAbsent : Absent hub tx)
    (hOther : e.tx2 ≠ some tx) :
    Absent (hub.step limit e).1 tx := by
  intro ch' h' hEntry
  cases e with
  | init h ch tx2 msg created now =>
      rw [entry_step_init] at hEntry
      by_cases hPair : ch' = ch ∧ h' = h
      · rw [if_pos hPair] at hEntry
        cases hOld : hub.entry ch h with
        | none =>
            rw [hOld] at hEntry
            exact hOther hEntry
        | some old =>
            rw [hOld] at hEntry
            exact hAbsent ch h (hOld.trans hEntry)
      · rw [if_neg hPair] at hEntry
        exact hAbsent ch' h' hEntry
  | msg h ch msg now =>
      rw [entry_step_msg] at hEntry
      exact hAbsent ch' h' hEntry
  | logoff h ch =>
      rw [entry_step_logoff] at hEntry
      by_cases hPair : ch' = ch ∧ h' = h
      · rw [if_pos hPair] at hEntry
        cases hEntry
      · rw [if_neg hPair] at hEntry
        exact hAbsent ch' h' hEntry
  | cleanup now =>
      rw [entry_step_cleanup] at hEntry
      exact hAbsent ch' h' hEntry

/- The members of a fan-out are registered in the channel. -/
omit [DecidableEq T] in
theorem mem_targets_iff
    {hub : Hub T M}
    {h ch : UInt64}
    {txs : List T}
    (hTargets : hub.targets h ch = some txs)
    (tx : T) :
    tx ∈ txs ↔
      ∃ xh, xh ≠ h ∧ hub.entry ch xh = some tx := by
  rcases Option.map_eq_some_iff.mp hTargets with
    ⟨db, hDb, rfl⟩
  rw [AList.mem_valuesWhere_iff]
  simp [entry, hDb]

/- An `Init` sends on its own queue only. -/
theorem sentOn_step_init_of_ne
    (limit : UInt32)
    (hub : Hub T M)
    (h ch : UInt64)
    {tx tx2 : T}
    (hNe : tx2 ≠ tx)
    (msg : M)
    (created now : Time) :
    sentOn tx
        (hub.step limit
          (.init h ch tx2 msg created now)).2 = [] := by
  cases hEntry : hub.entry ch h with
  | none =>
      rw [step_init_of_none hEntry, sentOn_replay, if_neg hNe]
  | some old =>
      rw [step_init_of_some hEntry]
      rfl

/- Nothing is sent on an absent queue. -/
theorem sentOn_step_of_absent
    (limit : UInt32)
    {hub : Hub T M}
    {tx : T}
    {e : Event T M}
    (hAbsent : Absent hub tx)
    (hOther : e.tx2 ≠ some tx) :
    sentOn tx (hub.step limit e).2 = [] := by
  cases e with
  | init h ch tx2 msg created now =>
      have hNe : tx2 ≠ tx := by
        intro hEq
        exact hOther (congrArg some hEq)
      exact sentOn_step_init_of_ne limit hub h ch hNe msg
        created now
  | msg h ch msg now =>
      simp only [step]
      cases hTargets : hub.targets h ch with
      | none => rfl
      | some txs =>
          have hNotMem : tx ∉ txs := by
            intro hMem
            rcases (mem_targets_iff hTargets tx).mp hMem with
              ⟨xh, _, hEntry⟩
            exact hAbsent ch xh hEntry
          simp only
          rw [sentOn_fanout,
            List.count_eq_zero_of_not_mem hNotMem]
          rfl
  | logoff h ch => rfl
  | cleanup now => rfl

theorem sentOn_run_of_absent
    (limit : UInt32)
    {hub : Hub T M}
    {tx : T}
    {es : List (Event T M)}
    (hAbsent : Absent hub tx)
    (hOther : ∀ e ∈ es, e.tx2 ≠ some tx) :
    sentOn tx (run limit hub es).2 = [] ∧
      Absent (run limit hub es).1 tx := by
  induction es generalizing hub with
  | nil => exact ⟨rfl, hAbsent⟩
  | cons e es ih =>
      have hHead : e.tx2 ≠ some tx :=
        hOther e List.mem_cons_self
      have hTail := ih (absent_step limit hAbsent hHead)
        (fun f hf => hOther f (List.mem_cons_of_mem e hf))
      constructor
      · simp only [run]
        rw [sentOn_append, sentOn_step_of_absent limit hAbsent hHead,
          hTail.1]
        rfl
      · exact hTail.2

end Hub

end Mles

------------------------------------------------------------
-- The Registered Phase
------------------------------------------------------------

namespace Mles

namespace Hub

variable {T M : Type} [DecidableEq T]

/-
  The messages of a channel by other clients than `h`, up to
  the next `Logoff` of `h`.
-/
def live
    (h ch : UInt64) : List (Event T M) → List M
| [] => []
| .logoff h' ch' :: es =>
    if h' = h ∧ ch' = ch then [] else live h ch es
| .msg h' ch' msg _ :: es =>
    if ch' = ch ∧ h' ≠ h then msg :: live h ch es
    else live h ch es
| .init _ _ _ _ _ _ :: es => live h ch es
| .cleanup _ :: es => live h ch es

/- An accepted `Init` registers its queue in one entry. -/
omit [DecidableEq T] in
theorem only_step_init
    (limit : UInt32)
    {hub : Hub T M}
    {tx2 : T}
    {ch h : UInt64}
    (hAbsent : Absent hub tx2)
    (hEntry : hub.entry ch h = none)
    (msg : M)
    (created now : Time) :
    Only (hub.step limit
      (.init h ch tx2 msg created now)).1 tx2 ch h := by
  refine ⟨?_, ?_⟩
  · rw [entry_step_init, if_pos ⟨rfl, rfl⟩, hEntry]
    rfl
  · intro ch' h' hHeld
    rw [entry_step_init] at hHeld
    by_contra hPair
    rw [if_neg hPair] at hHeld
    exact hAbsent ch' h' hHeld

/- Only its `Logoff` ends the registration of a client. -/
omit [DecidableEq T] in
theorem only_step
    (limit : UInt32)
    {hub : Hub T M}
    {tx : T}
    {ch h : UInt64}
    {e : Event T M}
    (hOnly : Only hub tx ch h)
    (hOther : e.tx2 ≠ some tx)
    (hStay : e ≠ .logoff h ch) :
    Only (hub.step limit e).1 tx ch h := by
  cases e with
  | init h₁ ch₁ tx2 msg created now =>
      refine ⟨?_, ?_⟩
      · rw [entry_step_init]
        by_cases hPair : ch = ch₁ ∧ h = h₁
        · rw [if_pos hPair, ← hPair.1, ← hPair.2, hOnly.held]
          rfl
        · rw [if_neg hPair, hOnly.held]
      · intro ch' h' hEntry
        rw [entry_step_init] at hEntry
        by_cases hPair : ch' = ch₁ ∧ h' = h₁
        · rw [if_pos hPair] at hEntry
          cases hOld : hub.entry ch₁ h₁ with
          | none =>
              rw [hOld] at hEntry
              exact absurd hEntry hOther
          | some old =>
              rw [hOld] at hEntry
              rw [hPair.1, hPair.2]
              exact hOnly.unique ch₁ h₁ (hOld.trans hEntry)
        · rw [if_neg hPair] at hEntry
          exact hOnly.unique ch' h' hEntry
  | msg h₁ ch₁ msg now =>
      refine ⟨?_, ?_⟩
      · rw [entry_step_msg, hOnly.held]
      · intro ch' h' hEntry
        rw [entry_step_msg] at hEntry
        exact hOnly.unique ch' h' hEntry
  | logoff h₁ ch₁ =>
      refine ⟨?_, ?_⟩
      · rw [entry_step_logoff, if_neg, hOnly.held]
        rintro ⟨rfl, rfl⟩
        exact hStay rfl
      · intro ch' h' hEntry
        rw [entry_step_logoff] at hEntry
        by_cases hPair : ch' = ch₁ ∧ h' = h₁
        · rw [if_pos hPair] at hEntry
          cases hEntry
        · rw [if_neg hPair] at hEntry
          exact hOnly.unique ch' h' hEntry
  | cleanup now =>
      refine ⟨?_, ?_⟩
      · rw [entry_step_cleanup, hOnly.held]
      · intro ch' h' hEntry
        rw [entry_step_cleanup] at hEntry
        exact hOnly.unique ch' h' hEntry

/- The `Logoff` of a client takes its queue out. -/
omit [DecidableEq T] in
theorem absent_step_logoff
    (limit : UInt32)
    {hub : Hub T M}
    {tx : T}
    {ch h : UInt64}
    (hOnly : Only hub tx ch h) :
    Absent (hub.step limit (.logoff h ch)).1 tx := by
  intro ch' h' hEntry
  rw [entry_step_logoff] at hEntry
  by_cases hPair : ch' = ch ∧ h' = h
  · rw [if_pos hPair] at hEntry
    cases hEntry
  · rw [if_neg hPair] at hEntry
    exact hPair (hOnly.unique ch' h' hEntry)

/-
  A `Msg` reaches the queue exactly when it is a message of
  the queue's channel by another client, and then once.
-/
theorem sentOn_step_msg_of_only
    (limit : UInt32)
    {hub : Hub T M}
    {tx : T}
    {ch h : UInt64}
    (hOnly : Only hub tx ch h)
    (h' ch' : UInt64)
    (msg : M)
    (now : Time) :
    sentOn tx (hub.step limit (.msg h' ch' msg now)).2 =
      if ch' = ch ∧ h' ≠ h then [msg] else [] := by
  simp only [step]
  cases hTargets : hub.targets h' ch' with
  | none =>
      -- The channel of a registered client is there.
      have hNe : ch' ≠ ch := by
        rintro rfl
        have hNone : hub.chDb.lookup ch' = none :=
          Option.map_eq_none_iff.mp hTargets
        have hHeld := hOnly.held
        simp [entry, hNone] at hHeld
      simp [hNe]
  | some txs =>
      simp only
      rw [sentOn_fanout]
      rcases Option.map_eq_some_iff.mp hTargets with
        ⟨db, hDb, rfl⟩
      by_cases hCh : ch' = ch
      · subst hCh
        have hHeld : db.lookup h = some tx := by
          simpa [entry, hDb] using hOnly.held
        have hUnique :
            ∀ k, db.lookup k = some tx → k = h := by
          intro k hk
          exact (hOnly.unique ch' k
            (by simpa [entry, hDb] using hk)).2
        rw [AList.count_valuesWhere db _ hHeld hUnique]
        by_cases hH : h' = h
        · simp [hH]
        · have hFlip : h ≠ h' := fun hEq => hH hEq.symm
          simp [hH, hFlip]
      · have hNotMem :
            tx ∉ db.valuesWhere (fun xh => xh ≠ h') := by
          intro hMem
          rcases (AList.mem_valuesWhere_iff _ _ _).mp hMem with
            ⟨xh, _, hLookup⟩
          exact hCh (hOnly.unique ch' xh
            (by simpa [entry, hDb] using hLookup)).1
        rw [List.count_eq_zero_of_not_mem hNotMem]
        simp [hCh]

/- The events that follow reach the queue as `live` says. -/
theorem sentOn_run_of_only
    (limit : UInt32)
    {hub : Hub T M}
    {tx : T}
    {ch h : UInt64}
    {es : List (Event T M)}
    (hOnly : Only hub tx ch h)
    (hOther : ∀ e ∈ es, e.tx2 ≠ some tx) :
    sentOn tx (run limit hub es).2 = live h ch es := by
  induction es generalizing hub with
  | nil => rfl
  | cons e es ih =>
      have hHead : e.tx2 ≠ some tx :=
        hOther e List.mem_cons_self
      have hTail : ∀ f ∈ es, f.tx2 ≠ some tx :=
        fun f hf => hOther f (List.mem_cons_of_mem e hf)
      simp only [run]
      rw [sentOn_append]
      by_cases hLogoff : e = .logoff h ch
      · subst hLogoff
        have hGone := sentOn_run_of_absent limit
          (absent_step_logoff limit hOnly) hTail
        rw [hGone.1]
        simp [live, step]
      · rw [ih (only_step limit hOnly hHead hLogoff) hTail]
        cases e with
        | init h₁ ch₁ tx2 msg created now =>
            have hNe : tx2 ≠ tx := by
              intro hEq
              exact hHead (congrArg some hEq)
            rw [sentOn_step_init_of_ne limit hub h₁ ch₁ hNe]
            rfl
        | msg h₁ ch₁ msg now =>
            rw [sentOn_step_msg_of_only limit hOnly]
            by_cases hHit : ch₁ = ch ∧ h₁ ≠ h
            · rw [if_pos hHit, live, if_pos hHit]
              rfl
            · rw [if_neg hHit, live, if_neg hHit]
              rfl
        | logoff h₁ ch₁ =>
            have hMiss : ¬ (h₁ = h ∧ ch₁ = ch) := by
              rintro ⟨rfl, rfl⟩
              exact hLogoff rfl
            rw [live, if_neg hMiss]
            rfl
        | cleanup now => rfl

end Hub

end Mles

------------------------------------------------------------
-- Exact Delivery
------------------------------------------------------------

namespace Mles

namespace Hub

variable {T M : Type} [DecidableEq T]

/-
  The frames sent on the queue of an `Init`, over a whole
  sequence of events in which no other `Init` brings that
  queue: the stored messages of the channel and then its
  live messages if the `Init` is accepted, nothing at all if
  it is a duplicate.
-/
theorem sentOn_run_init
    (limit : UInt32)
    (before later : List (Event T M))
    (h ch : UInt64)
    (tx2 : T)
    (msg : M)
    (created now : Time)
    (hOwn :
      ∀ e ∈ before ++ later, e.tx2 ≠ some tx2) :
    sentOn tx2
        (run limit new
          (before ++
            .init h ch tx2 msg created now :: later)).2 =
      if ((after limit before).entry ch h).isNone then
        (after limit before).stored ch ++ live h ch later
      else [] := by
  have hBefore : ∀ e ∈ before, e.tx2 ≠ some tx2 :=
    fun e he => hOwn e (List.mem_append_left later he)
  have hLater : ∀ e ∈ later, e.tx2 ≠ some tx2 :=
    fun e he => hOwn e (List.mem_append_right before he)
  have hPrefix := sentOn_run_of_absent limit
    (absent_new tx2) hBefore
  rw [run_append, sentOn_append, hPrefix.1]
  change [] ++ sentOn tx2
    ((after limit before).run limit
      (.init h ch tx2 msg created now :: later)).2 = _
  have hAbsent : Absent (after limit before) tx2 := hPrefix.2
  simp only [run]
  rw [List.nil_append, sentOn_append]
  cases hEntry : (after limit before).entry ch h with
  | some tx =>
      -- A duplicate leaves its queue absent.
      rw [step_init_of_some hEntry,
        (sentOn_run_of_absent limit hAbsent hLater).1]
      rfl
  | none =>
      have hOnly := only_step_init limit hAbsent hEntry msg
        created now
      rw [sentOn_run_of_only limit hOnly hLater]
      rw [step_init_of_none hEntry, sentOn_replay, if_pos rfl]
      rfl

/- A late joiner, who also speaks and leaves. -/
theorem sentOn_run_init_late_joiner :
    sentOn "q2"
        (run 200 new
          ([.init 1 7 "q1" "join1" 0 0] ++
            .init 2 7 "q2" "join2" 1 1 ::
            [.msg 1 7 "hello" 2, .msg 2 7 "mine" 3,
              .msg 1 8 "other" 4, .logoff 2 7,
              .msg 1 7 "late" 5] :
            List (Event String String))).2 =
      ["join1", "hello"] :=
  (sentOn_run_init 200 _ _ 2 7 "q2" "join2" 1 1
    (by decide)).trans (by decide)

end Hub

end Mles
