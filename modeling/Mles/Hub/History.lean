import Mles.Hub.Basic
import Mathlib.Data.List.DropRight
import Mathlib.Data.List.Induction

/-
  Exact history: what the event loop holds in `msg_db`, as a
  function of the events it has handled.

  `processed` lists the messages of one channel that a
  sequence of events brings to the loop, with the reading of
  the clock at each: the first messages of accepted `Init`s
  and the messages of `Msg`s that find the channel in
  `ch_db`.  The history of a channel is the tail of this
  list from the `Init` on that created it, cut to the limit.

  Key definitions include:
    * `addMessageChecked`
    * `Hub.counted`
    * `Hub.processed`
    * `Hub.HistoryOf`
    * `Event.concerns`

  Key theorems include:
    * `addMessage_rtake`
    * `queue_bounded_iff`
    * `Hub.historyOf_of_lookup`
    * `Hub.agree_after_filter`
    * `Hub.expired_of_dropped`
    * `Hub.mem_chDb_iff`
    * `Hub.history_exact`
-/

------------------------------------------------------------
-- The Bounded Queue
------------------------------------------------------------

namespace Mles

/-
  Adding to the last `limit` messages of a list gives the
  last `limit` messages of the longer list.
-/
theorem addMessage_rtake
    {M : Type}
    (msg : M)
    {limit : UInt32}
    (hLimit : 0 < limit.toNat)
    (ms : List M) :
    addMessage msg limit (ms.rtake limit.toNat) =
      (ms ++ [msg]).rtake limit.toNat := by
  obtain ⟨n, hn⟩ : ∃ n, limit.toNat = n + 1 :=
    Nat.exists_eq_succ_of_ne_zero (by omega)
  rw [hn, List.rtake_concat_succ]
  unfold addMessage
  simp only [hn]
  congr 1
  by_cases hFull : (ms.rtake (n + 1)).length = n + 1
  · rw [if_pos hFull]
    simp only [List.rtake, List.length_drop] at hFull ⊢
    rw [List.tail_drop]
    congr 1
    omega
  · rw [if_neg hFull]
    simp only [List.rtake, List.length_drop] at hFull ⊢
    congr 1
    omega

/-
  The same on a queue of some capacity, with the difference
  that is reserved in checked arithmetic.  The capacity is
  below the limit there, and twice that is below `2 ^ 33`.
-/
def addMessageChecked
    {M : Type}
    (msg : M)
    (limit : UInt32)
    (cap : Nat)
    (queue : List M) : Option (List M) := do
  let limit := limit.toNat
  let len := queue.length
  if cap < limit ∧ len = cap ∧ cap * 2 ≥ limit then
    let _ ← usizeSub limit cap
  let queue := if len = limit then queue.tail else queue
  some (queue ++ [msg])

/-
  Messages pushed one by one into an empty queue, each with
  the capacity that the queue has by then.
-/
def pushAll
    {M : Type}
    (limit : UInt32)
    (pushes : List (M × Nat)) : Option (List M) :=
  pushes.foldlM
    (fun queue push =>
      addMessageChecked push.1 limit push.2 queue)
    []

/- What is reserved is never negative. -/
theorem addMessageChecked_eq
    {M : Type}
    (msg : M)
    (limit : UInt32)
    (cap : Nat)
    (queue : List M) :
    addMessageChecked msg limit cap queue =
      some (addMessage msg limit queue) := by
  unfold addMessageChecked
  by_cases hReserve :
      cap < limit.toNat ∧ queue.length = cap ∧
        cap * 2 ≥ limit.toNat
  · dsimp only
    rw [if_pos hReserve,
      usizeSub_of_le (Nat.le_of_lt hReserve.1)]
    rfl
  · dsimp only
    rw [if_neg hReserve]
    rfl

theorem pushAll_snoc
    {M : Type}
    (limit : UInt32)
    (pushes : List (M × Nat))
    (push : M × Nat) :
    pushAll limit (pushes ++ [push]) =
      (pushAll limit pushes).map
        (addMessage push.1 limit) := by
  unfold pushAll
  rw [List.foldlM_append]
  simp only [List.foldlM_cons, List.foldlM_nil,
    addMessageChecked_eq]
  cases pushes.foldlM
      (fun queue push =>
        some (addMessage push.1 limit queue)) [] with
  | none => rfl
  | some queue => rfl

theorem pushAll_of_pos
    {M : Type}
    {limit : UInt32}
    (hLimit : 0 < limit.toNat)
    (pushes : List (M × Nat)) :
    pushAll limit pushes =
      some ((pushes.map Prod.fst).rtake limit.toNat) := by
  induction pushes using List.reverseRecOn with
  | nil =>
      rw [List.map_nil, List.rtake_nil]
      rfl
  | append_singleton pushes push ih =>
      rw [pushAll_snoc, ih, Option.map_some,
        addMessage_rtake push.1 hLimit, List.map_append]
      rfl

/-
  Only the empty queue has the length of a limit of zero, so
  that no message ever leaves.
-/
theorem pushAll_zero
    {M : Type}
    (pushes : List (M × Nat)) :
    pushAll 0 pushes = some (pushes.map Prod.fst) := by
  induction pushes using List.reverseRecOn with
  | nil => rfl
  | append_singleton pushes push ih =>
      rw [pushAll_snoc, ih, Option.map_some, List.map_append]
      congr 1
      unfold addMessage
      dsimp only
      by_cases hEmpty :
          (pushes.map Prod.fst).length = (0 : UInt32).toNat
      · rw [if_pos hEmpty, List.length_eq_zero_iff.mp hEmpty]
        rfl
      · rw [if_neg hEmpty]
        rfl

theorem rtake_min
    {M : Type}
    (limit : Nat)
    (ms : List M) :
    ms.rtake (min limit ms.length) = ms.rtake limit := by
  unfold List.rtake
  congr 1
  omega

/-
  For every limit and whatever the capacities: no difference
  that is reserved underflows, and exactly the last `limit`
  messages are left, if the limit is not zero or nothing was
  pushed.
-/
theorem queue_bounded_iff
    {M : Type}
    (limit : UInt32)
    (pushes : List (M × Nat)) :
    (∃ queue, pushAll limit pushes = some queue) ∧
      (pushAll limit pushes =
          some ((pushes.map Prod.fst).rtake
            (min limit.toNat pushes.length)) ↔
        limit ≠ 0 ∨ pushes = []) := by
  have hMin :
      (pushes.map Prod.fst).rtake
          (min limit.toNat pushes.length) =
        (pushes.map Prod.fst).rtake limit.toNat := by
    rw [← rtake_min limit.toNat, List.length_map]
  rw [hMin]
  by_cases hZero : limit = 0
  · rw [hZero, pushAll_zero]
    refine ⟨⟨_, rfl⟩, ?_⟩
    have hNothing :
        (pushes.map Prod.fst).rtake (0 : UInt32).toNat = [] :=
      List.rtake_zero _
    rw [hNothing]
    simp
  · have hPos : 0 < limit.toNat := by
      rw [Nat.pos_iff_ne_zero]
      intro hNone
      exact hZero (UInt32.toNat_inj.mp hNone)
    rw [pushAll_of_pos hPos]
    exact ⟨⟨_, rfl⟩, by simp [hZero]⟩

/- Two messages, both kept with a limit of zero. -/
theorem queue_without_bound :
    pushAll 0 [(Message.text "a", 0), (.text "b", 4)] =
        some [.text "a", .text "b"] ∧
      pushAll 0 [(Message.text "a", 0), (.text "b", 4)] ≠
        some ([Message.text "a", .text "b"].rtake
          (min (0 : UInt32).toNat 2)) := by
  rw [pushAll_zero]
  refine ⟨rfl, ?_⟩
  decide

end Mles

------------------------------------------------------------
-- Processed Messages
------------------------------------------------------------

namespace Mles

namespace Hub

variable {T M : Type}

/-
  The message of a channel that an event brings, with the
  reading of the clock when it has been handled.
-/
def counted
    (hub : Hub T M)
    (ch : UInt64) : Event T M → Option (M × Time)
| .init h ch' _ msg _ now =>
    if ch' = ch ∧ (hub.entry ch h).isNone then
      some (msg, now)
    else none
| .msg _ ch' msg now =>
    if ch' = ch ∧ ch ∈ hub.chDb then some (msg, now)
    else none
| .logoff _ _ => none
| .cleanup _ => none

/- All such messages of a sequence of events. -/
def processed
    (limit : UInt32)
    (ch : UInt64)
    (hub : Hub T M) : List (Event T M) → List (M × Time)
| [] => []
| e :: es =>
    (hub.counted ch e).toList ++
      processed limit ch (hub.step limit e).1 es

theorem processed_append
    (limit : UInt32)
    (ch : UInt64)
    (hub : Hub T M)
    (es fs : List (Event T M)) :
    processed limit ch hub (es ++ fs) =
      processed limit ch hub es ++
        processed limit ch (run limit hub es).1 fs := by
  induction es generalizing hub with
  | nil => rfl
  | cons e es ih =>
      simp only [List.cons_append, processed, run]
      rw [ih, List.append_assoc]

theorem processed_snoc
    (limit : UInt32)
    (ch : UInt64)
    (hub : Hub T M)
    (es : List (Event T M))
    (e : Event T M) :
    processed limit ch hub (es ++ [e]) =
      processed limit ch hub es ++
        ((run limit hub es).1.counted ch e).toList := by
  rw [processed_append]
  simp [processed]

------------------------------------------------------------
-- Histories After One Turn
------------------------------------------------------------

/- A processed message is added to the history. -/
theorem lookup_step_of_counted
    {limit : UInt32}
    {hub : Hub T M}
    {ch : UInt64}
    {e : Event T M}
    {msg : M}
    {now : Time}
    {info : ChannelInfo M}
    (hCounted : hub.counted ch e = some (msg, now))
    (hInfo : hub.msgDb.lookup ch = some info) :
    (hub.step limit e).1.msgDb.lookup ch =
      some ⟨addMessage msg limit info.messages, now⟩ := by
  cases e with
  | init h ch' tx2 m created t =>
      simp only [counted, Option.ite_none_right_eq_some,
        Option.isNone_iff_eq_none, Option.some.injEq,
        Prod.mk.injEq] at hCounted
      rcases hCounted with ⟨⟨rfl, hEntry⟩, rfl, rfl⟩
      rw [step_init_of_none hEntry, lookup_msgDb_record,
        lookup_msgDb_register]
      simp [hEntry, hInfo]
  | msg h ch' m t =>
      simp only [counted, Option.ite_none_right_eq_some,
        Option.some.injEq, Prod.mk.injEq] at hCounted
      rcases hCounted with ⟨⟨rfl, hMem⟩, rfl, rfl⟩
      rcases AList.mem_iff_exists_lookup.mp hMem with
        ⟨db, hDb⟩
      simp [step, targets, hDb, lookup_msgDb_record, hInfo]
  | logoff h ch' => simp [counted] at hCounted
  | cleanup t => simp [counted] at hCounted

/- Without one, only a cleanup changes the history. -/
theorem lookup_step_of_not_counted
    {limit : UInt32}
    {hub : Hub T M}
    {ch : UInt64}
    {e : Event T M}
    (hCounted : hub.counted ch e = none)
    (hCleanup : ∀ now, e ≠ .cleanup now) :
    (hub.step limit e).1.msgDb.lookup ch =
      hub.msgDb.lookup ch := by
  cases e with
  | init h ch' tx2 m created t =>
      cases hEntry : hub.entry ch' h with
      | some tx => rw [step_init_of_some hEntry]
      | none =>
          have hNe : ch ≠ ch' := by
            rintro rfl
            simp [counted, hEntry] at hCounted
          rw [step_init_of_none hEntry, lookup_msgDb_record,
            if_neg hNe, lookup_msgDb_register,
            if_neg (fun hPair => hNe hPair.1)]
  | msg h ch' m t =>
      cases hTargets : hub.targets h ch' with
      | none => simp [step, hTargets]
      | some txs =>
          have hNe : ch ≠ ch' := by
            rintro rfl
            have hMem : ch ∈ hub.chDb := by
              rcases Option.map_eq_some_iff.mp hTargets with
                ⟨db, hDb, _⟩
              exact AList.mem_iff_exists_lookup.mpr ⟨db, hDb⟩
            simp [counted, hMem] at hCounted
          simp only [step, hTargets]
          rw [lookup_msgDb_record, if_neg hNe]
  | logoff h ch' => simp [step]
  | cleanup t => exact absurd rfl (hCleanup t)

/- A history that is still there is as it was. -/
theorem info_eq_of_not_counted
    {limit : UInt32}
    {hub : Hub T M}
    {ch : UInt64}
    {e : Event T M}
    {info info' : ChannelInfo M}
    (hCounted : hub.counted ch e = none)
    (hInfo : hub.msgDb.lookup ch = some info)
    (hNext :
      (hub.step limit e).1.msgDb.lookup ch = some info') :
    info' = info := by
  by_cases hCleanup : ∃ t, e = .cleanup t
  · rcases hCleanup with ⟨t, rfl⟩
    simp only [step] at hNext
    rw [lookup_msgDb_cleanup, hInfo] at hNext
    exact (Option.some.inj
      (Option.filter_eq_some_iff.mp hNext).1).symm
  · rw [lookup_step_of_not_counted hCounted
      (fun t ht => hCleanup ⟨t, ht⟩), hInfo] at hNext
    exact (Option.some.inj hNext).symm

/- A history is created by an accepted `Init` only. -/
theorem lookup_step_of_none
    {limit : UInt32}
    {hub : Hub T M}
    {ch : UInt64}
    {e : Event T M}
    {info : ChannelInfo M}
    (hNone : hub.msgDb.lookup ch = none)
    (hSome :
      (hub.step limit e).1.msgDb.lookup ch = some info) :
    ∃ h tx2 msg created now,
      e = .init h ch tx2 msg created now ∧
        hub.entry ch h = none ∧
        info = ⟨addMessage msg limit [], now⟩ := by
  cases e with
  | init h ch' tx2 m created t =>
      cases hEntry : hub.entry ch' h with
      | some tx =>
          rw [step_init_of_some hEntry, hNone] at hSome
          cases hSome
      | none =>
          rw [step_init_of_none hEntry, lookup_msgDb_record,
            lookup_msgDb_register] at hSome
          by_cases hCh : ch = ch'
          · subst hCh
            refine ⟨h, tx2, m, created, t, rfl, hEntry, ?_⟩
            simpa [hEntry, hNone] using hSome.symm
          · simp [hCh, lookup_msgDb_register, hNone] at hSome
  | msg h ch' m t =>
      cases hTargets : hub.targets h ch' with
      | none =>
          simp [step, hTargets, hNone] at hSome
      | some txs =>
          simp only [step, hTargets] at hSome
          rw [lookup_msgDb_record] at hSome
          by_cases hCh : ch = ch'
          · subst hCh
            simp [hNone] at hSome
          · simp [hCh, hNone] at hSome
  | logoff h ch' => simp [step, hNone] at hSome
  | cleanup t =>
      simp [step, lookup_msgDb_cleanup, hNone] at hSome

end Hub

end Mles

------------------------------------------------------------
-- Histories After a Sequence of Events
------------------------------------------------------------

namespace Mles

namespace Hub

variable {T M : Type}

/-
  What the history of a channel is: some accepted `Init`
  created it, it has been there ever since, and it holds the
  last messages processed from this `Init` on.
-/
def HistoryOf
    (limit : UInt32)
    (ch : UInt64)
    (es : List (Event T M))
    (info : ChannelInfo M) : Prop :=
  ∃ before h tx2 msg created now later,
    es = before ++
        .init h ch tx2 msg created now :: later ∧
      (after limit before).entry ch h = none ∧
      ch ∉ (after limit before).msgDb ∧
      (∀ part, part <+: later →
        ch ∈ (after limit (before ++
          .init h ch tx2 msg created now :: part)).msgDb) ∧
      info.messages =
        ((processed limit ch (after limit before)
          (.init h ch tx2 msg created now :: later)).map
            Prod.fst).rtake limit.toNat ∧
      (processed limit ch (after limit before)
        (.init h ch tx2 msg created now :: later)).getLast?.map
          Prod.snd = some info.lastActivity

/- The `Init` that creates a history starts it. -/
theorem historyOf_create
    {limit : UInt32}
    (hLimit : 0 < limit.toNat)
    {ch : UInt64}
    {es : List (Event T M)}
    {h : UInt64}
    {tx2 : T}
    {msg : M}
    {created now : Time}
    (hEntry : (after limit es).entry ch h = none)
    (hNone : (after limit es).msgDb.lookup ch = none) :
    HistoryOf limit ch
      (es ++ [.init h ch tx2 msg created now])
      ⟨addMessage msg limit [], now⟩ := by
  refine ⟨es, h, tx2, msg, created, now, [], rfl, hEntry,
    AList.lookup_eq_none.mp hNone, ?_, ?_, ?_⟩
  · intro part hPart
    rw [List.prefix_nil.mp hPart]
    apply AList.mem_iff_exists_lookup.mpr
    rw [after_snoc, step_init_of_none hEntry,
      lookup_msgDb_record, lookup_msgDb_register]
    simp [hEntry]
  · have hQueue := addMessage_rtake msg hLimit []
    simpa [processed, counted, hEntry] using hQueue
  · simp [processed, counted, hEntry]

/- Every further event keeps the form of a history. -/
theorem historyOf_snoc
    {limit : UInt32}
    (hLimit : 0 < limit.toNat)
    {ch : UInt64}
    {es : List (Event T M)}
    {e : Event T M}
    {info info' : ChannelInfo M}
    (hHistory : HistoryOf limit ch es info)
    (hInfo : (after limit es).msgDb.lookup ch = some info)
    (hInfo' :
      (after limit (es ++ [e])).msgDb.lookup ch =
        some info') :
    HistoryOf limit ch (es ++ [e]) info' := by
  rcases hHistory with
    ⟨before, h, tx2, msg, created, now, later, rfl, hEntry,
      hVacant, hPresent, hMessages, hLast⟩
  have hRun :
      (run limit (after limit before)
        (.init h ch tx2 msg created now :: later)).1 =
      after limit (before ++
        .init h ch tx2 msg created now :: later) := by
    unfold after
    rw [run_append]
  have hSnoc := processed_snoc limit ch (after limit before)
    (.init h ch tx2 msg created now :: later) e
  rw [hRun, List.cons_append] at hSnoc
  refine ⟨before, h, tx2, msg, created, now, later ++ [e],
    by simp, hEntry, hVacant, ?_, ?_⟩
  · intro part hPart
    rcases List.prefix_concat_iff.mp hPart with hAll | hOld
    · apply AList.mem_iff_exists_lookup.mpr
      refine ⟨info', ?_⟩
      simpa [hAll] using hInfo'
    · exact hPresent part hOld
  · rw [hSnoc]
    rw [after_snoc] at hInfo'
    cases hCounted :
        (after limit (before ++
          .init h ch tx2 msg created now :: later)).counted
            ch e with
    | some counted =>
        rcases counted with ⟨m, t⟩
        rw [lookup_step_of_counted hCounted hInfo] at hInfo'
        cases hInfo'
        constructor
        · simp only [Option.toList_some, List.map_append,
            List.map_cons, List.map_nil]
          rw [hMessages, addMessage_rtake m hLimit]
        · simp
    | none =>
        have hSame :=
          info_eq_of_not_counted hCounted hInfo hInfo'
        subst hSame
        simp only [Option.toList_none, List.append_nil]
        exact ⟨hMessages, hLast⟩

/- Every history the loop holds has this form. -/
theorem historyOf_of_lookup
    {limit : UInt32}
    (hLimit : 0 < limit.toNat)
    {ch : UInt64}
    {es : List (Event T M)}
    {info : ChannelInfo M}
    (hInfo : (after limit es).msgDb.lookup ch = some info) :
    HistoryOf limit ch es info := by
  induction es using List.reverseRecOn generalizing info with
  | nil => cases hInfo
  | append_singleton es e ih =>
      cases hOld : (after limit es).msgDb.lookup ch with
      | some old =>
          exact historyOf_snoc hLimit (ih hOld) hOld hInfo
      | none =>
          rw [after_snoc] at hInfo
          rcases lookup_step_of_none hOld hInfo with
            ⟨h, tx2, msg, created, now, rfl, hEntry, rfl⟩
          exact historyOf_create hLimit hEntry hOld

/- The reading at the last message of the whole sequence. -/
theorem lastActivity_eq
    {limit : UInt32}
    (hLimit : 0 < limit.toNat)
    {ch : UInt64}
    {es : List (Event T M)}
    {info : ChannelInfo M}
    (hInfo : (after limit es).msgDb.lookup ch = some info) :
    (processed limit ch new es).getLast?.map Prod.snd =
      some info.lastActivity := by
  rcases historyOf_of_lookup hLimit hInfo with
    ⟨before, h, tx2, msg, created, now, later, rfl, _, _, _,
      _, hLast⟩
  rw [processed_append]
  change Option.map Prod.snd
    (_ ++ processed limit ch (after limit before) _).getLast? =
      _
  rcases Option.map_eq_some_iff.mp hLast with
    ⟨last, hSome, hReading⟩
  rw [List.getLast?_append, hSome]
  simpa using hReading

/- Only a late cleanup tick drops a history. -/
theorem expired_of_dropped
    {limit : UInt32}
    {ch : UInt64}
    {hub : Hub T M}
    {e : Event T M}
    {info : ChannelInfo M}
    (hInfo : hub.msgDb.lookup ch = some info)
    (hGone :
      (hub.step limit e).1.msgDb.lookup ch = none) :
    ∃ now, e = .cleanup now ∧ expired now info = true := by
  cases hCounted : hub.counted ch e with
  | some counted =>
      rcases counted with ⟨m, t⟩
      rw [lookup_step_of_counted hCounted hInfo] at hGone
      cases hGone
  | none =>
      by_cases hCleanup : ∃ t, e = .cleanup t
      · rcases hCleanup with ⟨t, rfl⟩
        refine ⟨t, rfl, ?_⟩
        simp only [step] at hGone
        rw [lookup_msgDb_cleanup, hInfo] at hGone
        simpa using hGone
      · rw [lookup_step_of_not_counted hCounted
          (fun t ht => hCleanup ⟨t, ht⟩), hInfo] at hGone
        cases hGone

end Hub

end Mles

------------------------------------------------------------
-- Independence of Other Channels
------------------------------------------------------------

namespace Mles

namespace Event

variable {T M : Type}

/- The events of one channel, and the cleanup ticks. -/
def concerns
    (ch : UInt64) : Event T M → Bool
| .init _ ch' _ _ _ _ => ch' = ch
| .msg _ ch' _ _ => ch' = ch
| .logoff _ ch' => ch' = ch
| .cleanup _ => true

end Event

namespace Hub

variable {T M : Type}

/- The two maps agree on one channel. -/
structure Agree
    (ch : UInt64)
    (hub hub' : Hub T M) : Prop where
  msgs : hub.msgDb.lookup ch = hub'.msgDb.lookup ch
  clients : hub.chDb.lookup ch = hub'.chDb.lookup ch

theorem Agree.entry
    {ch : UInt64}
    {hub hub' : Hub T M}
    (hAgree : Agree ch hub hub')
    (h : UInt64) :
    hub.entry ch h = hub'.entry ch h := by
  simp only [Hub.entry, hAgree.clients]

/- Events of other channels leave a channel alone. -/
theorem agree_step_of_not_concerns
    (limit : UInt32)
    (hub : Hub T M)
    {ch : UInt64}
    {e : Event T M}
    (hOther : e.concerns ch = false) :
    Agree ch (hub.step limit e).1 hub := by
  cases e with
  | init h ch' tx2 msg created now =>
      have hNe : ch ≠ ch' := by
        rintro rfl
        simp [Event.concerns] at hOther
      cases hEntry : hub.entry ch' h with
      | some tx =>
          rw [step_init_of_some hEntry]
          exact ⟨rfl, rfl⟩
      | none =>
          rw [step_init_of_none hEntry,
            register_of_none hEntry]
          constructor
          · rw [lookup_msgDb_record, if_neg hNe]
            simp [AList.lookup_orInsert, hNe]
          · simp [record, AList.lookup_orInsert, hNe]
  | msg h ch' msg now =>
      have hNe : ch ≠ ch' := by
        rintro rfl
        simp [Event.concerns] at hOther
      cases hTargets : hub.targets h ch' with
      | none =>
          simp only [step, hTargets]
          exact ⟨rfl, rfl⟩
      | some txs =>
          simp only [step, hTargets]
          constructor
          · rw [lookup_msgDb_record, if_neg hNe]
          · rfl
  | logoff h ch' =>
      have hNe : ch ≠ ch' := by
        rintro rfl
        simp [Event.concerns] at hOther
      constructor
      · simp [step]
      · simp only [step, logoff]
        cases hub.chDb.lookup ch' with
        | none => rfl
        | some db =>
            by_cases hEmpty :
                (db.erase h).entries.isEmpty = true
            · simp [hEmpty, hNe]
            · simp [hEmpty, hNe]
  | cleanup now => simp [Event.concerns] at hOther

/- What an event does to its channel depends on it only. -/
theorem agree_step
    (limit : UInt32)
    {ch : UInt64}
    {hub hub' : Hub T M}
    {e : Event T M}
    (hAgree : Agree ch hub hub')
    (hConcerns : e.concerns ch = true) :
    Agree ch (hub.step limit e).1
      (hub'.step limit e).1 := by
  cases e with
  | init h ch' tx2 msg created now =>
      have hCh : ch' = ch := by
        simpa [Event.concerns] using hConcerns
      subst hCh
      have hEntries := hAgree.entry h
      cases hEntry : hub.entry ch' h with
      | some tx =>
          rw [step_init_of_some hEntry,
            step_init_of_some (hEntries ▸ hEntry)]
          exact hAgree
      | none =>
          have hEntry' : hub'.entry ch' h = none :=
            hEntries ▸ hEntry
          rw [step_init_of_none hEntry,
            step_init_of_none hEntry']
          constructor
          · simp only [lookup_msgDb_record, if_true,
              lookup_msgDb_register, hEntry, hEntry',
              and_self, hAgree.msgs]
          · rw [register_of_none hEntry,
              register_of_none hEntry']
            simp [record, uidDb, hAgree.clients]
  | msg h ch' msg now =>
      have hCh : ch' = ch := by
        simpa [Event.concerns] using hConcerns
      subst hCh
      have hTargets : hub.targets h ch' = hub'.targets h ch' := by
        simp only [targets, hAgree.clients]
      simp only [step, hTargets]
      cases hub'.targets h ch' with
      | none => exact hAgree
      | some txs =>
          constructor
          · simp only [lookup_msgDb_record, if_true,
              hAgree.msgs]
          · exact hAgree.clients
  | logoff h ch' =>
      have hCh : ch' = ch := by
        simpa [Event.concerns] using hConcerns
      subst hCh
      constructor
      · simpa [step] using hAgree.msgs
      · simp only [step, logoff, hAgree.clients]
        cases hLookup : hub'.chDb.lookup ch' with
        | none => rw [hAgree.clients]
        | some db =>
            by_cases hEmpty :
                (db.erase h).entries.isEmpty = true
            · simp [hEmpty]
            · simp [hEmpty]
  | cleanup now =>
      constructor
      · simp only [step, lookup_msgDb_cleanup, hAgree.msgs]
      · exact hAgree.clients

/- A channel depends on its own events and on cleanups. -/
theorem agree_after_filter
    (limit : UInt32)
    (ch : UInt64)
    (es : List (Event T M)) :
    Agree ch (after limit es)
      (after limit (es.filter (Event.concerns ch))) := by
  induction es using List.reverseRecOn with
  | nil => exact ⟨rfl, rfl⟩
  | append_singleton es e ih =>
      rw [List.filter_append, after_snoc]
      cases hConcerns : e.concerns ch with
      | true =>
          rw [List.filter_cons_of_pos hConcerns,
            List.filter_nil, after_snoc]
          exact agree_step limit ih hConcerns
      | false =>
          rw [List.filter_cons_of_neg (by simp [hConcerns]),
            List.filter_nil, List.append_nil]
          have hSame := agree_step_of_not_concerns limit
            (after limit es) hConcerns
          exact ⟨hSame.msgs.trans ih.msgs,
            hSame.clients.trans ih.clients⟩

------------------------------------------------------------
-- Channels and Clients
------------------------------------------------------------

/- No channel of `ch_db` is without a client. -/
def NoEmptyChannel (hub : Hub T M) : Prop :=
  ∀ ch, ch ∈ hub.chDb → ∃ h tx, hub.entry ch h = some tx

theorem noEmptyChannel_step
    (limit : UInt32)
    {hub : Hub T M}
    (hNoEmpty : NoEmptyChannel hub)
    (e : Event T M) :
    NoEmptyChannel (hub.step limit e).1 := by
  cases e with
  | init h ch tx2 msg created now =>
      cases hEntry : hub.entry ch h with
      | some tx =>
          rw [step_init_of_some hEntry]
          exact hNoEmpty
      | none =>
          intro ch' hMem
          by_cases hCh : ch' = ch
          · refine ⟨h, tx2, ?_⟩
            simp [hCh, hEntry]
          · rw [step_init_of_none hEntry,
              register_of_none hEntry] at hMem
            have hOld : ch' ∈ hub.chDb := by
              simpa [record, hCh] using hMem
            rcases hNoEmpty ch' hOld with ⟨h', tx, hHeld⟩
            refine ⟨h', tx, ?_⟩
            simp [hCh, hHeld]
  | msg h ch msg now =>
      simp only [step]
      cases hub.targets h ch with
      | none => exact hNoEmpty
      | some txs => exact hNoEmpty
  | logoff h ch =>
      intro ch' hMem
      simp only [step, logoff] at hMem ⊢
      cases hLookup : hub.chDb.lookup ch with
      | none =>
          rw [hLookup] at hMem
          exact hNoEmpty ch' hMem
      | some db =>
          simp only [hLookup] at hMem ⊢
          by_cases hEmpty :
              (db.erase h).entries.isEmpty = true
          · rw [if_pos hEmpty] at hMem ⊢
            have hMem' := AList.mem_erase.mp hMem
            rcases hNoEmpty ch' hMem'.2 with
              ⟨h', tx, hHeld⟩
            refine ⟨h', tx, ?_⟩
            simpa [entry, hMem'.1] using hHeld
          · rw [if_neg hEmpty] at hMem ⊢
            by_cases hCh : ch' = ch
            · -- What is left of the channel is not empty.
              subst hCh
              cases hEntries : (db.erase h).entries with
              | nil => simp [hEntries] at hEmpty
              | cons first rest =>
                  refine ⟨first.1, first.2, ?_⟩
                  simp only [entry, AList.lookup_insert,
                    Option.bind_some]
                  apply (AList.mem_entries_iff_lookup
                    (db.erase h) first.1 first.2).mp
                  rw [hEntries]
                  exact List.mem_cons_self
            · have hOld : ch' ∈ hub.chDb := by
                simpa [hCh] using hMem
              rcases hNoEmpty ch' hOld with ⟨h', tx, hHeld⟩
              refine ⟨h', tx, ?_⟩
              simpa [entry, hCh] using hHeld
  | cleanup now => exact hNoEmpty

theorem noEmptyChannel_after
    (limit : UInt32)
    (es : List (Event T M)) :
    NoEmptyChannel (after limit es) := by
  induction es using List.reverseRecOn with
  | nil =>
      intro ch hMem
      exact absurd hMem (AList.notMem_empty ch)
  | append_singleton es e ih =>
      rw [after_snoc]
      exact noEmptyChannel_step limit ih e

/- A channel is there exactly while a client is in it. -/
theorem mem_chDb_iff
    {hub : Hub T M}
    (hNoEmpty : NoEmptyChannel hub)
    (ch : UInt64) :
    ch ∈ hub.chDb ↔ ∃ h tx, hub.entry ch h = some tx := by
  constructor
  · exact hNoEmpty ch
  · rintro ⟨h, tx, hHeld⟩
    rcases Option.bind_eq_some_iff.mp hHeld with ⟨db, hDb, _⟩
    exact AList.mem_iff_exists_lookup.mpr ⟨db, hDb⟩

end Hub

end Mles

------------------------------------------------------------
-- Exact History
------------------------------------------------------------

namespace Mles

namespace Hub

variable {T M : Type}

/-
  The history of a channel after any sequence of events, for
  the limits the command line admits: what it holds, that it
  depends on no other channel, that no departure touches it,
  what alone can drop it, and when the channel has clients.
-/
theorem history_exact
    (limit : UInt32)
    (hLimit : 1 ≤ limit)
    (es : List (Event T M))
    (ch : UInt64) :
    (∀ info,
      (after limit es).msgDb.lookup ch = some info →
        HistoryOf limit ch es info) ∧
    (after limit es).msgDb.lookup ch =
      (after limit
        (es.filter (Event.concerns ch))).msgDb.lookup ch ∧
    (∀ h ch',
      (after limit (es ++ [.logoff h ch'])).msgDb.lookup ch =
        (after limit es).msgDb.lookup ch) ∧
    (∀ e,
      ch ∈ (after limit es).msgDb →
        ch ∉ (after limit (es ++ [e])).msgDb →
          ∃ now last,
            e = .cleanup now ∧
              (processed limit ch new es).getLast?.map
                Prod.snd = some last ∧
              cleanupThreshold < now - last) ∧
    (ch ∈ (after limit es).chDb ↔
      ∃ h tx, (after limit es).entry ch h = some tx) := by
  have hPos : 0 < limit.toNat := UInt32.le_iff_toNat_le.mp hLimit
  refine ⟨?_, ?_, ?_, ?_, ?_⟩
  · intro info hInfo
    exact historyOf_of_lookup hPos hInfo
  · exact (agree_after_filter limit ch es).msgs
  · intro h ch'
    rw [after_snoc]
    simp [step]
  · intro e hMem hGone
    rcases AList.mem_iff_exists_lookup.mp hMem with
      ⟨info, hInfo⟩
    rw [after_snoc] at hGone
    rcases expired_of_dropped hInfo
        (AList.lookup_eq_none.mpr hGone) with
      ⟨now, hEvent, hExpired⟩
    have hLate := of_decide_eq_true hExpired
    exact ⟨now, info.lastActivity, hEvent,
      lastActivity_eq hPos hInfo, hLate.2⟩
  · exact mem_chDb_iff (noEmptyChannel_after limit es) ch

/- Two clients, one of them gone, and a limit of two. -/
theorem history_exact_two_clients :
    HistoryOf 2 7
      ([.init 1 7 "q1" "join1" 0 0, .init 2 7 "q2" "join2" 0 1,
        .init 1 8 "q3" "other" 1 1, .msg 2 7 "hello" 2,
        .logoff 1 7] : List (Event String String))
      ⟨["join2", "hello"], 2⟩ :=
  (history_exact 2 (by decide) _ 7).1 _ (by decide)

end Hub

end Mles

