import Mles.Hub.Delivery
import Mles.Hub.History

/-
  What is recorded and what is forwarded.

  `ch_db` and `msg_db` live on their own: an `Init` fills
  both, a `Logoff` trims the first, and a cleanup trims the
  second by age alone.  A channel with members has a history
  exactly as long as no cleanup tick finds the history of
  such a channel expired.  And the history of a channel is
  what its first member has been sent exactly as long as
  nobody else joins: the first frame of a client is stored,
  but not forwarded.

  Key definitions include:
    * `Hub.Recorded`
    * `Hub.Replays`
    * `Hub.Spares`
    * `Hub.joins`

  Key theorems include:
    * `Hub.recorded_step`
    * `Hub.recorded_iff_spares`
    * `Hub.stored_run`
    * `Hub.liveView_iff`
-/

------------------------------------------------------------
-- Channels with Members
------------------------------------------------------------

namespace Mles

namespace Hub

variable {T M : Type}

/- Every channel of `ch_db` has a history. -/
def Recorded (hub : Hub T M) : Prop :=
  ∀ ch, ch ∈ hub.chDb → ch ∈ hub.msgDb

/-
  A message the event loop forwards is replayed to a client
  that joins its channel right after it.
-/
def Replays
    (limit : UInt32)
    (hub : Hub T M) : Prop :=
  ∀ h ch msg now,
    (hub.targets h ch).isSome = true →
      ∀ h' tx2 msg' created now',
        let hub' := (hub.step limit (.msg h ch msg now)).1
        hub'.entry ch h' = none →
          (tx2, msg) ∈
            (hub'.step limit
              (.init h' ch tx2 msg' created now')).2

/- A cleanup tick now drops no history with members. -/
def Spares
    (now : Time)
    (hub : Hub T M) : Prop :=
  ∀ ch info,
    ch ∈ hub.chDb → hub.msgDb.lookup ch = some info →
      expired now info = false

/- Only a cleanup tick makes a history disappear. -/
theorem mem_msgDb_step
    {limit : UInt32}
    {hub : Hub T M}
    {e : Event T M}
    {ch : UInt64}
    (hMem : ch ∈ hub.msgDb)
    (hSpared :
      ∀ now info,
        e = .cleanup now → hub.msgDb.lookup ch = some info →
          expired now info = false) :
    ch ∈ (hub.step limit e).1.msgDb := by
  rcases AList.mem_iff_exists_lookup.mp hMem with
    ⟨info, hInfo⟩
  by_contra hGone
  rcases expired_of_dropped hInfo
      (AList.lookup_eq_none.mpr hGone) with
    ⟨now, hEvent, hExpired⟩
  rw [hSpared now info hEvent hInfo] at hExpired
  cases hExpired

/- A client is registered together with a history. -/
theorem mem_msgDb_step_init
    (limit : UInt32)
    {hub : Hub T M}
    {h ch : UInt64}
    (hVacant : hub.entry ch h = none)
    (tx2 : T)
    (msg : M)
    (created now : Time) :
    ch ∈ (hub.step limit
      (.init h ch tx2 msg created now)).1.msgDb := by
  apply AList.mem_iff_exists_lookup.mpr
  rw [step_init_of_none hVacant, lookup_msgDb_record,
    if_pos rfl, lookup_msgDb_register,
    if_pos ⟨rfl, hVacant⟩]
  exact ⟨_, rfl⟩

/- Every turn but a late cleanup keeps channels recorded. -/
theorem recorded_step
    {limit : UInt32}
    {hub : Hub T M}
    {e : Event T M}
    (hRecorded : Recorded hub)
    (hNoEmpty : NoEmptyChannel (hub.step limit e).1)
    (hSpared : ∀ now, e = .cleanup now → Spares now hub) :
    Recorded (hub.step limit e).1 := by
  intro ch hMem
  rcases hNoEmpty ch hMem with ⟨h, tx, hEntry⟩
  rcases entry_step_cases hEntry with
    hOld | ⟨hVacant, msg, created, now, rfl⟩
  · have hChannel : ch ∈ hub.chDb := by
      rcases Option.bind_eq_some_iff.mp hOld with ⟨db, hDb, _⟩
      exact AList.mem_iff_exists_lookup.mpr ⟨db, hDb⟩
    exact mem_msgDb_step (hRecorded ch hChannel)
      (fun now info hEvent hInfo =>
        hSpared now hEvent ch info hChannel hInfo)
  · exact mem_msgDb_step_init limit hVacant tx msg created now

/- What is forwarded on a recorded channel is replayed. -/
theorem replays_of_recorded
    (limit : UInt32)
    {hub : Hub T M}
    (hRecorded : Recorded hub) :
    Replays limit hub := by
  intro h ch msg now hTargets h' tx2 msg' created now' hub'
    hVacant
  rcases Option.isSome_iff_exists.mp hTargets with
    ⟨txs, hTargets⟩
  have hChannel : ch ∈ hub.chDb := by
    rcases Option.map_eq_some_iff.mp hTargets with
      ⟨db, hDb, _⟩
    exact AList.mem_iff_exists_lookup.mpr ⟨db, hDb⟩
  rcases AList.mem_iff_exists_lookup.mp
      (hRecorded ch hChannel) with ⟨info, hInfo⟩
  have hStored :
      hub'.stored ch =
        addMessage msg limit info.messages := by
    have hLookup :
        hub'.msgDb.lookup ch =
          some ⟨addMessage msg limit info.messages, now⟩ :=
      lookup_step_of_counted
        (by simp [counted, hChannel]) hInfo
    simp [stored, hLookup]
  rw [step_init_of_none hVacant, hStored]
  exact List.mem_map_of_mem (by simp [addMessage])

/-
  Over a sequence of events: every channel with members is
  recorded, and what is forwarded is replayed, at every
  point of it, exactly when each cleanup tick spares the
  histories of the channels that have members then.
-/
theorem recorded_iff_spares
    (limit : UInt32)
    (es : List (Event T M)) :
    (∀ part, part <+: es →
      Recorded (after limit part) ∧
        Replays limit (after limit part)) ↔
      ∀ part now, part ++ [.cleanup now] <+: es →
        Spares now (after limit part) := by
  constructor
  · intro hAll part now hPrefix ch info hMem hInfo
    have hAfter := (hAll _ hPrefix).1 ch
    rw [after_snoc] at hAfter
    rcases AList.mem_iff_exists_lookup.mp (hAfter hMem) with
      ⟨info', hInfo'⟩
    simp only [step] at hInfo'
    rw [lookup_msgDb_cleanup, hInfo] at hInfo'
    rcases Option.filter_eq_some_iff.mp hInfo' with
      ⟨hSame, hKept⟩
    cases hSame
    simpa using hKept
  · intro hSpares part hPrefix
    suffices hRecorded : Recorded (after limit part) from
      ⟨hRecorded, replays_of_recorded limit hRecorded⟩
    induction part using List.reverseRecOn with
    | nil =>
        intro ch hMem
        exact absurd hMem (AList.notMem_empty ch)
    | append_singleton part e ih =>
        have hPart : part <+: es :=
          (List.prefix_append part [e]).trans hPrefix
        have hNoEmpty := noEmptyChannel_after limit (part ++ [e])
        rw [after_snoc] at hNoEmpty ⊢
        refine recorded_step (ih hPart) hNoEmpty ?_
        rintro now rfl
        exact hSpares part now hPrefix

/-
  A member who says nothing for a month: the next message on
  the channel reaches them, but no history.
-/
theorem unrecorded_after_cleanup :
    ∃ es : List (Event String String),
      es = [.init 1 7 "q1" "join1" 0 0,
        .cleanup (cleanupThreshold + 1)] ∧
      ¬ Recorded (after 200 es) ∧
      ¬ Replays 200 (after 200 es) := by
  refine ⟨_, rfl, ?_, ?_⟩
  · intro hRecorded
    exact absurd (hRecorded 7 (by decide)) (by decide)
  · intro hReplays
    have hMem := hReplays 2 7 "hello" 1 (by decide) 3 "q3"
      "join3" 2 2 (by decide)
    exact absurd hMem (by decide)

end Hub

end Mles

------------------------------------------------------------
-- The View of the First Member
------------------------------------------------------------

namespace Mles

namespace Hub

variable {T M : Type}

/- The first messages of the clients a channel accepts. -/
def joins
    (limit : UInt32)
    (ch : UInt64)
    (hub : Hub T M) : List (Event T M) → List M
| [] => []
| .init h ch' tx2 msg created now :: es =>
    let hub' :=
      (hub.step limit (.init h ch' tx2 msg created now)).1
    if ch' = ch ∧ (hub.entry ch h).isNone then
      msg :: joins limit ch hub' es
    else joins limit ch hub' es
| e :: es => joins limit ch (hub.step limit e).1 es

/- A channel nobody has joined has neither map. -/
theorem untouched_of_no_init
    (limit : UInt32)
    {ch : UInt64}
    {es : List (Event T M)}
    (hFirst :
      ∀ h tx2 msg created now,
        .init h ch tx2 msg created now ∉ es) :
    (∀ h, (after limit es).entry ch h = none) ∧
      (after limit es).msgDb.lookup ch = none := by
  induction es using List.reverseRecOn with
  | nil => exact ⟨fun h => rfl, rfl⟩
  | append_singleton es e ih =>
      have hOther :
          ∀ h tx2 msg created now,
            e ≠ .init h ch tx2 msg created now := by
        rintro h tx2 msg created now rfl
        exact hFirst h tx2 msg created now (by simp)
      rcases ih (fun h tx2 msg created now hMem =>
        hFirst h tx2 msg created now
          (List.mem_append_left [e] hMem)) with
        ⟨hVacant, hNone⟩
      rw [after_snoc]
      constructor
      · intro h
        by_contra hSome
        rcases Option.ne_none_iff_exists'.mp hSome with
          ⟨tx, hEntry⟩
        rcases entry_step_cases hEntry with
          hOld | ⟨_, msg, created, now, hEvent⟩
        · rw [hVacant h] at hOld
          cases hOld
        · exact hOther h tx msg created now hEvent
      · by_contra hSome
        rcases Option.ne_none_iff_exists'.mp hSome with
          ⟨info, hInfo⟩
        rcases lookup_step_of_none hNone hInfo with
          ⟨h, tx2, msg, created, now, hEvent, _⟩
        exact hOther h tx2 msg created now hEvent

/- A queue below the limit only grows. -/
theorem addMessage_of_lt
    (msg : M)
    {limit : UInt32}
    {queue : List M}
    (hLt : queue.length < limit.toNat) :
    addMessage msg limit queue = queue ++ [msg] := by
  unfold addMessage
  dsimp only
  rw [if_neg (by omega)]

/-
  Below the limit, and if no cleanup drops it, a history
  grows by all messages of the channel.
-/
theorem stored_run
    {limit : UInt32}
    {hub : Hub T M}
    {ch : UInt64}
    (es : List (Event T M))
    (hKept :
      ∀ part, part <+: es →
        ch ∈ (run limit hub part).1.msgDb)
    (hLimit :
      (hub.stored ch).length +
        (processed limit ch hub es).length ≤ limit.toNat) :
    (run limit hub es).1.stored ch =
      hub.stored ch ++
        (processed limit ch hub es).map Prod.fst := by
  induction es generalizing hub with
  | nil => simp [processed]
  | cons e es ih =>
      have hHere : ch ∈ hub.msgDb := hKept [] (by simp)
      have hNext : ch ∈ (hub.step limit e).1.msgDb :=
        hKept [e] (by simp)
      have hLater :
          ∀ part, part <+: es →
            ch ∈ (run limit (hub.step limit e).1 part).1.msgDb :=
        fun part hPart =>
          hKept (e :: part) (List.cons_prefix_cons.mpr ⟨rfl, hPart⟩)
      simp only [processed, List.length_append] at hLimit
      simp only [run, processed]
      cases hCounted : hub.counted ch e with
      | none =>
          rcases AList.mem_iff_exists_lookup.mp hHere with
            ⟨info, hInfo⟩
          rcases AList.mem_iff_exists_lookup.mp hNext with
            ⟨info', hInfo'⟩
          have hSame :
              (hub.step limit e).1.stored ch =
                hub.stored ch := by
            simp only [stored, hInfo, hInfo',
              info_eq_of_not_counted hCounted hInfo hInfo']
          rw [hCounted] at hLimit
          rw [ih hLater (by simpa [hSame] using hLimit), hSame]
          simp
      | some counted =>
          rcases counted with ⟨m, t⟩
          rcases AList.mem_iff_exists_lookup.mp hHere with
            ⟨info, hInfo⟩
          rw [hCounted] at hLimit
          have hRoom : info.messages.length < limit.toNat := by
            simp [stored, hInfo] at hLimit
            omega
          have hGrown :
              (hub.step limit e).1.stored ch =
                hub.stored ch ++ [m] := by
            simp only [stored,
              lookup_step_of_counted hCounted hInfo, hInfo]
            exact addMessage_of_lt m hRoom
          rw [ih hLater (by simp [hGrown] at hLimit ⊢; omega),
            hGrown]
          simp

/-
  While a silent member stays, what is processed on its
  channel is what it is sent, with the frames of those who
  join in between.
-/
theorem live_sublist_processed
    (limit : UInt32)
    {hub : Hub T M}
    {h ch : UInt64}
    {tx : T}
    {es : List (Event T M)}
    (hOnly : Only hub tx ch h)
    (hOther : ∀ e ∈ es, e.tx2 ≠ some tx)
    (hStays : .logoff h ch ∉ es)
    (hSilent : ∀ msg now, .msg h ch msg now ∉ es) :
    (live h ch es).Sublist
        ((processed limit ch hub es).map Prod.fst) ∧
      (processed limit ch hub es).length =
        (live h ch es).length +
          (joins limit ch hub es).length := by
  induction es generalizing hub with
  | nil => exact ⟨List.nil_sublist _, rfl⟩
  | cons e es ih =>
      have hNext := only_step limit hOnly
        (hOther e List.mem_cons_self)
        (fun hEq => hStays (hEq ▸ List.mem_cons_self))
      rcases ih hNext
        (fun f hf => hOther f (List.mem_cons_of_mem e hf))
        (fun hMem => hStays (List.mem_cons_of_mem e hMem))
        (fun msg now hMem =>
          hSilent msg now (List.mem_cons_of_mem e hMem)) with
        ⟨hSub, hLength⟩
      simp only [processed, List.map_append,
        List.length_append, hLength]
      cases e with
      | init h₁ ch₁ tx2 msg created now =>
          simp only [counted, joins, live]
          by_cases hJoins : ch₁ = ch ∧ (hub.entry ch h₁).isNone
          · rw [if_pos hJoins, if_pos hJoins]
            constructor
            · exact hSub.trans (List.sublist_append_right _ _)
            · simp only [Option.toList_some, List.length_cons,
                List.length_nil]
              omega
          · rw [if_neg hJoins, if_neg hJoins]
            simpa using hSub
      | msg h₁ ch₁ msg now =>
          simp only [counted, joins, live]
          have hThere : ch ∈ hub.chDb := by
            rcases Option.bind_eq_some_iff.mp hOnly.held with
              ⟨db, hDb, _⟩
            exact AList.mem_iff_exists_lookup.mpr ⟨db, hDb⟩
          by_cases hCh : ch₁ = ch
          · have hNe : h₁ ≠ h := by
              rintro rfl
              subst hCh
              exact hSilent msg now List.mem_cons_self
            rw [if_pos ⟨hCh, hNe⟩, if_pos ⟨hCh, hThere⟩]
            constructor
            · exact hSub.cons_cons msg
            · simp only [Option.toList_some, List.length_cons,
                List.length_nil]
              omega
          · rw [if_neg (fun hPair => hCh hPair.1),
              if_neg (fun hPair => hCh hPair.1)]
            simpa using hSub
      | logoff h₁ ch₁ =>
          have hMiss : ¬ (h₁ = h ∧ ch₁ = ch) := by
            rintro ⟨rfl, rfl⟩
            exact hStays List.mem_cons_self
          simpa [counted, joins, live, hMiss] using hSub
      | cleanup now => simpa [counted, joins, live] using hSub

/- The first `Init` of a channel starts its history. -/
theorem stored_step_init_first
    (limit : UInt32)
    {hub : Hub T M}
    {h ch : UInt64}
    (hVacant : hub.entry ch h = none)
    (hNone : hub.msgDb.lookup ch = none)
    (tx2 : T)
    (msg : M)
    (created now : Time) :
    (hub.step limit
      (.init h ch tx2 msg created now)).1.stored ch =
        [msg] := by
  unfold stored
  rw [step_init_of_none hVacant, lookup_msgDb_record,
    if_pos rfl, lookup_msgDb_register,
    if_pos ⟨rfl, hVacant⟩, hNone]
  simp [addMessage]

/- The maps of the loop after one event among others. -/
theorem after_append_cons
    (limit : UInt32)
    (before later : List (Event T M))
    (e : Event T M) :
    after limit (before ++ e :: later) =
      (run limit (after limit (before ++ [e])) later).1 := by
  rw [after_snoc]
  unfold after
  rw [run_append]
  rfl

/- The frames the first member of a channel is sent. -/
theorem sentOn_run_first
    [DecidableEq T]
    (limit : UInt32)
    {before later : List (Event T M)}
    {h ch : UInt64}
    {tx2 : T}
    (hOwn :
      ∀ e ∈ before ++ later, e.tx2 ≠ some tx2)
    (hVacant : (after limit before).entry ch h = none)
    (hNone : (after limit before).msgDb.lookup ch = none)
    (msg : M)
    (created now : Time) :
    Only (after limit (before ++
        [.init h ch tx2 msg created now])) tx2 ch h ∧
      sentOn tx2
        (run limit new
          (before ++
            .init h ch tx2 msg created now :: later)).2 =
        live h ch later := by
  have hBefore := sentOn_run_of_absent limit
    (absent_new tx2)
    (fun e he => hOwn e (List.mem_append_left later he))
  have hAbsent : Absent (after limit before) tx2 := hBefore.2
  have hOnly := only_step_init limit hAbsent hVacant msg
    created now
  rw [after_snoc]
  refine ⟨hOnly, ?_⟩
  have hLive := sentOn_run_of_only limit hOnly
    (fun e he => hOwn e (List.mem_append_right before he))
  have hReplayed :
      sentOn tx2 ((after limit before).step limit
        (.init h ch tx2 msg created now)).2 = [] := by
    rw [step_init_of_none hVacant, sentOn_replay, if_pos rfl]
    simp [stored, hNone]
  rw [run_append, sentOn_append, hBefore.1, List.nil_append]
  simp only [run]
  rw [sentOn_append]
  change sentOn tx2 ((after limit before).step limit
    (.init h ch tx2 msg created now)).2 ++ _ = _
  rw [hReplayed, List.nil_append]
  exact hLive

/- The first `Init` is itself one of the messages. -/
theorem length_processed_first
    (limit : UInt32)
    {before : List (Event T M)}
    {h ch : UInt64}
    (hVacant : (after limit before).entry ch h = none)
    (later : List (Event T M))
    (tx2 : T)
    (msg : M)
    (created now : Time) :
    (processed limit ch new (before ++
        .init h ch tx2 msg created now :: later)).length =
      (processed limit ch new before).length + 1 +
        (processed limit ch (after limit (before ++
          [.init h ch tx2 msg created now])) later).length := by
  have hCounted :
      (after limit before).counted ch
        (.init h ch tx2 msg created now) = some (msg, now) := by
    simp [counted, hVacant]
  rw [processed_append, after_snoc, List.length_append]
  change _ + (processed limit ch (after limit before) _).length =
    _
  simp only [processed, hCounted, Option.toList_some,
    List.length_append, List.length_singleton]
  omega

/-
  The history of a channel and the view of the client who
  was the first to join it, stays, and says nothing more: as
  long as no cleanup drops the history and it is below the
  limit, they agree exactly if nobody else has joined.
-/
theorem liveView_iff
    [DecidableEq T]
    (limit : UInt32)
    (before later : List (Event T M))
    (h ch : UInt64)
    (tx2 : T)
    (msg : M)
    (created now : Time)
    (hOwn :
      ∀ e ∈ before ++ later, e.tx2 ≠ some tx2)
    (hFirst :
      ∀ h' tx msg' created' now',
        .init h' ch tx msg' created' now' ∉ before)
    (hStays : .logoff h ch ∉ later)
    (hSilent : ∀ msg' now', .msg h ch msg' now' ∉ later)
    (hKept :
      ∀ part, part <+: later →
        ch ∈ (after limit (before ++
          .init h ch tx2 msg created now :: part)).msgDb)
    (hLimit :
      (processed limit ch new
        (before ++
          .init h ch tx2 msg created now :: later)).length ≤
            limit.toNat) :
    (after limit (before ++
      .init h ch tx2 msg created now :: later)).stored ch =
        msg :: sentOn tx2
          (run limit new
            (before ++
              .init h ch tx2 msg created now :: later)).2 ↔
      joins limit ch
        (after limit (before ++
          [.init h ch tx2 msg created now])) later = [] := by
  rcases untouched_of_no_init limit hFirst with
    ⟨hVacant, hNone⟩
  have hLater : ∀ e ∈ later, e.tx2 ≠ some tx2 :=
    fun e he => hOwn e (List.mem_append_right before he)
  rcases sentOn_run_first limit hOwn (hVacant h) hNone msg
      created now with ⟨hOnly, hSent⟩
  rcases live_sublist_processed limit hOnly hLater hStays
      hSilent with ⟨hSub, hLength⟩
  have hStart :
      (after limit (before ++
        [.init h ch tx2 msg created now])).stored ch =
          [msg] := by
    rw [after_snoc]
    exact stored_step_init_first limit (hVacant h) hNone tx2
      msg created now
  rw [length_processed_first limit (hVacant h)] at hLimit
  have hStored := stored_run later
    (fun part hPart => by
      rw [← after_append_cons]
      exact hKept part hPart)
    (by rw [hStart]; simp only [List.length_singleton]; omega)
  rw [after_append_cons, hStored, hStart, hSent,
    List.singleton_append, List.cons_inj_right]
  constructor
  · intro hEq
    have hSame := congrArg List.length hEq
    rw [List.length_map, hLength] at hSame
    exact List.length_eq_zero_iff.mp (by omega)
  · intro hAlone
    rw [hAlone, List.length_nil, Nat.add_zero] at hLength
    exact (hSub.eq_of_length (by simp [hLength])).symm

/- A member alone, and a message that comes from nowhere. -/
theorem liveView_alone :
    (after 200
      ([.init 1 8 "q0" "other" 0 0] ++
        .init 1 7 "q1" "join1" 0 0 ::
          [.msg 2 7 "hello" 1, .cleanup 2] :
        List (Event String String))).stored 7 =
      "join1" :: sentOn "q1"
        (run 200 new
          ([.init 1 8 "q0" "other" 0 0] ++
            .init 1 7 "q1" "join1" 0 0 ::
              [.msg 2 7 "hello" 1, .cleanup 2] :
            List (Event String String))).2 :=
  (liveView_iff 200 [.init 1 8 "q0" "other" 0 0]
    [.msg 2 7 "hello" 1, .cleanup 2] 1 7 "q1" "join1" 0 0
    (by decide) (by simp) (by decide) (by simp)
    (by
      intro part hPart
      rw [← List.mem_inits] at hPart
      revert part
      decide)
    (by decide)).mpr (by decide)

/- The second client of a channel: stored, not forwarded. -/
theorem liveView_second_join :
    ∃ later : List (Event String String),
      later = [.init 2 7 "q2" "join2" 1 1] ∧
      (∀ e ∈ later, e.tx2 ≠ some "q1") ∧
      .logoff 1 7 ∉ later ∧
      (∀ msg now, .msg 1 7 msg now ∉ later) ∧
      (∀ now, .cleanup now ∉ later) ∧
      (processed 200 7 new
        (.init 1 7 "q1" "join1" 0 0 :: later)).length ≤ 200 ∧
      (after 200
        (.init 1 7 "q1" "join1" 0 0 :: later)).stored 7 ≠
          "join1" :: sentOn "q1"
            (run 200 new
              (.init 1 7 "q1" "join1" 0 0 :: later)).2 := by
  refine ⟨_, rfl, by decide, by decide, by simp, by simp, ?_⟩
  decide

end Hub

end Mles
