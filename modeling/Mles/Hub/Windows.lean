import Mles.Library.Board
import Mles.Hub.Order

/-
  The event loop as a set of boards, one for each channel.

  A channel is a board whose readers are the registered
  clients: an accepted `Init` is a greeting, a `Msg` is said
  to the board, a `Logoff` leaves it, and a cleanup tick that
  drops the history makes the board forget.  The maps of the
  event loop mirror the boards turn by turn, and what a turn
  sends on the queue of a client is what the board gives to
  that reader.  So what a client is sent, from its `Init` to
  its `Logoff`, is one window of the one log of its channel.

  Key definitions include:
    * `Hub.post`
    * `Hub.board`
    * `Hub.Mirrors`

  Key theorems include:
    * `Hub.mirrors_step`
    * `Hub.mirrors_after`
    * `Hub.sentOn_step_given`
    * `Hub.sentOn_window`
    * `Hub.refines_board`
-/

------------------------------------------------------------
-- The Board of a Channel
------------------------------------------------------------

namespace Mles

namespace Hub

variable {T M : Type}

/- The cleanup tick drops the history of the channel. -/
def drops
    (hub : Hub T M)
    (ch : UInt64)
    (now : Time) : Bool :=
  (hub.msgDb.lookup ch).any (expired now)

/- What an event is to one channel. -/
def post
    (ch : UInt64)
    (hub : Hub T M) :
    Event T M → Option (Board.Post UInt64 M)
| .init h ch' _ msg _ _ =>
    if ch' = ch then some (.join h msg) else none
| .msg h ch' msg _ =>
    if ch' = ch then some (.say h msg) else none
| .logoff h ch' => if ch' = ch then some (.leave h) else none
| .cleanup now => if hub.drops ch now then some .forget else none

def posts
    (limit : UInt32)
    (ch : UInt64)
    (hub : Hub T M) :
    List (Event T M) → List (Board.Post UInt64 M)
| [] => []
| e :: es =>
    (hub.post ch e).toList ++
      posts limit ch (hub.step limit e).1 es

/- The board of a channel after a sequence of events. -/
noncomputable def board
    (limit : UInt32)
    (ch : UInt64)
    (es : List (Event T M)) : Board UInt64 M :=
  Board.empty.run (posts limit ch new es)

theorem posts_append
    (limit : UInt32)
    (ch : UInt64)
    (hub : Hub T M)
    (es fs : List (Event T M)) :
    posts limit ch hub (es ++ fs) =
      posts limit ch hub es ++
        posts limit ch (run limit hub es).1 fs := by
  induction es generalizing hub with
  | nil => rfl
  | cons e es ih =>
      simp only [List.cons_append, posts, run]
      rw [ih, List.append_assoc]

theorem board_append
    (limit : UInt32)
    (ch : UInt64)
    (es fs : List (Event T M)) :
    board limit ch (es ++ fs) =
      (board limit ch es).run
        (posts limit ch (after limit es) fs) := by
  unfold board
  rw [posts_append, Board.run_append]
  rfl

theorem board_snoc
    (limit : UInt32)
    (ch : UInt64)
    (es : List (Event T M))
    (e : Event T M) :
    board limit ch (es ++ [e]) =
      (board limit ch es).run
        ((after limit es).post ch e).toList := by
  rw [board_append]
  simp [posts]

/-
  The maps show the board: its readers are the clients of
  the channel, and the history is what it remembers.
-/
structure Mirrors
    (limit : UInt32)
    (ch : UInt64)
    (hub : Hub T M)
    (b : Board UInt64 M) : Prop where
  readers :
    ∀ h, (b.joined h).isSome = (hub.entry ch h).isSome
  kept : (hub.msgDb.lookup ch).isSome = b.since.isSome
  stored : hub.stored ch = b.memory limit.toNat

theorem mirrors_new
    (limit : UInt32)
    (ch : UInt64) :
    Mirrors limit ch (new : Hub T M) Board.empty :=
  ⟨fun _ => rfl, rfl, by simp [stored, new, Board.memory,
    Board.empty]⟩

------------------------------------------------------------
-- One Turn
------------------------------------------------------------

theorem stored_of_lookup
    {hub : Hub T M}
    {ch : UInt64}
    {info : ChannelInfo M}
    (hInfo : hub.msgDb.lookup ch = some info) :
    hub.stored ch = info.messages := by
  simp [stored, hInfo]

/- An event of no interest to the channel changes nothing. -/
theorem mirrors_of_no_post
    {limit : UInt32}
    {ch : UInt64}
    {hub : Hub T M}
    {b : Board UInt64 M}
    (hMirrors : Mirrors limit ch hub b)
    {e : Event T M}
    (hNone : hub.post ch e = none) :
    Mirrors limit ch (hub.step limit e).1 b := by
  have hCounted : hub.counted ch e = none := by
    cases e with
    | init h ch' tx2 msg created now =>
        simp only [post, ite_eq_right_iff, reduceCtorEq,
          imp_false] at hNone
        simp [counted, hNone]
    | msg h ch' msg now =>
        simp only [post, ite_eq_right_iff, reduceCtorEq,
          imp_false] at hNone
        simp [counted, hNone]
    | logoff h ch' => rfl
    | cleanup now => rfl
  have hEntry :
      ∀ h, (hub.step limit e).1.entry ch h =
        hub.entry ch h := by
    intro h
    cases e with
    | init h' ch' tx2 msg created now =>
        simp only [post, ite_eq_right_iff, reduceCtorEq,
          imp_false] at hNone
        rw [entry_step_init,
          if_neg (fun hPair => hNone hPair.1.symm)]
    | msg h' ch' msg now => rw [entry_step_msg]
    | logoff h' ch' =>
        simp only [post, ite_eq_right_iff, reduceCtorEq,
          imp_false] at hNone
        rw [entry_step_logoff,
          if_neg (fun hPair => hNone hPair.1.symm)]
    | cleanup now => rfl
  have hLookup :
      (hub.step limit e).1.msgDb.lookup ch =
        hub.msgDb.lookup ch := by
    by_cases hCleanup : ∃ now, e = .cleanup now
    · rcases hCleanup with ⟨now, rfl⟩
      have hKeeps : hub.drops ch now = false := by
        simpa [post] using hNone
      unfold drops at hKeeps
      simp only [step]
      rw [lookup_msgDb_cleanup]
      cases hInfo : hub.msgDb.lookup ch with
      | none => rfl
      | some info =>
          rw [hInfo] at hKeeps
          simpa [Option.filter] using hKeeps
    · exact lookup_step_of_not_counted hCounted
        (fun now hEq => hCleanup ⟨now, hEq⟩)
  refine ⟨?_, ?_, ?_⟩
  · intro h
    rw [hEntry, hMirrors.readers]
  · rw [hLookup, hMirrors.kept]
  · unfold stored
    rw [hLookup]
    exact hMirrors.stored

/- An entry more is a message more in the history. -/
theorem memory_write
    {limit : UInt32}
    (hLimit : 0 < limit.toNat)
    {ch : UInt64}
    {hub : Hub T M}
    {b : Board UInt64 M}
    (hMirrors : Mirrors limit ch hub b)
    {n : Nat}
    (hSince : b.since = some n)
    (entry : Board.Entry UInt64 M) :
    addMessage entry.message limit (hub.stored ch) =
      (((b.log ++ [entry]).drop n).map
        Board.Entry.message).rtake limit.toNat := by
  have hBefore : n ≤ b.log.length := b.remembered n hSince
  rw [hMirrors.stored, List.drop_append_of_le_length hBefore,
    List.map_append, List.map_singleton,
    ← addMessage_rtake entry.message hLimit]
  simp [Board.memory, hSince]

theorem mirrors_init
    {limit : UInt32}
    (hLimit : 0 < limit.toNat)
    {ch h : UInt64}
    {hub : Hub T M}
    {b : Board UInt64 M}
    (hMirrors : Mirrors limit ch hub b)
    (tx2 : T)
    (msg : M)
    (created now : Time) :
    Mirrors limit ch
      (hub.step limit (.init h ch tx2 msg created now)).1
      (b.step (.join h msg)) := by
  have hReader := hMirrors.readers h
  cases hEntry : hub.entry ch h with
  | some tx =>
      rw [hEntry, Option.isSome_some] at hReader
      rw [step_init_of_some hEntry]
      simp only [Board.step, hReader, if_true]
      exact hMirrors
  | none =>
      rw [hEntry, Option.isSome_none] at hReader
      have hInfo :
          (hub.step limit
            (.init h ch tx2 msg created now)).1.msgDb.lookup
              ch =
            some ⟨addMessage msg limit (hub.stored ch),
              now⟩ := by
        rw [step_init_of_none hEntry, lookup_msgDb_record,
          if_pos rfl, lookup_msgDb_register,
          if_pos ⟨rfl, hEntry⟩]
        unfold stored
        cases hub.msgDb.lookup ch with
        | none => rfl
        | some info => rfl
      simp only [Board.step, hReader, Bool.false_eq_true,
        if_false]
      refine ⟨?_, ?_, ?_⟩
      · intro h'
        rw [entry_step_init]
        simp only [Board.greet, true_and]
        by_cases hSame : h' = h
        · subst hSame
          simp
        · rw [Function.update_of_ne hSame, if_neg hSame]
          exact hMirrors.readers h'
      · rw [hInfo]
        rfl
      · rw [stored_of_lookup hInfo]
        simp only [Board.memory, Board.greet, Option.map_some,
          Option.getD_some]
        cases hSince : b.since with
        | some n =>
            exact memory_write hLimit hMirrors hSince
              ⟨h, msg, true⟩
        | none =>
            have hStored : hub.stored ch = [] := by
              rw [hMirrors.stored]
              simp [Board.memory, hSince]
            rw [hStored]
            have hOne := addMessage_rtake msg hLimit []
            simpa using hOne

theorem mirrors_msg
    {limit : UInt32}
    (hLimit : 0 < limit.toNat)
    {ch : UInt64}
    {hub : Hub T M}
    {b : Board UInt64 M}
    (hNoEmpty : NoEmptyChannel hub)
    (hMirrors : Mirrors limit ch hub b)
    (h : UInt64)
    (msg : M)
    (now : Time) :
    Mirrors limit ch
      (hub.step limit (.msg h ch msg now)).1
      (b.step (.say h msg)) := by
  have hThere :
      ch ∈ hub.chDb ↔ ∃ x, (b.joined x).isSome := by
    rw [mem_chDb_iff hNoEmpty]
    simp only [hMirrors.readers, Option.isSome_iff_exists]
  by_cases hMem : ch ∈ hub.chDb
  · have hCounted :
        hub.counted ch (.msg h ch msg now : Event T M) =
          some (msg, now) :=
      if_pos ⟨rfl, hMem⟩
    simp only [Board.step, if_pos (hThere.mp hMem)]
    cases hInfo : hub.msgDb.lookup ch with
    | some info =>
        have hNext :
            (hub.step limit (.msg h ch msg now)).1.msgDb.lookup
              ch =
              some ⟨addMessage msg limit info.messages, now⟩ :=
          lookup_step_of_counted hCounted hInfo
        have hKept := hMirrors.kept
        rw [hInfo, Option.isSome_some] at hKept
        rcases Option.isSome_iff_exists.mp hKept.symm with
          ⟨n, hSince⟩
        refine ⟨?_, ?_, ?_⟩
        · intro h'
          rw [entry_step_msg]
          exact hMirrors.readers h'
        · rw [hNext]
          exact hKept
        · rw [stored_of_lookup hNext, ← stored_of_lookup hInfo]
          have hWrite := memory_write hLimit hMirrors hSince
            ⟨h, msg, false⟩
          simpa [Board.memory, Board.write, hSince] using hWrite
    | none =>
        have hNext :
            (hub.step limit (.msg h ch msg now)).1.msgDb.lookup
              ch = none := by
          by_contra hSome
          rcases Option.ne_none_iff_exists'.mp hSome with
            ⟨info, hNew⟩
          rcases lookup_step_of_none hInfo hNew with
            ⟨_, _, _, _, _, hEq, _⟩
          cases hEq
        have hKept := hMirrors.kept
        rw [hInfo, Option.isSome_none] at hKept
        have hSince : b.since = none := by
          simpa using hKept.symm
        refine ⟨?_, ?_, ?_⟩
        · intro h'
          rw [entry_step_msg]
          exact hMirrors.readers h'
        · rw [hNext]
          exact hKept
        · simp [stored, hNext, Board.memory, Board.write,
            hSince]
  · have hTargets : hub.targets h ch = none := by
      unfold targets
      rw [AList.lookup_eq_none.mpr hMem]
      rfl
    have hSame :
        (hub.step limit (.msg h ch msg now)).1 = hub := by
      simp [step, hTargets]
    rw [hSame]
    simp only [Board.step,
      if_neg (fun hSome => hMem (hThere.mpr hSome))]
    exact hMirrors

theorem mirrors_logoff
    {limit : UInt32}
    {ch : UInt64}
    {hub : Hub T M}
    {b : Board UInt64 M}
    (hMirrors : Mirrors limit ch hub b)
    (h : UInt64) :
    Mirrors limit ch (hub.step limit (.logoff h ch)).1
      (b.step (.leave h)) := by
  refine ⟨?_, ?_, ?_⟩
  · intro h'
    rw [entry_step_logoff]
    simp only [Board.step, Board.part, true_and]
    by_cases hSame : h' = h
    · subst hSame
      simp
    · rw [Function.update_of_ne hSame, if_neg hSame]
      exact hMirrors.readers h'
  · simp only [step, msgDb_logoff]
    exact hMirrors.kept
  · simp only [stored, step, msgDb_logoff]
    exact hMirrors.stored

theorem mirrors_cleanup
    {limit : UInt32}
    {ch : UInt64}
    {hub : Hub T M}
    {b : Board UInt64 M}
    (hMirrors : Mirrors limit ch hub b)
    {now : Time}
    (hDrops : hub.drops ch now = true) :
    Mirrors limit ch (hub.step limit (.cleanup now)).1
      (b.step .forget) := by
  have hNone :
      (hub.step limit (.cleanup now)).1.msgDb.lookup ch =
        none := by
    simp only [step]
    rw [lookup_msgDb_cleanup]
    unfold drops at hDrops
    cases hInfo : hub.msgDb.lookup ch with
    | none => rfl
    | some info =>
        rw [hInfo] at hDrops
        simpa [Option.filter] using hDrops
  refine ⟨hMirrors.readers, ?_, ?_⟩
  · rw [hNone]
    rfl
  · simp [stored, hNone, Board.memory, Board.step]

/- The maps mirror the board after every turn. -/
theorem mirrors_step
    {limit : UInt32}
    (hLimit : 0 < limit.toNat)
    {ch : UInt64}
    {hub : Hub T M}
    {b : Board UInt64 M}
    (hNoEmpty : NoEmptyChannel hub)
    (hMirrors : Mirrors limit ch hub b)
    (e : Event T M) :
    Mirrors limit ch (hub.step limit e).1
      (b.run (hub.post ch e).toList) := by
  cases hPost : hub.post ch e with
  | none => exact mirrors_of_no_post hMirrors hPost
  | some p =>
      cases e with
      | init h ch' tx2 msg created now =>
          simp only [post, Option.ite_none_right_eq_some,
            Option.some.injEq] at hPost
          rcases hPost with ⟨rfl, rfl⟩
          exact mirrors_init hLimit hMirrors tx2 msg created
            now
      | msg h ch' msg now =>
          simp only [post, Option.ite_none_right_eq_some,
            Option.some.injEq] at hPost
          rcases hPost with ⟨rfl, rfl⟩
          exact mirrors_msg hLimit hNoEmpty hMirrors h msg now
      | logoff h ch' =>
          simp only [post, Option.ite_none_right_eq_some,
            Option.some.injEq] at hPost
          rcases hPost with ⟨rfl, rfl⟩
          exact mirrors_logoff hMirrors h
      | cleanup now =>
          simp only [post, Option.ite_none_right_eq_some,
            Option.some.injEq] at hPost
          rcases hPost with ⟨hDrops, rfl⟩
          exact mirrors_cleanup hMirrors hDrops

theorem mirrors_after
    {limit : UInt32}
    (hLimit : 0 < limit.toNat)
    (ch : UInt64)
    (es : List (Event T M)) :
    Mirrors limit ch (after limit es)
      (board limit ch es) := by
  induction es using List.reverseRecOn with
  | nil => exact mirrors_new limit ch
  | append_singleton es e ih =>
      rw [after_snoc, board_snoc]
      exact mirrors_step hLimit (noEmptyChannel_after limit es)
        ih e

theorem message_of_post
    {ch : UInt64}
    {hub : Hub T M}
    {e : Event T M}
    {p : Board.Post UInt64 M}
    {m : M}
    (hPost : hub.post ch e = some p)
    (hMessage : p.message = some m) :
    e.message = some m := by
  cases e with
  | init h ch' tx2 msg created now =>
      simp only [post, Option.ite_none_right_eq_some,
        Option.some.injEq] at hPost
      rw [← hPost.2] at hMessage
      exact hMessage
  | msg h ch' msg now =>
      simp only [post, Option.ite_none_right_eq_some,
        Option.some.injEq] at hPost
      rw [← hPost.2] at hMessage
      exact hMessage
  | logoff h ch' =>
      simp only [post, Option.ite_none_right_eq_some,
        Option.some.injEq] at hPost
      rw [← hPost.2] at hMessage
      cases hMessage
  | cleanup now =>
      simp only [post, Option.ite_none_right_eq_some,
        Option.some.injEq] at hPost
      rw [← hPost.2] at hMessage
      cases hMessage

/- The log of a channel keeps the order of the events. -/
theorem log_sublist
    (limit : UInt32)
    (ch : UInt64)
    (es : List (Event T M)) :
    ((board limit ch es).log.map Board.Entry.message).Sublist
      (messages es) := by
  induction es using List.reverseRecOn with
  | nil => exact List.Sublist.refl _
  | append_singleton es e ih =>
      rw [board_snoc, messages_snoc]
      cases hPost : (after limit es).post ch e with
      | none => exact ih.trans (List.sublist_append_left _ _)
      | some p =>
          rcases Board.log_step_cases (board limit ch es) p with
            hSame | ⟨entry, hMore, hMessage⟩
          · simp only [Option.toList_some, Board.run_cons,
              Board.run_nil, hSame]
            exact ih.trans (List.sublist_append_left _ _)
          · simp only [Option.toList_some, Board.run_cons,
              Board.run_nil, hMore, List.map_append,
              List.map_singleton]
            refine ih.append ?_
            rw [message_of_post hPost hMessage]
            exact List.Sublist.refl _

------------------------------------------------------------
-- What a Client Is Sent
------------------------------------------------------------

variable [DecidableEq T]

/- An accepted `Init` is sent what the board remembers. -/
theorem sentOn_step_init
    {limit : UInt32}
    {ch h : UInt64}
    {hub : Hub T M}
    {b : Board UInt64 M}
    (hMirrors : Mirrors limit ch hub b)
    (hEntry : hub.entry ch h = none)
    (tx2 : T)
    (msg : M)
    (created now : Time) :
    sentOn tx2
        (hub.step limit (.init h ch tx2 msg created now)).2 =
      b.given limit.toNat h (.join h msg) := by
  have hReader := hMirrors.readers h
  rw [hEntry, Option.isSome_none] at hReader
  rw [step_init_of_none hEntry, sentOn_replay, if_pos rfl]
  simp only [Board.given, Option.isSome_eq_false_iff.mp hReader,
    and_self, if_true]
  exact hMirrors.stored

/- A registered client is sent what the reader is given. -/
theorem sentOn_step_given
    {limit : UInt32}
    {ch h : UInt64}
    {hub : Hub T M}
    {b : Board UInt64 M}
    {tx : T}
    (hMirrors : Mirrors limit ch hub b)
    (hOnly : Only hub tx ch h)
    {e : Event T M}
    (hOther : e.tx2 ≠ some tx) :
    sentOn tx (hub.step limit e).2 =
      b.reads limit.toNat h (hub.post ch e).toList := by
  have hReader := hMirrors.readers h
  rw [hOnly.held, Option.isSome_some] at hReader
  cases e with
  | init h' ch' tx2 msg created now =>
      have hNe : tx2 ≠ tx := by
        rintro rfl
        exact hOther rfl
      rw [sentOn_step_init_of_ne limit hub h' ch' hNe]
      simp only [post]
      split
      · simp [Board.reads, Board.given,
          Option.isSome_iff_ne_none.mp hReader]
      · rfl
  | msg h' ch' msg now =>
      rw [sentOn_step_msg_of_only limit hOnly]
      simp only [post]
      by_cases hCh : ch' = ch
      · simp [hCh, Board.reads, Board.given, hReader]
      · simp [hCh, Board.reads]
  | logoff h' ch' =>
      simp only [post]
      split
      · rfl
      · rfl
  | cleanup now =>
      simp only [post]
      split
      · rfl
      · rfl

theorem sentOn_run_given
    {limit : UInt32}
    (hLimit : 0 < limit.toNat)
    {ch h : UInt64}
    {hub : Hub T M}
    {b : Board UInt64 M}
    {tx : T}
    (hNoEmpty : NoEmptyChannel hub)
    (hMirrors : Mirrors limit ch hub b)
    (hOnly : Only hub tx ch h)
    {es : List (Event T M)}
    (hOther : ∀ e ∈ es, e.tx2 ≠ some tx)
    (hStay : .logoff h ch ∉ es) :
    sentOn tx (run limit hub es).2 =
        b.reads limit.toNat h (posts limit ch hub es) ∧
      Only (run limit hub es).1 tx ch h := by
  induction es generalizing hub b with
  | nil => exact ⟨rfl, hOnly⟩
  | cons e es ih =>
      have hHead := hOther e List.mem_cons_self
      have hHere : e ≠ .logoff h ch :=
        fun hEq => hStay (hEq ▸ List.mem_cons_self)
      rcases ih (noEmptyChannel_step limit hNoEmpty e)
          (mirrors_step hLimit hNoEmpty hMirrors e)
          (only_step limit hOnly hHead hHere)
          (fun f hMem => hOther f (List.mem_cons_of_mem e hMem))
          (fun hMem => hStay (List.mem_cons_of_mem e hMem))
        with ⟨hSent, hStill⟩
      refine ⟨?_, hStill⟩
      simp only [run, posts]
      rw [sentOn_append, sentOn_step_given hMirrors hOnly hHead,
        hSent, Board.reads_append]

omit [DecidableEq T] in
/- Only its own `Logoff` makes a reader leave. -/
theorem logoff_of_leave
    {limit : UInt32}
    {ch h : UInt64}
    {hub : Hub T M}
    {es : List (Event T M)}
    (hLeave : .leave h ∈ posts limit ch hub es) :
    .logoff h ch ∈ es := by
  induction es generalizing hub with
  | nil => cases hLeave
  | cons e es ih =>
      rcases List.mem_append.mp hLeave with hHere | hLater
      · cases e with
        | init h' ch' tx2 msg created now =>
            simp [post] at hHere
        | msg h' ch' msg now => simp [post] at hHere
        | logoff h' ch' =>
            simp only [post, Option.mem_toList,
              Option.ite_none_right_eq_some, Option.some.injEq,
              Board.Post.leave.injEq] at hHere
            rcases hHere with ⟨rfl, rfl⟩
            exact List.mem_cons_self
        | cleanup now => simp [post] at hHere
      · exact List.mem_cons_of_mem e (ih hLater)

/- Up to its `Logoff`, a client is sent a window. -/
theorem sentOn_window_of_stays
    {limit : UInt32}
    (hLimit : 0 < limit.toNat)
    {before mid : List (Event T M)}
    {h ch : UInt64}
    {tx2 : T}
    (hEntry : (after limit before).entry ch h = none)
    (hOwn : ∀ e ∈ before ++ mid, e.tx2 ≠ some tx2)
    (hStay : .logoff h ch ∉ mid)
    (msg : M)
    (created now : Time) :
    let es := before ++ .init h ch tx2 msg created now :: mid
    Board.Window limit.toNat (board limit ch es).log h
        (board limit ch es).log.length
        (sentOn tx2 (run limit new es).2) ∧
      Only (after limit es) tx2 ch h := by
  intro es
  have hFirst := sentOn_run_of_absent limit (absent_new tx2)
    (fun e hMem => hOwn e (List.mem_append_left mid hMem))
  have hMirrors := mirrors_after hLimit ch before
  have hNoEmpty := noEmptyChannel_after limit before
  have hReader := hMirrors.readers h
  rw [hEntry, Option.isSome_none] at hReader
  rcases sentOn_run_given hLimit
      (noEmptyChannel_step limit hNoEmpty _)
      (mirrors_step hLimit hNoEmpty hMirrors
        (.init h ch tx2 msg created now))
      (only_step_init limit hFirst.2 hEntry msg created now)
      (fun e hMem => hOwn e (List.mem_append_right before hMem))
      hStay with ⟨hSent, hOnly⟩
  have hPost :
      (after limit before).post ch
          (.init h ch tx2 msg created now) =
        some (.join h msg) :=
    if_pos rfl
  have hAll :
      sentOn tx2 (run limit new es).2 =
        (board limit ch before).reads limit.toNat h
          (.join h msg ::
            posts limit ch
              ((after limit before).step limit
                (.init h ch tx2 msg created now)).1 mid) := by
    rw [hPost] at hSent
    rw [run_append, sentOn_append, hFirst.1, List.nil_append]
    change sentOn tx2 ((after limit before).run limit _).2 = _
    simp only [run]
    rw [sentOn_append, sentOn_step_init hMirrors hEntry, hSent]
    rfl
  have hBoard :
      board limit ch es =
        (board limit ch before).run
          (.join h msg ::
            posts limit ch
              ((after limit before).step limit
                (.init h ch tx2 msg created now)).1 mid) := by
    rw [board_append, posts, hPost]
    rfl
  constructor
  · rw [hAll, hBoard]
    refine Board.window_join limit.toNat
      (by simpa using hReader) msg ?_
    rintro p hMem rfl
    exact hStay (logoff_of_leave hMem)
  · unfold after
    rw [run_append]
    exact hOnly

/-
  Over any sequence of events in which its queue is brought
  once: what a client is sent from its accepted `Init` on is
  one window of the log of its channel, up to its `Logoff`,
  and up to the end of the log if it is still registered.
-/
theorem sentOn_window
    {limit : UInt32}
    (hLimit : 0 < limit.toNat)
    {before later : List (Event T M)}
    {h ch : UInt64}
    {tx2 : T}
    (hEntry : (after limit before).entry ch h = none)
    (hOwn : ∀ e ∈ before ++ later, e.tx2 ≠ some tx2)
    (msg : M)
    (created now : Time) :
    let es := before ++ .init h ch tx2 msg created now :: later
    ∃ stop,
      Board.Window limit.toNat (board limit ch es).log h stop
        (sentOn tx2 (run limit new es).2) ∧
      ((∃ ch' h', (after limit es).entry ch' h' = some tx2) →
        (after limit es).entry ch h = some tx2 ∧
          stop = (board limit ch es).log.length) := by
  intro es
  by_cases hLeaves : .logoff h ch ∈ later
  · rcases List.eq_append_cons_of_mem hLeaves with
      ⟨mid, rest, rfl, hStay⟩
    have hMid :
        ∀ e ∈ before ++ mid, e.tx2 ≠ some tx2 := by
      intro e hMem
      apply hOwn e
      rcases List.mem_append.mp hMem with hBefore | hLater
      · exact List.mem_append_left _ hBefore
      · exact List.mem_append_right _
          (List.mem_append_left _ hLater)
    have hRest : ∀ e ∈ rest, e.tx2 ≠ some tx2 := by
      intro e hMem
      apply hOwn e
      exact List.mem_append_right _ (List.mem_append_right _
        (List.mem_cons_of_mem _ hMem))
    let first := before ++ .init h ch tx2 msg created now :: mid
    have hSplit : es = first ++ .logoff h ch :: rest := by
      simp [es, first]
    rcases sentOn_window_of_stays hLimit hEntry hMid hStay msg
        created now with ⟨hWindow, hOnly⟩
    have hGone :
        sentOn tx2
            ((after limit first).run limit
              (.logoff h ch :: rest)).2 = [] ∧
          Absent
            ((after limit first).run limit
              (.logoff h ch :: rest)).1 tx2 := by
      have hRest := sentOn_run_of_absent limit
        (absent_step_logoff limit hOnly) hRest
      exact hRest
    have hRun :
        run limit new es =
          (((after limit first).run limit
              (.logoff h ch :: rest)).1,
            (run limit new first).2 ++
              ((after limit first).run limit
                (.logoff h ch :: rest)).2) := by
      rw [hSplit, run_append]
      rfl
    refine ⟨(board limit ch first).log.length, ?_, ?_⟩
    · rw [hRun, hSplit, board_append, sentOn_append, hGone.1,
        List.append_nil]
      exact hWindow.mono (Board.log_run _ _)
    · rintro ⟨ch', h', hHeld⟩
      unfold after at hHeld
      rw [hRun] at hHeld
      exact absurd hHeld (hGone.2 ch' h')
  · rcases sentOn_window_of_stays hLimit hEntry hOwn hLeaves msg
        created now with ⟨hWindow, hOnly⟩
    exact ⟨_, hWindow, fun _ => ⟨hOnly.held, rfl⟩⟩

omit [DecidableEq T] in
/- An event that brings a queue, and the ones around it. -/
theorem exists_init
    {es : List (Event T M)}
    (hOnce : (queues es).Nodup)
    {tx : T}
    (hMem : tx ∈ queues es) :
    ∃ before h ch msg created now later,
      es = before ++ .init h ch tx msg created now :: later ∧
        ∀ e ∈ before ++ later, e.tx2 ≠ some tx := by
  rcases List.mem_filterMap.mp hMem with ⟨e, hEvent, hTx⟩
  rcases List.append_of_mem hEvent with ⟨before, later, rfl⟩
  cases e with
  | init h ch tx2 msg created now =>
      cases hTx
      refine ⟨before, h, ch, msg, created, now, later, rfl, ?_⟩
      intro e hOther hSame
      have hAgain : tx ∈ queues (before ++ later) :=
        List.mem_filterMap.mpr ⟨e, hOther, hSame⟩
      have hSplit :
          (queues before ++ tx :: queues later).Nodup := by
        simpa [queues, Event.tx2] using hOnce
      have hNot := List.nodup_middle.mp hSplit
      unfold queues at hAgain
      rw [List.filterMap_append] at hAgain
      exact (List.nodup_cons.mp hNot).1 hAgain
  | msg h ch msg now => cases hTx
  | logoff h ch => cases hTx
  | cleanup now => cases hTx

/- Every queue that is brought once, whatever becomes of it. -/
theorem sentOn_window_of_once
    {limit : UInt32}
    (hLimit : 0 < limit.toNat)
    {es : List (Event T M)}
    (hOnce : (queues es).Nodup)
    (tx : T) :
    (sentOn tx (run limit new es).2 = [] ∧
        Absent (after limit es) tx) ∨
      ∃ ch h stop,
        Board.Window limit.toNat (board limit ch es).log h stop
          (sentOn tx (run limit new es).2) ∧
        ((∃ ch' h', (after limit es).entry ch' h' = some tx) →
          (after limit es).entry ch h = some tx ∧
            stop = (board limit ch es).log.length) := by
  by_cases hMem : tx ∈ queues es
  · rcases exists_init hOnce hMem with
      ⟨before, h, ch, msg, created, now, later, rfl, hOwn⟩
    cases hEntry : (after limit before).entry ch h with
    | none =>
        exact Or.inr ⟨ch, h,
          sentOn_window hLimit hEntry hOwn msg created now⟩
    | some old =>
        -- A duplicate leaves its queue absent.
        have hBefore := sentOn_run_of_absent limit
          (absent_new tx)
          (fun e hIn => hOwn e (List.mem_append_left _ hIn))
        have hLater := sentOn_run_of_absent limit hBefore.2
          (fun e hIn => hOwn e (List.mem_append_right _ hIn))
        have hRun :
            run limit new
                (before ++
                  .init h ch tx msg created now :: later) =
              (((after limit before).run limit later).1,
                (run limit new before).2 ++
                  ((after limit before).run limit later).2) := by
          rw [run_append]
          change
            (((after limit before).run limit (_ :: later)).1,
              _ ++
                ((after limit before).run limit
                  (_ :: later)).2) = _
          simp only [run, step_init_of_some hEntry,
            List.nil_append]
        unfold after at hLater ⊢
        rw [hRun, sentOn_append, hBefore.1]
        exact Or.inl hLater
  · exact Or.inl (absent_of_not_mem_queues limit hMem)

/-
  The event loop refines the board of every channel: after
  any sequence of events the maps mirror the boards, and at
  the next event whoever is registered then has been sent
  what the board gave to that reader.
-/
theorem refines_board
    (limit : UInt32)
    (hLimit : 0 < limit.toNat)
    (ch : UInt64)
    (es : List (Event T M)) :
    Mirrors limit ch (after limit es) (board limit ch es) ∧
      ∀ e, (queues (es ++ [e])).Nodup →
        ∀ h tx,
          ((after limit es).step limit e).1.entry ch h =
              some tx →
            sentOn tx ((after limit es).step limit e).2 =
              (board limit ch es).reads limit.toNat h
                ((after limit es).post ch e).toList := by
  have hMirrors := mirrors_after hLimit ch es
  refine ⟨hMirrors, ?_⟩
  intro e hOnce h tx hHeld
  rw [queues_snoc] at hOnce
  rcases List.nodup_append.mp hOnce with
    ⟨hBefore, _, hApart⟩
  rcases entry_step_cases hHeld with
    hOld | ⟨hVacant, msg, created, now, rfl⟩
  · refine sentOn_step_given hMirrors
      (only_of_entry limit hBefore hOld) ?_
    intro hTx
    have hMem : tx ∈ queues es := by
      by_contra hNew
      exact (absent_of_not_mem_queues limit hNew).2 ch h hOld
    exact hApart tx hMem tx (by simp [hTx]) rfl
  · rw [sentOn_step_init hMirrors hVacant]
    simp [post, Board.reads]

/- A client joins, and is sent the greeting of the first. -/
theorem refines_board_late_joiner :
    sentOn "q2"
        ((after 200 [.init 1 7 "q1" "join1" 0 0]).step 200
          (.init 2 7 "q2" "join2" 1 1)).2 = ["join1"] ∧
      (board 200 7
        ([.init 1 7 "q1" "join1" 0 0] :
          List (Event String String))).reads 200 2
            [.join 2 "join2"] = ["join1"] := by
  have hSent :
      sentOn "q2"
        ((after 200 [.init 1 7 "q1" "join1" 0 0]).step 200
          (.init 2 7 "q2" "join2" 1 1)).2 = ["join1"] := by
    decide
  refine ⟨hSent, ?_⟩
  have hRefines := refines_board 200 (by decide) 7
    ([.init 1 7 "q1" "join1" 0 0] :
      List (Event String String))
  rw [← hSent, hRefines.2 (.init 2 7 "q2" "join2" 1 1)
    (by decide) 2 "q2" (by decide)]
  rfl

end Hub

end Mles
