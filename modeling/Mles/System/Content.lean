import Mles.System.Publishing
import Mles.System.Refinement

/-
  What the clients of a channel are shown of each other.

  Of the frames of a client, the message loop of its
  receiver task passes on every kind but `Close` and `Pong`:
  a channel carries text and binary frames only as long as
  no client sends a `Ping` while it is in the channel.

  The first frame of a client, with the `auth` of its header
  if there is one, is never forwarded.  It is stored, and it
  is sent to others in one way: as part of the history that
  is replayed to a client who joins the channel later.

  Key definitions include:
    * `Message.isData`
    * `Sys.Unpinged`
    * `ReplayedIn`
    * `Sys.HeadersApart`

  Key theorems include:
    * `Sys.data_of_sendMsg`
    * `Sys.only_data_published`
    * `Sys.headersApart_of_run`
    * `Sys.headers_only_replayed`
-/

------------------------------------------------------------
-- Kinds of Frames
------------------------------------------------------------

namespace Mles

/- The frames that carry data. -/
def Message.isData : Message → Bool
| .text _ => true
| .binary _ => true
| .ping _ => false
| .pong _ => false
| .close _ => false

/- A data frame of a client. -/
def Frame.IsData (f : Frame) : Prop :=
  ∃ c n msg, f = .client c n msg ∧ msg.isData = true

/-
  The step does not let a receiver task read a `Ping` in its
  message loop, unless the loop is about to end anyway.
-/
def Sys.Unpinged
    (s : Sys)
    (a : Act) : Prop :=
  ∀ c data,
    a = .read c (.frame (.ping data)) →
      (s.conns c).receiver = .nextFrame →
        (s.conns c).isClosed = true ∨ (s.conns c).h = 0

/- How a receiver task comes to hold a `Msg`. -/
theorem Conn.Change.sendMsg_cases
    {env : Env}
    {c : ConnId}
    {conn conn' : Conn}
    {a : Act}
    {h ch : UInt64}
    {f : Frame}
    (hChange : conn.Change env c a conn')
    (hAt : conn'.receiver = .sendMsg h ch f) :
    conn.receiver = .sendMsg h ch f ∨
      ∃ msg,
        a = .read c (.frame msg) ∧
          conn.receiver = .nextFrame ∧
          conn.isClosed = false ∧ conn.h ≠ 0 ∧
          msg.isClose = false ∧ msg.isPong = false ∧
          f = .client c conn.reads msg := by
  cases hChange with
  | own _ _ hLocal =>
      cases hLocal with
      | badFirst msg hFirst hHeader => cases hAt
      | badAuth msg hdr hFirst hHeader hAuth => cases hAt
      | leave r n hNext hReads => cases hAt
      | message msg hNext hOpen hNonzero hData =>
          cases hAt
          exact Or.inr ⟨msg, rfl, hNext, hOpen, hNonzero,
            hData.1, hData.2, rfl⟩
      | noFrame r hFail hFirst => cases hAt
      | goodFirst msg hdr hFirst hHeader hAuth => cases hAt
      | confirmed h' hWait hErrTx => cases hAt
      | rejected hWait hErrTx => cases hAt
      | ended item sent hEnd hItem hSent => cases hAt
      | _ => exact Or.inl hAt
  | queueInit h' ch' msg hInit => cases hAt
  | queueMsg h' ch' msg hMsg => cases hAt
  | queueLogoff h' ch' hLogoff => exact Or.inl hAt
  | answered now errTx hWaiting hAnswer => exact Or.inl hAt
  | received i now msg _ hSent =>
      rw [hSent.frame] at hAt
      exact Or.inl hAt
  | other _ hOther => exact Or.inl hAt

namespace Sys

/- Without such a `Ping`, a `Msg` carries data. -/
theorem data_of_sendMsg
    {env : Env}
    {acts : List Act}
    {s : Sys}
    (hUnpinged :
      Trace.Along (step env) Unpinged init acts)
    (hRun : run env acts = some s)
    {c : ConnId}
    {h ch : UInt64}
    {f : Frame}
    (hAt : (s.conns c).receiver = .sendMsg h ch f) :
    f.IsData := by
  refine Trace.run_induction_along
    (P := fun _ s =>
      ∀ c h ch f,
        (s.conns c).receiver = .sendMsg h ch f → f.IsData)
    ?_ ?_ hUnpinged hRun c h ch f hAt
  · intro c h ch f hAt
    cases hAt
  · intro acts s a t hPrefix hData hStep hNext c h ch f hAt
    have hChange :=
      (step_sound hNext).change (queuedInits_of_run hPrefix) c
    rcases hChange.sendMsg_cases hAt with
      hOld | ⟨msg, rfl, hLoop, hOpen, hNonzero, hClose, hPong,
        rfl⟩
    · exact hData c h ch f hOld
    · refine ⟨c, (s.conns c).reads, msg, rfl, ?_⟩
      cases msg with
      | text text => rfl
      | binary data => rfl
      | ping data =>
          rcases hStep c data rfl hLoop with hClosed | hZero
          · rw [hOpen] at hClosed
            cases hClosed
          · exact absurd hZero hNonzero
      | pong data => cases hPong
      | close frame => cases hClose

/- What is published, is data. -/
theorem data_of_published
    {env : Env}
    {acts : List Act}
    {ch : UInt64}
    {f : Frame}
    (hUnpinged :
      Trace.Along (step env) Unpinged init acts)
    (hPublished : Published env acts ch f) :
    f.IsData := by
  rcases hPublished with
    ⟨c, n, msg, h, rfl, hJoined, _, hHeader, hQueued⟩
  by_cases hFirst : n = 0
  · rcases hJoined with ⟨text, hdr, hRead, _⟩
    have hEq := (hHeader hFirst).symm.trans hRead
    cases hEq
    exact ⟨c, n, .text text, rfl, rfl⟩
  · rcases hQueued hFirst with
      ⟨before, behind, s, rfl, hRun, hAt, _⟩
    exact data_of_sendMsg hUnpinged.init hRun hAt

/-
  In every state of every run in which no client sends a
  `Ping` from within a channel: what the event loop stores
  or sends is a text or binary frame of a client, and so is
  what is delivered to a client, the frames of the server
  itself apart.
-/
theorem only_data_published
    (env : Env)
    (acts : List Act)
    (s : Sys)
    (hRun : run env acts = some s)
    (hUnpinged :
      Trace.Along (step env) Unpinged init acts) :
    (∀ ch f, s.Handles ch f → f.IsData) ∧
    ∀ c f, s.Delivers c f →
      (∃ msg, f = .server msg) ∨ f.IsData := by
  have hMembers := membersOnly_of_run hRun
  refine ⟨?_, ?_⟩
  · rintro ch f (hStored | hTask)
    · exact data_of_published hUnpinged
        (hMembers.stored ch f hStored)
    · exact data_of_published hUnpinged
        (hMembers.task ch f hTask)
  · intro c f hDelivers
    have hDeliverable : Deliverable env acts f := by
      rcases hDelivers with hQueued | hWrite
      · exact (hMembers.outgoing c).rx2 f hQueued
      · exact (hMembers.outgoing c).write f hWrite
    rcases hDeliverable with hServer | ⟨ch, hPublished⟩
    · exact Or.inl hServer
    · exact Or.inr (data_of_published hUnpinged hPublished)

theorem only_data_published_joinAndSend :
    ∃ s,
      run Env.sample joinAndSend = some s ∧
        s.Handles newsHash (.client 0 1 (.text "hi")) ∧
        Frame.IsData (.client 0 1 (.text "hi")) := by
  rcases handles_joinAndSend with ⟨s, hRun, hHandles⟩
  have hUnpinged :
      Trace.Along (step Env.sample) Unpinged init
        joinAndSend := by
    rintro pre a post t hEq _ c data rfl
    have hMem :
        Act.read c (.frame (.ping data)) ∈ joinAndSend := by
      rw [hEq]
      simp
    simp [joinAndSend, alice] at hMem
  exact ⟨s, hRun, hHandles,
    (only_data_published _ _ s hRun hUnpinged).1 _ _ hHandles⟩

/- Two clients join, and the first sends a `Ping`. -/
def joinAndPing : List Act :=
  [.read 0 (.frame alice), .resume 0, .take 0, .resume 0,
    .read 1 (.frame bob), .resume 1, .take 0, .send 0 0,
    .read 0 (.frame (.ping [])), .resume 0, .take 0,
    .send 0 0]

/-
  The `Ping` is now the whole history, which has room for
  one message, and it waits in the queue of the other.
-/
theorem ping_published :
    ∃ s,
      run Env.sample joinAndPing = some s ∧
        s.hub.stored newsHash = [.client 0 1 (.ping [])] ∧
        s.Delivers 1 (.client 0 1 (.ping [])) ∧
        ¬ Frame.IsData (.client 0 1 (.ping [])) := by
  have hEnd :
      (run Env.sample joinAndPing).map
          (fun s => (s.hub.stored newsHash, (s.conns 1).rx2)) =
        some ([.client 0 1 (.ping [])],
          [some (.ok (.client 0 0 alice)),
            some (.ok (.client 0 1 (.ping [])))]) := by
    decide +kernel
  rcases Option.map_eq_some_iff.mp hEnd with ⟨s, hRun, hEq⟩
  rw [Prod.mk.injEq] at hEq
  refine ⟨s, hRun, hEq.1, Or.inl ?_, ?_⟩
  · rw [hEq.2]
    simp
  · rintro ⟨c, n, msg, hFrame, hData⟩
    cases hFrame
    cases hData

end Sys

end Mles

------------------------------------------------------------
-- First Frames
------------------------------------------------------------

namespace Mles

/- The frame is not the first one of its client. -/
def Frame.IsLater (f : Frame) : Prop :=
  ∃ c n msg, f = .client c (n + 1) msg

/-
  The event loop, after these actions, can accept the
  `Init` of the connection `tx`, whose channel holds the
  frame.
-/
def ReplayedAfter
    (env : Env)
    (before : List Act)
    (tx : ConnId)
    (ch : UInt64)
    (f : Frame) : Prop :=
  ∃ s h g events,
    Sys.run env before = some s ∧
      s.task = .idle ∧
      s.events = (tx, .init h ch tx tx g) :: events ∧
      s.hub.entry ch h = none ∧
      f ∈ s.hub.stored ch

/- It did accept it at some step. -/
def ReplayedIn
    (env : Env)
    (acts : List Act)
    (tx : ConnId)
    (ch : UInt64)
    (f : Frame) : Prop :=
  ∃ before now behind,
    acts = before ++ .take now :: behind ∧
      ReplayedAfter env before tx ch f

theorem ReplayedIn.append
    {env : Env}
    {acts : List Act}
    {tx : ConnId}
    {ch : UInt64}
    {f : Frame}
    (hReplayed : ReplayedIn env acts tx ch f)
    (acts' : List Act) :
    ReplayedIn env (acts ++ acts') tx ch f := by
  rcases hReplayed with ⟨before, now, behind, rfl, hAfter⟩
  exact ⟨before, now, behind ++ acts', by simp, hAfter⟩

namespace Sys

/-
  The event loop fans out later frames only, and replays
  what was stored when it accepted the `Init`.
-/
structure HeadersApart
    (env : Env)
    (acts : List Act)
    (s : Sys) : Prop where
  queued :
    ∀ c h ch f, (c, .msg h ch f) ∈ s.events → f.IsLater
  fanout :
    ∀ ch txs f, s.task = .fanout ch txs f → f.IsLater
  replay :
    ∀ ch tx2 queued f,
      s.task = .replay ch tx2 queued f →
        ∀ q ∈ queued, ReplayedIn env acts tx2 ch q
  sent :
    ∀ tx f,
      (tx, f) ∈ sentIn env acts →
        f.IsLater ∨ ∃ ch, ReplayedIn env acts tx ch f

/- Storing the message at hand sends nothing. -/
theorem HeadersApart.settle
    {env : Env}
    {acts : List Act}
    {s : Sys}
    (hApart : HeadersApart env acts s)
    (now : Time) :
    HeadersApart env acts (Sys.settle env now s) := by
  rcases settle_cases env now s with
    hSame | ⟨ch, msg, _, hEq⟩
  · rw [hSame]
    exact hApart
  · rw [hEq]
    exact
      { hApart with
        fanout := by simp
        replay := by simp }

/- What a step sends is added to what was sent. -/
theorem HeadersApart.sent_snoc
    {env : Env}
    {acts : List Act}
    {s : Sys}
    {a : Act}
    (hApart : HeadersApart env acts s)
    (hRun : run env acts = some s)
    (hNew :
      ∀ tx f,
        (tx, f) ∈ s.sends a →
          f.IsLater ∨ ∃ ch, ReplayedIn env acts tx ch f)
    (tx : ConnId)
    (f : Frame)
    (hMem : (tx, f) ∈ sentIn env (acts ++ [a])) :
    f.IsLater ∨ ∃ ch, ReplayedIn env (acts ++ [a]) tx ch f := by
  unfold sentIn at hMem
  rw [Trace.collect_snoc sends a hRun] at hMem
  have hBefore :
      f.IsLater ∨ ∃ ch, ReplayedIn env acts tx ch f := by
    rcases List.mem_append.mp hMem with hOld | hLast
    · exact hApart.sent tx f hOld
    · exact hNew tx f hLast
  rcases hBefore with hLater | ⟨ch, hReplayed⟩
  · exact Or.inl hLater
  · exact Or.inr ⟨ch, hReplayed.append [a]⟩

/- A step that sends nothing. -/
theorem HeadersApart.quiet
    {env : Env}
    {acts : List Act}
    {s : Sys}
    {a : Act}
    (hApart : HeadersApart env acts s)
    (hRun : run env acts = some s)
    (hSends : s.sends a = []) :
    HeadersApart env (acts ++ [a]) s where
  queued := hApart.queued
  fanout := hApart.fanout
  replay := fun ch tx2 queued f hTask q hMem =>
    (hApart.replay ch tx2 queued f hTask q hMem).append [a]
  sent := hApart.sent_snoc hRun (by simp [hSends])

theorem HeadersApart.step
    {env : Env}
    {acts : List Act}
    {s s' : Sys}
    {a : Act}
    (hApart : HeadersApart env acts s)
    (hRun : run env acts = some s)
    (hStep : Step env s a s') :
    HeadersApart env (acts ++ [a]) s' := by
  cases hStep with
  | conn c _ conn' hLocal =>
      have hQuiet := hApart.quiet hRun
        (taken_sends_of_local hLocal s).2
      exact { hQuiet with }
  | queueInit c h ch msg hAt hRoom =>
      have hQuiet := hApart.quiet (a := .resume c) hRun rfl
      exact
        { hQuiet with
          queued := queued_snoc hApart.queued (by simp) }
  | queueMsg c h ch msg hAt hRoom =>
      have hQuiet := hApart.quiet (a := .resume c) hRun rfl
      refine
        { hQuiet with
          queued := queued_snoc hApart.queued ?_ }
      intro c' h' ch' f hEq
      cases hEq
      rcases ((traced_of_run hRun _).sendMsg _ _ _ hAt).2
        with ⟨n, m, hFrame⟩
      exact ⟨_, n, m, hFrame⟩
  | queueLogoff c h ch hAt hRoom =>
      have hQuiet := hApart.quiet (a := .logoff c) hRun rfl
      exact
        { hQuiet with
          queued := queued_snoc hApart.queued (by simp) }
  | cleanup now hIdle =>
      have hQuiet := hApart.quiet (a := .cleanup now) hRun rfl
      exact { hQuiet with }
  | accept now c h ch tx2 errTx msg events hIdle hEvents
      hVacant =>
      have hQuiet := hApart.quiet (a := .take now) hRun rfl
      rcases (queuedInits_of_run hRun).front hEvents with
        ⟨rfl, rfl, _⟩
      apply HeadersApart.settle
      refine ⟨queued_tail hApart.queued hEvents, by simp, ?_,
        hQuiet.sent⟩
      intro ch' tx2' queued f hTask q hQueued
      cases hTask
      exact ⟨acts, now, [], rfl, s, h, msg, events, hRun,
        hIdle, hEvents, hVacant, hQueued⟩
  | reject now c h ch tx2 errTx tx msg events hIdle hEvents
      hTaken =>
      have hQuiet := hApart.quiet (a := .take now) hRun rfl
      exact
        { hQuiet with
          queued := queued_tail hApart.queued hEvents }
  | takeMsg now c h ch msg events txs hIdle hEvents
      hTargets =>
      have hQuiet := hApart.quiet (a := .take now) hRun rfl
      apply HeadersApart.settle
      refine
        { hQuiet with
          queued := queued_tail hApart.queued hEvents
          fanout := ?_
          replay := by simp }
      intro ch' txs' f hTask
      cases hTask
      apply hApart.queued c h ch msg
      rw [hEvents]
      exact List.mem_cons_self
  | dropMsg now c h ch msg events hIdle hEvents hTargets =>
      have hQuiet := hApart.quiet (a := .take now) hRun rfl
      exact
        { hQuiet with
          queued := queued_tail hApart.queued hEvents }
  | takeLogoff now c h ch events hIdle hEvents =>
      have hQuiet := hApart.quiet (a := .take now) hRun rfl
      exact
        { hQuiet with
          queued := queued_tail hApart.queued hEvents }
  | replay i now ch tx2 qmsg queued msg conn' hTask hSent =>
      have hReplay := hApart.replay ch tx2 _ msg hTask
      apply HeadersApart.settle
      refine ⟨hApart.queued, by simp, ?_, ?_⟩
      · intro ch' tx2' queued' f hTask' q hMem
        cases hTask'
        exact (hReplay q (List.mem_cons_of_mem _ hMem)).append _
      · refine hApart.sent_snoc hRun ?_
        intro tx f hNew
        simp only [sends, hTask, List.take_succ_cons,
          List.take_zero, List.map_cons, List.map_nil,
          List.mem_singleton, Prod.mk.injEq] at hNew
        rcases hNew with ⟨rfl, rfl⟩
        exact Or.inr ⟨ch, hReplay f List.mem_cons_self⟩
  | deliver i now ch txs tx msg conn' hTask hTx hSent =>
      have hLater := hApart.fanout ch txs msg hTask
      apply HeadersApart.settle
      refine ⟨hApart.queued, ?_, by simp, ?_⟩
      · intro ch' txs' f hTask'
        cases hTask'
        exact hLater
      · refine hApart.sent_snoc hRun ?_
        intro tx' f hNew
        simp only [sends, hTask, hTx, Option.toList_some,
          List.map_cons, List.map_nil, List.mem_singleton,
          Prod.mk.injEq] at hNew
        rcases hNew with ⟨rfl, rfl⟩
        exact Or.inl hLater

theorem headersApart_of_run
    {env : Env}
    {acts : List Act}
    {s : Sys}
    (hRun : run env acts = some s) :
    HeadersApart env acts s := by
  refine Trace.run_induction
    (P := fun acts s => HeadersApart env acts s) ?_ ?_ hRun
  · refine ⟨?_, by simp [init], by simp [init], ?_⟩
    · intro c h ch f hMem
      cases hMem
    · intro tx f hMem
      cases hMem
  · intro acts s a s' hPrefix hApart hStep
    exact hApart.step hPrefix (step_sound hStep)

/-
  In every run: what the event loop fans out are later
  frames; a client is sent the first frame of another client
  only in the history replayed to it when its own `Init` for
  the same channel is accepted, and that of the other was
  accepted before.  It is never sent its own first frame.
-/
theorem headers_only_replayed
    (env : Env)
    (acts : List Act)
    (s : Sys)
    (hRun : run env acts = some s) :
    (∀ ch txs f, s.task = .fanout ch txs f → f.IsLater) ∧
    ∀ tx c msg,
      (tx, .client c 0 msg) ∈ sentIn env acts →
        tx ≠ c ∧
        ∃ ch before now behind,
          acts = before ++ .take now :: behind ∧
            ReplayedAfter env before tx ch
              (.client c 0 msg) ∧
            (∃ h, Joined env before tx h ch) ∧
            ∃ h,
              Joined env before c h ch ∧
                AcceptedIn env before c h ch := by
  have hApart := headersApart_of_run hRun
  refine ⟨hApart.fanout, ?_⟩
  intro tx c msg hSent
  rcases hApart.sent tx _ hSent with
    ⟨c', n, msg', hFrame⟩ | ⟨ch, hReplayed⟩
  · cases hFrame
  · rcases hReplayed with
      ⟨before, now, behind, hActs, t, h, g, events, hBefore,
        hIdle, hEvents, hVacant, hStored⟩
    have hMem : (tx, .init h ch tx tx g) ∈ t.events := by
      rw [hEvents]
      exact List.mem_cons_self
    have hWaiting :=
      (queuedInits_of_run hBefore).waiting tx (mem_inits hMem)
    have hOwns :=
      ((registrations_of_run hBefore).queued tx h ch tx tx g
        hMem).1
    rcases (membersOnly_of_run hBefore).stored ch _ hStored with
      ⟨c', n, msg', h', hFrame, hJoined, hAccepted, _⟩
    cases hFrame
    refine ⟨?_, ch, before, now, behind, hActs,
      ⟨t, h, g, events, hBefore, hIdle, hEvents, hVacant,
        hStored⟩,
      ⟨h, joined_of_owns hOwns⟩, h', hJoined, hAccepted⟩
    rintro rfl
    have hAnswer :=
      (answers_of_run hBefore).accepted tx h' ch hAccepted
    rw [hWaiting.2] at hAnswer
    cases hAnswer

/- A client who presents an `auth` joins, then another. -/
def joinAfterAuth : List Act :=
  [.read 0 (.frame aliceAuth), .resume 0, .take 0, .resume 0,
    .read 1 (.frame bob), .resume 1, .take 0, .send 0 0]

theorem headers_only_replayed_joinAfterAuth :
    ∃ s,
      run Env.sample joinAfterAuth = some s ∧
        ∃ ch before now behind,
          joinAfterAuth = before ++ .take now :: behind ∧
            ReplayedAfter Env.sample before 1 ch
              (.client 0 0 aliceAuth) ∧
            ∃ h, AcceptedIn Env.sample before 0 h ch := by
  have hDone :
      (run Env.sample joinAfterAuth).isSome = true ∧
        sentIn Env.sample joinAfterAuth =
          [(1, .client 0 0 aliceAuth)] := by
    decide +kernel
  rcases Option.isSome_iff_exists.mp hDone.1 with ⟨s, hRun⟩
  have hSent :=
    (headers_only_replayed _ _ s hRun).2 1 0 aliceAuth
      (by rw [hDone.2]; exact List.mem_singleton_self _)
  rcases hSent.2 with
    ⟨ch, before, now, behind, hActs, hReplayed, _, h, _,
      hAccepted⟩
  exact ⟨s, hRun, ch, before, now, behind, hActs, hReplayed,
    h, hAccepted⟩

/- The other is sent the `auth`. -/
theorem auth_replayed :
    (run Env.sample joinAfterAuth).isSome = true ∧
      (Env.sample.header aliceAuth).bind MlesHeader.auth =
        some "a41c27caeaf22b26" ∧
      sentIn Env.sample joinAfterAuth =
        [(1, .client 0 0 aliceAuth)] := by
  decide +kernel

end Sys

end Mles
