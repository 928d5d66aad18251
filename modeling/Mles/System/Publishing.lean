import Mles.System.Provenance

/-
  Who publishes.

  The event loop does not check that the sender of a `Msg`
  is registered.  It need not: every frame that it stores or
  sends was read from a connection whose header was verified
  and whose `Init` the event loop had accepted before the
  frame was queued.

  The statements are about the whole run: a frame carries
  the connection it was read from, and the run up to a point
  tells what had happened to that connection.

  Key definitions include:
    * `AcceptedIn`
    * `RejectedIn`
    * `QueuedIn`
    * `Published`
    * `Sys.MembersOnly`

  Key theorems include:
    * `Sys.not_rejected_of_accepted`
    * `Sys.membersOnly_of_run`
    * `Sys.only_members_publish`
-/

------------------------------------------------------------
-- What Happened in a Run
------------------------------------------------------------

namespace Mles

/- The event loop took the `Init` of a vacant entry. -/
def AcceptedIn
    (env : Env)
    (acts : List Act)
    (c : ConnId)
    (h ch : UInt64) : Prop :=
  ∃ before now behind s f events,
    acts = before ++ .take now :: behind ∧
      Sys.run env before = some s ∧
      s.task = .idle ∧
      s.events = (c, .init h ch c c f) :: events ∧
      s.hub.entry ch h = none

/- The event loop took the `Init` of an entry in use. -/
def RejectedIn
    (env : Env)
    (acts : List Act)
    (c : ConnId) : Prop :=
  ∃ before now behind s h ch tx f events,
    acts = before ++ .take now :: behind ∧
      Sys.run env before = some s ∧
      s.task = .idle ∧
      s.events = (c, .init h ch c c f) :: events ∧
      s.hub.entry ch h = some tx

/-
  The receiver task queued this frame as a `Msg`, when the
  `Init` of its connection had been accepted.
-/
def QueuedIn
    (env : Env)
    (acts : List Act)
    (c : ConnId)
    (h ch : UInt64)
    (f : Frame) : Prop :=
  ∃ before behind s,
    acts = before ++ .resume c :: behind ∧
      Sys.run env before = some s ∧
      (s.conns c).receiver = .sendMsg h ch f ∧
      AcceptedIn env before c h ch

/-
  The first frame of the connection is a text with a header
  that passes the checks and the verification.
-/
def Joined
    (env : Env)
    (acts : List Act)
    (c : ConnId)
    (h ch : UInt64) : Prop :=
  ∃ text hdr,
    firstRead c acts = some (.frame (.text text)) ∧
      env.parse text = some hdr ∧
      isAscii hdr.uid = true ∧ isAscii hdr.channel = true ∧
      hdr.uid ≠ "" ∧ hdr.channel ≠ "" ∧
      verifyAuth env.sip env.mlesKey hdr.uid hdr.channel
        hdr.auth = true ∧
      h = env.headerHash hdr ∧
      ch = env.channelHash hdr.channel

/-
  The frame was sent to the channel by a member of it: it is
  the first frame of a connection that was accepted, or it
  was queued after the connection had been accepted.
-/
def Published
    (env : Env)
    (acts : List Act)
    (ch : UInt64)
    (f : Frame) : Prop :=
  ∃ c n msg h,
    f = .client c n msg ∧
      Joined env acts c h ch ∧
      AcceptedIn env acts c h ch ∧
      (n = 0 → firstRead c acts = some (.frame msg)) ∧
      (n ≠ 0 → QueuedIn env acts c h ch f)

------------------------------------------------------------
-- Longer Runs
------------------------------------------------------------

section Append

variable {env : Env}
variable {acts : List Act}
variable {c : ConnId}
variable {h ch : UInt64}
variable {f : Frame}

theorem AcceptedIn.append
    (hAccepted : AcceptedIn env acts c h ch)
    (acts' : List Act) :
    AcceptedIn env (acts ++ acts') c h ch := by
  rcases hAccepted with
    ⟨before, now, behind, s, f, events, rfl, hRest⟩
  exact ⟨before, now, behind ++ acts', s, f, events,
    by simp, hRest⟩

theorem QueuedIn.append
    (hQueued : QueuedIn env acts c h ch f)
    (acts' : List Act) :
    QueuedIn env (acts ++ acts') c h ch f := by
  rcases hQueued with ⟨before, behind, s, rfl, hRest⟩
  exact ⟨before, behind ++ acts', s, by simp, hRest⟩

theorem Joined.append
    (hJoined : Joined env acts c h ch)
    (acts' : List Act) :
    Joined env (acts ++ acts') c h ch := by
  rcases hJoined with ⟨text, hdr, hFirst, hRest⟩
  exact ⟨text, hdr, firstRead_append hFirst acts', hRest⟩

theorem Published.append
    (hPublished : Published env acts ch f)
    (acts' : List Act) :
    Published env (acts ++ acts') ch f := by
  rcases hPublished with
    ⟨c, n, msg, h, hFrame, hJoined, hAccepted, hHeader,
      hQueued⟩
  exact ⟨c, n, msg, h, hFrame, hJoined.append acts',
    hAccepted.append acts',
    fun hZero => firstRead_append (hHeader hZero) acts',
    fun hNe => (hQueued hNe).append acts'⟩

end Append

/- The checks of the first frame. -/
theorem Env.header_eq_some_iff
    {env : Env}
    {msg : Message}
    {hdr : MlesHeader} :
    env.header msg = some hdr ↔
      ∃ text,
        msg = .text text ∧ env.parse text = some hdr ∧
          isAscii hdr.uid = true ∧
          isAscii hdr.channel = true ∧
          hdr.uid ≠ "" ∧ hdr.channel ≠ "" := by
  cases msg with
  | text text =>
      unfold Env.header Message.toStr
      cases hParse : env.parse text with
      | none => simp [hParse]
      | some hdr' =>
          simp only [hParse]
          constructor
          · intro hEq
            split at hEq
            · cases hEq
            · rename_i hAscii
              split at hEq
              · cases hEq
              · rename_i hEmpty
                cases hEq
                refine ⟨text, rfl, hParse, ?_⟩
                simpa [and_assoc] using
                  And.intro hAscii hEmpty
          · rintro ⟨text', hText, hParse', hUid, hChannel,
              hUidNe, hChannelNe⟩
            cases hText
            rw [hParse] at hParse'
            cases hParse'
            simp [hUid, hChannel, hUidNe, hChannelNe]
  | binary data => simp [Env.header, Message.toStr]
  | ping data => simp [Env.header, Message.toStr]
  | pong data => simp [Env.header, Message.toStr]
  | close frame => simp [Env.header, Message.toStr]

theorem joined_of_owns
    {env : Env}
    {acts : List Act}
    {c : ConnId}
    {h ch : UInt64}
    (hOwns : env.Owns (firstRead c acts) h ch) :
    Joined env acts c h ch := by
  rcases hOwns with ⟨hdr, hHeader, hAuth, rfl, rfl⟩
  rcases Env.exists_frame_of_announced hHeader with
    ⟨msg, hFirst, hParsed⟩
  rcases Env.header_eq_some_iff.mp hParsed with
    ⟨text, rfl, hParse, hUid, hChannel, hUidNe, hChannelNe⟩
  exact ⟨text, hdr, hFirst, hParse, hUid, hChannel, hUidNe,
    hChannelNe, hAuth, rfl, rfl⟩

end Mles

------------------------------------------------------------
-- Answers
------------------------------------------------------------

namespace Mles

/- No task of a connection sends its confirmation. -/
theorem Conn.Local.errTx_sent
    {env : Env}
    {c : ConnId}
    {h : UInt64}
    {conn conn' : Conn}
    {a : Act}
    (hLocal : conn.Local env c a conn')
    (hSent : conn'.errTx = .sent h) :
    conn.errTx = .sent h := by
  cases hLocal with
  | badFirst msg hAt hHeader => simp [Conn.quit] at hSent
  | badAuth msg hdr hAt hHeader hAuth =>
      simp [Conn.quit] at hSent
  | ended item sent hAt hItem hQueue =>
      rw [hQueue.frame] at hSent
      exact hSent
  | _ => exact hSent

theorem Conn.Sent.errTx_eq
    {item : WsItem}
    {conn conn' : Conn}
    (hSent : Conn.Sent item conn conn') :
    conn'.errTx = conn.errTx := by
  rw [hSent.frame]

namespace Sys

/- A step that changes only the connection `c`. -/
theorem errTx_sent_setConn
    {s : Sys}
    {c d : ConnId}
    {h : UInt64}
    {conn : Conn}
    (hConn :
      conn.errTx = .sent h → (s.conns c).errTx = .sent h)
    (hSent : ((s.setConn c conn).conns d).errTx = .sent h) :
    (s.conns d).errTx = .sent h :=
  forall_setConn
    (P := fun d conn =>
      conn.errTx = .sent h → (s.conns d).errTx = .sent h)
    hConn (fun _ _ hOld => hOld) d hSent

/- A confirmation is sent when an `Init` is accepted. -/
theorem Step.errTx_sent
    {env : Env}
    {s s' : Sys}
    {a : Act}
    {c : ConnId}
    {h : UInt64}
    (hStep : Step env s a s')
    (hSent : (s'.conns c).errTx = .sent h) :
    (s.conns c).errTx = .sent h ∨
      ∃ now d ch tx2 f events,
        a = .take now ∧ s.task = .idle ∧
          s.events = (d, .init h ch tx2 c f) :: events ∧
          s.hub.entry ch h = none := by
  cases hStep with
  | conn d _ conn' hLocal =>
      exact Or.inl (errTx_sent_setConn hLocal.errTx_sent hSent)
  | queueInit d h' ch' msg hAt hRoom =>
      exact Or.inl (errTx_sent_setConn (by simp) hSent)
  | queueMsg d h' ch' msg hAt hRoom =>
      refine Or.inl (errTx_sent_setConn ?_ hSent)
      exact fun hSame => hSame
  | queueLogoff d h' ch' hAt hRoom =>
      refine Or.inl (errTx_sent_setConn ?_ hSent)
      exact fun hSame => hSame
  | cleanup now hIdle => exact Or.inl hSent
  | accept now d h' ch' tx2 errTx msg events hIdle hEvents
      hVacant =>
      rw [settle_conns] at hSent
      by_cases hEq : c = errTx
      · subst hEq
        simp [confirm, setConn] at hSent
        subst hSent
        exact Or.inr ⟨now, d, ch', tx2, msg, events, rfl,
          hIdle, hEvents, hVacant⟩
      · simp [confirm, setConn, hEq] at hSent
        exact Or.inl hSent
  | reject now d h' ch' tx2 errTx tx msg events hIdle hEvents
      hTaken =>
      exact Or.inl (errTx_sent_setConn (by simp) hSent)
  | takeMsg now d h' ch' msg events txs hIdle hEvents
      hTargets =>
      rw [settle_conns] at hSent
      exact Or.inl hSent
  | dropMsg now d h' ch' msg events hIdle hEvents hTargets =>
      exact Or.inl hSent
  | takeLogoff now d h' ch' events hIdle hEvents =>
      exact Or.inl hSent
  | replay i now ch' tx2 qmsg queued msg conn' hTask hQueue =>
      rw [settle_conns] at hSent
      refine Or.inl (errTx_sent_setConn ?_ hSent)
      rw [hQueue.errTx_eq]
      exact fun h => h
  | deliver i now ch' txs tx msg conn' hTask hTx hQueue =>
      rw [settle_conns] at hSent
      refine Or.inl (errTx_sent_setConn ?_ hSent)
      rw [hQueue.errTx_eq]
      exact fun h => h

/- The answer of the event loop to an `Init`. -/
theorem Step.answer
    {env : Env}
    {s s' : Sys}
    {now : Time}
    {c tx2 errTx : ConnId}
    {h ch : UInt64}
    {f : Frame}
    {events : List (ConnId × TaskEvent)}
    (hStep : Step env s (.take now) s')
    (hFront :
      s.events = (c, .init h ch tx2 errTx f) :: events) :
    (s'.conns errTx).errTx =
      if (s.hub.entry ch h).isNone then .sent h
      else .dropped := by
  cases hStep with
  | conn d _ conn' hLocal =>
      exact absurd rfl (hLocal.ne_take now)
  | accept _ d h' ch' tx2' errTx' msg events' hIdle hEvents
      hVacant =>
      rw [hFront] at hEvents
      cases hEvents
      rw [settle_conns, hVacant]
      simp [confirm, setConn]
  | reject _ d h' ch' tx2' errTx' tx msg events' hIdle
      hEvents hTaken =>
      rw [hFront] at hEvents
      cases hEvents
      rw [hTaken]
      simp [confirm, setConn]
  | takeMsg _ d h' ch' msg events' txs hIdle hEvents
      hTargets =>
      rw [hFront] at hEvents
      cases hEvents
  | dropMsg _ d h' ch' msg events' hIdle hEvents hTargets =>
      rw [hFront] at hEvents
      cases hEvents
  | takeLogoff _ d h' ch' events' hIdle hEvents =>
      rw [hFront] at hEvents
      cases hEvents

/- The confirmation of a connection tells how it was taken. -/
structure Answers
    (env : Env)
    (acts : List Act)
    (s : Sys) : Prop where
  accepted :
    ∀ c h ch,
      AcceptedIn env acts c h ch →
        (s.conns c).errTx = .sent h
  rejected :
    ∀ c, RejectedIn env acts c →
      (s.conns c).errTx = .dropped
  sent :
    ∀ c h,
      (s.conns c).errTx = .sent h →
        ∃ ch,
          AcceptedIn env acts c h ch ∧
            env.Owns (firstRead c acts) h ch

theorem Answers.step
    {env : Env}
    {acts : List Act}
    {s s' : Sys}
    {a : Act}
    (hAnswers : Answers env acts s)
    (hRun : run env acts = some s)
    (hStep : Step env s a s') :
    Answers env (acts ++ [a]) s' where
  accepted := by
    rintro c h ch
      ⟨before, now, behind, t, f, events, hSplit, hBefore,
        hRest⟩
    have hChange := hStep.change (queuedInits_of_run hRun) c
    have hTraced := traced_of_run hRun c
    rcases Trace.snoc_eq_split hSplit with
      ⟨rfl, rfl, _⟩ | ⟨rest, _, rfl⟩
    · rw [hRun] at hBefore
      cases hBefore
      rw [hStep.answer hRest.2.1, hRest.2.2]
      rfl
    · exact hChange.sent hTraced
        (hAnswers.accepted c h ch
          ⟨before, now, rest, t, f, events, rfl, hBefore,
            hRest⟩)
  rejected := by
    rintro c
      ⟨before, now, behind, t, h, ch, tx, f, events, hSplit,
        hBefore, hRest⟩
    have hChange := hStep.change (queuedInits_of_run hRun) c
    have hTraced := traced_of_run hRun c
    rcases Trace.snoc_eq_split hSplit with
      ⟨rfl, rfl, _⟩ | ⟨rest, _, rfl⟩
    · rw [hRun] at hBefore
      cases hBefore
      rw [hStep.answer hRest.2.1, hRest.2.2]
      rfl
    · have hDropped :=
        hAnswers.rejected c
          ⟨before, now, rest, t, h, ch, tx, f, events, rfl,
            hBefore, hRest⟩
      rw [hChange.errTx_eq hTraced (by simp [hDropped])
        (by simp [hDropped])]
      exact hDropped
  sent := by
    intro c h hSent
    rw [firstRead_snoc]
    rcases hStep.errTx_sent hSent with
      hOld | ⟨now, d, ch, tx2, f, events, rfl, hIdle, hEvents,
        hVacant⟩
    · rcases hAnswers.sent c h hOld with
        ⟨ch, hAccepted, hOwns⟩
      exact ⟨ch, hAccepted.append _, hOwns.or _⟩
    · have hMem : (d, .init h ch tx2 c f) ∈ s.events := by
        rw [hEvents]
        exact List.mem_cons_self
      rcases (queuedInits_of_run hRun).own d h ch tx2 c f hMem
        with ⟨rfl, rfl⟩
      have hQueued :=
        (registrations_of_run hRun).queued _ h ch _ _ f hMem
      exact ⟨ch,
        ⟨acts, now, [], s, f, events, rfl, hRun, hIdle,
          hEvents, hVacant⟩,
        hQueued.1.or _⟩

theorem answers_of_run
    {env : Env}
    {acts : List Act}
    {s : Sys}
    (hRun : run env acts = some s) :
    Answers env acts s := by
  refine Trace.run_induction
    (P := fun acts s => Answers env acts s) ?_ ?_ hRun
  · refine ⟨?_, ?_, ?_⟩
    · rintro c h ch ⟨before, now, behind, s, f, events, hSplit, _⟩
      have hLength := congrArg List.length hSplit
      simp at hLength
    · rintro c ⟨before, now, behind, s, h, ch, tx, f, events,
        hSplit, _⟩
      have hLength := congrArg List.length hSplit
      simp at hLength
    · intro c h hSent
      cases hSent
  · intro acts s a s' hPrefix hAnswers hStep
    exact hAnswers.step hPrefix (step_sound hStep)

/- A connection is not accepted and also rejected. -/
theorem not_rejected_of_accepted
    {env : Env}
    {acts : List Act}
    {s : Sys}
    {c : ConnId}
    {h ch : UInt64}
    (hRun : run env acts = some s)
    (hAccepted : AcceptedIn env acts c h ch) :
    ¬ RejectedIn env acts c := by
  intro hRejected
  have hAnswers := answers_of_run hRun
  have hSent := hAnswers.accepted c h ch hAccepted
  rw [hAnswers.rejected c hRejected] at hSent
  cases hSent

end Sys

end Mles

------------------------------------------------------------
-- Frames on Their Way
------------------------------------------------------------

namespace Mles

/- The frames the event loop is about to send or store. -/
def HubTask.frames : HubTask → List (UInt64 × Frame)
| .idle => []
| .replay ch _ queued msg =>
    (queued ++ [msg]).map (fun f => (ch, f))
| .fanout ch _ msg => [(ch, msg)]

namespace Conn

/- A receiver task in its message loop has a confirmation. -/
def Confirmed (conn : Conn) : Prop :=
  (conn.receiver = .nextFrame ∨
      ∃ h ch f, conn.receiver = .sendMsg h ch f) →
    ∃ h, conn.errTx = .sent h

theorem Change.confirmed
    {env : Env}
    {c : ConnId}
    {conn conn' : Conn}
    {a : Act}
    (hConfirmed : conn.Confirmed)
    (hChange : conn.Change env c a conn') :
    conn'.Confirmed := by
  cases hChange with
  | own _ _ hLocal =>
      cases hLocal with
      | badFirst msg hAt hHeader => simp [Confirmed, quit]
      | badAuth msg hdr hAt hHeader hAuth =>
          simp [Confirmed, quit]
      | leave r n hAt hReads => simp [Confirmed, leaveLoop]
      | message msg hAt hOpen hNonzero hData =>
          exact fun _ => hConfirmed (Or.inl hAt)
      | confirmed h hAt hErrTx => exact fun _ => ⟨h, hErrTx⟩
      | pinged _ items n closed pinger => exact hConfirmed
      | pong msg hAt => exact hConfirmed
      | taken msg items hAt hQueue hOpen => exact hConfirmed
      | drained items hAt hQueue => exact hConfirmed
      | written msg hAt => exact hConfirmed
      | writeFailed msg hAt => exact hConfirmed
      | cleanup ok hAt hNonzero => exact hConfirmed
      | finished ok hAt hZero => exact hConfirmed
      | _ => simp [Confirmed]
  | queueInit h ch msg hAt => simp [Confirmed]
  | queueMsg h ch msg hAt =>
      exact fun _ => hConfirmed (Or.inr ⟨h, ch, msg, hAt⟩)
  | queueLogoff h ch hAt => exact hConfirmed
  | answered now errTx hWaiting hAnswer =>
      simp [Confirmed, hWaiting.1]
  | received i now msg conn' hSent =>
      rw [hSent.frame]
      exact hConfirmed
  | other a hOther => exact hConfirmed

/- The frames queued for the socket, and being written. -/
structure Outgoing
    (P : Frame → Prop)
    (conn : Conn) : Prop where
  rx2 : ∀ f, some (.ok f) ∈ conn.rx2 → P f
  write : ∀ f, conn.sender = .write f → P f

section Outgoing

variable {P : Frame → Prop}
variable {conn conn' : Conn}

/- Steps that leave the queue and the sender task alone. -/
theorem Outgoing.congr
    (hOutgoing : conn.Outgoing P)
    (hQueue : conn'.rx2 = conn.rx2)
    (hSender : conn'.sender = conn.sender) :
    conn'.Outgoing P where
  rx2 := by
    rw [hQueue]
    exact hOutgoing.rx2
  write := by
    rw [hSender]
    exact hOutgoing.write

/- An item is put into the queue. -/
theorem Outgoing.sent
    {item : WsItem}
    (hOutgoing : conn.Outgoing P)
    (hItem : ∀ f, item = some (.ok f) → P f)
    (hSent : Sent item conn conn') :
    conn'.Outgoing P := by
  cases hSent with
  | closed hDone => exact hOutgoing
  | queued hAlive hRoom =>
      refine ⟨?_, hOutgoing.write⟩
      intro f hMem
      rcases List.mem_append.mp hMem with hOld | hNew
      · exact hOutgoing.rx2 f hOld
      · exact hItem f (List.mem_singleton.mp hNew).symm

theorem isServer_ok
    {f : Frame}
    (hItem : WsItem.isServer (some (.ok f)) = true) :
    ∃ msg, f = .server msg := by
  cases f with
  | client c n msg => cases hItem
  | server msg => exact ⟨msg, rfl⟩

theorem Local.outgoing
    {env : Env}
    {c : ConnId}
    {a : Act}
    (hServer : ∀ msg, P (.server msg))
    (hOutgoing : conn.Outgoing P)
    (hLocal : conn.Local env c a conn') :
    conn'.Outgoing P := by
  have hItems :
      ∀ (item : WsItem) f,
        item.isServer = true → item = some (.ok f) → P f := by
    rintro item f hItem rfl
    rcases isServer_ok hItem with ⟨msg, rfl⟩
    exact hServer msg
  cases hLocal with
  | ended item sent hAt hItem hSent =>
      exact (hOutgoing.sent (fun f => hItems item f hItem)
        hSent).congr rfl rfl
  | pinged _ items n closed pinger hAct hServers hRoom
      hClosed =>
      refine ⟨?_, hOutgoing.write⟩
      intro f hMem
      rcases List.mem_append.mp hMem with hOld | hNew
      · exact hOutgoing.rx2 f hOld
      · exact hItems _ f (hServers _ hNew) rfl
  | taken msg items hAt hQueue hOpen =>
      refine ⟨?_, ?_⟩
      · intro f hMem
        apply hOutgoing.rx2 f
        rw [hQueue]
        exact List.mem_cons_of_mem _ hMem
      · intro f hWrite
        cases hWrite
        apply hOutgoing.rx2 msg
        rw [hQueue]
        exact List.mem_cons_self
  | drained items hAt hQueue =>
      refine ⟨?_, by simp⟩
      exact fun f hMem =>
        hOutgoing.rx2 f (hQueue.subset hMem)
  | written msg hAt => exact ⟨hOutgoing.rx2, by simp⟩
  | writeFailed msg hAt => exact ⟨hOutgoing.rx2, by simp⟩
  | cleanup ok hAt hNonzero => exact ⟨hOutgoing.rx2, by simp⟩
  | finished ok hAt hZero =>
      exact ⟨by simp [finish], by simp [finish]⟩
  | _ => exact hOutgoing.congr rfl rfl

end Outgoing

end Conn

end Mles

------------------------------------------------------------
-- Only Members Publish
------------------------------------------------------------

namespace Mles

/- A frame of the server itself, or of a member. -/
def Deliverable
    (env : Env)
    (acts : List Act)
    (f : Frame) : Prop :=
  (∃ msg, f = .server msg) ∨ ∃ ch, Published env acts ch f

namespace Sys

/-
  Every frame in the event queue, in the hands of the event
  loop, in a history or on its way to a socket.
-/
structure MembersOnly
    (env : Env)
    (acts : List Act)
    (s : Sys) : Prop where
  queued :
    ∀ c h ch f,
      (c, .msg h ch f) ∈ s.events → Published env acts ch f
  task :
    ∀ ch f, (ch, f) ∈ s.task.frames → Published env acts ch f
  stored :
    ∀ ch f, f ∈ s.hub.stored ch → Published env acts ch f
  outgoing :
    ∀ c, (s.conns c).Outgoing (Deliverable env acts)

/- The first frame of an accepted connection. -/
theorem published_init
    {env : Env}
    {acts : List Act}
    {s : Sys}
    {now : Time}
    {c tx2 errTx : ConnId}
    {h ch : UInt64}
    {f : Frame}
    {events : List (ConnId × TaskEvent)}
    (hRun : run env acts = some s)
    (hIdle : s.task = .idle)
    (hEvents :
      s.events = (c, .init h ch tx2 errTx f) :: events)
    (hVacant : s.hub.entry ch h = none) :
    Published env (acts ++ [.take now]) ch f := by
  have hMem : (c, .init h ch tx2 errTx f) ∈ s.events := by
    rw [hEvents]
    exact List.mem_cons_self
  rcases (registrations_of_run hRun).queued c h ch tx2 errTx f
    hMem with ⟨hOwns, msg, hFirst, rfl⟩
  rcases (queuedInits_of_run hRun).own c h ch tx2 errTx _ hMem
    with ⟨rfl, rfl⟩
  exact ⟨_, 0, msg, h, rfl,
    (joined_of_owns hOwns).append _,
    ⟨acts, now, [], s, _, events, rfl, hRun, hIdle, hEvents,
      hVacant⟩,
    fun _ => firstRead_append hFirst _, by simp⟩

/- A frame queued from the message loop. -/
theorem published_msg
    {env : Env}
    {acts : List Act}
    {s : Sys}
    {c : ConnId}
    {h ch : UInt64}
    {f : Frame}
    (hRun : run env acts = some s)
    (hAt : (s.conns c).receiver = .sendMsg h ch f) :
    Published env (acts ++ [.resume c]) ch f := by
  rcases (traced_of_run hRun c).sendMsg h ch f hAt with
    ⟨hOwns, n, m, rfl⟩
  have hConfirmed : (s.conns c).Confirmed :=
    conn_induction (P := fun _ _ conn => conn.Confirmed)
      (fun _ => by simp [Conn.Confirmed])
      (fun _ _ _ _ _ hOld hChange => hChange.confirmed hOld)
      hRun c
  rcases hConfirmed (Or.inr ⟨h, ch, _, hAt⟩) with
    ⟨h', hSent⟩
  rcases (answers_of_run hRun).sent c h' hSent with
    ⟨ch', hAccepted, hOwns'⟩
  rcases hOwns'.unique hOwns with ⟨rfl, rfl⟩
  exact ⟨c, n + 1, m, h', rfl,
    (joined_of_owns hOwns).append _, hAccepted.append _,
    by simp,
    fun _ => ⟨acts, [], s, rfl, hRun, hAt, hAccepted⟩⟩

/- Storing what the event loop has in its hands. -/
theorem MembersOnly.settle
    {env : Env}
    {acts : List Act}
    {s : Sys}
    (hMembers : MembersOnly env acts s)
    (now : Time) :
    MembersOnly env acts (settle env now s) := by
  rcases settle_cases env now s with
    hSame | ⟨ch, msg, hAt, hEq⟩
  · rw [hSame]
    exact hMembers
  · rw [hEq]
    refine
      { hMembers with
        task := by simp [HubTask.frames]
        stored := ?_ }
    intro ch' f hMem
    rcases Hub.mem_stored_record hMem with hOld | ⟨rfl, rfl⟩
    · exact hMembers.stored ch' f hOld
    · apply hMembers.task
      rcases hAt with ⟨tx2, hAt⟩ | hAt
      · simp [hAt, HubTask.frames]
      · simp [hAt, HubTask.frames]

theorem outgoing_setConn
    {P : Frame → Prop}
    {s : Sys}
    {c : ConnId}
    {conn : Conn}
    (hOutgoing : ∀ d, (s.conns d).Outgoing P)
    (hConn : conn.Outgoing P)
    (d : ConnId) :
    ((s.setConn c conn).conns d).Outgoing P :=
  forall_setConn (P := fun _ conn => conn.Outgoing P) hConn
    (fun d _ => hOutgoing d) d

theorem MembersOnly.append
    {env : Env}
    {acts : List Act}
    {s : Sys}
    (hMembers : MembersOnly env acts s)
    (acts' : List Act) :
    MembersOnly env (acts ++ acts') s where
  queued := fun c h ch f hMem =>
    (hMembers.queued c h ch f hMem).append acts'
  task := fun ch f hMem => (hMembers.task ch f hMem).append acts'
  stored := fun ch f hMem =>
    (hMembers.stored ch f hMem).append acts'
  outgoing := by
    have hMono :
        ∀ f, Deliverable env acts f →
          Deliverable env (acts ++ acts') f := by
      rintro f (hServer | ⟨ch, hPublished⟩)
      · exact Or.inl hServer
      · exact Or.inr ⟨ch, hPublished.append acts'⟩
    exact fun c =>
      ⟨fun f hMem => hMono f ((hMembers.outgoing c).rx2 f hMem),
        fun f hAt => hMono f ((hMembers.outgoing c).write f hAt)⟩

section

/- What holds of the frames of the queued messages. -/
variable {P : UInt64 → Frame → Prop}
variable {events : List (ConnId × TaskEvent)}
variable {e : ConnId × TaskEvent}

/- An event is queued. -/
theorem queued_snoc
    (hQueued :
      ∀ c h ch f, (c, .msg h ch f) ∈ events → P ch f)
    (hNew : ∀ c h ch f, e = (c, .msg h ch f) → P ch f)
    (c : ConnId)
    (h ch : UInt64)
    (f : Frame)
    (hMem : (c, .msg h ch f) ∈ events ++ [e]) :
    P ch f := by
  rcases List.mem_append.mp hMem with hOld | hLast
  · exact hQueued c h ch f hOld
  · exact hNew c h ch f (List.mem_singleton.mp hLast).symm

/- An event is taken. -/
theorem queued_tail
    {s : Sys}
    (hQueued :
      ∀ c h ch f, (c, .msg h ch f) ∈ s.events → P ch f)
    (hEvents : s.events = e :: events)
    (c : ConnId)
    (h ch : UInt64)
    (f : Frame)
    (hMem : (c, .msg h ch f) ∈ events) :
    P ch f := by
  apply hQueued c h ch f
  rw [hEvents]
  exact List.mem_cons_of_mem e hMem

end

theorem MembersOnly.step
    {env : Env}
    {acts : List Act}
    {s s' : Sys}
    {a : Act}
    (hBefore : MembersOnly env acts s)
    (hRun : run env acts = some s)
    (hStep : Step env s a s') :
    MembersOnly env (acts ++ [a]) s' := by
  have hMembers := hBefore.append [a]
  cases hStep with
  | conn c _ conn' hLocal =>
      exact
        { hMembers with
          outgoing := outgoing_setConn hMembers.outgoing
            (hLocal.outgoing (fun msg => Or.inl ⟨msg, rfl⟩)
              (hMembers.outgoing c)) }
  | queueInit c h ch msg hAt hRoom =>
      exact
        { hMembers with
          queued := queued_snoc hMembers.queued (by simp)
          outgoing := outgoing_setConn hMembers.outgoing
            ((hMembers.outgoing c).congr rfl rfl) }
  | queueMsg c h ch msg hAt hRoom =>
      have hNew := published_msg hRun hAt
      refine
        { hMembers with
          queued := queued_snoc hMembers.queued ?_
          outgoing := outgoing_setConn hMembers.outgoing
            ((hMembers.outgoing c).congr rfl rfl) }
      intro c' h' ch' f hEq
      cases hEq
      exact hNew
  | queueLogoff c h ch hAt hRoom =>
      exact
        { hMembers with
          queued := queued_snoc hMembers.queued (by simp)
          outgoing := outgoing_setConn hMembers.outgoing
            ⟨by simp [Conn.finish], by simp [Conn.finish]⟩ }
  | cleanup now hIdle =>
      exact
        { hMembers with
          stored := fun ch f hMem =>
            hMembers.stored ch f (Hub.mem_stored_cleanup hMem) }
  | accept now c h ch tx2 errTx msg events hIdle hEvents
      hVacant =>
      have hNew :
          Published env (acts ++ [.take now]) ch msg :=
        published_init hRun hIdle hEvents hVacant
      apply MembersOnly.settle
      refine ⟨queued_tail hMembers.queued hEvents, ?_, ?_, ?_⟩
      · intro ch' f hMem
        simp only [HubTask.frames, List.mem_map,
          List.mem_append, List.mem_singleton,
          Prod.mk.injEq] at hMem
        rcases hMem with ⟨f', hStored | hMsg, rfl, rfl⟩
        · exact hMembers.stored ch f' hStored
        · rw [hMsg]
          exact hNew
      · intro ch' f hMem
        apply hMembers.stored ch' f
        rw [← Hub.stored_register h ch tx2 now]
        exact hMem
      · exact outgoing_setConn hMembers.outgoing
          ((hMembers.outgoing errTx).congr rfl rfl)
  | reject now c h ch tx2 errTx tx msg events hIdle hEvents
      hTaken =>
      exact
        { hMembers with
          queued := queued_tail hMembers.queued hEvents
          outgoing := outgoing_setConn hMembers.outgoing
            ((hMembers.outgoing errTx).congr rfl rfl) }
  | takeMsg now c h ch msg events txs hIdle hEvents
      hTargets =>
      have hFrame : (c, .msg h ch msg) ∈ s.events := by
        rw [hEvents]
        exact List.mem_cons_self
      apply MembersOnly.settle
      refine
        { hMembers with
          queued := queued_tail hMembers.queued hEvents
          task := ?_ }
      intro ch' f hMem
      cases List.mem_singleton.mp hMem
      exact hMembers.queued c h ch msg hFrame
  | dropMsg now c h ch msg events hIdle hEvents hTargets =>
      exact
        { hMembers with
          queued := queued_tail hMembers.queued hEvents }
  | takeLogoff now c h ch events hIdle hEvents =>
      refine
        { hMembers with
          queued := queued_tail hMembers.queued hEvents
          stored := ?_ }
      intro ch' f hMem
      apply hMembers.stored ch' f
      simpa [Hub.stored] using hMem
  | replay i now ch tx2 qmsg queued msg conn' hTask hSent =>
      have hFrames :
          ∀ f, f ∈ qmsg :: (queued ++ [msg]) →
            Published env (acts ++ [.send i now]) ch f := by
        intro f hMem
        apply hMembers.task ch f
        rw [hTask]
        exact List.mem_map_of_mem hMem
      apply MembersOnly.settle
      refine
        { hMembers with
          task := ?_
          outgoing := outgoing_setConn hMembers.outgoing
            ((hMembers.outgoing tx2).sent ?_ hSent) }
      · intro ch' f hMem
        rcases List.mem_map.mp hMem with ⟨f', hQueued, hEq⟩
        cases hEq
        exact hFrames f (List.mem_cons_of_mem _ hQueued)
      · intro f hEq
        cases hEq
        exact Or.inr ⟨ch, hFrames qmsg List.mem_cons_self⟩
  | deliver i now ch txs tx msg conn' hTask hTx hSent =>
      have hFrame :
          Published env (acts ++ [.send i now]) ch msg := by
        apply hMembers.task ch msg
        rw [hTask]
        exact List.mem_singleton_self _
      apply MembersOnly.settle
      refine
        { hMembers with
          task := ?_
          outgoing := outgoing_setConn hMembers.outgoing
            ((hMembers.outgoing tx).sent ?_ hSent) }
      · intro ch' f hMem
        cases List.mem_singleton.mp hMem
        exact hFrame
      · intro f hEq
        cases hEq
        exact Or.inr ⟨ch, hFrame⟩

theorem membersOnly_of_run
    {env : Env}
    {acts : List Act}
    {s : Sys}
    (hRun : run env acts = some s) :
    MembersOnly env acts s := by
  refine Trace.run_induction
    (P := fun acts s => MembersOnly env acts s) ?_ ?_ hRun
  · refine ⟨?_, ?_, ?_, ?_⟩
    · intro c h ch f hMem
      cases hMem
    · intro ch f hMem
      cases hMem
    · intro ch f hMem
      cases hMem
    · intro c
      exact ⟨by simp [init], by simp [init]⟩
  · intro acts s a s' hPrefix hMembers hStep
    exact hMembers.step hPrefix (step_sound hStep)

/- The event loop stores the frame, stored it, or sends it. -/
def Handles
    (s : Sys)
    (ch : UInt64)
    (f : Frame) : Prop :=
  f ∈ s.hub.stored ch ∨ (ch, f) ∈ s.task.frames

/- The frame waits for the socket, or is written to it. -/
def Delivers
    (s : Sys)
    (c : ConnId)
    (f : Frame) : Prop :=
  some (.ok f) ∈ (s.conns c).rx2 ∨
    (s.conns c).sender = .write f

/-
  In every state of every run, what the event loop stores or
  sends was published by a member of the channel; what is
  delivered to a client comes from the server itself or was
  published so; and nothing of it was read from a connection
  whose `Init` was rejected.
-/
theorem only_members_publish
    (env : Env)
    (acts : List Act)
    (s : Sys)
    (hRun : run env acts = some s) :
    (∀ ch f, s.Handles ch f → Published env acts ch f) ∧
    (∀ c f, s.Delivers c f → Deliverable env acts f) ∧
    ∀ ch c n msg,
      Published env acts ch (.client c n msg) →
        ¬ RejectedIn env acts c := by
  have hMembers := membersOnly_of_run hRun
  refine ⟨?_, ?_, ?_⟩
  · rintro ch f (hStored | hTask)
    · exact hMembers.stored ch f hStored
    · exact hMembers.task ch f hTask
  · rintro c f (hQueued | hWrite)
    · exact (hMembers.outgoing c).rx2 f hQueued
    · exact (hMembers.outgoing c).write f hWrite
  · rintro ch c n msg
      ⟨c', n', msg', h, hFrame, _, hAccepted, _⟩
    cases hFrame
    exact not_rejected_of_accepted hRun hAccepted

/- A client joins and sends a message. -/
def joinAndSend : List Act :=
  [.read 0 (.frame alice), .resume 0, .take 0, .resume 0,
    .read 0 (.frame (.text "hi")), .resume 0, .take 0]

theorem handles_joinAndSend :
    ∃ s,
      run Env.sample joinAndSend = some s ∧
        s.Handles newsHash (.client 0 1 (.text "hi")) := by
  have hStored :
      (run Env.sample joinAndSend).map
          (fun s => s.hub.stored newsHash) =
        some [.client 0 1 (.text "hi")] := by
    decide +kernel
  rcases Option.map_eq_some_iff.mp hStored with
    ⟨s, hRun, hEq⟩
  refine ⟨s, hRun, Or.inl ?_⟩
  rw [hEq]
  exact List.mem_singleton_self _

theorem only_members_publish_joinAndSend :
    ∃ s,
      run Env.sample joinAndSend = some s ∧
        s.Handles newsHash (.client 0 1 (.text "hi")) ∧
        Published Env.sample joinAndSend newsHash
          (.client 0 1 (.text "hi")) := by
  rcases handles_joinAndSend with ⟨s, hRun, hHandles⟩
  exact ⟨s, hRun, hHandles,
    (only_members_publish _ _ s hRun).1 _ _ hHandles⟩

end Sys

end Mles
