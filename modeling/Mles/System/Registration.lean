import Mles.System.Provenance

/-
  Who registers, and who is going to log off.

  A registration is requested by the receiver task of a
  connection and released by its sender task; the two meet
  only in the shared hashes and in the order of the event
  queue.  An `Init` may be queued when the sender task that
  had to release it has already finished.  Without such a
  step, every entry is going to be removed by its owner.

  Key definitions include:
    * `heir`
    * `Sys.InitTimely`
    * `Sys.NoZombie`

  Key theorems include:
    * `Sys.Step.entry_take`
    * `Sys.noZombie_of_run`
-/

------------------------------------------------------------
-- The Registry After the Queued Events
------------------------------------------------------------

namespace Mles

/-
  The owner of an entry after a list of events has been
  handled, from the owner before.
-/
def heir
    (ch h : UInt64) :
    Option ConnId → List (ConnId × TaskEvent) → Option ConnId
| owner, [] => owner
| owner, (_, .init h' ch' tx2 _ _) :: events =>
    heir ch h
      (if ch = ch' ∧ h = h' then some (owner.getD tx2)
        else owner)
      events
| owner, (_, .msg _ _ _) :: events => heir ch h owner events
| owner, (_, .logoff h' ch') :: events =>
    heir ch h (if ch = ch' ∧ h = h' then none else owner)
      events

theorem heir_cons
    (ch h : UInt64)
    (owner : Option ConnId)
    (e : ConnId × TaskEvent)
    (events : List (ConnId × TaskEvent)) :
    heir ch h owner (e :: events) =
      heir ch h (heir ch h owner [e]) events := by
  rcases e with ⟨c, _ | _ | _⟩
  · rfl
  · rfl
  · rfl

namespace Sys

/- Taking an event does to the registry what `heir` says. -/
theorem Step.entry_take
    {env : Env}
    {s s' : Sys}
    {now : Time}
    {e : ConnId × TaskEvent}
    (hStep : Step env s (.take now) s')
    (hTake : s.events = e :: s'.events)
    (ch h : UInt64) :
    s'.hub.entry ch h = heir ch h (s.hub.entry ch h) [e] := by
  cases hStep with
  | conn c _ conn' hLocal =>
      -- No task of a connection takes an event.
      have hLength := congrArg List.length hTake
      simp at hLength
  | accept _ c h' ch' tx2 errTx msg events hIdle hEvents
      hVacant =>
      rw [settle_events] at hTake
      rw [settle_entry]
      have hHead := hEvents.symm.trans hTake
      cases hHead
      rw [heir, heir]
      simp only [confirm, setConn, Hub.entry_register]
      by_cases hPair : ch = ch' ∧ h = h'
      · rw [if_pos hPair, if_pos hPair, hPair.1, hPair.2]
      · rw [if_neg hPair, if_neg hPair]
  | reject _ c h' ch' tx2 errTx tx msg events hIdle hEvents
      hTaken =>
      have hHead := hEvents.symm.trans hTake
      cases hHead
      rw [heir, heir]
      by_cases hPair : ch = ch' ∧ h = h'
      · rw [if_pos hPair, hPair.1, hPair.2, hTaken]
        exact hTaken
      · rw [if_neg hPair]
        rfl
  | takeMsg _ c h' ch' msg events txs hIdle hEvents
      hTargets =>
      rw [settle_events] at hTake
      rw [settle_entry]
      have hHead := hEvents.symm.trans hTake
      cases hHead
      rfl
  | dropMsg _ c h' ch' msg events hIdle hEvents hTargets =>
      have hHead := hEvents.symm.trans hTake
      cases hHead
      rfl
  | takeLogoff _ c h' ch' events hIdle hEvents =>
      have hHead := hEvents.symm.trans hTake
      cases hHead
      exact Hub.entry_logoff h' ch' s.hub ch h

/- Nothing else touches the registry. -/
theorem Step.entry_other
    {env : Env}
    {s s' : Sys}
    {a : Act}
    (hStep : Step env s a s')
    (hOther : ∀ now, a ≠ .take now)
    (ch h : UInt64) :
    s'.hub.entry ch h = s.hub.entry ch h := by
  rcases hStep.entry_cases with
    hSame | ⟨now, _, _, _, _, _, _, hTake, _⟩ |
    ⟨now, _, _, _, hTake, _⟩
  · exact hSame ch h
  · exact absurd hTake (hOther now)
  · exact absurd hTake (hOther now)

end Sys

end Mles

------------------------------------------------------------
-- Connections That Will Log Off
------------------------------------------------------------

namespace Mles

namespace Conn

/-
  The sender task is still going to queue this `Logoff`: it
  has loaded the hashes, or it will find them.
-/
def Releases
    (h ch : UInt64)
    (conn : Conn) : Prop :=
  (conn.sender ≠ .done ∧
      (∀ h' ch', conn.sender ≠ .sendLogoff h' ch') ∧
      conn.h = h ∧ conn.ch = ch) ∨
    conn.sender = .sendLogoff h ch

theorem Releases.ne_done
    {h ch : UInt64}
    {conn : Conn}
    (hReleases : conn.Releases h ch) :
    conn.sender ≠ .done := by
  rcases hReleases with hBefore | hAt
  · exact hBefore.1
  · simp [hAt]

/- Steps that leave the hashes and the sender task alone. -/
theorem Releases.congr
    {h ch : UInt64}
    {conn conn' : Conn}
    (hReleases : conn.Releases h ch)
    (hSender : conn'.sender = conn.sender)
    (hHash : conn'.h = conn.h)
    (hChannel : conn'.ch = conn.ch) :
    conn'.Releases h ch := by
  unfold Releases at *
  rw [hSender, hHash, hChannel]
  exact hReleases

/- Steps of the sender task before the final cleanup. -/
theorem Releases.advance
    {h ch : UInt64}
    {conn conn' : Conn}
    (hReleases : conn.Releases h ch)
    (hBefore : ∀ h' ch', conn.sender ≠ .sendLogoff h' ch')
    (hSender : conn'.sender ≠ .done)
    (hBefore' : ∀ h' ch', conn'.sender ≠ .sendLogoff h' ch')
    (hHash : conn'.h = conn.h)
    (hChannel : conn'.ch = conn.ch) :
    conn'.Releases h ch := by
  rcases hReleases with ⟨_, _, hEq⟩ | hAt
  · refine Or.inl ⟨hSender, hBefore', ?_⟩
    rw [hHash, hChannel]
    exact hEq
  · exact absurd hAt (hBefore h ch)

/-
  A connection that has read its header and has not been
  rejected keeps its hashes until the final cleanup.
-/
def KeepsHashes (conn : Conn) : Prop :=
  conn.receiver ≠ .firstFrame ∧
    ¬ (conn.receiver = .awaitInit ∧ conn.errTx = .dropped)

theorem Local.releases
    {env : Env}
    {c : ConnId}
    {h ch : UInt64}
    {conn conn' : Conn}
    {a : Act}
    (hReleases : conn.Releases h ch)
    (hKeeps : conn.KeepsHashes)
    (hLocal : conn.Local env c a conn') :
    conn'.Releases h ch ∨
      ¬ (h ≠ 0 ∧ ch ≠ 0) ∧ conn'.sender = .done := by
  cases hLocal with
  | noFrame r hFail hAt => exact absurd hAt hKeeps.1
  | badFirst msg hAt hHeader => exact absurd hAt hKeeps.1
  | badAuth msg hdr hAt hHeader hAuth =>
      exact absurd hAt hKeeps.1
  | goodFirst msg hdr hAt hHeader hAuth =>
      exact absurd hAt hKeeps.1
  | rejected hAt hErrTx =>
      exact absurd ⟨hAt, hErrTx⟩ hKeeps.2
  | ended item sent hAt hItem hSent =>
      cases hSent with
      | closed hDone => exact absurd hDone hReleases.ne_done
      | queued hAlive hRoom =>
          exact Or.inl (hReleases.congr rfl rfl rfl)
  | taken msg items hAt hQueue hOpen =>
      exact Or.inl (hReleases.advance (by simp [hAt])
        (by simp) (by simp) rfl rfl)
  | drained items hAt hQueue =>
      exact Or.inl (hReleases.advance (by simp [hAt])
        (by simp) (by simp) rfl rfl)
  | written msg hAt =>
      exact Or.inl (hReleases.advance (by simp [hAt])
        (by simp) (by simp) rfl rfl)
  | writeFailed msg hAt =>
      exact Or.inl (hReleases.advance (by simp [hAt])
        (by simp) (by simp) rfl rfl)
  | cleanup ok hAt hNonzero =>
      rcases hReleases with ⟨_, _, hHash, hChannel⟩ | hSend
      · refine Or.inl (Or.inr ?_)
        rw [← hHash, ← hChannel]
      · simp [hAt] at hSend
  | finished ok hAt hZero =>
      rcases hReleases with ⟨_, _, hHash, hChannel⟩ | hSend
      · rw [hHash, hChannel] at hZero
        exact Or.inr ⟨hZero, rfl⟩
      · simp [hAt] at hSend
  | _ => exact Or.inl (hReleases.congr rfl rfl rfl)

/- What one change does to such a connection. -/
theorem Change.releases
    {env : Env}
    {c : ConnId}
    {h ch : UInt64}
    {conn conn' : Conn}
    {a : Act}
    (hReleases : conn.Releases h ch)
    (hKeeps : conn.KeepsHashes)
    (hChange : conn.Change env c a conn') :
    conn'.Releases h ch ∨
      conn'.sender = .done ∧
        ((a = .logoff c ∧ conn.sender = .sendLogoff h ch) ∨
          ¬ (h ≠ 0 ∧ ch ≠ 0)) := by
  cases hChange with
  | own _ _ hLocal =>
      rcases hLocal.releases hReleases hKeeps with
        hStill | ⟨hZero, hDone⟩
      · exact Or.inl hStill
      · exact Or.inr ⟨hDone, Or.inr hZero⟩
  | queueLogoff h' ch' hAt =>
      rcases hReleases with ⟨_, hBefore, _⟩ | hSend
      · exact absurd hAt (hBefore h' ch')
      · exact Or.inr ⟨rfl, Or.inl ⟨rfl, hSend⟩⟩
  | received i now msg conn' hSent =>
      cases hSent with
      | closed hDone => exact absurd hDone hReleases.ne_done
      | queued hAlive hRoom =>
          exact Or.inl (hReleases.congr rfl rfl rfl)
  | _ => exact Or.inl (hReleases.congr rfl rfl rfl)

/- A sender task that has finished stays so. -/
theorem Change.done
    {env : Env}
    {c : ConnId}
    {conn conn' : Conn}
    {a : Act}
    (hDone : conn.sender = .done)
    (hChange : conn.Change env c a conn') :
    conn'.sender = .done := by
  cases hChange with
  | own _ _ hLocal =>
      cases hLocal with
      | ended item sent hAt hItem hSent =>
          cases hSent with
          | closed hDone => exact hDone
          | queued hAlive hRoom => exact absurd hDone hAlive
      | taken msg items hAt hQueue hOpen =>
          simp [hDone] at hAt
      | drained items hAt hQueue => simp [hDone] at hAt
      | written msg hAt => simp [hDone] at hAt
      | writeFailed msg hAt => simp [hDone] at hAt
      | cleanup ok hAt hNonzero => simp [hDone] at hAt
      | finished ok hAt hZero => rfl
      | _ => exact hDone
  | queueLogoff h' ch' hAt => rfl
  | received i now msg conn' hSent =>
      rw [hSent.frame]
      exact hDone
  | _ => exact hDone

/-
  Until the `Init` is queued, a sender task that has not
  finished is going to log the connection off.
-/
structure Prepared
    (env : Env)
    (c : ConnId)
    (first : Option Read)
    (conn : Conn) : Prop where
  traced : conn.Traced env c first
  fresh :
    conn.receiver = .firstFrame →
      ∀ h ch, conn.sender ≠ .sendLogoff h ch
  sendInit :
    ∀ h ch f,
      conn.receiver = .sendInit h ch f →
        conn.sender ≠ .done → conn.Releases h ch

/- No task returns to the first frame. -/
theorem Change.receiver_firstFrame
    {env : Env}
    {c : ConnId}
    {conn conn' : Conn}
    {a : Act}
    (hChange : conn.Change env c a conn')
    (hAt' : conn'.receiver = .firstFrame) :
    conn.receiver = .firstFrame := by
  cases hChange with
  | own _ _ hLocal =>
      cases hLocal with
      | badFirst msg hAt hHeader => exact hAt
      | badAuth msg hdr hAt hHeader hAuth => exact hAt
      | leave r n hAt hReads => simp [leaveLoop] at hAt'
      | _ => first | exact hAt' | cases hAt'
  | received i now msg conn' hSent =>
      rw [hSent.frame] at hAt'
      exact hAt'
  | _ => first | exact hAt' | cases hAt'

/- An `Init` is about to be queued only after its header. -/
theorem Change.receiver_sendInit
    {env : Env}
    {c : ConnId}
    {h ch : UInt64}
    {f : Frame}
    {conn conn' : Conn}
    {a : Act}
    (hChange : conn.Change env c a conn')
    (hAt' : conn'.receiver = .sendInit h ch f) :
    conn.receiver = .sendInit h ch f ∨
      (conn.receiver = .firstFrame ∧ conn'.h = h ∧
        conn'.ch = ch ∧ conn'.sender = conn.sender) := by
  cases hChange with
  | own _ _ hLocal =>
      cases hLocal with
      | badFirst msg hAt hHeader => simp [quit] at hAt'
      | badAuth msg hdr hAt hHeader hAuth =>
          simp [quit] at hAt'
      | goodFirst msg hdr hAt hHeader hAuth =>
          cases hAt'
          exact Or.inr ⟨hAt, rfl, rfl, rfl⟩
      | leave r n hAt hReads => simp [leaveLoop] at hAt'
      | _ => first | exact Or.inl hAt' | cases hAt'
  | received i now msg conn' hSent =>
      rw [hSent.frame] at hAt'
      exact Or.inl hAt'
  | _ => first | exact Or.inl hAt' | cases hAt'

/- The final cleanup loads the shared hashes. -/
theorem Change.sender_sendLogoff
    {env : Env}
    {c : ConnId}
    {h ch : UInt64}
    {conn conn' : Conn}
    {a : Act}
    (hChange : conn.Change env c a conn')
    (hAt' : conn'.sender = .sendLogoff h ch) :
    conn.sender = .sendLogoff h ch ∨
      ∃ ok,
        a = .write c ok ∧ conn.sender = .writeClose ∧
          conn.h ≠ 0 := by
  cases hChange with
  | own _ _ hLocal =>
      cases hLocal with
      | ended item sent hAt hItem hSent =>
          rw [hSent.frame] at hAt'
          exact Or.inl hAt'
      | cleanup ok hAt hNonzero =>
          exact Or.inr ⟨ok, rfl, hAt, hNonzero.1⟩
      | finished ok hAt hZero => simp [finish] at hAt'
      | _ => first | exact Or.inl hAt' | cases hAt'
  | queueLogoff h' ch' hAt => simp [finish] at hAt'
  | received i now msg conn' hSent =>
      rw [hSent.frame] at hAt'
      exact Or.inl hAt'
  | _ => exact Or.inl hAt'

theorem Change.prepared
    {env : Env}
    {c : ConnId}
    {first : Option Read}
    {conn conn' : Conn}
    {a : Act}
    (hPrepared : conn.Prepared env c first)
    (hChange : conn.Change env c a conn') :
    conn'.Prepared env c (first.or (a.readOf c)) where
  traced := hChange.traced hPrepared.traced
  fresh := by
    intro hAt' h ch hSend
    have hAt := hChange.receiver_firstFrame hAt'
    rcases hChange.sender_sendLogoff hSend with
      hOld | ⟨_, _, _, hNonzero⟩
    · exact hPrepared.fresh hAt h ch hOld
    · -- Nothing has been read, so no hash has been stored.
      have hTraced := hPrepared.traced
      rw [hTraced.holds.eq_none hAt] at hTraced
      rcases hTraced.shared with hZero | ⟨hdr, hNone, _⟩
      · exact hNonzero hZero.1
      · cases hNone
  sendInit := by
    intro h ch f hAt' hAlive
    rcases hChange.receiver_sendInit hAt' with
      hAt | ⟨hAt, hHash, hChannel, hSender⟩
    · have hOld : conn.sender ≠ .done :=
        fun hDone => hAlive (hChange.done hDone)
      have hKeeps : conn.KeepsHashes := by
        simp [KeepsHashes, hAt]
      rcases hChange.releases
        (hPrepared.sendInit h ch f hAt hOld) hKeeps with
        hStill | ⟨hDone, _⟩
      · exact hStill
      · exact absurd hDone hAlive
    · refine Or.inl ⟨hAlive, ?_, hHash, hChannel⟩
      rw [hSender]
      exact hPrepared.fresh hAt

end Conn

theorem Sys.prepared_of_run
    {env : Env}
    {acts : List Act}
    {s : Sys}
    (hRun : Sys.run env acts = some s)
    (c : ConnId) :
    (s.conns c).Prepared env c (firstRead c acts) := by
  refine Sys.conn_induction
    (P := fun c first conn => conn.Prepared env c first)
    ?_ ?_ hRun c
  · intro c
    have hNew : Sys.run env [] = some Sys.init := rfl
    exact ⟨Sys.traced_of_run hNew c, by simp, by simp⟩
  · intro c first conn a conn' hPrepared hChange
    exact hChange.prepared hPrepared

end Mles

------------------------------------------------------------
-- No Registration Without a Logoff
------------------------------------------------------------

namespace Mles

namespace Sys

/-
  When a receiver task queues its `Init`, the sender task of
  its connection has not finished.
-/
def InitTimely
    (s : Sys)
    (a : Act) : Prop :=
  ∀ c h ch f,
    a = .resume c →
      (s.conns c).receiver = .sendInit h ch f →
        (s.conns c).sender ≠ .done

/- The same as a test. -/
def initTimely
    (s : Sys) : Act → Bool
| .resume c =>
    match (s.conns c).receiver with
    | .sendInit _ _ _ => (s.conns c).sender != .done
    | _ => true
| _ => true

theorem initTimely_sound
    (s : Sys)
    (a : Act)
    (hTest : s.initTimely a = true) :
    s.InitTimely a := by
  rintro c h ch f rfl hAt
  simpa [initTimely, hAt] using hTest

/- The hashes of the headers in the run are not zero. -/
def NonzeroHashes
    (env : Env)
    (acts : List Act) : Prop :=
  ∀ c hdr,
    env.announced (firstRead c acts) = some hdr →
      env.headerHash hdr ≠ 0 ∧
        env.channelHash hdr.channel ≠ 0

theorem NonzeroHashes.init
    {env : Env}
    {acts : List Act}
    {a : Act}
    (hNonzero : NonzeroHashes env (acts ++ [a])) :
    NonzeroHashes env acts := by
  intro c hdr hHeader
  apply hNonzero c hdr
  rw [firstRead_snoc]
  exact Env.announced_or hHeader _

theorem NonzeroHashes.of_owns
    {env : Env}
    {acts : List Act}
    {c : ConnId}
    {h ch : UInt64}
    (hNonzero : NonzeroHashes env acts)
    (hOwns : env.Owns (firstRead c acts) h ch) :
    h ≠ 0 ∧ ch ≠ 0 := by
  rcases hOwns with ⟨hdr, hHeader, _, rfl, rfl⟩
  exact hNonzero c hdr hHeader

/-
  A `Logoff` of the connection is among these events, or its
  sender task is still going to queue it.
-/
def Pending
    (s : Sys)
    (c : ConnId)
    (h ch : UInt64)
    (events : List (ConnId × TaskEvent)) : Prop :=
  (s.conns c).Releases h ch ∨ (c, .logoff h ch) ∈ events

/-
  Every queued `Init` has its `Logoff` pending behind it,
  and every registration has one pending.
-/
structure Released (s : Sys) : Prop where
  logoffs :
    ∀ c h ch,
      (c, .logoff h ch) ∈ s.events →
        (s.conns c).sender = .done
  queued :
    ∀ before c h ch tx2 errTx f behind,
      s.events =
          before ++ (c, .init h ch tx2 errTx f) :: behind →
        s.Pending c h ch behind
  registered :
    ∀ ch h c,
      s.hub.entry ch h = some c → s.Pending c h ch s.events

/-
  A connection with a queued `Init` or a registration keeps
  its hashes.
-/
theorem keepsHashes_of_waiting
    {conn : Conn}
    (hWaiting : conn.Waiting) :
    conn.KeepsHashes := by
  simp [Conn.KeepsHashes, hWaiting.1, hWaiting.2]

theorem keepsHashes_of_sent
    {env : Env}
    {c : ConnId}
    {first : Option Read}
    {h : UInt64}
    {conn : Conn}
    (hTraced : conn.Traced env c first)
    (hSent : conn.errTx = .sent h) :
    conn.KeepsHashes := by
  refine ⟨?_, by simp [hSent]⟩
  intro hAt
  have hHolds := hTraced.holds
  rw [hHolds.eq_none hAt] at hHolds
  have hErrTx := hHolds.2
  simp [hSent] at hErrTx

/-
  A step keeps a `Logoff` pending, if it keeps the events in
  question and adds the one it queues.
-/
theorem Pending.step
    {env : Env}
    {s s' : Sys}
    {a : Act}
    {c : ConnId}
    {h ch : UInt64}
    {events events' : List (ConnId × TaskEvent)}
    (hPending : s.Pending c h ch events)
    (hChange :
      (s.conns c).Change env c a (s'.conns c))
    (hKeeps : (s.conns c).KeepsHashes)
    (hNonzero : h ≠ 0 ∧ ch ≠ 0)
    (hOld :
      (c, .logoff h ch) ∈ events →
        (c, .logoff h ch) ∈ events')
    (hNew :
      a = .logoff c →
        (s.conns c).sender = .sendLogoff h ch →
          (c, .logoff h ch) ∈ events') :
    s'.Pending c h ch events' := by
  rcases hPending with hReleases | hMem
  · rcases hChange.releases hReleases hKeeps with
      hStill | ⟨_, ⟨hAct, hAt⟩ | hZero⟩
    · exact Or.inl hStill
    · exact Or.inr (hNew hAct hAt)
    · exact absurd hNonzero hZero
  · exact Or.inr (hOld hMem)

section Step

variable {env : Env}
variable {acts : List Act}
variable {s s' : Sys}
variable {a : Act}

/- The facts about the state before a step. -/
variable (hRun : run env acts = some s)
variable (hStep : Step env s a s')
variable (hNonzero : NonzeroHashes env acts)
variable (hReleased : s.Released)

include hRun hStep hNonzero hReleased

/- The `Logoff` of an `Init` that stays queued. -/
theorem Released.queued_step
    {before behind behind' : List (ConnId × TaskEvent)}
    {c tx2 errTx : ConnId}
    {h ch : UInt64}
    {f : Frame}
    (hSplit :
      s.events =
        before ++ (c, .init h ch tx2 errTx f) :: behind)
    (hOld :
      (c, .logoff h ch) ∈ behind →
        (c, .logoff h ch) ∈ behind')
    (hNew :
      a = .logoff c →
        (s.conns c).sender = .sendLogoff h ch →
          (c, .logoff h ch) ∈ behind') :
    s'.Pending c h ch behind' := by
  have hInits := queuedInits_of_run hRun
  have hMem : (c, .init h ch tx2 errTx f) ∈ s.events := by
    rw [hSplit]
    simp
  have hOwns :=
    ((registrations_of_run hRun).queued c h ch tx2 errTx f
      hMem).1
  exact (hReleased.queued _ c h ch tx2 errTx f _ hSplit).step
    (hStep.change hInits c)
    (keepsHashes_of_waiting
      (hInits.waiting c (mem_inits hMem)))
    (hNonzero.of_owns hOwns) hOld hNew

/- The `Logoff` of a registration that stays. -/
theorem Released.registered_step
    {c : ConnId}
    {h ch : UInt64}
    (hEntry : s.hub.entry ch h = some c)
    (hOld :
      (c, .logoff h ch) ∈ s.events →
        (c, .logoff h ch) ∈ s'.events)
    (hNew :
      a = .logoff c →
        (s.conns c).sender = .sendLogoff h ch →
          (c, .logoff h ch) ∈ s'.events) :
    s'.Pending c h ch s'.events := by
  have hRegistered :=
    (registrations_of_run hRun).registered ch h c hEntry
  exact (hReleased.registered ch h c hEntry).step
    (hStep.change (queuedInits_of_run hRun) c)
    (keepsHashes_of_sent (traced_of_run hRun c)
      hRegistered.2)
    (hNonzero.of_owns hRegistered.1) hOld hNew

/- An event is taken. -/
theorem Released.take
    {now : Time}
    {e : ConnId × TaskEvent}
    (hAct : a = .take now)
    (hTake : s.events = e :: s'.events) :
    s'.Released where
  logoffs := by
    intro c h ch hMem
    have hInits := queuedInits_of_run hRun
    apply (hStep.change hInits c).done
    apply hReleased.logoffs c h ch
    rw [hTake]
    exact List.mem_cons_of_mem e hMem
  queued := by
    intro before c h ch tx2 errTx f behind hSplit
    have hOld :
        s.events =
          (e :: before) ++
            (c, .init h ch tx2 errTx f) :: behind := by
      rw [hTake, hSplit]
      rfl
    exact hReleased.queued_step hRun hStep hNonzero hOld
      (fun hMem => hMem) (fun hEq => by simp [hAct] at hEq)
  registered := by
    intro ch h c hEntry
    have hNew :
        a = .logoff c →
          (s.conns c).sender = .sendLogoff h ch →
            (c, .logoff h ch) ∈ s'.events := by
      intro hEq
      simp [hAct] at hEq
    subst hAct
    rw [hStep.entry_take hTake] at hEntry
    -- A registration that was there, unless its `Logoff`
    -- was the event taken.
    have hStays :
        s.hub.entry ch h = some c →
          e ≠ (c, .logoff h ch) →
            s'.Pending c h ch s'.events := by
      intro hOld hNe
      refine hReleased.registered_step hRun hStep hNonzero
        hOld ?_ hNew
      intro hMem
      rw [hTake] at hMem
      rcases List.mem_cons.mp hMem with hHead | hTail
      · exact absurd hHead.symm hNe
      · exact hTail
    rcases e with ⟨d, ⟨h', ch', tx2, errTx, f⟩ |
      ⟨h', ch', f⟩ | ⟨h', ch'⟩⟩
    · rw [heir, heir] at hEntry
      by_cases hPair : ch = ch' ∧ h = h'
      · rcases hPair with ⟨rfl, rfl⟩
        rw [if_pos ⟨rfl, rfl⟩] at hEntry
        cases hOld : s.hub.entry ch h with
        | some c' =>
            rw [hOld] at hEntry
            cases hEntry
            exact hStays hOld (by simp)
        | none =>
            -- The `Init` taken was the one of `c`.
            rw [hOld] at hEntry
            cases hEntry
            have hMem :
                (d, .init h ch tx2 errTx f) ∈ s.events := by
              rw [hTake]
              exact List.mem_cons_self
            have hOwn :=
              ((queuedInits_of_run hRun).own d h ch tx2 errTx
                f hMem).1
            subst hOwn
            have hFront :
                s.events =
                  [] ++ (tx2, .init h ch tx2 errTx f) ::
                    s'.events :=
              hTake
            exact hReleased.queued_step hRun hStep hNonzero
              hFront (fun hMem => hMem) hNew
      · rw [if_neg hPair] at hEntry
        exact hStays hEntry (by simp)
    · exact hStays hEntry (by simp)
    · rw [heir, heir] at hEntry
      by_cases hPair : ch = ch' ∧ h = h'
      · rw [if_pos hPair] at hEntry
        cases hEntry
      · rw [if_neg hPair] at hEntry
        apply hStays hEntry
        intro hEq
        cases hEq
        exact hPair ⟨rfl, rfl⟩

/- The queue keeps its events, and may get a new one. -/
theorem Released.queue
    {new : List (ConnId × TaskEvent)}
    (hOther : ∀ now, a ≠ .take now)
    (hEvents : s'.events = s.events ++ new)
    (hLogoff :
      ∀ c h ch,
        a = .logoff c →
          (s.conns c).sender = .sendLogoff h ch →
            new = [(c, .logoff h ch)])
    (hInit :
      ∀ c h ch tx2 errTx f,
        new = [(c, .init h ch tx2 errTx f)] →
          s'.Pending c h ch [])
    (hShort :
      new = [] ∨ ∃ e, new = [e] ∧
        ∀ c h ch, e = (c, .logoff h ch) →
          (s'.conns c).sender = .done) :
    s'.Released where
  logoffs := by
    intro c h ch hMem
    rw [hEvents, List.mem_append] at hMem
    rcases hMem with hOld | hNew
    · have hInits := queuedInits_of_run hRun
      exact (hStep.change hInits c).done
        (hReleased.logoffs c h ch hOld)
    · rcases hShort with rfl | ⟨e, rfl, hDone⟩
      · cases hNew
      · exact hDone c h ch (List.mem_singleton.mp hNew).symm
  queued := by
    intro before c h ch tx2 errTx f behind hSplit
    rw [hEvents] at hSplit
    have hKept :
        ∀ rest,
          s.events =
              before ++ (c, .init h ch tx2 errTx f) :: rest →
            behind = rest ++ new →
              s'.Pending c h ch behind := by
      intro rest hOld hBehind
      refine hReleased.queued_step hRun hStep hNonzero hOld
        ?_ ?_
      · intro hMem
        rw [hBehind]
        exact List.mem_append_left _ hMem
      · intro hAct hAt
        rw [hBehind, hLogoff c h ch hAct hAt]
        simp
    rcases hShort with rfl | ⟨e, rfl, _⟩
    · rw [List.append_nil] at hSplit
      exact hKept behind hSplit (List.append_nil _).symm
    · rcases Trace.snoc_eq_split hSplit with
        ⟨_, hLast, rfl⟩ | ⟨rest, hBehind, hOld⟩
      · exact hInit c h ch tx2 errTx f (by rw [hLast])
      · exact hKept rest hOld hBehind
  registered := by
    intro ch h c hEntry
    rw [hStep.entry_other hOther] at hEntry
    refine hReleased.registered_step hRun hStep hNonzero
      hEntry ?_ ?_
    · intro hMem
      rw [hEvents]
      exact List.mem_append_left _ hMem
    · intro hAct hAt
      rw [hEvents, hLogoff c h ch hAct hAt]
      simp

/- A timely step. -/
theorem Released.step
    (hTimely : s.InitTimely a) :
    s'.Released := by
  rcases hStep.events_cases with
    ⟨hSame, hOther, hNot⟩ | ⟨now, e, hAct, hTake⟩ |
    ⟨c, h, ch, msg, hAct, hAt, hEvents⟩ |
    ⟨c, h, ch, msg, hAct, hAt, hEvents⟩ |
    ⟨c, h, ch, hAct, hAt, hDone, hEvents⟩
  · refine hReleased.queue hRun hStep hNonzero hOther
      (hSame.trans (List.append_nil _).symm) ?_ ?_
      (Or.inl rfl)
    · exact fun c h ch hAct => absurd hAct (hNot c)
    · intro c h ch tx2 errTx f hEq
      cases hEq
  · exact hReleased.take hRun hStep hNonzero hAct hTake
  · -- The sender task has not finished, so it is going to
    -- log off behind this `Init`.
    have hPrepared := prepared_of_run hRun c
    have hReleases :=
      hPrepared.sendInit h ch msg hAt
        (hTimely c h ch msg hAct hAt)
    have hOwns := (hPrepared.traced.sendInit h ch msg hAt).2.1
    have hPending : s'.Pending c h ch [] := by
      refine Pending.step (Or.inl hReleases)
        (hStep.change (queuedInits_of_run hRun) c)
        (by simp [Conn.KeepsHashes, hAt])
        (hNonzero.of_owns hOwns) (fun hMem => hMem) ?_
      intro hEq
      simp [hAct] at hEq
    refine hReleased.queue hRun hStep hNonzero
      (by simp [hAct]) hEvents (by simp [hAct]) ?_
      (Or.inr ⟨_, rfl, by simp⟩)
    intro c' h' ch' tx2 errTx f hEq
    cases hEq
    exact hPending
  · exact hReleased.queue hRun hStep hNonzero
      (by simp [hAct]) hEvents (by simp [hAct]) (by simp)
      (Or.inr ⟨_, rfl, by simp⟩)
  · refine hReleased.queue hRun hStep hNonzero
      (by simp [hAct]) hEvents ?_ (by simp)
      (Or.inr ⟨_, rfl, ?_⟩)
    · intro c' h' ch' hEq hAt'
      rw [hAct] at hEq
      cases hEq
      rw [hAt] at hAt'
      cases hAt'
      rfl
    · intro c' h' ch' hEq
      cases hEq
      exact hDone

end Step

theorem released_of_run
    {env : Env}
    {acts : List Act}
    {s : Sys}
    (hTimely : Trace.Along (step env) InitTimely init acts)
    (hNonzero : NonzeroHashes env acts)
    (hRun : run env acts = some s) :
    s.Released := by
  refine Trace.run_induction_along
    (P := fun acts s =>
      NonzeroHashes env acts → s.Released)
    ?_ ?_ hTimely hRun hNonzero
  · intro _
    refine ⟨?_, ?_, ?_⟩
    · intro c h ch hMem
      cases hMem
    · intro before c h ch tx2 errTx f behind hSplit
      have hLength := congrArg List.length hSplit
      simp [init] at hLength
    · intro ch h c hEntry
      cases hEntry
  · intro acts s a s' hPrefix ih hTimely hStep hNonzero
    exact (ih hNonzero.init).step hPrefix (step_sound hStep)
      hNonzero.init hTimely

/-
  Every registered queue belongs to a connection whose
  sender task has not finished, or a `Logoff` of it is still
  to be handled.
-/
def NoZombie (s : Sys) : Prop :=
  ∀ ch h c,
    s.hub.entry ch h = some c →
      (s.conns c).sender ≠ .done ∨
        (c, .logoff h ch) ∈ s.events

/-
  In a run in which no receiver task queues an `Init` after
  the sender task of its connection has finished, there is
  no zombie; and with nothing queued, a connection that is
  torn down holds no entry.
-/
theorem noZombie_of_run
    (env : Env)
    (acts : List Act)
    (s : Sys)
    (hTimely : Trace.Along (step env) InitTimely init acts)
    (hNonzero : NonzeroHashes env acts)
    (hRun : run env acts = some s) :
    s.NoZombie ∧
      ∀ c,
        (s.conns c).sender = .done → s.events = [] →
          ∀ ch h, s.hub.entry ch h ≠ some c := by
  have hReleased := released_of_run hTimely hNonzero hRun
  have hNoZombie : s.NoZombie := by
    intro ch h c hEntry
    rcases hReleased.registered ch h c hEntry with
      hReleases | hMem
    · exact Or.inl hReleases.ne_done
    · exact Or.inr hMem
  refine ⟨hNoZombie, ?_⟩
  intro c hDone hEmpty ch h hEntry
  rcases hNoZombie ch h c hEntry with hAlive | hMem
  · exact hAlive hDone
  · rw [hEmpty] at hMem
    cases hMem

/- Runs in which one client sends the sample header. -/
theorem nonzeroHashes_alice
    {acts : List Act}
    (hFirst : firstRead 0 acts = some (.frame alice))
    (hOther : ∀ c, c ≠ 0 → firstRead c acts = none) :
    NonzeroHashes Env.sample acts := by
  intro c hdr hHeader
  by_cases hEq : c = 0
  · subst hEq
    have hAlice :
        Env.sample.announced (some (.frame alice)) =
          some ⟨"alice", "news", none⟩ := by
      decide +kernel
    rw [hFirst, hAlice] at hHeader
    cases hHeader
    decide +kernel
  · rw [hOther c hEq] at hHeader
    cases hHeader

/- A client joins, its socket fails, and it logs off. -/
def joinAndLeave : List Act :=
  [.read 0 (.frame alice), .resume 0, .take 0, .tick 0, .tick 0,
    .ping 0, .next 0, .write 0 false, .write 0 true,
    .logoff 0]

theorem noZombie_joinAndLeave :
    ∃ s,
      run Env.sample joinAndLeave = some s ∧
        s.hub.entry newsHash aliceHash = some 0 ∧
        s.NoZombie := by
  have hTimely :
      Trace.Along (step Env.sample) InitTimely init
        joinAndLeave :=
    Trace.Along.of_check initTimely_sound (by decide +kernel)
  have hNonzero : NonzeroHashes Env.sample joinAndLeave := by
    apply nonzeroHashes_alice rfl
    intro c hNe
    simp [firstRead, joinAndLeave, Act.readOf, Ne.symm hNe]
  have hEntry :
      (run Env.sample joinAndLeave).map
          (fun s => s.hub.entry newsHash aliceHash) =
        some (some 0) := by
    decide +kernel
  rcases Option.map_eq_some_iff.mp hEntry with
    ⟨s, hRun, hOwner⟩
  exact ⟨s, hRun, hOwner,
    (noZombie_of_run _ _ s hTimely hNonzero hRun).1⟩

/-
  The client sends its header after the ping task has given
  it up and the sender task has finished.
-/
def headerAfterTimeout : List Act :=
  [.tick 0,
    .tick 0, .ping 0, .next 0, .write 0 true,
    .tick 0, .ping 0, .next 0, .write 0 true,
    .tick 0, .ping 0, .next 0, .write 0 true,
    .tick 0, .ping 0, .next 0, .write 0 true,
    .read 0 (.frame alice), .resume 0, .take 0]

theorem zombie_after_timeout :
    ¬ ∀ env acts s,
      NonzeroHashes env acts → run env acts = some s →
        s.NoZombie := by
  intro hNever
  have hState :
      (run Env.sample headerAfterTimeout).map
          (fun s => (s.hub.entry newsHash aliceHash,
            (s.conns 0).sender, s.events)) =
        some (some 0, .done, []) := by
    decide +kernel
  rcases Option.map_eq_some_iff.mp hState with
    ⟨s, hRun, hEq⟩
  simp only [Prod.mk.injEq] at hEq
  have hNonzero :
      NonzeroHashes Env.sample headerAfterTimeout := by
    apply nonzeroHashes_alice rfl
    intro c hNe
    simp [firstRead, headerAfterTimeout, Act.readOf,
      Ne.symm hNe]
  rcases hNever _ _ s hNonzero hRun newsHash aliceHash 0
    hEq.1 with hAlive | hMem
  · exact hAlive hEq.2.1
  · rw [hEq.2.2] at hMem
    cases hMem

end Sys

end Mles
