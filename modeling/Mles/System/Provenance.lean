import Mles.System.Handshake

/-
  Where the values inside a connection come from.

  The hashes a connection shares and queues are those of the
  header in its first frame, and a receiver task that is
  still alive after its first frame has had that header
  verified.  So every `Init` in the event queue and every
  registration belongs to a verified header.

  Key definitions include:
    * `Env.announced`
    * `Conn.Traced`
    * `Env.Owns`
    * `Sys.Registrations`

  Key theorems include:
    * `Sys.traced_of_run`
    * `Sys.registrations_of_run`
-/

------------------------------------------------------------
-- The Header of a Connection
------------------------------------------------------------

namespace Mles

namespace Env

/- The header in the first frame of a connection. -/
def announced
    (env : Env) : Option Read → Option MlesHeader
| some (.frame msg) => env.header msg
| some .error => none
| some .ended => none
| none => none

/- The connection joined with these two hashes. -/
def Owns
    (env : Env)
    (first : Option Read)
    (h ch : UInt64) : Prop :=
  ∃ hdr,
    env.announced first = some hdr ∧
      env.verified hdr = true ∧
      h = env.headerHash hdr ∧
      ch = env.channelHash hdr.channel

/- The message an announced header was read from. -/
theorem exists_frame_of_announced
    {env : Env}
    {first : Option Read}
    {hdr : MlesHeader}
    (hHeader : env.announced first = some hdr) :
    ∃ msg,
      first = some (.frame msg) ∧
        env.header msg = some hdr := by
  rcases first with _ | (msg | _ | _)
  · cases hHeader
  · exact ⟨msg, rfl, hHeader⟩
  · cases hHeader
  · cases hHeader

theorem announced_or
    {env : Env}
    {first : Option Read}
    {hdr : MlesHeader}
    (hHeader : env.announced first = some hdr)
    (r : Option Read) :
    env.announced (first.or r) = some hdr := by
  cases first with
  | none => cases hHeader
  | some r' => exact hHeader

/- A connection joins with one pair of hashes. -/
theorem Owns.unique
    {env : Env}
    {first : Option Read}
    {h ch h' ch' : UInt64}
    (hOwns : env.Owns first h ch)
    (hOwns' : env.Owns first h' ch') :
    h = h' ∧ ch = ch' := by
  rcases hOwns with ⟨hdr, hHeader, _, rfl, rfl⟩
  rcases hOwns' with ⟨hdr', hHeader', _, rfl, rfl⟩
  rw [hHeader] at hHeader'
  cases hHeader'
  exact ⟨rfl, rfl⟩

theorem Owns.or
    {env : Env}
    {first : Option Read}
    {h ch : UInt64}
    (hOwns : env.Owns first h ch)
    (r : Option Read) :
    env.Owns (first.or r) h ch := by
  rcases hOwns with ⟨hdr, hHeader, hRest⟩
  exact ⟨hdr, announced_or hHeader r, hRest⟩

end Env

------------------------------------------------------------
-- The Values of a Connection
------------------------------------------------------------

/- The frame is the first one of the connection. -/
def FirstFrameOf
    (first : Option Read)
    (c : ConnId)
    (f : Frame) : Prop :=
  ∃ msg, first = some (.frame msg) ∧ f = .client c 0 msg

/-
  What a connection knows, by the first read of its socket.
  The shared hashes may belong to a header that was not
  verified, since they are stored before the verification.
-/
structure Conn.Traced
    (env : Env)
    (c : ConnId)
    (first : Option Read)
    (conn : Conn) : Prop where
  holds : Conn.Holds first conn
  fresh : conn.receiver = .firstFrame → conn.reads = 0
  counted :
    ∀ msg, first = some (.frame msg) → 0 < conn.reads
  verified :
    ∀ msg,
      first = some (.frame msg) → conn.receiver ≠ .done →
        ∃ hdr,
          env.header msg = some hdr ∧ env.verified hdr = true
  shared :
    conn.h = 0 ∧ conn.ch = 0 ∨
      ∃ hdr,
        env.announced first = some hdr ∧
          conn.h = env.headerHash hdr ∧
          conn.ch = env.channelHash hdr.channel
  sendInit :
    ∀ h ch f,
      conn.receiver = .sendInit h ch f →
        conn.errTx = .receiver ∧ env.Owns first h ch ∧
          FirstFrameOf first c f
  sendMsg :
    ∀ h ch f,
      conn.receiver = .sendMsg h ch f →
        env.Owns first h ch ∧ ∃ n m, f = .client c (n + 1) m

namespace Conn

/- A receiver task in the message loop read a frame first. -/
theorem Holds.exists_frame
    {first : Option Read}
    {conn : Conn}
    (hHolds : Conn.Holds first conn)
    (hFirst : conn.receiver ≠ .firstFrame)
    (hAwait :
      conn.receiver = .awaitInit → conn.errTx ≠ .receiver) :
    ∃ msg, first = some (.frame msg) := by
  rcases first with _ | (msg | _ | _)
  · exact absurd hHolds.1 hFirst
  · exact ⟨msg, rfl⟩
  · exact absurd hHolds.2 (hAwait hHolds.1)
  · exact absurd hHolds.2 (hAwait hHolds.1)

/- Steps of the other tasks. -/
theorem Traced.congr
    {env : Env}
    {c : ConnId}
    {first : Option Read}
    {conn conn' : Conn}
    (hTraced : conn.Traced env c first)
    (hReceiver : conn'.receiver = conn.receiver)
    (hErrTx : conn'.errTx = conn.errTx)
    (hReads : conn'.reads = conn.reads)
    (hHash : conn'.h = conn.h)
    (hChannel : conn'.ch = conn.ch) :
    conn'.Traced env c first where
  holds := hTraced.holds.congr hReceiver hErrTx
  fresh := by
    rw [hReceiver, hReads]
    exact hTraced.fresh
  counted := by
    rw [hReads]
    exact hTraced.counted
  verified := by
    rw [hReceiver]
    exact hTraced.verified
  shared := by
    rw [hHash, hChannel]
    exact hTraced.shared
  sendInit := by
    rw [hReceiver, hErrTx]
    exact hTraced.sendInit
  sendMsg := by
    rw [hReceiver]
    exact hTraced.sendMsg

/-
  A step to an await of the receiver task at which it queues
  nothing.
-/
theorem Traced.move
    {env : Env}
    {c : ConnId}
    {first : Option Read}
    {conn conn' : Conn}
    (hTraced : conn.Traced env c first)
    (hHolds : Conn.Holds first conn')
    (hAlive : conn.receiver ≠ .done)
    (hFirst : conn'.receiver ≠ .firstFrame)
    (hInit : ∀ h ch f, conn'.receiver ≠ .sendInit h ch f)
    (hMsg : ∀ h ch f, conn'.receiver ≠ .sendMsg h ch f)
    (hReads : conn.reads ≤ conn'.reads)
    (hShared :
      conn'.h = conn.h ∧ conn'.ch = conn.ch ∨
        conn'.h = 0 ∧ conn'.ch = 0) :
    conn'.Traced env c first where
  holds := hHolds
  fresh := fun hAt => absurd hAt hFirst
  counted := fun msg hEq =>
    Nat.lt_of_lt_of_le (hTraced.counted msg hEq) hReads
  verified := fun msg hEq _ =>
    hTraced.verified msg hEq hAlive
  shared := by
    rcases hShared with ⟨hHash, hChannel⟩ | hZero
    · rw [hHash, hChannel]
      exact hTraced.shared
    · exact Or.inl hZero
  sendInit := fun h ch f hAt => absurd hAt (hInit h ch f)
  sendMsg := fun h ch f hAt => absurd hAt (hMsg h ch f)

/- The first frame, of a connection that has read nothing. -/
theorem Traced.first
    {env : Env}
    {c : ConnId}
    {first : Option Read}
    {conn : Conn}
    (hTraced : conn.Traced env c first)
    (hAt : conn.receiver = .firstFrame)
    (msg : Message) :
    conn.reads = 0 ∧
      first.or (Act.readOf c (.read c (.frame msg))) =
        some (.frame msg) := by
  refine ⟨hTraced.fresh hAt, ?_⟩
  rw [hTraced.holds.eq_none hAt]
  simp [Act.readOf]

theorem Local.traced
    {env : Env}
    {c : ConnId}
    {first : Option Read}
    {conn conn' : Conn}
    {a : Act}
    (hTraced : conn.Traced env c first)
    (hLocal : conn.Local env c a conn') :
    conn'.Traced env c (first.or (a.readOf c)) := by
  have hHolds := hLocal.holds hTraced.holds
  cases hLocal with
  | noFrame r hFail hAt =>
      have hNone := hTraced.holds.eq_none hAt
      subst hNone
      have hNot :
          ∀ msg, (none : Option Read).or
            (Act.readOf c (.read c r)) ≠
              some (.frame msg) := by
        intro msg hEq
        simp only [Act.readOf, if_true, Option.none_or,
          Option.some.injEq] at hEq
        exact hFail msg hEq
      refine ⟨hHolds, by simp, ?_, ?_, ?_, by simp, by simp⟩
      · exact fun msg hEq => absurd hEq (hNot msg)
      · exact fun msg hEq => absurd hEq (hNot msg)
      · rcases hTraced.shared with hZero | ⟨hdr, hHeader, _⟩
        · exact Or.inl hZero
        · cases hHeader
  | badFirst msg hAt hHeader =>
      rcases hTraced.first hAt msg with ⟨hReads, hEq⟩
      have hNone := hTraced.holds.eq_none hAt
      subst hNone
      refine ⟨hHolds, by simp [quit], by simp [quit],
        by simp [quit], ?_, by simp [quit], by simp [quit]⟩
      rcases hTraced.shared with hZero | ⟨hdr, hOld, _⟩
      · exact Or.inl hZero
      · cases hOld
  | badAuth msg hdr hAt hHeader hAuth =>
      rcases hTraced.first hAt msg with ⟨hReads, hEq⟩
      rw [hEq] at hHolds ⊢
      exact ⟨hHolds, by simp [quit], by simp [quit],
        by simp [quit],
        Or.inr ⟨hdr, hHeader, rfl, rfl⟩,
        by simp [quit], by simp [quit]⟩
  | goodFirst msg hdr hAt hHeader hAuth =>
      rcases hTraced.first hAt msg with ⟨hReads, hEq⟩
      have hErrTx : conn.errTx = .receiver := by
        have hOld := hTraced.holds
        rw [hOld.eq_none hAt] at hOld
        exact hOld.2
      rw [hEq] at hHolds ⊢
      refine ⟨hHolds, by simp, by simp, ?_,
        Or.inr ⟨hdr, hHeader, rfl, rfl⟩, ?_, by simp⟩
      · intro msg' hSame _
        cases hSame
        exact ⟨hdr, hHeader, hAuth⟩
      · intro h ch f hInit
        cases hInit
        exact ⟨hErrTx, ⟨hdr, hHeader, hAuth, rfl, rfl⟩, msg,
          rfl, by rw [hReads]⟩
  | leave r n hAt hReads =>
      rw [hTraced.holds.or_eq (by simp [hAt])] at hHolds ⊢
      exact hTraced.move hHolds (by simp [hAt])
        (by simp [leaveLoop]) (by simp [leaveLoop])
        (by simp [leaveLoop]) hReads (Or.inl ⟨rfl, rfl⟩)
  | pong msg hAt =>
      rw [hTraced.holds.or_eq (by simp [hAt])] at hHolds ⊢
      exact hTraced.move hHolds (by simp [hAt])
        (by simp [hAt]) (by simp [hAt]) (by simp [hAt])
        (Nat.le_succ _) (Or.inl ⟨rfl, rfl⟩)
  | message msg hAt hOpen hNonzero hData =>
      rw [hTraced.holds.or_eq (by simp [hAt])] at hHolds ⊢
      rcases hTraced.holds.exists_frame (by simp [hAt])
        (by simp [hAt]) with ⟨text, hFirst⟩
      have hPositive := hTraced.counted text hFirst
      rcases hTraced.verified text hFirst (by simp [hAt])
        with ⟨hdr, hHeader, hAuth⟩
      have hAnnounced : env.announced first = some hdr := by
        rw [hFirst]
        exact hHeader
      refine ⟨hHolds, by simp, by simp, ?_, hTraced.shared,
        by simp, ?_⟩
      · exact fun text' hEq _ =>
          hTraced.verified text' hEq (by simp [hAt])
      · intro h ch f hMsg
        cases hMsg
        refine ⟨?_, conn.reads - 1, msg, ?_⟩
        · rcases hTraced.shared with hZero | ⟨hdr', hEq, hRest⟩
          · exact absurd hZero.1 hNonzero
          · rw [hAnnounced] at hEq
            cases hEq
            exact ⟨hdr, hAnnounced, hAuth, hRest⟩
        · rw [Nat.sub_add_cancel hPositive]
  | confirmed h hAt hErrTx =>
      rw [hTraced.holds.or_eq (by simp [hAt])] at hHolds ⊢
      exact hTraced.move hHolds (by simp [hAt]) (by simp)
        (by simp) (by simp) (Nat.le_refl _)
        (Or.inl ⟨rfl, rfl⟩)
  | rejected hAt hErrTx =>
      rw [hTraced.holds.or_eq (by simp [hAt])] at hHolds ⊢
      exact hTraced.move hHolds (by simp [hAt]) (by simp)
        (by simp) (by simp) (Nat.le_refl _)
        (Or.inr ⟨rfl, rfl⟩)
  | ended item sent hAt hItem hSent =>
      simp only [Act.readOf, Option.or_none] at hHolds ⊢
      have hAlive : conn.receiver ≠ .done := by
        rcases hAt with hAt | hAt
        · simp [hAt]
        · simp [hAt]
      cases hSent with
      | closed hDone =>
          exact hTraced.move hHolds hAlive (by simp)
            (by simp) (by simp) (Nat.le_refl _)
            (Or.inl ⟨rfl, rfl⟩)
      | queued hOpen hRoom =>
          exact hTraced.move hHolds hAlive (by simp)
            (by simp) (by simp) (Nat.le_refl _)
            (Or.inl ⟨rfl, rfl⟩)
  | pinged _ items n closed pinger hAct hItems hRoom hClosed =>
      rcases hAct with rfl | rfl
      · simp only [Act.readOf, Option.or_none]
        exact hTraced.congr rfl rfl rfl rfl rfl
      · simp only [Act.readOf, Option.or_none]
        exact hTraced.congr rfl rfl rfl rfl rfl
  | _ =>
      simp only [Act.readOf, Option.or_none]
      exact hTraced.congr rfl rfl rfl rfl rfl

/- One change keeps the values traced. -/
theorem Change.traced
    {env : Env}
    {c : ConnId}
    {first : Option Read}
    {conn conn' : Conn}
    {a : Act}
    (hTraced : conn.Traced env c first)
    (hChange : conn.Change env c a conn') :
    conn'.Traced env c (first.or (a.readOf c)) := by
  have hHolds := hChange.holds hTraced.holds
  cases hChange with
  | own _ _ hLocal => exact hLocal.traced hTraced
  | queueInit h ch msg hAt =>
      simp only [Act.readOf, Option.or_none] at hHolds ⊢
      exact hTraced.move hHolds (by simp [hAt]) (by simp)
        (by simp) (by simp) (Nat.le_refl _)
        (Or.inl ⟨rfl, rfl⟩)
  | queueMsg h ch msg hAt =>
      simp only [Act.readOf, Option.or_none] at hHolds ⊢
      exact hTraced.move hHolds (by simp [hAt]) (by simp)
        (by simp) (by simp) (Nat.le_refl _)
        (Or.inl ⟨rfl, rfl⟩)
  | queueLogoff h ch hAt =>
      simp only [Act.readOf, Option.or_none] at hHolds ⊢
      exact
        { hTraced with
          holds := hHolds
          shared := Or.inl ⟨rfl, rfl⟩ }
  | answered now errTx hWaiting hAnswer =>
      simp only [Act.readOf, Option.or_none] at hHolds ⊢
      refine { hTraced with holds := hHolds, sendInit := ?_ }
      intro h ch f hAt
      simp [hWaiting.1] at hAt
  | received i now msg conn' hSent =>
      simp only [Act.readOf, Option.or_none]
      cases hSent with
      | closed hDone => exact hTraced
      | queued hAlive hRoom =>
          exact hTraced.congr rfl rfl rfl rfl rfl
  | other a hOther =>
      rw [hOther, Option.or_none]
      exact hTraced

/- The answer to an `Init` is final. -/
theorem Change.errTx_eq
    {env : Env}
    {c : ConnId}
    {first : Option Read}
    {conn conn' : Conn}
    {a : Act}
    (hTraced : conn.Traced env c first)
    (hMoved : conn.errTx ≠ .receiver)
    (hAnswered : conn.errTx ≠ .event)
    (hChange : conn.Change env c a conn') :
    conn'.errTx = conn.errTx := by
  have hRead : conn.receiver ≠ .firstFrame := by
    intro hAt
    have hHolds := hTraced.holds
    rw [hHolds.eq_none hAt] at hHolds
    exact hMoved hHolds.2
  cases hChange with
  | own _ _ hLocal =>
      cases hLocal with
      | badFirst msg hAt hHeader => exact absurd hAt hRead
      | badAuth msg hdr hAt hHeader hAuth =>
          exact absurd hAt hRead
      | ended item sent hAt hItem hQueue =>
          rw [hQueue.frame]
      | _ => rfl
  | queueInit h' ch' msg hAt =>
      exact absurd (hTraced.sendInit h' ch' msg hAt).1 hMoved
  | answered now errTx hWaiting hAnswer =>
      exact absurd hWaiting.2 hAnswered
  | received i now msg conn' hQueue =>
      rw [hQueue.frame]
  | _ => rfl

theorem Change.sent
    {env : Env}
    {c : ConnId}
    {first : Option Read}
    {h : UInt64}
    {conn conn' : Conn}
    {a : Act}
    (hTraced : conn.Traced env c first)
    (hSent : conn.errTx = .sent h)
    (hChange : conn.Change env c a conn') :
    conn'.errTx = .sent h := by
  rw [hChange.errTx_eq hTraced (by simp [hSent])
    (by simp [hSent])]
  exact hSent

end Conn

theorem Sys.traced_of_run
    {env : Env}
    {acts : List Act}
    {s : Sys}
    (hRun : Sys.run env acts = some s)
    (c : ConnId) :
    (s.conns c).Traced env c (firstRead c acts) := by
  refine Sys.conn_induction
    (P := fun c first conn => conn.Traced env c first)
    ?_ ?_ hRun c
  · intro c
    exact ⟨⟨rfl, rfl⟩, fun _ => rfl, by simp, by simp,
      Or.inl ⟨rfl, rfl⟩, by simp, by simp⟩
  · intro c first conn a conn' hTraced hChange
    exact hChange.traced hTraced

end Mles

------------------------------------------------------------
-- Registrations
------------------------------------------------------------

namespace Mles

namespace Sys

/-
  Every queued `Init` and every registration belongs to the
  verified header of its connection, and a registration has
  been confirmed to it.
-/
structure Registrations
    (env : Env)
    (acts : List Act)
    (s : Sys) : Prop where
  queued :
    ∀ c h ch tx2 errTx f,
      (c, .init h ch tx2 errTx f) ∈ s.events →
        env.Owns (firstRead c acts) h ch ∧
          FirstFrameOf (firstRead c acts) c f
  registered :
    ∀ ch h c,
      s.hub.entry ch h = some c →
        env.Owns (firstRead c acts) h ch ∧
          (s.conns c).errTx = .sent h

theorem Registrations.step
    {env : Env}
    {acts : List Act}
    {s s' : Sys}
    {a : Act}
    (hReg : Registrations env acts s)
    (hInits : s.QueuedInits)
    (hTraced :
      ∀ c, (s.conns c).Traced env c (firstRead c acts))
    (hStep : Step env s a s') :
    Registrations env (acts ++ [a]) s' where
  queued := by
    intro c h ch tx2 errTx f hMem
    rw [firstRead_snoc]
    have hOld :
        env.Owns (firstRead c acts) h ch ∧
          FirstFrameOf (firstRead c acts) c f := by
      rcases hStep.mem_events hMem with
        hMem | ⟨d, h', ch', msg, _, hAt, hEq⟩ |
        ⟨d, h', ch', msg, _, hAt, hEq⟩ |
        ⟨d, h', ch', _, hAt, hEq⟩
      · exact hReg.queued c h ch tx2 errTx f hMem
      · cases hEq
        exact ((hTraced c).sendInit h ch f hAt).2
      · cases hEq
      · cases hEq
    rcases hOld with ⟨hOwns, msg, hFirst, hFrame⟩
    refine ⟨hOwns.or _, msg, ?_, hFrame⟩
    rw [hFirst]
    rfl
  registered := by
    intro ch h c hEntry
    rw [firstRead_snoc]
    have hOld :
        s.hub.entry ch h = some c →
          env.Owns ((firstRead c acts).or (a.readOf c)) h ch ∧
            (s'.conns c).errTx = .sent h := by
      intro hEntry
      have hRegistered := hReg.registered ch h c hEntry
      exact ⟨hRegistered.1.or _,
        (hStep.change hInits c).sent (hTraced c)
          hRegistered.2⟩
    rcases hStep.entry_cases with
      hSame | ⟨now, d, h', ch', tx2, errTx, msg, _, hEvents,
        _, hSent, hNew⟩ |
      ⟨now, d, h', ch', _, hEvents, hGone⟩
    · rw [hSame] at hEntry
      exact hOld hEntry
    · rw [hNew] at hEntry
      by_cases hPair : ch = ch' ∧ h = h'
      · rw [if_pos hPair] at hEntry
        rcases hPair with ⟨rfl, rfl⟩
        cases hEntry
        have hMem :
            (d, .init h ch c errTx msg) ∈ s.events := by
          rw [hEvents]
          exact List.mem_cons_self
        rcases hInits.own d h ch c errTx msg hMem with
          ⟨rfl, rfl⟩
        have hQueued := hReg.queued _ h ch _ _ msg hMem
        exact ⟨hQueued.1.or _, hSent⟩
      · rw [if_neg hPair] at hEntry
        exact hOld hEntry
    · rw [hGone] at hEntry
      by_cases hPair : ch = ch' ∧ h = h'
      · rw [if_pos hPair] at hEntry
        cases hEntry
      · rw [if_neg hPair] at hEntry
        exact hOld hEntry

theorem registrations_of_run
    {env : Env}
    {acts : List Act}
    {s : Sys}
    (hRun : run env acts = some s) :
    Registrations env acts s := by
  refine Trace.run_induction
    (P := fun acts s => Registrations env acts s) ?_ ?_ hRun
  · refine ⟨?_, ?_⟩
    · intro c h ch tx2 errTx f hMem
      cases hMem
    · intro ch h c hEntry
      cases hEntry
  · intro acts s a s' hPrefix hReg hStep
    exact hReg.step (queuedInits_of_run hPrefix)
      (traced_of_run hPrefix) (step_sound hStep)

end Sys

end Mles
