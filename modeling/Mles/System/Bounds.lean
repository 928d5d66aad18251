import Mles.System.Ordering
import Mles.System.Progress

/-
  The server never holds more than its bounds.

  Every queue of the server has a bound: the event queue, the
  queue of each connection, the history of each channel, and
  the part of a history that is being replayed.  A send waits
  for room, and a history drops its oldest message.  The
  count of unanswered pings has one as well, since the ping
  task leaves its loop before a fifth ping, so that the count
  never wraps around.

  Key definitions include:
    * `Conn.Counted`
    * `Sys.Bounded`

  Key theorems include:
    * `Sys.counted_of_run`
    * `Sys.bounded_of_run`
-/

------------------------------------------------------------
-- Counting Pings
------------------------------------------------------------

namespace Mles

namespace Conn

/-
  At most three pings are counted while the ping task is in
  its loop, and the one that makes it leave.
-/
structure Counted (conn : Conn) : Prop where
  most : conn.pingCntr ≤ 4
  loop :
    conn.pinger ≠ .sendNone → conn.pinger ≠ .done →
      conn.pingCntr ≤ 3

/- A step that leaves the pings alone, or takes them back. -/
theorem Counted.congr
    {conn conn' : Conn}
    (hCounted : conn.Counted)
    (hPinger : conn'.pinger = conn.pinger)
    (hCount : conn'.pingCntr = conn.pingCntr ∨
      conn'.pingCntr = 0) :
    conn'.Counted := by
  rcases hCount with hSame | hZero
  · refine ⟨hSame ▸ hCounted.most, ?_⟩
    rw [hPinger, hSame]
    exact hCounted.loop
  · refine ⟨?_, fun _ _ => ?_⟩
    · rw [hZero]
      decide
    · rw [hZero]
      decide

/- The test of the loop changes no count. -/
theorem Counted.pingLoop
    {conn : Conn}
    (hCount : conn.pingCntr ≤ 3) :
    conn.pingLoop.Counted :=
  ⟨UInt64.le_trans hCount (by decide), fun _ _ => hCount⟩

theorem Counted.tick
    {conn conn' : Conn}
    (hCounted : conn.Counted)
    (hTick : conn.tick = some conn') :
    conn'.Counted := by
  cases hAt : conn.pinger with
  | firstTick =>
      simp only [Conn.tick, hAt] at hTick
      cases hTick
      exact Counted.pingLoop (hCounted.loop (by simp [hAt])
        (by simp [hAt]))
  | tick =>
      simp only [Conn.tick, hAt] at hTick
      cases hTick
      exact ⟨hCounted.most, fun _ _ =>
        hCounted.loop (by simp [hAt]) (by simp [hAt])⟩
  | _ => simp [Conn.tick, hAt] at hTick

theorem Counted.sent
    {item : WsItem}
    {conn conn' : Conn}
    (hCounted : conn.Counted)
    (hSent : Sent item conn conn') :
    conn'.Counted := by
  rw [hSent.frame]
  exact hCounted.congr rfl (Or.inl rfl)

/- A count this small does not wrap around. -/
theorem add_one_le
    {n m : UInt64}
    (hSmall : m < 4)
    (hLe : n ≤ m) :
    n + 1 ≤ m + 1 := by
  rw [UInt64.le_iff_toNat_le] at hLe ⊢
  rw [UInt64.lt_iff_toNat_lt] at hSmall
  rw [UInt64.toNat_add, UInt64.toNat_add]
  simp only [UInt64.reduceToNat] at hSmall ⊢
  omega

/- The fourth ping is the last one. -/
theorem Counted.ping
    {conn conn' : Conn}
    (hCounted : conn.Counted)
    (hPing : conn.ping = some conn') :
    conn'.Counted := by
  cases hAt : conn.pinger with
  | sendPing =>
      have hLoop := hCounted.loop (by simp [hAt])
        (by simp [hAt])
      simp only [Conn.ping, hAt] at hPing
      cases hSend :
          conn.send (some (.ok (.server (.ping [])))) with
      | none => simp [hSend] at hPing
      | some r =>
          rcases r with ⟨ok, sent⟩
          have hFrame := (send_sound hSend).frame
          have hCount : sent.pingCntr ≤ 3 := by
            rw [hFrame]
            exact hLoop
          cases ok with
          | false =>
              simp only [hSend] at hPing
              cases hPing
              exact ⟨UInt64.le_trans hCount (by decide),
                by simp⟩
          | true =>
              simp only [hSend] at hPing
              by_cases hMany : sent.pingCntr > 2
              · rw [if_pos hMany] at hPing
                cases hPing
                exact ⟨add_one_le (by decide) hCount, by simp⟩
              · rw [if_neg hMany] at hPing
                cases hPing
                exact Counted.pingLoop (add_one_le (by decide)
                  (UInt64.not_lt.mp hMany))
  | sendNone =>
      simp only [Conn.ping, hAt] at hPing
      rcases Option.map_eq_some_iff.mp hPing with
        ⟨r, hSend, rfl⟩
      have hSent := @send_sound _ _ r.2 r.1 hSend
      exact ⟨(hCounted.sent hSent).most, by simp⟩
  | _ => simp [Conn.ping, hAt] at hPing

/- The other tasks take the pings back, at most. -/
theorem Local.counted
    {env : Env}
    {c : ConnId}
    {conn conn' : Conn}
    {a : Act}
    (hCounted : conn.Counted)
    (hLocal : conn.Local env c a conn')
    (hTick : a ≠ .tick c)
    (hPing : a ≠ .ping c) :
    conn'.Counted := by
  cases hLocal with
  | pinged _ items n closed pinger hAct =>
      rcases hAct with rfl | rfl
      · exact absurd rfl hTick
      · exact absurd rfl hPing
  | pong msg hAt => exact hCounted.congr rfl (Or.inr rfl)
  | message msg hAt hOpen hNonzero hData =>
      exact hCounted.congr rfl (Or.inr rfl)
  | ended item sent hAt hItem hSent =>
      exact (hCounted.sent hSent).congr rfl (Or.inl rfl)
  | _ => exact hCounted.congr rfl (Or.inl rfl)

theorem Change.counted
    {env : Env}
    {c : ConnId}
    {conn conn' : Conn}
    {a : Act}
    (hCounted : conn.Counted)
    (hChange : conn.Change env c a conn')
    (hTick : a ≠ .tick c)
    (hPing : a ≠ .ping c) :
    conn'.Counted := by
  cases hChange with
  | own _ _ hLocal =>
      exact hLocal.counted hCounted hTick hPing
  | received i now msg _ hSent => exact hCounted.sent hSent
  | _ => exact hCounted.congr rfl (Or.inl rfl)

end Conn

namespace Sys

theorem counted_of_run
    {env : Env}
    {acts : List Act}
    {s : Sys}
    (hRun : run env acts = some s)
    (c : ConnId) :
    (s.conns c).Counted := by
  refine Trace.run_induction
    (P := fun _ s => (s.conns c).Counted) ?_ ?_ hRun
  · have hZero : (init.conns c).pingCntr = 0 := rfl
    refine ⟨?_, fun _ _ => ?_⟩
    · rw [hZero]
      decide
    · rw [hZero]
      decide
  · intro acts s a s' hPrefix ih hStep
    by_cases hTick : a = .tick c
    · subst hTick
      rcases Option.map_eq_some_iff.mp hStep with
        ⟨conn', hNext, rfl⟩
      rw [setConn_conns, if_pos rfl]
      exact ih.tick hNext
    · by_cases hPing : a = .ping c
      · subst hPing
        rcases Option.map_eq_some_iff.mp hStep with
          ⟨conn', hNext, rfl⟩
        rw [setConn_conns, if_pos rfl]
        exact ih.ping hNext
      · exact ((step_sound hStep).change
          (queuedInits_of_run hPrefix) c).counted ih hTick
            hPing

end Sys

end Mles

------------------------------------------------------------
-- Histories
------------------------------------------------------------

namespace Mles

namespace Hub

variable {T M : Type}

/- Every history keeps to its bound. -/
def Within
    (n : Nat)
    (hub : Hub T M) : Prop :=
  ∀ ch, (hub.stored ch).length ≤ n

theorem Within.of_msgDb
    {n : Nat}
    {hub hub' : Hub T M}
    (hWithin : hub.Within n)
    (hSame : hub'.msgDb = hub.msgDb) :
    hub'.Within n := by
  intro ch
  unfold stored
  rw [hSame]
  exact hWithin ch

/- The oldest message leaves a history that is full. -/
theorem Within.record
    {limit : UInt32}
    {hub : Hub T M}
    (hWithin : hub.Within limit.toNat)
    (hLimit : 0 < limit.toNat)
    (ch : UInt64)
    (msg : M)
    (now : Time) :
    (hub.record limit ch msg now).Within limit.toNat := by
  intro ch'
  have hOld := hWithin ch'
  unfold stored at hOld ⊢
  rw [lookup_msgDb_record]
  by_cases hEq : ch' = ch
  · subst hEq
    rw [if_pos rfl]
    cases hLookup : hub.msgDb.lookup ch' with
    | none => simp
    | some info =>
        rw [hLookup] at hOld
        simp only [Option.map_some, Option.getD_some] at hOld ⊢
        unfold addMessage
        by_cases hFull : info.messages.length = limit.toNat
        · simp only [if_pos hFull, List.length_append,
            List.length_tail, List.length_singleton]
          omega
        · simp only [if_neg hFull, List.length_append,
            List.length_singleton]
          omega
  · rw [if_neg hEq]
    exact hOld

theorem Within.register
    {n : Nat}
    {hub : Hub T M}
    (hWithin : hub.Within n)
    (h ch : UInt64)
    (tx2 : T)
    (now : Time) :
    (hub.register h ch tx2 now).1.Within n := by
  intro ch'
  rw [stored_register]
  exact hWithin ch'

theorem Within.cleanup
    {n : Nat}
    {hub : Hub T M}
    (hWithin : hub.Within n)
    (now : Time) :
    (hub.cleanup now).Within n := by
  intro ch
  have hOld := hWithin ch
  unfold stored at hOld ⊢
  rw [lookup_msgDb_cleanup]
  cases hLookup : hub.msgDb.lookup ch with
  | none => simp
  | some info =>
      rw [hLookup] at hOld
      by_cases hExpired : expired now info = true
      · simp [Option.filter, hExpired]
      · simpa [Option.filter, hExpired] using hOld

end Hub

end Mles

------------------------------------------------------------
-- The Whole Server
------------------------------------------------------------

namespace Mles

/- The messages of a history that are still to be replayed. -/
def HubTask.replaying : HubTask → List Frame
| .replay _ _ queued _ => queued
| .fanout _ _ _ => []
| .idle => []

namespace Sys

/- What the server holds keeps to the bounds. -/
structure Bounded
    (env : Env)
    (s : Sys) : Prop where
  events : s.events.length ≤ taskBuf
  queues : ∀ c, (s.conns c).rx2.length ≤ wsBuf
  pings : ∀ c, (s.conns c).pingCntr ≤ 4
  histories : s.hub.Within env.limit.toNat
  replay : s.task.replaying.length ≤ env.limit.toNat

/- Storing the message of a turn keeps to the bound. -/
theorem within_settle
    {env : Env}
    {s : Sys}
    (hLimit : 0 < env.limit.toNat)
    (hWithin : s.hub.Within env.limit.toNat)
    (hReplay : s.task.replaying.length ≤ env.limit.toNat)
    (now : Time) :
    (settle env now s).hub.Within env.limit.toNat ∧
      (settle env now s).task.replaying.length ≤
        env.limit.toNat := by
  rcases settle_cases env now s with
    hEq | ⟨ch, msg, _, hEq⟩
  · rw [hEq]
    exact ⟨hWithin, hReplay⟩
  · rw [hEq]
    exact ⟨hWithin.record hLimit ch msg now, Nat.zero_le _⟩

/- A step keeps the histories, and a replay, to the bound. -/
theorem Step.within
    {env : Env}
    {s s' : Sys}
    {a : Act}
    (hLimit : 0 < env.limit.toNat)
    (hWithin : s.hub.Within env.limit.toNat)
    (hReplay : s.task.replaying.length ≤ env.limit.toNat)
    (hStep : Step env s a s') :
    s'.hub.Within env.limit.toNat ∧
      s'.task.replaying.length ≤ env.limit.toNat := by
  cases hStep with
  | cleanup now hIdle => exact ⟨hWithin.cleanup now, hReplay⟩
  | accept now c h ch tx2 errTx msg events hIdle hEvents
      hVacant =>
      apply within_settle hLimit
      · exact hWithin.register h ch tx2 now
      · exact hWithin ch
  | takeMsg now c h ch msg events txs hIdle hEvents
      hTargets =>
      apply within_settle hLimit
      · exact hWithin
      · exact Nat.zero_le _
  | takeLogoff now c h ch events hIdle hEvents =>
      exact ⟨hWithin.of_msgDb (Hub.msgDb_logoff h ch s.hub),
        hReplay⟩
  | replay i now ch tx2 qmsg queued msg conn' hTask hSent =>
      rw [hTask] at hReplay
      apply within_settle hLimit
      · exact hWithin
      · exact Nat.le_of_succ_le hReplay
  | deliver i now ch txs tx msg conn' hTask hTx hSent =>
      apply within_settle hLimit
      · exact hWithin
      · exact Nat.zero_le _
  | _ => exact ⟨hWithin, hReplay⟩

/- An event is queued only if there is room for it. -/
theorem Step.events_bounded
    {env : Env}
    {s s' : Sys}
    {a : Act}
    (hBound : s.events.length ≤ taskBuf)
    (hStep : Step env s a s') :
    s'.events.length ≤ taskBuf := by
  cases hStep with
  | queueInit c h ch msg hAt hRoom =>
      rw [List.length_append]
      exact hRoom
  | queueMsg c h ch msg hAt hRoom =>
      rw [List.length_append]
      exact hRoom
  | queueLogoff c h ch hAt hRoom =>
      rw [List.length_append]
      exact hRoom
  | accept now c h ch tx2 errTx msg events hIdle hEvents
      hVacant =>
      rw [settle_events]
      rw [hEvents] at hBound
      exact Nat.le_of_succ_le hBound
  | reject now c h ch tx2 errTx tx msg events hIdle hEvents
      hTaken =>
      rw [hEvents] at hBound
      exact Nat.le_of_succ_le hBound
  | takeMsg now c h ch msg events txs hIdle hEvents
      hTargets =>
      rw [settle_events]
      rw [hEvents] at hBound
      exact Nat.le_of_succ_le hBound
  | dropMsg now c h ch msg events hIdle hEvents hTargets =>
      rw [hEvents] at hBound
      exact Nat.le_of_succ_le hBound
  | takeLogoff now c h ch events hIdle hEvents =>
      rw [hEvents] at hBound
      exact Nat.le_of_succ_le hBound
  | replay i now ch tx2 qmsg queued msg conn' hTask hSent =>
      rw [settle_events]
      exact hBound
  | deliver i now ch txs tx msg conn' hTask hTx hSent =>
      rw [settle_events]
      exact hBound
  | _ => exact hBound

/-
  In every state of every run, with a history limit of at
  least one message, nothing the server holds exceeds its
  bound.
-/
theorem bounded_of_run
    {env : Env}
    {acts : List Act}
    {s : Sys}
    (hLimit : 0 < env.limit.toNat)
    (hRun : run env acts = some s) :
    s.Bounded env := by
  have hHub :
      s.events.length ≤ taskBuf ∧
        s.hub.Within env.limit.toNat ∧
        s.task.replaying.length ≤ env.limit.toNat := by
    refine Trace.run_induction
      (P := fun _ s =>
        s.events.length ≤ taskBuf ∧
          s.hub.Within env.limit.toNat ∧
          s.task.replaying.length ≤ env.limit.toNat)
      ?_ ?_ hRun
    · exact ⟨Nat.zero_le _, fun _ => Nat.zero_le _,
        Nat.zero_le _⟩
    · rintro acts s a s' _ ⟨hEvents, hWithin, hReplay⟩ hStep
      have hSound := step_sound hStep
      exact ⟨hSound.events_bounded hEvents,
        hSound.within hLimit hWithin hReplay⟩
  exact
    { events := hHub.1
      queues := fun c => (Reachable.tidy ⟨acts, hRun⟩ c).fits
      pings := fun c => (counted_of_run hRun c).most
      histories := hHub.2.1
      replay := hHub.2.2 }

/- Three clients, with a history of one message. -/
theorem bounded_of_run_threeClients :
    ∃ s,
      run Env.sample threeClients = some s ∧
        (s.hub.stored newsHash).length = 1 ∧
        s.Bounded Env.sample := by
  have hState :
      (run Env.sample threeClients).map
          (fun s => (s.hub.stored newsHash).length) =
        some 1 := by
    decide +kernel
  rcases Option.map_eq_some_iff.mp hState with
    ⟨s, hRun, hLength⟩
  exact ⟨s, hRun, hLength,
    bounded_of_run (by decide +kernel) hRun⟩

end Sys

end Mles
