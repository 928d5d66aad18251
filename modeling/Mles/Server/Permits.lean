import Mles.Library.Trace

/-
  The connection cap of the TLS listener (`serve_tls` of
  `src/server.rs`).

  The accept loop takes one permit of a semaphore for each
  stream and hands it to the task that serves the stream.
  The task ends, and gives the permit back, when the stream
  is closed, but also when it is upgraded: the stream then
  lives on in the handler of the WebSocket session, which
  holds no permit.

  So what the semaphore bounds is the number of streams that
  are being served.  The open streams are as many as there
  are permits taken and sessions open, and the cap holds
  exactly as long as no stream is taken into service while
  the sessions are as many as the free permits.

  Key definitions include:
    * `Listener`
    * `Listener.step`
    * `Listener.openStreams`

  Key theorems include:
    * `Listener.accounted_of_run`
    * `Listener.capped_iff`
-/

------------------------------------------------------------
-- The Accept Loop and Its Streams
------------------------------------------------------------

namespace Mles

/- Streams are numbered as they are accepted. -/
abbrev StreamId := Nat

/- The awaits of the accept loop. -/
inductive AcceptLoop where
| next
| acquire (stream : StreamId)
| ended
deriving DecidableEq, Repr

/-
  `serve_tls` with the tasks it has spawned.  The tasks that
  still run each hold a permit; the sessions are those of
  the streams that were upgraded and are not closed.
-/
structure Listener where
  loop : AcceptLoop
  accepted : Nat
  permits : Nat
  tasks : List StreamId
  sessions : List StreamId
deriving DecidableEq, Repr

/- What `tls_incoming` yields. -/
inductive Incoming where
| stream
| error
| ended
deriving DecidableEq, Repr

/- What may happen next. -/
inductive ListenerAct where
| incoming (item : Incoming)
| acquire
| request (c : StreamId)
| upgrade (c : StreamId)
| close (c : StreamId)
deriving DecidableEq, Repr

namespace Listener

def init (filelimit : Nat) : Listener where
  loop := .next
  accepted := 0
  permits := filelimit
  tasks := []
  sessions := []

/-
  The semaphore is never closed, so that `acquire_owned`
  returns only with a permit.  An error of the incoming
  stream is logged, and the loop goes on.
-/
def step
    (s : Listener) : ListenerAct → Option Listener
| .incoming item =>
    match s.loop with
    | .next =>
        match item with
        | .stream =>
            some
              { s with
                loop := .acquire s.accepted
                accepted := s.accepted + 1 }
        | .error => some s
        | .ended => some { s with loop := .ended }
    | .acquire _ => none
    | .ended => none
| .acquire =>
    match s.loop with
    | .acquire c =>
        if 0 < s.permits then
          some
            { s with
              loop := .next
              permits := s.permits - 1
              tasks := c :: s.tasks }
        else none
    | .next => none
    | .ended => none
| .request c => if c ∈ s.tasks then some s else none
| .upgrade c =>
    if c ∈ s.tasks then
      some
        { s with
          permits := s.permits + 1
          tasks := s.tasks.erase c
          sessions := c :: s.sessions }
    else none
| .close c =>
    if c ∈ s.tasks then
      some
        { s with
          permits := s.permits + 1
          tasks := s.tasks.erase c }
    else if c ∈ s.sessions then
      some { s with sessions := s.sessions.erase c }
    else none

def run
    (filelimit : Nat)
    (acts : List ListenerAct) : Option Listener :=
  Trace.run step (init filelimit) acts

/- The streams taken into service that are still open. -/
def openStreams (s : Listener) : List StreamId :=
  s.tasks ++ s.sessions

------------------------------------------------------------
-- Accounting
------------------------------------------------------------

/- What a step does to permits, tasks and sessions. -/
inductive Moved
    (s : Listener) : ListenerAct → Listener → Prop where
| still
    (a : ListenerAct)
    (t : Listener)
    (hOther : a ≠ .acquire)
    (hPermits : t.permits = s.permits)
    (hTasks : t.tasks = s.tasks)
    (hSessions : t.sessions.length ≤ s.sessions.length) :
    Moved s a t
| acquired
    (t : Listener)
    (hPermits : t.permits + 1 = s.permits)
    (hTasks : t.tasks.length = s.tasks.length + 1)
    (hSessions : t.sessions = s.sessions) :
    Moved s .acquire t
| upgraded
    (c : StreamId)
    (t : Listener)
    (hPermits : t.permits = s.permits + 1)
    (hTasks : t.tasks.length + 1 = s.tasks.length)
    (hSessions : t.sessions.length = s.sessions.length + 1) :
    Moved s (.upgrade c) t
| closed
    (c : StreamId)
    (t : Listener)
    (hPermits : t.permits = s.permits + 1)
    (hTasks : t.tasks.length + 1 = s.tasks.length)
    (hSessions : t.sessions = s.sessions) :
    Moved s (.close c) t

/- A task that ends leaves one task less. -/
theorem length_erase_add_one
    {c : StreamId}
    {tasks : List StreamId}
    (hMem : c ∈ tasks) :
    (tasks.erase c).length + 1 = tasks.length := by
  have hLength := List.length_erase_of_mem hMem
  have hPos := List.length_pos_of_mem hMem
  omega

theorem step_moved
    {s t : Listener}
    {a : ListenerAct}
    (hStep : s.step a = some t) :
    Moved s a t := by
  cases a with
  | incoming item =>
      simp only [step] at hStep
      cases hLoop : s.loop with
      | next =>
          cases item with
          | stream =>
              simp only [hLoop, Option.some.injEq] at hStep
              subst hStep
              exact .still _ _ (by simp) rfl rfl (Nat.le_refl _)
          | error =>
              simp only [hLoop, Option.some.injEq] at hStep
              subst hStep
              exact .still _ _ (by simp) rfl rfl (Nat.le_refl _)
          | ended =>
              simp only [hLoop, Option.some.injEq] at hStep
              subst hStep
              exact .still _ _ (by simp) rfl rfl (Nat.le_refl _)
      | acquire c => simp [hLoop] at hStep
      | ended => simp [hLoop] at hStep
  | acquire =>
      simp only [step] at hStep
      cases hLoop : s.loop with
      | acquire c =>
          simp only [hLoop, Option.ite_none_right_eq_some,
            Option.some.injEq] at hStep
          rcases hStep with ⟨hFree, rfl⟩
          exact .acquired _ (Nat.sub_add_cancel hFree) rfl rfl
      | next => simp [hLoop] at hStep
      | ended => simp [hLoop] at hStep
  | request c =>
      simp only [step, Option.ite_none_right_eq_some,
        Option.some.injEq] at hStep
      rcases hStep with ⟨_, rfl⟩
      exact .still _ _ (by simp) rfl rfl (Nat.le_refl _)
  | upgrade c =>
      simp only [step, Option.ite_none_right_eq_some,
        Option.some.injEq] at hStep
      rcases hStep with ⟨hMem, rfl⟩
      exact .upgraded c _ rfl (length_erase_add_one hMem) rfl
  | close c =>
      simp only [step] at hStep
      by_cases hTask : c ∈ s.tasks
      · simp only [hTask, if_true, Option.some.injEq] at hStep
        subst hStep
        exact .closed c _ rfl (length_erase_add_one hTask) rfl
      · simp only [hTask, if_false,
          Option.ite_none_right_eq_some, Option.some.injEq]
          at hStep
        rcases hStep with ⟨_, rfl⟩
        exact .still _ _ (by simp) rfl rfl
          (List.erase_sublist.length_le)

/- Every permit is free or held by a task. -/
def Accounted
    (filelimit : Nat)
    (s : Listener) : Prop :=
  s.permits + s.tasks.length = filelimit

theorem Accounted.step
    {filelimit : Nat}
    {s t : Listener}
    {a : ListenerAct}
    (hAccounted : Accounted filelimit s)
    (hMoved : Moved s a t) :
    Accounted filelimit t := by
  unfold Accounted at *
  cases hMoved with
  | still _ _ hOther hPermits hTasks hSessions =>
      rw [hPermits, hTasks]
      exact hAccounted
  | acquired _ hPermits hTasks hSessions => omega
  | upgraded c _ hPermits hTasks hSessions => omega
  | closed c _ hPermits hTasks hSessions => omega

theorem accounted_of_run
    {filelimit : Nat}
    {acts : List ListenerAct}
    {s : Listener}
    (hRun : run filelimit acts = some s) :
    Accounted filelimit s := by
  refine Trace.run_induction
    (P := fun _ s => Accounted filelimit s) ?_ ?_ hRun
  · exact Nat.add_zero filelimit
  · intro acts s a t _ hAccounted hStep
    exact hAccounted.step (step_moved hStep)

------------------------------------------------------------
-- The Cap
------------------------------------------------------------

/- The cap in one state. -/
def Capped
    (filelimit : Nat)
    (s : Listener) : Prop :=
  s.openStreams.length ≤ filelimit

/- Sessions may only be as many as permits are free. -/
theorem capped_iff_sessions
    {filelimit : Nat}
    {s : Listener}
    (hAccounted : Accounted filelimit s) :
    Capped filelimit s ↔ s.sessions.length ≤ s.permits := by
  unfold Accounted at hAccounted
  unfold Capped openStreams
  rw [List.length_append]
  omega

/-
  Over the states of a run: the cap holds in all of them,
  exactly when each stream taken into service finds fewer
  sessions open than permits free.
-/
theorem capped_iff
    (filelimit : Nat)
    (acts : List ListenerAct) :
    (∀ part s,
      part <+: acts → run filelimit part = some s →
        Capped filelimit s) ↔
      ∀ part s t,
        part ++ [.acquire] <+: acts →
          run filelimit part = some s →
            s.step .acquire = some t →
              s.sessions.length < s.permits := by
  constructor
  · intro hCapped part s t hPrefix hRun hStep
    have hNext :=
      Trace.run_snoc_eq_some_iff.mpr ⟨s, hRun, hStep⟩
    have hAfter := (capped_iff_sessions
      (accounted_of_run hNext)).mp (hCapped _ t hPrefix hNext)
    cases step_moved hStep with
    | still _ _ hOther hPermits hTasks hSessions =>
        exact absurd rfl hOther
    | acquired _ hPermits hTasks hSessions =>
        rw [hSessions] at hAfter
        omega
  · intro hRoom part s hPrefix hRun
    rw [capped_iff_sessions (accounted_of_run hRun)]
    induction part using List.reverseRecOn generalizing s with
    | nil =>
        cases hRun
        exact Nat.zero_le _
    | append_singleton part a ih =>
        rcases Trace.run_snoc_eq_some_iff.mp hRun with
          ⟨r, hBefore, hStep⟩
        have hOld := ih r
          ((List.prefix_append part [a]).trans hPrefix) hBefore
        cases step_moved hStep with
        | still _ _ hOther hPermits hTasks hSessions => omega
        | acquired _ hPermits hTasks hSessions =>
            have hFree := hRoom part r s hPrefix hBefore hStep
            rw [hSessions]
            omega
        | upgraded c _ hPermits hTasks hSessions => omega
        | closed c _ hPermits hTasks hSessions =>
            rw [hSessions]
            omega

/- One permit, a session, and then another stream. -/
theorem uncapped_after_upgrade :
    ∃ s,
      run 1 [.incoming .stream, .acquire, .request 0,
        .upgrade 0, .incoming .stream, .acquire] = some s ∧
        s.openStreams = [1, 0] ∧ ¬ Capped 1 s := by
  refine ⟨_, rfl, rfl, ?_⟩
  unfold Capped
  decide

end Listener

end Mles
