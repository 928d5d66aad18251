import Mles.Library.HashMap
import Mles.Types

/-
  The event loop of the server (`spawn_event_loop` of
  `src/websocket.rs`), as a function on the two maps it
  owns.

  One turn of the loop handles one event.  The readings of
  the clock are part of the event, and the frames the turn
  sends are its output, each with the queue it is sent on.
  The map `msg_db` holds the history of each channel, the
  map `ch_db` the queue of each client registered in it.

  The pieces of a turn are functions of their own: the tasks
  of a running server perform them one await at a time.

  Key definitions include:
    * `addMessage`
    * `Hub.register`
    * `Hub.record`
    * `Hub.targets`
    * `Hub.logoff`
    * `Hub.cleanup`
    * `Hub.step`
    * `Hub.run`

  Key theorems include:
    * `Hub.entry_register`
    * `Hub.register_of_none`
    * `Hub.entry_logoff`
    * `Hub.run_append`
-/

------------------------------------------------------------
-- The Maps of the Event Loop
------------------------------------------------------------

namespace Mles

/- `CHANNEL_CLEANUP_DAYS` as a duration in nanoseconds. -/
def cleanupThreshold : Time :=
  30 * 24 * 60 * 60 * 1000000000

/-
  `add_message`: the oldest message leaves a queue that has
  exactly the length of the limit.  Reserving capacity does
  not change the content.
-/
def addMessage
    {M : Type}
    (msg : M)
    (limit : UInt32)
    (queue : List M) : List M :=
  let limit := limit.toNat
  let queue :=
    if queue.length = limit then queue.tail else queue
  queue ++ [msg]

structure Hub (T M : Type) where
  msgDb : Db (ChannelInfo M)
  chDb : Db (Db T)

namespace Hub

variable {T M : Type}

def new : Hub T M where
  msgDb := ∅
  chDb := ∅

/- The queue registered for the client `h` of a channel. -/
def entry
    (hub : Hub T M)
    (ch h : UInt64) : Option T :=
  (hub.chDb.lookup ch).bind (fun uidDb => uidDb.lookup h)

/- The messages stored for a channel. -/
def stored
    (hub : Hub T M)
    (ch : UInt64) : List M :=
  ((hub.msgDb.lookup ch).map ChannelInfo.messages).getD []

------------------------------------------------------------
-- Handling of Events
------------------------------------------------------------

/-
  The first part of an `Init`: register the queue, unless
  the client is registered already.  The second component is
  the history to replay; none for a duplicate.
-/
def register
    (h ch : UInt64)
    (tx2 : T)
    (now : Time)
    (hub : Hub T M) : Hub T M × Option (List M) :=
  let chDb := hub.chDb.orInsert ch ∅
  match chDb.lookup ch with
  | none => ({ hub with chDb := chDb }, none)
  | some uidDb =>
      if h ∈ uidDb then
        ({ hub with chDb := chDb }, none)
      else
        let msgDb := hub.msgDb.orInsert ch ⟨[], now⟩
        let hub :=
          { msgDb := msgDb
            chDb := chDb.insert ch (uidDb.insert h tx2) }
        (hub, some (hub.stored ch))

/- Store a message of a channel that has a history. -/
def record
    (limit : UInt32)
    (ch : UInt64)
    (msg : M)
    (now : Time)
    (hub : Hub T M) : Hub T M :=
  { hub with
    msgDb := hub.msgDb.modify ch (fun info =>
      { messages := addMessage msg limit info.messages
        lastActivity := now }) }

/- The queues a `Msg` is sent on, if the channel is there. -/
def targets
    (h ch : UInt64)
    (hub : Hub T M) : Option (List T) :=
  (hub.chDb.lookup ch).map
    (fun uidDb => uidDb.valuesWhere (fun xh => xh ≠ h))

/- A `Logoff` also removes the channel it empties. -/
def logoff
    (h ch : UInt64)
    (hub : Hub T M) : Hub T M :=
  match hub.chDb.lookup ch with
  | none => hub
  | some uidDb =>
      let uidDb := uidDb.erase h
      if uidDb.entries.isEmpty then
        { hub with chDb := hub.chDb.erase ch }
      else
        { hub with chDb := hub.chDb.insert ch uidDb }

/- The history is dropped this long after its last use. -/
def expired
    (now : Time)
    (info : ChannelInfo M) : Bool :=
  info.lastActivity ≤ now ∧
    cleanupThreshold < now - info.lastActivity

/- A cleanup tick. -/
def cleanup
    (now : Time)
    (hub : Hub T M) : Hub T M :=
  { hub with
    msgDb := hub.msgDb.retain
      (fun _ info => !expired now info) }

end Hub

------------------------------------------------------------
-- Turns of the Loop
------------------------------------------------------------

/-
  What one turn of the loop handles.  An `Init` reads the
  clock when it creates the history and when it has stored
  its message.
-/
inductive Event (T M : Type) where
| init (h ch : UInt64) (tx2 : T) (msg : M)
    (created now : Time)
| msg (h ch : UInt64) (msg : M) (now : Time)
| logoff (h ch : UInt64)
| cleanup (now : Time)
deriving DecidableEq, Repr

namespace Hub

variable {T M : Type}

/- One turn: the maps afterwards and the frames sent. -/
def step
    (limit : UInt32)
    (hub : Hub T M) : Event T M → Hub T M × List (T × M)
| .init h ch tx2 msg created now =>
    match hub.register h ch tx2 created with
    | (hub, some queued) =>
        (hub.record limit ch msg now,
          queued.map (fun qmsg => (tx2, qmsg)))
    | (hub, none) => (hub, [])
| .msg h ch msg now =>
    match hub.targets h ch with
    | some txs =>
        (hub.record limit ch msg now,
          txs.map (fun tx => (tx, msg)))
    | none => (hub, [])
| .logoff h ch => (hub.logoff h ch, [])
| .cleanup now => (hub.cleanup now, [])

/- The loop on a sequence of events. -/
def run
    (limit : UInt32)
    (hub : Hub T M) : List (Event T M) →
      Hub T M × List (T × M)
| [] => (hub, [])
| e :: es =>
    let turn := hub.step limit e
    let rest := run limit turn.1 es
    (rest.1, turn.2 ++ rest.2)

/- The maps after a sequence of events, from the start. -/
def after
    (limit : UInt32)
    (es : List (Event T M)) : Hub T M :=
  (run limit new es).1

/- The frames sent on one queue, in order. -/
def sentOn
    [DecidableEq T]
    (tx : T)
    (sent : List (T × M)) : List M :=
  (sent.filter (fun s => s.1 = tx)).map (fun s => s.2)

end Hub

end Mles

------------------------------------------------------------
-- Registrations
------------------------------------------------------------

namespace Mles

namespace Hub

variable {T M : Type}

@[simp] theorem entry_new
    (ch h : UInt64) :
    (new : Hub T M).entry ch h = none := rfl

/- The clients of a channel, nobody if it is not there. -/
def uidDb
    (hub : Hub T M)
    (ch : UInt64) : Db T :=
  (hub.chDb.lookup ch).getD ∅

theorem entry_eq_lookup_uidDb
    (hub : Hub T M)
    (ch h : UInt64) :
    hub.entry ch h = (hub.uidDb ch).lookup h := by
  unfold entry uidDb
  cases hub.chDb.lookup ch with
  | none => rfl
  | some db => rfl

theorem lookup_orInsert_uidDb
    (hub : Hub T M)
    (ch : UInt64) :
    (hub.chDb.orInsert ch ∅).lookup ch =
      some (hub.uidDb ch) := by
  simp [AList.lookup_orInsert, uidDb]

/- A duplicate `Init` changes nothing. -/
theorem register_of_some
    {h ch : UInt64}
    {hub : Hub T M}
    {tx : T}
    (hEntry : hub.entry ch h = some tx)
    (tx2 : T)
    (now : Time) :
    hub.register h ch tx2 now = (hub, none) := by
  have hLookup := hEntry
  rw [entry_eq_lookup_uidDb] at hLookup
  have hMem : h ∈ hub.uidDb ch :=
    AList.mem_iff_exists_lookup.mpr ⟨tx, hLookup⟩
  have hChannel : ch ∈ hub.chDb := by
    rcases Option.bind_eq_some_iff.mp hEntry with
      ⟨db, hDb, _⟩
    exact AList.mem_iff_exists_lookup.mpr ⟨db, hDb⟩
  have hSame : hub.chDb.orInsert ch ∅ = hub.chDb :=
    if_pos hChannel
  unfold register
  simp only [lookup_orInsert_uidDb, if_pos hMem]
  rw [hSame]

/- An `Init` for a vacant entry registers its queue. -/
theorem register_of_none
    {h ch : UInt64}
    {hub : Hub T M}
    (hEntry : hub.entry ch h = none)
    (tx2 : T)
    (now : Time) :
    hub.register h ch tx2 now =
      ({ msgDb := hub.msgDb.orInsert ch ⟨[], now⟩
         chDb := (hub.chDb.orInsert ch ∅).insert ch
           ((hub.uidDb ch).insert h tx2) },
        some (hub.stored ch)) := by
  rw [entry_eq_lookup_uidDb] at hEntry
  have hVacant : h ∉ hub.uidDb ch :=
    AList.lookup_eq_none.mp hEntry
  have hStored :
      (((hub.msgDb.orInsert ch ⟨[], now⟩).lookup ch).map
        ChannelInfo.messages).getD [] = hub.stored ch := by
    unfold stored
    rw [AList.lookup_orInsert, if_pos rfl]
    cases hub.msgDb.lookup ch with
    | none => rfl
    | some info => rfl
  unfold register
  simp only [lookup_orInsert_uidDb, if_neg hVacant]
  rw [← hStored]
  rfl

/- A registration changes the entry it is for, if vacant. -/
theorem entry_register
    (h ch : UInt64)
    (tx2 : T)
    (now : Time)
    (hub : Hub T M)
    (ch' h' : UInt64) :
    (hub.register h ch tx2 now).1.entry ch' h' =
      if ch' = ch ∧ h' = h then
        some ((hub.entry ch h).getD tx2)
      else hub.entry ch' h' := by
  cases hEntry : hub.entry ch h with
  | some tx =>
      rw [register_of_some hEntry]
      by_cases hPair : ch' = ch ∧ h' = h
      · rw [if_pos hPair, hPair.1, hPair.2, hEntry]
        rfl
      · rw [if_neg hPair]
  | none =>
      rw [register_of_none hEntry, entry_eq_lookup_uidDb,
        entry_eq_lookup_uidDb hub ch' h']
      by_cases hCh : ch' = ch
      · subst hCh
        simp [uidDb, AList.lookup_insert_eq_ite]
      · simp [uidDb, hCh, AList.lookup_orInsert]

/- Only an accepted `Init` creates a history. -/
theorem lookup_msgDb_register
    (h ch : UInt64)
    (tx2 : T)
    (now : Time)
    (hub : Hub T M)
    (ch' : UInt64) :
    (hub.register h ch tx2 now).1.msgDb.lookup ch' =
      if ch' = ch ∧ hub.entry ch h = none then
        some ((hub.msgDb.lookup ch).getD ⟨[], now⟩)
      else hub.msgDb.lookup ch' := by
  cases hEntry : hub.entry ch h with
  | some tx =>
      rw [register_of_some hEntry]
      simp
  | none =>
      rw [register_of_none hEntry]
      simp [AList.lookup_orInsert]

@[simp] theorem entry_record
    (limit : UInt32)
    (ch : UInt64)
    (msg : M)
    (now : Time)
    (hub : Hub T M)
    (ch' h' : UInt64) :
    (hub.record limit ch msg now).entry ch' h' =
      hub.entry ch' h' := rfl

@[simp] theorem entry_cleanup
    (now : Time)
    (hub : Hub T M)
    (ch h : UInt64) :
    (hub.cleanup now).entry ch h = hub.entry ch h := rfl

/- A `Logoff` removes the one entry it names. -/
theorem entry_logoff
    (h ch : UInt64)
    (hub : Hub T M)
    (ch' h' : UInt64) :
    (hub.logoff h ch).entry ch' h' =
      if ch' = ch ∧ h' = h then none
      else hub.entry ch' h' := by
  unfold logoff
  cases hLookup : hub.chDb.lookup ch with
  | none =>
      by_cases hCh : ch' = ch
      · subst hCh
        simp [entry, hLookup]
      · simp [hCh]
  | some db =>
      by_cases hCh : ch' = ch
      · subst hCh
        by_cases hEmpty : (db.erase h).entries.isEmpty = true
        · have hErased :
              ∀ k, (db.erase h).lookup k = none := by
            intro k
            apply AList.lookup_eq_none_of_notMem
            rw [AList.mem_keys, AList.keys,
              List.isEmpty_iff.mp hEmpty]
            simp
          have hOld := hErased h'
          rw [AList.lookup_erase_eq_ite] at hOld
          simp only [hEmpty, if_true, entry,
            AList.lookup_erase, Option.bind_none, hLookup,
            Option.bind_some, true_and]
          by_cases hH : h' = h
          · rw [if_pos hH]
          · rw [if_neg hH] at hOld ⊢
            exact hOld.symm
        · simp [hEmpty, entry, hLookup,
            AList.lookup_erase_eq_ite]
      · rw [if_neg (fun hPair => hCh hPair.1)]
        by_cases hEmpty : (db.erase h).entries.isEmpty = true
        · simp [hEmpty, entry, hCh]
        · simp [hEmpty, entry, hCh]

------------------------------------------------------------
-- Histories
------------------------------------------------------------

@[simp] theorem msgDb_logoff
    (h ch : UInt64)
    (hub : Hub T M) :
    (hub.logoff h ch).msgDb = hub.msgDb := by
  unfold logoff
  cases hub.chDb.lookup ch with
  | none => rfl
  | some db =>
      by_cases hEmpty : (db.erase h).entries.isEmpty = true
      · simp [hEmpty]
      · simp [hEmpty]

theorem lookup_msgDb_record
    (limit : UInt32)
    (ch : UInt64)
    (msg : M)
    (now : Time)
    (hub : Hub T M)
    (ch' : UInt64) :
    (hub.record limit ch msg now).msgDb.lookup ch' =
      if ch' = ch then
        (hub.msgDb.lookup ch).map (fun info =>
          { messages := addMessage msg limit info.messages
            lastActivity := now })
      else hub.msgDb.lookup ch' :=
  AList.lookup_modify _ _ _ _

theorem lookup_msgDb_cleanup
    (now : Time)
    (hub : Hub T M)
    (ch : UInt64) :
    (hub.cleanup now).msgDb.lookup ch =
      (hub.msgDb.lookup ch).filter
        (fun info => !expired now info) :=
  AList.lookup_retain _ _ _

/- A registration stores nothing. -/
theorem stored_register
    (h ch : UInt64)
    (tx2 : T)
    (now : Time)
    (hub : Hub T M)
    (ch' : UInt64) :
    (hub.register h ch tx2 now).1.stored ch' =
      hub.stored ch' := by
  unfold stored
  rw [lookup_msgDb_register]
  by_cases hNew : ch' = ch ∧ hub.entry ch h = none
  · rw [if_pos hNew, hNew.1]
    cases hub.msgDb.lookup ch with
    | none => rfl
    | some info => rfl
  · rw [if_neg hNew]

/- What is stored was stored before, or is the message. -/
theorem mem_stored_record
    {limit : UInt32}
    {ch : UInt64}
    {msg : M}
    {now : Time}
    {hub : Hub T M}
    {ch' : UInt64}
    {m : M}
    (hMem : m ∈ (hub.record limit ch msg now).stored ch') :
    m ∈ hub.stored ch' ∨ ch' = ch ∧ m = msg := by
  unfold stored at hMem ⊢
  rw [lookup_msgDb_record] at hMem
  by_cases hCh : ch' = ch
  · subst hCh
    rw [if_pos rfl] at hMem
    cases hLookup : hub.msgDb.lookup ch' with
    | none => simp [hLookup] at hMem
    | some info =>
        simp only [hLookup, Option.map_some, Option.getD_some,
          addMessage, List.mem_append, List.mem_singleton]
          at hMem ⊢
        rcases hMem with hOld | hNew
        · by_cases hFull :
              info.messages.length = limit.toNat
          · rw [if_pos hFull] at hOld
            exact Or.inl (List.mem_of_mem_tail hOld)
          · rw [if_neg hFull] at hOld
            exact Or.inl hOld
        · exact Or.inr ⟨trivial, hNew⟩
  · rw [if_neg hCh] at hMem
    exact Or.inl hMem

theorem mem_stored_cleanup
    {now : Time}
    {hub : Hub T M}
    {ch : UInt64}
    {m : M}
    (hMem : m ∈ (hub.cleanup now).stored ch) :
    m ∈ hub.stored ch := by
  unfold stored at hMem ⊢
  rw [lookup_msgDb_cleanup] at hMem
  cases hLookup : hub.msgDb.lookup ch with
  | none => simp [hLookup] at hMem
  | some info =>
      rw [hLookup] at hMem
      by_cases hExpired : expired now info = true
      · simp [Option.filter, hExpired] at hMem
      · simpa [Option.filter, hExpired] using hMem

------------------------------------------------------------
-- Sequences of Events
------------------------------------------------------------

@[simp] theorem run_nil
    (limit : UInt32)
    (hub : Hub T M) :
    run limit hub [] = (hub, []) := rfl

theorem run_append
    (limit : UInt32)
    (hub : Hub T M)
    (es fs : List (Event T M)) :
    run limit hub (es ++ fs) =
      ((run limit (run limit hub es).1 fs).1,
        (run limit hub es).2 ++
          (run limit (run limit hub es).1 fs).2) := by
  induction es generalizing hub with
  | nil => simp
  | cons e es ih =>
      simp only [List.cons_append, run]
      rw [ih]
      simp

/- The last event of a sequence. -/
theorem after_snoc
    (limit : UInt32)
    (es : List (Event T M))
    (e : Event T M) :
    after limit (es ++ [e]) =
      ((after limit es).step limit e).1 := by
  unfold after
  rw [run_append]
  simp [run]

------------------------------------------------------------
-- Entries After One Turn
------------------------------------------------------------

/- A turn on a duplicate `Init`. -/
theorem step_init_of_some
    {hub : Hub T M}
    {h ch : UInt64}
    {tx : T}
    (hEntry : hub.entry ch h = some tx)
    (limit : UInt32)
    (tx2 : T)
    (msg : M)
    (created now : Time) :
    hub.step limit (.init h ch tx2 msg created now) =
      (hub, []) := by
  simp only [step, register_of_some hEntry]

/- A turn on an accepted `Init`. -/
theorem step_init_of_none
    {hub : Hub T M}
    {h ch : UInt64}
    (hEntry : hub.entry ch h = none)
    (limit : UInt32)
    (tx2 : T)
    (msg : M)
    (created now : Time) :
    hub.step limit (.init h ch tx2 msg created now) =
      ((hub.register h ch tx2 created).1.record limit ch
          msg now,
        (hub.stored ch).map (fun qmsg => (tx2, qmsg))) := by
  simp only [step, register_of_none hEntry]

@[simp] theorem entry_step_init
    (limit : UInt32)
    (hub : Hub T M)
    (h ch : UInt64)
    (tx2 : T)
    (msg : M)
    (created now : Time)
    (ch' h' : UInt64) :
    (hub.step limit
        (.init h ch tx2 msg created now)).1.entry ch' h' =
      if ch' = ch ∧ h' = h then
        some ((hub.entry ch h).getD tx2)
      else hub.entry ch' h' := by
  rw [← entry_register h ch tx2 created hub ch' h']
  cases hEntry : hub.entry ch h with
  | none => rw [step_init_of_none hEntry, entry_record]
  | some tx =>
      rw [step_init_of_some hEntry, register_of_some hEntry]

@[simp] theorem entry_step_msg
    (limit : UInt32)
    (hub : Hub T M)
    (h ch : UInt64)
    (msg : M)
    (now : Time)
    (ch' h' : UInt64) :
    (hub.step limit (.msg h ch msg now)).1.entry ch' h' =
      hub.entry ch' h' := by
  simp only [step]
  cases hub.targets h ch with
  | none => rfl
  | some txs => rfl

@[simp] theorem entry_step_logoff
    (limit : UInt32)
    (hub : Hub T M)
    (h ch ch' h' : UInt64) :
    (hub.step limit (.logoff h ch)).1.entry ch' h' =
      if ch' = ch ∧ h' = h then none
      else hub.entry ch' h' :=
  entry_logoff h ch hub ch' h'

@[simp] theorem entry_step_cleanup
    (limit : UInt32)
    (hub : Hub T M)
    (now : Time)
    (ch' h' : UInt64) :
    (hub.step limit (.cleanup now)).1.entry ch' h' =
      hub.entry ch' h' := rfl

/- An entry after a turn is an old one, or the new one. -/
theorem entry_step_cases
    {limit : UInt32}
    {hub : Hub T M}
    {e : Event T M}
    {ch h : UInt64}
    {tx : T}
    (hEntry : (hub.step limit e).1.entry ch h = some tx) :
    hub.entry ch h = some tx ∨
      hub.entry ch h = none ∧
        ∃ msg created now, e = .init h ch tx msg created now := by
  cases e with
  | init h' ch' tx2 msg created now =>
      rw [entry_step_init] at hEntry
      by_cases hPair : ch = ch' ∧ h = h'
      · rcases hPair with ⟨rfl, rfl⟩
        rw [if_pos ⟨rfl, rfl⟩] at hEntry
        cases hOld : hub.entry ch h with
        | some old =>
            rw [hOld] at hEntry
            exact Or.inl hEntry
        | none =>
            rw [hOld] at hEntry
            cases hEntry
            exact Or.inr ⟨rfl, msg, created, now, rfl⟩
      · rw [if_neg hPair] at hEntry
        exact Or.inl hEntry
  | msg h' ch' msg now =>
      rw [entry_step_msg] at hEntry
      exact Or.inl hEntry
  | logoff h' ch' =>
      rw [entry_step_logoff] at hEntry
      by_cases hPair : ch = ch' ∧ h = h'
      · rw [if_pos hPair] at hEntry
        cases hEntry
      · rw [if_neg hPair] at hEntry
        exact Or.inl hEntry
  | cleanup now => exact Or.inl hEntry

end Hub

end Mles
