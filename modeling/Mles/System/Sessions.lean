import Mles.System.Provenance

/-
  One session for each user of a channel.

  The registry knows a client by the hash of its whole
  header, and the header contains the text of `auth`, while
  the verification reads that text as a number or accepts
  its absence.  So two sessions of one user in one channel
  are kept apart exactly as long as all headers that name
  the two spell `auth` in the same way.

  Key definitions include:
    * `OneSession`
    * `SameSpelling`

  Key theorems include:
    * `MlesHeader.auth_eq_of_hashBytes_eq`
    * `Sys.join`
    * `Sys.oneSession_iff`
-/

------------------------------------------------------------
-- The Bytes of a Header
------------------------------------------------------------

namespace Mles

namespace MlesHeader

/- The bytes that are hashed for a header. -/
def hashBytes (hdr : MlesHeader) : List UInt8 :=
  (hdr.hash SipHash.Hasher.new).bytes

/- With the same uid and channel, they tell `auth` apart. -/
theorem auth_eq_of_hashBytes_eq
    {a b : MlesHeader}
    (hUid : a.uid = b.uid)
    (hChannel : a.channel = b.channel)
    (hBytes : a.hashBytes = b.hashBytes) :
    a.auth = b.auth := by
  rcases a with ⟨uid, channel, authA⟩
  rcases b with ⟨uid', channel', authB⟩
  cases hUid
  cases hChannel
  rcases authA with _ | x
  · rcases authB with _ | y
    · rfl
    · simp [hashBytes, hash, hashStr, hashDiscriminant]
        at hBytes
  · rcases authB with _ | y
    · simp [hashBytes, hash, hashStr, hashDiscriminant]
        at hBytes
    · simp [hashBytes, hash, hashStr, hashDiscriminant]
        at hBytes
      rw [asBytes_injective hBytes]

end MlesHeader

end Mles

------------------------------------------------------------
-- A Client Joins
------------------------------------------------------------

namespace Mles

namespace Sys

/- The actions by which a new connection joins. -/
def joinActs
    (c : ConnId)
    (msg : Message) : List Act :=
  [.read c (.frame msg), .resume c, .take 0]

/- They register a connection with a verified header. -/
theorem join
    {env : Env}
    {s : Sys}
    {c : ConnId}
    {msg : Message}
    {hdr : MlesHeader}
    (hNew : s.conns c = {})
    (hIdle : s.task = .idle)
    (hEvents : s.events = [])
    (hHeader : env.header msg = some hdr)
    (hAuth : env.verified hdr = true)
    (hVacant :
      s.hub.entry (env.channelHash hdr.channel)
        (env.headerHash hdr) = none) :
    ∃ s',
      Trace.run (step env) s (joinActs c msg) = some s' ∧
        s'.events = [] ∧
        (s.hub.stored (env.channelHash hdr.channel) = [] →
          s'.task = .idle) ∧
        (∀ d, d ≠ c → s'.conns d = s.conns d) ∧
        ∀ ch h,
          s'.hub.entry ch h =
            if ch = env.channelHash hdr.channel ∧
                h = env.headerHash hdr then
              some c
            else s.hub.entry ch h := by
  let h := env.headerHash hdr
  let ch := env.channelHash hdr.channel
  let frame := Frame.client c 0 msg
  let asked : Conn :=
    { reads := 1
      h := h
      ch := ch
      receiver := .awaitInit
      errTx := .event }
  have hRead :
      s.step env (.read c (.frame msg)) =
        some (s.setConn c
          { reads := 1
            h := h
            ch := ch
            receiver := .sendInit h ch frame }) := by
    simp [step, hNew, Conn.read, Conn.onFirstFrame, hHeader,
      hAuth, h, ch, frame]
  have hResume :
      (s.setConn c
          { reads := 1
            h := h
            ch := ch
            receiver := .sendInit h ch frame }).step env
          (.resume c) =
        some
          { s.setConn c asked with
            events := [(c, .init h ch c c frame)] } := by
    simp [step, setConn, Conn.resume, queue, hEvents,
      taskBuf, asked]
  have hTake :
      ({ s.setConn c asked with
          events := [(c, .init h ch c c frame)] } : Sys).step
          env (.take 0) =
        some (settle env 0
          { Sys.confirm
              { s.setConn c asked with
                events := []
                hub := (s.hub.register h ch c 0).1 }
              c (.sent h)
            with task :=
              .replay ch c (s.hub.stored ch) frame }) := by
    have hEntry : s.hub.entry ch h = none := hVacant
    simp only [step, take, setConn_task, hIdle, handle,
      setConn_hub, Hub.register_of_none hEntry]
  refine ⟨_, Trace.run_trans (Trace.run_single hRead)
    (Trace.run_trans (Trace.run_single hResume)
      (Trace.run_single hTake)), ?_, ?_, ?_, ?_⟩
  · exact settle_events _ _ _
  · intro hStored
    simp only [ch, hStored]
    rfl
  · intro d hNe
    rw [settle_conns]
    simp [confirm, setConn, hNe]
  · intro ch' h'
    rw [settle_entry]
    simp [confirm, setConn, Hub.entry_register, hVacant, h,
      ch]

end Sys

end Mles

------------------------------------------------------------
-- One Session
------------------------------------------------------------

namespace Mles

/-
  No two registered queues belong to connections that sent
  headers with the same uid and channel.
-/
def OneSession
    (env : Env)
    (acts : List Act)
    (s : Sys) : Prop :=
  ∀ ch₁ h₁ c₁ hdr₁ ch₂ h₂ c₂ hdr₂,
    s.hub.entry ch₁ h₁ = some c₁ →
      env.announced (firstRead c₁ acts) = some hdr₁ →
    s.hub.entry ch₂ h₂ = some c₂ →
      env.announced (firstRead c₂ acts) = some hdr₂ →
    hdr₁.uid = hdr₂.uid → hdr₁.channel = hdr₂.channel →
      c₁ = c₂

/- The first frames of the run are among these messages. -/
def FirstFrames
    (M : Message → Prop)
    (acts : List Act) : Prop :=
  ∀ c msg, firstRead c acts = some (.frame msg) → M msg

/-
  Among these messages, the verified headers that name one
  uid and channel all have the same `auth`.
-/
def SameSpelling
    (env : Env)
    (M : Message → Prop) : Prop :=
  ∀ msg₁ hdr₁ msg₂ hdr₂,
    M msg₁ → env.header msg₁ = some hdr₁ →
      env.verified hdr₁ = true →
    M msg₂ → env.header msg₂ = some hdr₂ →
      env.verified hdr₂ = true →
    hdr₁.uid = hdr₂.uid → hdr₁.channel = hdr₂.channel →
      hdr₁.auth = hdr₂.auth

namespace Sys

/- One spelling gives one key, and a key has one queue. -/
theorem oneSession_of_sameSpelling
    {env : Env}
    {M : Message → Prop}
    {acts : List Act}
    {s : Sys}
    (hSpelling : SameSpelling env M)
    (hRun : run env acts = some s)
    (hFrames : FirstFrames M acts) :
    OneSession env acts s := by
  intro ch₁ h₁ c₁ hdr₁ ch₂ h₂ c₂ hdr₂ hEntry₁ hHeader₁
    hEntry₂ hHeader₂ hUid hChannel
  have hReg := registrations_of_run hRun
  rcases (hReg.registered ch₁ h₁ c₁ hEntry₁).1 with
    ⟨_, hSame₁, hAuth₁, rfl, rfl⟩
  rcases (hReg.registered ch₂ h₂ c₂ hEntry₂).1 with
    ⟨_, hSame₂, hAuth₂, rfl, rfl⟩
  rw [hHeader₁] at hSame₁
  rw [hHeader₂] at hSame₂
  cases hSame₁
  cases hSame₂
  rcases Env.exists_frame_of_announced hHeader₁ with
    ⟨msg₁, hFirst₁, hParse₁⟩
  rcases Env.exists_frame_of_announced hHeader₂ with
    ⟨msg₂, hFirst₂, hParse₂⟩
  have hSame : hdr₁ = hdr₂ := by
    have hSpelled :=
      hSpelling msg₁ hdr₁ msg₂ hdr₂ (hFrames c₁ msg₁ hFirst₁)
        hParse₁ hAuth₁ (hFrames c₂ msg₂ hFirst₂) hParse₂
        hAuth₂ hUid hChannel
    cases hdr₁
    cases hdr₂
    simp_all
  subst hSame
  rw [hEntry₁] at hEntry₂
  exact Option.some.inj hEntry₂

/- Two spellings give two sessions. -/
theorem two_sessions
    {env : Env}
    {msg₁ msg₂ : Message}
    {hdr₁ hdr₂ : MlesHeader}
    (hHeader₁ : env.header msg₁ = some hdr₁)
    (hAuth₁ : env.verified hdr₁ = true)
    (hHeader₂ : env.header msg₂ = some hdr₂)
    (hAuth₂ : env.verified hdr₂ = true)
    (hHash : env.headerHash hdr₁ ≠ env.headerHash hdr₂) :
    ∃ s,
      run env (joinActs 0 msg₁ ++ joinActs 1 msg₂) = some s ∧
        s.hub.entry (env.channelHash hdr₁.channel)
          (env.headerHash hdr₁) = some 0 ∧
        s.hub.entry (env.channelHash hdr₂.channel)
          (env.headerHash hdr₂) = some 1 := by
  rcases join (s := init) (c := 0) rfl rfl rfl hHeader₁ hAuth₁
    rfl with ⟨s₁, hRun₁, hEvents₁, hTask₁, hConns₁, hEntry₁⟩
  have hVacant :
      s₁.hub.entry (env.channelHash hdr₂.channel)
        (env.headerHash hdr₂) = none := by
    rw [hEntry₁, if_neg (fun hPair => hHash hPair.2.symm)]
    rfl
  rcases join (c := 1) (hConns₁ 1 (by decide)) (hTask₁ rfl)
    hEvents₁ hHeader₂ hAuth₂ hVacant with
    ⟨s₂, hRun₂, _, _, _, hEntry₂⟩
  refine ⟨s₂, Trace.run_trans hRun₁ hRun₂, ?_, ?_⟩
  · rw [hEntry₂, if_neg (fun hPair => hHash hPair.2), hEntry₁]
    simp
  · rw [hEntry₂]
    simp

/- What the sockets of these two clients yield. -/
theorem firstRead_two
    (msg₁ msg₂ : Message)
    (c : ConnId) :
    firstRead c (joinActs 0 msg₁ ++ joinActs 1 msg₂) =
      if c = 0 then some (.frame msg₁)
      else if c = 1 then some (.frame msg₂)
      else none := by
  by_cases hZero : c = 0
  · subst hZero
    simp [firstRead, joinActs, Act.readOf]
  · by_cases hOne : c = 1
    · subst hOne
      simp [firstRead, joinActs, Act.readOf, List.findSome?]
    · simp [firstRead, joinActs, Act.readOf, Ne.symm hZero,
        Ne.symm hOne, hZero, hOne]

theorem firstFrames_two
    {M : Message → Prop}
    {msg₁ msg₂ : Message}
    (hMem₁ : M msg₁)
    (hMem₂ : M msg₂) :
    FirstFrames M
      (joinActs 0 msg₁ ++ joinActs 1 msg₂) := by
  intro c msg hFirst
  rw [firstRead_two] at hFirst
  by_cases hZero : c = 0
  · simp [hZero] at hFirst
    exact hFirst ▸ hMem₁
  · by_cases hOne : c = 1
    · simp [hOne] at hFirst
      exact hFirst ▸ hMem₂
    · simp [hZero, hOne] at hFirst

/-
  With any set of possible first frames on which the hash is
  free of collisions, every state of every run has one
  session for each uid and channel exactly if all verified
  headers spell the `auth` of a uid and channel alike.
-/
theorem oneSession_iff
    (env : Env)
    (M : Message → Prop)
    (hFree :
      ∀ msg₁ hdr₁ msg₂ hdr₂,
        M msg₁ → env.header msg₁ = some hdr₁ →
        M msg₂ → env.header msg₂ = some hdr₂ →
          CollisionFree env.sip hdr₁.hashBytes
            hdr₂.hashBytes) :
    (∀ acts s,
      run env acts = some s → FirstFrames M acts →
        OneSession env acts s) ↔
      SameSpelling env M := by
  constructor
  · intro hAll msg₁ hdr₁ msg₂ hdr₂ hMem₁ hHeader₁ hAuth₁
      hMem₂ hHeader₂ hAuth₂ hUid hChannel
    by_contra hNe
    have hHash :
        env.headerHash hdr₁ ≠ env.headerHash hdr₂ := by
      intro hEq
      have hBytes :=
        hFree msg₁ hdr₁ msg₂ hdr₂ hMem₁ hHeader₁ hMem₂
          hHeader₂ hEq
      exact hNe (MlesHeader.auth_eq_of_hashBytes_eq hUid
        hChannel hBytes)
    rcases two_sessions hHeader₁ hAuth₁ hHeader₂ hAuth₂ hHash
      with ⟨s, hRun, hEntry₁, hEntry₂⟩
    have hSame :=
      hAll _ s hRun (firstFrames_two hMem₁ hMem₂) _ _ 0 hdr₁ _ _ 1 hdr₂ hEntry₁
        (by rw [firstRead_two]; exact hHeader₁) hEntry₂
        (by rw [firstRead_two]; exact hHeader₂) hUid hChannel
    cases hSame
  · intro hSpelling acts s hRun hFrames
    exact oneSession_of_sameSpelling hSpelling hRun hFrames

/- Two users, each with one header. -/
theorem oneSession_alice_bob :
    ∃ s,
      run Env.sample
          (joinActs 0 alice ++ joinActs 1 bob) =
        some s ∧
      OneSession Env.sample
        (joinActs 0 alice ++ joinActs 1 bob) s := by
  have hAlice :
      Env.sample.header alice =
        some ⟨"alice", "news", none⟩ := by
    decide +kernel
  have hBob :
      Env.sample.header bob =
        some ⟨"bob", "news", none⟩ := by
    decide +kernel
  have hHeader :
      ∀ msg hdr,
        msg = alice ∨ msg = bob →
          Env.sample.header msg = some hdr →
            hdr = ⟨"alice", "news", none⟩ ∨
              hdr = ⟨"bob", "news", none⟩ := by
    rintro msg hdr (rfl | rfl) hEq
    · rw [hAlice] at hEq
      exact Or.inl (Option.some.inj hEq).symm
    · rw [hBob] at hEq
      exact Or.inr (Option.some.inj hEq).symm
  rcases two_sessions hAlice (by decide +kernel) hBob
    (by decide +kernel) (by decide +kernel) with
    ⟨s, hRun, _⟩
  have hFrames :
      FirstFrames (fun msg => msg = alice ∨ msg = bob)
        (joinActs 0 alice ++ joinActs 1 bob) :=
    firstFrames_two (Or.inl rfl) (Or.inr rfl)
  refine ⟨s, hRun, (oneSession_iff Env.sample _ ?_).mpr ?_ _ s
    hRun hFrames⟩
  · intro msg₁ hdr₁ msg₂ hdr₂ hMem₁ hEq₁ hMem₂ hEq₂
    rcases hHeader msg₁ hdr₁ hMem₁ hEq₁ with rfl | rfl
    · rcases hHeader msg₂ hdr₂ hMem₂ hEq₂ with rfl | rfl
      · exact fun _ => rfl
      · unfold CollisionFree
        decide +kernel
    · rcases hHeader msg₂ hdr₂ hMem₂ hEq₂ with rfl | rfl
      · unfold CollisionFree
        decide +kernel
      · exact fun _ => rfl
  · intro msg₁ hdr₁ msg₂ hdr₂ hMem₁ hEq₁ _ hMem₂ hEq₂ _ _ _
    rcases hHeader msg₁ hdr₁ hMem₁ hEq₁ with rfl | rfl
    · rcases hHeader msg₂ hdr₂ hMem₂ hEq₂ with rfl | rfl
      · rfl
      · rfl
    · rcases hHeader msg₂ hdr₂ hMem₂ hEq₂ with rfl | rfl
      · rfl
      · rfl

/- One user, without `auth` and with the right one. -/
theorem two_sessions_of_alice :
    CollisionFree Env.sample.sip
        (MlesHeader.mk "alice" "news" none).hashBytes
        (MlesHeader.mk "alice" "news"
          (some "a41c27caeaf22b26")).hashBytes ∧
      ∃ s,
        run Env.sample
            (joinActs 0 alice ++ joinActs 1 aliceAuth) =
          some s ∧
        ¬ OneSession Env.sample
          (joinActs 0 alice ++ joinActs 1 aliceAuth) s := by
  constructor
  · unfold CollisionFree
    decide +kernel
  · have hHeader₁ :
        Env.sample.header alice =
          some ⟨"alice", "news", none⟩ := by
      decide +kernel
    have hHeader₂ :
        Env.sample.header aliceAuth =
          some ⟨"alice", "news",
            some "a41c27caeaf22b26"⟩ := by
      decide +kernel
    rcases two_sessions hHeader₁ (by decide +kernel) hHeader₂
      (by decide +kernel) (by decide +kernel) with
      ⟨s, hRun, hEntry₁, hEntry₂⟩
    refine ⟨s, hRun, ?_⟩
    intro hOne
    have hSame :=
      hOne _ _ 0 ⟨"alice", "news", none⟩ _ _ 1
        ⟨"alice", "news", some "a41c27caeaf22b26"⟩ hEntry₁
        (by rw [firstRead_two]; exact hHeader₁) hEntry₂
        (by rw [firstRead_two]; exact hHeader₂) rfl rfl
    cases hSame

end Sys

end Mles
