import Mles.Server.AddressText
import Mles.Server.Service

/-
  Where a request comes from, as an upstream learns it.

  The address of a client passes through the whole server:
  it is taken from the stream by the policy for the sources,
  rides through the layers of TLS, is put into the requests
  of the connection, and is written behind whatever the
  client has put into `X-Forwarded-For` itself.  An upstream
  that parses the last entry gets the address back, and no
  more streams than the cap can send it addresses of one
  source.

  Key definitions include:
    * `Admission.policedStep`
    * `Service.Forwards`
    * `Service.lastEntry`
    * `Service.Attributed`

  Key theorems include:
    * `Admission.exists_run_of_policed`
    * `Service.keeps_tlsRoutes`
    * `Service.incoming_withForwardedFor`
    * `Service.upstream_learns_client`
-/

------------------------------------------------------------
-- Admission with a Rate Limiter
------------------------------------------------------------

namespace Mles

namespace Admission

/-
  A step of the policy with the rate limiter, if there is
  one, as it is when the connection comes.
-/
def policedStep
    (s : Admission)
    (a : Option (IpAddr → Bool) × AdmissionAct) :
    Option Admission :=
  match a.2 with
  | .accept conn =>
      match enforceIpPolicy a.1 conn s.limiter with
      | (some (.ok stream), limiter) =>
          some
            { limiter := limiter
              streams := stream :: s.streams }
      | (some (.error _), limiter) =>
          some { s with limiter := limiter }
      | (none, limiter) => some { s with limiter := limiter }
  | .close stream => s.step (.close stream)

/- A refused connection leaves everything as it is. -/
theorem policedStep_cases
    {s t : Admission}
    {a : Option (IpAddr → Bool) × AdmissionAct}
    (hStep : s.policedStep a = some t) :
    t = s ∨ s.step a.2 = some t := by
  rcases a with ⟨rateLimiter, act⟩
  cases act with
  | close stream => exact Or.inr hStep
  | accept conn =>
      cases conn with
      | error e => exact Or.inr hStep
      | ok stream =>
          by_cases hRefused :
              rateLimiter.any
                (fun checkKey =>
                  !checkKey (connectionKey stream)) = true
          · simp only [policedStep, enforceIpPolicy, hRefused,
              if_true] at hStep
            exact Or.inl (Option.some.inj hStep).symm
          · have hSame :
                enforceIpPolicy rateLimiter (.ok stream)
                    s.limiter =
                  enforceIpPolicy none (.ok stream)
                    s.limiter := by
              simp only [enforceIpPolicy, hRefused,
                Option.any_none, Bool.false_eq_true, if_false]
            simp only [policedStep, hSame] at hStep
            exact Or.inr hStep

/- The refused connections might as well not have come. -/
theorem exists_run_of_policed
    {maxPerKey : Nat}
    {pos : 0 < maxPerKey}
    {acts : List (Option (IpAddr → Bool) × AdmissionAct)}
    {s : Admission}
    (hRun :
      Trace.run policedStep (init maxPerKey pos) acts =
        some s) :
    ∃ acts', run maxPerKey pos acts' = some s := by
  refine Trace.run_induction
    (P := fun _ s => ∃ acts', run maxPerKey pos acts' = some s)
    ?_ ?_ hRun
  · exact ⟨[], rfl⟩
  · rintro acts s a t _ ⟨acts', hRun'⟩ hStep
    rcases policedStep_cases hStep with rfl | hStep'
    · exact ⟨acts', hRun'⟩
    · exact ⟨acts' ++ [a.2],
        Trace.run_snoc_eq_some_iff.mpr ⟨s, hRun', hStep'⟩⟩

/-
  The open streams carry the addresses they came from, and
  no source has more of them than the cap.
-/
structure Honest
    (maxPerKey : Nat)
    (s : Admission) : Prop where
  peers : ∀ o ∈ s.streams, o.peer = peerSocketAddr o.inner
  capped : ∀ ip, s.openFrom ip ≤ maxPerKey

theorem openFrom_congr
    (s : Admission)
    {ip ip' : IpAddr}
    (hSame : SameClass ip ip') :
    s.openFrom ip = s.openFrom ip' := by
  unfold openFrom
  apply List.countP_congr
  intro o _
  simp only [decide_eq_true_eq]
  rw [sameClass_iff] at hSame
  rw [sameClass_iff, sameClass_iff, hSame]

theorem Honest.moved
    {maxPerKey : Nat}
    {s t : Admission}
    {a : AdmissionAct}
    (hHonest : Honest maxPerKey s)
    (hMoved : Moved maxPerKey s a t) :
    Honest maxPerKey t := by
  cases hMoved with
  | error e => exact hHonest
  | refused stream hFull => exact hHonest
  | admitted stream o _ hRoom hOpen hStreams hNext =>
      subst hOpen
      refine ⟨?_, ?_⟩
      · intro o' hMem
        rw [hStreams] at hMem
        rcases List.mem_cons.mp hMem with rfl | hOld
        · rfl
        · exact hHonest.peers o' hOld
      · intro ip
        have hBefore := hHonest.capped ip
        unfold openFrom at hBefore ⊢
        rw [hStreams, List.countP_cons]
        by_cases hSame : SameClass ip stream.ip
        · -- There was room for one more of this source.
          have hSpare := hRoom
          rw [← openFrom_congr s hSame] at hSpare
          unfold openFrom at hSpare
          simp only [hSame, decide_true, if_true]
          exact hSpare
        · simpa [hSame] using hBefore
  | closed stream o _ hFind hStreams hNext =>
      refine ⟨?_, ?_⟩
      · intro o' hMem
        rw [hStreams] at hMem
        exact hHonest.peers o' (List.mem_of_mem_erase hMem)
      · intro ip
        have hFewer :=
          (List.erase_sublist (a := o)
            (l := s.streams)).countP_le
              (p := fun o => SameClass ip o.inner.ip)
        have hBefore := hHonest.capped ip
        unfold openFrom at hBefore ⊢
        rw [hStreams]
        exact hFewer.trans hBefore

theorem honest_of_run
    {maxPerKey : Nat}
    {pos : 0 < maxPerKey}
    {acts : List AdmissionAct}
    {s : Admission}
    (hRun : run maxPerKey pos acts = some s) :
    Honest maxPerKey s := by
  refine Trace.run_induction
    (P := fun _ s => Honest maxPerKey s) ?_ ?_ hRun
  · refine ⟨?_, fun ip => Nat.zero_le maxPerKey⟩
    intro o hOpen
    cases hOpen
  · intro acts s a t hBefore hHonest hStep
    exact hHonest.moved
      (step_moved (counted_of_run hBefore) hStep)

end Admission

end Mles

------------------------------------------------------------
-- What Is Forwarded
------------------------------------------------------------

namespace Mles

namespace Service

/- The only requests made are those that a rule makes. -/
def Forwards
    (rules : List (String × String))
    (req : Proxy.Incoming) : Proxy.Op → Prop
| .request sent =>
    ∃ rule ∈ rules, ∃ tail body,
      sent = Proxy.ruleRequest rule req tail body
| _ => True

/- The routes never change the request they look at. -/
def About
    (req : Proxy.Incoming)
    (r : Proxy.Route) : Prop :=
  r.req = req

section Forwarding

variable
    {isUri : String → Bool}
    {rules : List (String × String)}
    {req : Proxy.Incoming}

theorem always_forward
    (isUri : String → Bool)
    (upstream tail query method : String)
    (headers : Proxy.HeaderMap)
    (body : Proxy.Bytes) :
    (Proxy.forward isUri upstream tail query method headers
        body).Always
      (fun op => ∀ sent, op = .request sent →
        sent = Proxy.forwardRequest upstream tail query
          method headers body) := by
  change
    (if isUri (Proxy.forwardUrl upstream tail query) then _
      else _ : Proxy.Task (Option Proxy.Response)).Always _
  split
  · rw [Program.ask_bind, Program.always_call]
    refine ⟨?_, ?_⟩
    · rintro sent ⟨⟩
      rfl
    · intro head
      cases head with
      | none => trivial
      | some head =>
          dsimp only
          rw [Program.ask_bind, Program.always_call]
          refine ⟨?_, ?_⟩
          · rintro sent ⟨⟩
          · intro collected
            cases collected with
            | none => trivial
            | some bytes => trivial
  · trivial

theorem keeps_prefixFilter
    (pre : String) :
    Matcher.Keeps (About req) (Forwards rules req)
      (fun _ => True) (Proxy.prefixFilter pre) := by
  intro r hAbout
  rcases Proxy.prefixFilter_eq pre r with ⟨rest, hEq⟩
  rw [hEq]
  exact ⟨trivial, hAbout, fun _ _ => trivial⟩

theorem keeps_query :
    Matcher.Keeps (About req) (Forwards rules req)
      (fun query => query = req.query.getD "")
      (Proxy.rawQuery.or Proxy.resetPath
        (Matcher.extract (fun _ => ""))) := by
  intro r hAbout
  have hEq :
      (Proxy.rawQuery.or Proxy.resetPath
          (Matcher.extract (fun _ => ""))) r =
        .done (some (r.req.query.getD ""), r) := by
    unfold Matcher.or Proxy.rawQuery
    cases r.req.query with
    | none => rfl
    | some query => rfl
  rw [hEq]
  refine ⟨trivial, hAbout, ?_⟩
  rintro query ⟨⟩
  exact congrArg (fun req => req.query.getD "") hAbout

theorem keeps_bodyBytes :
    Matcher.Keeps (About req) (Forwards rules req)
      (fun _ => True) Proxy.bodyBytes := by
  intro r hAbout
  unfold Proxy.bodyBytes
  split
  · exact ⟨trivial, hAbout, fun _ _ => trivial⟩
  · exact ⟨⟨trivial, fun _ => trivial⟩,
      fun _ => ⟨hAbout, fun _ _ => trivial⟩⟩

theorem keeps_proxyRoute
    {rule : String × String}
    (hRule : rule ∈ rules) :
    Matcher.Keeps (About req) (Forwards rules req)
      (fun _ => True) (Proxy.proxyRoute isUri rule) := by
  unfold Proxy.proxyRoute
  refine (keeps_prefixFilter rule.1).andThen ?_
  intro _ _
  have hTail :
      Matcher.Keeps (About req) (Forwards rules req)
        (fun _ => True) Proxy.tail :=
    fun _ hAbout => ⟨trivial, hAbout, fun _ _ => trivial⟩
  refine hTail.andThen ?_
  intro tail _
  refine keeps_query.andThen ?_
  rintro query rfl
  have hReq :
      Matcher.Keeps (About req) (Forwards rules req)
        (fun found => found = req)
        (Matcher.extract (fun r => r.req) :
          Proxy.Filter Proxy.Incoming) :=
    Matcher.keeps_extract (fun _ hAbout => hAbout)
  refine hReq.andThen ?_
  rintro found rfl
  refine keeps_bodyBytes.andThen ?_
  intro body _ r hAbout
  rw [Program.always_bind_iff, Program.yields_bind_iff]
  refine ⟨⟨?_, ?_⟩, ?_⟩
  · refine (always_forward ..).mono ?_
    intro op hOp
    cases op with
    | request sent =>
        refine ⟨rule, hRule, tail.toList, body, ?_⟩
        rw [hOp sent rfl, Proxy.ruleRequest,
          String.ofList_toList]
    | readBody => trivial
    | collect => trivial
    | file op => trivial
  · exact Program.yields_of_forall _ (fun _ => trivial)
  · exact Program.yields_of_forall _
      (fun _ => ⟨hAbout, fun _ _ => trivial⟩)

theorem about_resetPath
    (s t : Proxy.Route)
    (_ : About req s)
    (hAbout : About req t) :
    About req (Proxy.resetPath s t) :=
  hAbout

theorem keeps_fileRoutes
    (index : Http.Filter) :
    Matcher.Keeps (About req) (Forwards rules req)
      (fun _ => True) (Proxy.fileRoutes index) := by
  intro r hAbout
  unfold Proxy.fileRoutes
  rw [Program.always_bind_iff, Program.yields_bind_iff]
  refine ⟨⟨?_, ?_⟩, ?_⟩
  · exact Program.always_embed _ (fun _ => trivial)
  · exact Program.yields_of_forall _ (fun _ => trivial)
  · exact Program.yields_of_forall _
      (fun _ => ⟨hAbout, fun _ _ => trivial⟩)

theorem keeps_httpRoutes
    (isUri : String → Bool)
    (rules : List (String × String))
    (index : Http.Filter)
    (req : Proxy.Incoming) :
    Matcher.Keeps (About req) (Forwards rules req)
      (fun _ => True)
      (Proxy.httpRoutes isUri rules index) := by
  unfold Proxy.httpRoutes
  by_cases hNil : rules = []
  · subst hNil
    exact keeps_fileRoutes index
  · rcases Proxy.exists_createProxyRoutes isUri
        (P := fun tried routes =>
          (∀ rule ∈ tried, rule ∈ rules) →
            Matcher.Keeps (About req) (Forwards rules req)
              (fun _ => True) routes)
        (fun rule hIn =>
          keeps_proxyRoute (hIn rule (by simp)))
        (fun tried prev rule hPrev hIn =>
          (hPrev (fun other hMem =>
              hIn other (by simp [hMem]))).or about_resetPath
            (keeps_proxyRoute (hIn rule (by simp))))
        hNil with
      ⟨routes, hRoutes, hKeeps⟩
    rw [hRoutes]
    exact (hKeeps (fun _ hMem => hMem)).or about_resetPath
      (keeps_fileRoutes index)

/- The whole tree asks for nothing else. -/
theorem keeps_tlsRoutes
    (isWs : Proxy.Incoming → Bool)
    (isUri : String → Bool)
    (rules : List (String × String))
    (index : Http.Filter)
    (req : Proxy.Incoming) :
    Matcher.Keeps (About req) (Forwards rules req)
      (fun _ => True)
      (tlsRoutes isWs
        (Proxy.httpRoutes isUri rules index)) := by
  refine Matcher.Keeps.or about_resetPath ?_ ?_
  · refine (Matcher.keeps_guard _).andThen ?_
    intro _ _
    refine (Matcher.keeps_guard _).andThen ?_
    intro _ _
    exact Matcher.keeps_extract (fun _ _ => trivial)
  · refine (keeps_httpRoutes isUri rules index req).andThen ?_
    intro _ _
    exact Matcher.keeps_extract (fun _ _ => trivial)

end Forwarding

end Service

end Mles

------------------------------------------------------------
-- What Is Learned
------------------------------------------------------------

namespace Mles

namespace Service

/- The text of bytes that are ASCII. -/
def textOf (bytes : Proxy.Bytes) : String :=
  String.ofList (bytes.map (fun b => Char.ofNat b.toNat))

/- An upstream trusts the last entry and no other. -/
def lastEntry (headers : Proxy.HeaderMap) : Option IpAddr :=
  (Proxy.incoming headers).getLast?.bind
    (fun entry => IpAddr.parse (textOf entry))

theorem textOf_asBytes
    {s : String}
    (hAscii : isAscii s = true) :
    textOf (asBytes s) = s := by
  apply String.toList_inj.mp
  unfold textOf
  rw [asBytes_of_isAscii hAscii, String.toList_ofList,
    List.map_map]
  refine (List.map_congr_left ?_).trans (List.map_id _)
  intro c hMem
  have hSmall : c.toNat < 128 := by
    simpa using List.all_eq_true.mp hAscii c hMem
  have hNat : c.val.toUInt8.toNat = c.toNat :=
    Nat.mod_eq_of_lt (Nat.lt_trans hSmall (by decide))
  simp only [Function.comp_apply, id_eq, hNat,
    Char.ofNat_toNat]

theorem isAscii_toString
    (ip : IpAddr) :
    isAscii ip.toString = true := by
  rw [isAscii, List.all_eq_true]
  intro c hMem
  simpa using
    Proxy.toNat_of_isAddressChar
      (isAddressText_toString ip c hMem)

/- The text of an address is read back by the upstream. -/
theorem parse_textOf
    (ip : IpAddr) :
    IpAddr.parse (textOf (asBytes ip.toString)) = some ip := by
  rw [textOf_asBytes (isAscii_toString ip),
    IpAddr.parse_toString]

/- The one value that is sent is text. -/
theorem incoming_of_value
    {headers : Proxy.HeaderMap}
    {value : Proxy.HeaderValue}
    (hOne :
      headers.getAll Proxy.xForwardedFor = [value])
    (hText :
      ∀ b ∈ value.bytes, Proxy.isVisibleAscii b = true) :
    Proxy.incoming headers =
      (Proxy.entries value.bytes).filter (fun e => e ≠ []) := by
  have hStr : value.toStr = some value.bytes :=
    if_pos (List.all_eq_true.mpr hText)
  simp [Proxy.incoming, hOne, hStr]

/-
  Read entry by entry, the header that is sent is the one
  that came in, with the address of the client behind it.
-/
theorem incoming_withForwardedFor
    (headers : Proxy.HeaderMap)
    (clientIp : Option IpAddr) :
    Proxy.incoming (Proxy.withForwardedFor headers clientIp) =
      Proxy.incoming headers ++
        (clientIp.map (fun ip => asBytes ip.toString)).toList := by
  cases hText : Proxy.forwardedFor headers clientIp with
  | none =>
      rw [Proxy.withForwardedFor_of_none hText,
        ((Proxy.forwardedFor_eq_none_iff headers
          clientIp).mp hText).2]
      simp
  | some text =>
      rcases Proxy.getAll_withForwardedFor hText with
        ⟨value, hOne, rfl⟩
      rcases Proxy.entries_forwardedFor hText with
        ⟨before, hBefore, hEntries⟩
      rw [incoming_of_value hOne
          (Proxy.forwardedFor_visible hText),
        hEntries, List.filter_append, hBefore]
      congr 1
      cases clientIp with
      | none => rfl
      | some ip =>
          have hNonempty : asBytes ip.toString ≠ [] := by
            intro hNone
            have hParsed := parse_textOf ip
            rw [hNone] at hParsed
            cases hParsed
          simp [hNonempty]

------------------------------------------------------------
-- The Client
------------------------------------------------------------

/-
  What the upstream learns from a request that came on this
  stream.  If the address of the client is known, the last
  entry is that address in its canonical form; the stream is
  counted under the key of the address the upstream learns,
  and no more streams than the cap are open from its source.
  The entries before it are those of the client.
-/
structure Attributed
    (maxPerKey : Nat)
    (s : Admission)
    (stream : PermittedStream)
    (req : Proxy.Incoming)
    (sent : Proxy.Request) : Prop where
  known :
    ∀ addr, stream.inner.peerAddr = some addr →
      lastEntry sent.headers = some addr.ip.toCanonical ∧
        stream.permit.key =
          rateLimitKey addr.ip.toCanonical ∧
        s.openFrom addr.ip.toCanonical ≤ maxPerKey
  unknown :
    stream.inner.peerAddr = none →
      lastEntry sent.headers = lastEntry req.headers
  entries :
    Proxy.incoming sent.headers =
      Proxy.incoming req.headers ++
        (stream.inner.peerAddr.map
          (fun addr =>
            asBytes addr.ip.toCanonical.toString)).toList

theorem incoming_ruleRequest
    (rule : String × String)
    (req : Proxy.Incoming)
    (tail : List Char)
    (body : Proxy.Bytes) :
    Proxy.incoming
        (Proxy.ruleRequest rule req tail body).headers =
      Proxy.incoming req.headers ++
        ((req.clientAddr.map SocketAddr.ip).map
          (fun ip => asBytes ip.toString)).toList := by
  rw [← incoming_withForwardedFor]
  unfold Proxy.incoming Proxy.ruleRequest
  rw [Proxy.getAll_forwardRequest, if_neg (by decide)]

/- The address of the stream is in all of its requests. -/
theorem clientAddr_withClientAddr
    (peer : Option SocketAddr)
    {req : Proxy.Incoming}
    (hWire : req.clientAddr = none) :
    (withClientAddr peer req).clientAddr = peer ∧
      (withClientAddr peer req).headers = req.headers := by
  cases peer with
  | none => exact ⟨hWire, rfl⟩
  | some addr => exact ⟨rfl, rfl⟩

/-
  In every run of the policy, for every stream that is open
  and served, every request on it, whatever headers it has,
  and every request that any rule makes of it.
-/
theorem upstream_learns_client
    (maxPerKey : Nat)
    (pos : 0 < maxPerKey)
    (acts : List (Option (IpAddr → Bool) × AdmissionAct))
    (s : Admission)
    (hRun :
      Trace.run Admission.policedStep
          (Admission.init maxPerKey pos) acts = some s)
    (E : Type)
    (semaphore : Semaphore)
    (incoming : List (Accepted TlsConnection E))
    (conn : TlsConnection)
    (peer : Option SocketAddr)
    (hServed :
      (conn, peer) ∈
        serveTls PeerAddr.peerAddr semaphore incoming)
    (hOpen : conn.accepted ∈ s.streams)
    (isWs : Proxy.Incoming → Bool)
    (isUri : String → Bool)
    (rules : List (String × String))
    (index : Http.Filter)
    (req : Proxy.Incoming)
    (hWire : req.clientAddr = none)
    (answer : (op : Proxy.Op) → op.Ans)
    (sent : Proxy.Request)
    (hSent :
      Proxy.Op.request sent ∈
        (tlsRoutes isWs (Proxy.httpRoutes isUri rules index)
          (Proxy.Route.new (withClientAddr peer req))).calls
            answer) :
    Attributed maxPerKey s conn.accepted req sent := by
  rcases Admission.exists_run_of_policed hRun with
    ⟨acts', hRun'⟩
  have hHonest := Admission.honest_of_run hRun'
  have hKey :=
    (Admission.counted_of_run hRun').keyed conn.accepted hOpen
  have hPeer : peer = peerSocketAddr conn.accepted.inner :=
    (peer_of_mem_serveTls hServed).trans
      (hHonest.peers conn.accepted hOpen)
  have hForwards :=
    (keeps_tlsRoutes isWs isUri rules index
      (withClientAddr peer req) (Proxy.Route.new _)
        rfl).1.of_mem_calls hSent
  rcases hForwards with ⟨rule, _, tail, body, rfl⟩
  rcases clientAddr_withClientAddr peer hWire with
    ⟨hAddr, hHeaders⟩
  have hEntries :
      Proxy.incoming
          (Proxy.ruleRequest rule (withClientAddr peer req)
            tail body).headers =
        Proxy.incoming req.headers ++
          (conn.accepted.inner.peerAddr.map
            (fun addr =>
              asBytes addr.ip.toCanonical.toString)).toList := by
    rw [incoming_ruleRequest, hAddr, hHeaders, hPeer]
    unfold peerSocketAddr
    cases conn.accepted.inner.peerAddr with
    | none => rfl
    | some addr => rfl
  refine ⟨?_, ?_, hEntries⟩
  · intro addr hKnown
    refine ⟨?_, ?_, hHonest.capped _⟩
    · unfold lastEntry
      rw [hEntries, hKnown]
      simp [parse_textOf]
    · rw [hKey]
      unfold connectionKey peerSocketAddr
      rw [hKnown]
      rfl
  · intro hUnknown
    unfold lastEntry
    rw [hEntries, hUnknown]
    simp

/- An IPv4 client on the dual-stack listener. -/
def servedPeer : PermittedStream where
  inner := Admission.mappedPeer
  permit := ⟨.v4 (Ipv4Addr.new 81 2 3 4)⟩
  peer := some ⟨.v4 (Ipv4Addr.new 81 2 3 4), 40001⟩

/- A request with an entry that is forged. -/
def forgedRequest : Proxy.Incoming where
  method := "GET"
  path := "keeper/verify"
  query := none
  headers :=
    ⟨[(Proxy.xForwardedFor, ⟨asBytes "6.6.6.6", by decide⟩)]⟩
  clientAddr := none

theorem upstream_learns_mapped_peer :
    ∃ s,
      Trace.run Admission.policedStep
          (Admission.init 4 (by decide))
          [(none, .accept (.ok Admission.mappedPeer))] =
        some s ∧
      Attributed 4 s servedPeer forgedRequest
        (Proxy.ruleRequest
          ("keeper", "http://127.0.0.1:8080")
          (withClientAddr servedPeer.peer forgedRequest)
          "verify".toList []) := by
  refine ⟨_, rfl, ?_⟩
  refine upstream_learns_client 4 (by decide)
    [(none, .accept (.ok Admission.mappedPeer))] _ rfl IoError
    ⟨4, false⟩ [⟨.ok ⟨⟨⟨servedPeer⟩⟩⟩, 0⟩] ⟨⟨⟨servedPeer⟩⟩⟩
    servedPeer.peer (List.Mem.head _) ?_ (fun _ => false)
    (fun _ => true)
    [("keeper", "http://127.0.0.1:8080")]
    (fun _ => .done .rejected) forgedRequest rfl
    (Proxy.answerWith Proxy.oneCookie) _
    (List.Mem.tail _ (List.Mem.head _))
  exact List.mem_singleton.mpr (by decide +kernel)

end Service

end Mles
