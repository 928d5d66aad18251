import Mles.Proxy.Fallback
import Mles.Server.Accept

/-
  What the TLS listener serves (`create_ws_handler` as a
  route, `tlsroutes` of `src/lib.rs`, and the streams and
  requests that `serve_tls` of `src/server.rs` hands to it).

  The routes are a tree: the WebSocket handler, then one
  route for each rule of the proxy, then one for each
  domain.  Each is tried as long as those before it reject,
  and a request may have lost its body by then.  The tree
  answers every request as a table does that is read line by
  line (`Service.dispatch`).

  Key definitions include:
    * `PeerAddr`
    * `withClientAddr`
    * `Service.wsHandler`
    * `Service.tlsRoutes`
    * `Service.dispatch`
    * `Service.AnsweredByRule`

  Key theorems include:
    * `Service.tlsRoutes_of_upgrade`
    * `Service.httpRoutes_of_no_match`
    * `Service.tlsRoutes_eq_dispatch`
    * `Service.answered_by_rule_iff`
-/

------------------------------------------------------------
-- Streams and Requests
------------------------------------------------------------

namespace Mles

/- The client's address, through the layers around it. -/
class PeerAddr (T : Type) where
  peerAddr : T → Option SocketAddr

/- A stream behind the other library's traits. -/
structure Compat (T : Type) where
  inner : T

/- A stream, without the state of the session over it. -/
structure TlsStream (T : Type) where
  io : T

instance : PeerAddr PermittedStream where
  peerAddr stream := stream.peer

instance
    {T : Type}
    [PeerAddr T] : PeerAddr (Compat T) where
  peerAddr stream := PeerAddr.peerAddr stream.inner

instance
    {T : Type}
    [PeerAddr T] : PeerAddr (TlsStream T) where
  peerAddr stream := PeerAddr.peerAddr stream.io

/- What `create_tls_incoming` makes of a stream. -/
abbrev TlsConnection :=
  Compat (TlsStream (Compat PermittedStream))

/- The stream that was accepted. -/
def TlsConnection.accepted
    (conn : TlsConnection) : PermittedStream :=
  conn.inner.io.inner

/- The service of a connection puts the address in. -/
def withClientAddr
    (peer : Option SocketAddr)
    (req : Proxy.Incoming) : Proxy.Incoming :=
  match peer with
  | some addr => { req with clientAddr := some addr }
  | none => req

/- The address that goes with a served stream is its own. -/
theorem peer_of_mem_serveTls
    {T E : Type}
    {peerAddr : T → Option SocketAddr}
    {semaphore : Semaphore}
    {incoming : List (Accepted T E)}
    {stream : T}
    {peer : Option SocketAddr}
    (hServed :
      (stream, peer) ∈ serveTls peerAddr semaphore incoming) :
    peer = peerAddr stream := by
  induction incoming generalizing semaphore with
  | nil => cases hServed
  | cons item incoming ih =>
      unfold serveTls at hServed
      cases hResult : item.result with
      | error e =>
          rw [hResult] at hServed
          exact ih hServed
      | ok first =>
          rw [hResult] at hServed
          dsimp only at hServed
          split at hServed
          · rcases List.mem_cons.mp hServed with hHead | hTail
            · cases hHead
              rfl
            · exact ih hTail
          · cases hServed
          · cases hServed

end Mles

------------------------------------------------------------
-- The Tree
------------------------------------------------------------

namespace Mles

namespace Service

/- What comes of a request that is not rejected. -/
inductive Served where
| upgraded (protocol : String)
| answered (answer : Proxy.Answer)

def acceptedProtocol : String := "mles-websocket"

def secWebsocketProtocol : Proxy.HeaderName :=
  "sec-websocket-protocol"

/- `warp::header::exact`: the first value, byte by byte. -/
def exactHeader
    (name : Proxy.HeaderName)
    (value : String) : Proxy.Filter Unit :=
  Matcher.guard (fun r =>
    ((r.req.headers.getAll name).head?.map
      Proxy.HeaderValue.bytes) = some (asBytes value))

/-
  `isWs` says whether `warp::ws` takes the request for a
  handshake.  The path is not looked at.
-/
def wsHandler
    (isWs : Proxy.Incoming → Bool) : Proxy.Filter Served :=
  (Matcher.guard (fun r => isWs r.req)).andThen (fun _ =>
    (exactHeader secWebsocketProtocol acceptedProtocol).andThen
      (fun _ =>
        Matcher.extract (fun _ => .upgraded acceptedProtocol)))

def tlsRoutes
    (isWs : Proxy.Incoming → Bool)
    (httpRoutes : Proxy.Filter Proxy.Answer) :
    Proxy.Filter Served :=
  (wsHandler isWs).or Proxy.resetPath
    (httpRoutes.andThen (fun answer =>
      Matcher.extract (fun _ => .answered answer)))

------------------------------------------------------------
-- The Table
------------------------------------------------------------

/- A handshake of the protocol. -/
def upgrades
    (isWs : Proxy.Incoming → Bool)
    (req : Proxy.Incoming) : Bool :=
  isWs req &&
    ((req.headers.getAll secWebsocketProtocol).head?.map
      Proxy.HeaderValue.bytes) =
        some (asBytes acceptedProtocol)

/- The host whose files the request asks for. -/
def fileHost (req : Http.Request) : Option String :=
  if req.method = .get ∧ req.acceptEncoding ≠ .unreadable ∧
      req.ifModifiedSince ≠ .unreadable then
    req.host.required
  else none

section Table

variable
    (isWs : Proxy.Incoming → Bool)
    (isUri : String → Bool)
    (rules : List (String × String))
    (env : Http.Env)
    (domains : List String)
    (wwwRoot : String)
    (cors : Bool)

/- The line of the files. -/
def dispatchFile
    (req : Proxy.Incoming)
    (answer : (op : Proxy.Op) → op.Ans) : Option Proxy.Answer :=
  let fileReq := Proxy.fileRequest (Proxy.Route.new req)
  match fileHost fileReq with
  | none => none
  | some host =>
      if host ∈ domains then
        Proxy.fileAnswer
          ((Http.dynReply env
            (fileReq.args host host wwwRoot cors)).eval
              (fun op => answer (.file op)))
      else none

/- The line of the first rule that matches. -/
def dispatchRule
    (req : Proxy.Incoming)
    (answer : (op : Proxy.Op) → op.Ans) : Option Proxy.Answer :=
  (Proxy.firstMatch rules req.path.toList).bind
    (fun (rule, tail) =>
      (Proxy.attempt isUri rule req tail answer).map
        Proxy.Answer.proxied)

/-
  A handshake is upgraded.  Of another request, the first
  rule that matches its path has a try, and only this one;
  if there is no reply from it, the files of the host are
  next.
-/
def dispatch
    (req : Proxy.Incoming)
    (answer : (op : Proxy.Op) → op.Ans) : Option Served :=
  if upgrades isWs req then
    some (.upgraded acceptedProtocol)
  else
    ((dispatchRule isUri rules req answer).or
      (dispatchFile env domains wwwRoot cors req
        answer)).map Served.answered

/- The URLs that may be asked for. -/
def dispatchUri (req : Proxy.Incoming) : Option Proxy.Uri :=
  if upgrades isWs req then none
  else
    (Proxy.firstMatch rules req.path.toList).map
      (fun (rule, tail) => Proxy.ruleUri rule req tail)

end Table

------------------------------------------------------------
-- Line by Line
------------------------------------------------------------

theorem fileHost_eq_some_iff
    {req : Http.Request}
    {host : String} :
    fileHost req = some host ↔ req.For host := by
  unfold fileHost
  rw [Option.ite_none_right_eq_some]
  constructor
  · rintro ⟨⟨hGet, hEncoding, hIms⟩, hHost⟩
    refine ⟨hGet, hEncoding, hIms, ?_⟩
    cases hField : req.host with
    | absent => simp [hField, Http.Field.required] at hHost
    | text value =>
        rw [hField] at hHost
        cases hHost
        rfl
    | unreadable => simp [hField, Http.Field.required] at hHost
  · rintro ⟨hGet, hEncoding, hIms, hHost⟩
    refine ⟨⟨hGet, hEncoding, hIms⟩, ?_⟩
    rw [hHost]
    rfl

section Lines

variable
    {isWs : Proxy.Incoming → Bool}
    {isUri : String → Bool}
    {rules : List (String × String)}
    {env : Http.Env}
    {domains : List String}
    {wwwRoot : String}
    {cors : Bool}
    {index : Http.Filter}

/- The routes of the domains are the line of the files. -/
theorem fileAnswer_eq_dispatchFile
    (hIndex :
      Http.createHttpFileRoutes env domains wwwRoot cors =
        some index)
    (req : Proxy.Incoming)
    (answer : (op : Proxy.Op) → op.Ans) :
    Proxy.fileAnswer
        ((index (Proxy.fileRequest (Proxy.Route.new req))).eval
          (fun op => answer (.file op))) =
      dispatchFile env domains wwwRoot cors req answer := by
  unfold dispatchFile
  dsimp only
  cases hHost :
      fileHost (Proxy.fileRequest (Proxy.Route.new req)) with
  | none =>
      rw [Http.createHttpFileRoutes_rejects hIndex]
      · rfl
      · intro host _ hFor
        rw [fileHost_eq_some_iff.mpr hFor] at hHost
        cases hHost
  | some host =>
      have hFor := fileHost_eq_some_iff.mp hHost
      by_cases hMem : host ∈ domains
      · rw [Http.createHttpFileRoutes_eq hIndex hFor hMem]
        simp only [hMem, if_true]
      · rw [Http.createHttpFileRoutes_rejects hIndex]
        · simp only [hMem, if_false]
          rfl
        · intro other hOther hForOther
          have hSame :=
            hFor.isHost.symm.trans hForOther.isHost
          cases hSame
          exact hMem hOther

/- No rule matches: the files see the request as it came. -/
theorem httpRoutes_of_no_match
    {req : Proxy.Incoming}
    (hNone : Proxy.firstMatch rules req.path.toList = none)
    (answer : (op : Proxy.Op) → op.Ans) :
    ((Proxy.httpRoutes isUri rules index
        (Proxy.Route.new req)).eval answer).1 =
      Proxy.fileAnswer
        ((index (Proxy.fileRequest (Proxy.Route.new req))).eval
          (fun op => answer (.file op))) ∧
    Proxy.contacted
        ((Proxy.httpRoutes isUri rules index
          (Proxy.Route.new req)).calls answer) = [] := by
  cases hRules : rules with
  | nil =>
      change
        ((Proxy.fileRoutes index (Proxy.Route.new req)).eval
            answer).1 = _ ∧
          Proxy.contacted
            ((Proxy.fileRoutes index (Proxy.Route.new req)).calls
              answer) = []
      rw [Proxy.eval_fileRoutes, Proxy.contacted_fileRoutes]
      exact ⟨rfl, rfl⟩
  | cons first more =>
      rw [← hRules]
      have hSome : rules ≠ [] := by
        rw [hRules]
        exact List.cons_ne_nil first more
      rcases @Proxy.createProxyRoutes_tried isUri answer
          (Proxy.Route.new req) rfl rules hSome with
        ⟨routes, hRoutes, hTried⟩
      have hPassed :
          Proxy.Passed answer (Proxy.Route.new req) routes := by
        unfold Proxy.Tried at hTried
        change
          Proxy.firstMatch rules (Proxy.Route.new req).rest = _
            at hNone
        rwa [hNone] at hTried
      rcases hPassed.or (Proxy.fileRoutes index) with
        ⟨hEval, hCalls⟩
      unfold Proxy.httpRoutes
      rw [hRoutes]
      dsimp only
      rw [hEval, hCalls, Proxy.eval_fileRoutes,
        Proxy.contacted_fileRoutes]
      exact ⟨rfl, rfl⟩

/- The rules and the files, as two lines. -/
theorem httpRoutes_eq_lines
    (hIndex :
      Http.createHttpFileRoutes env domains wwwRoot cors =
        some index)
    (req : Proxy.Incoming)
    (answer : (op : Proxy.Op) → op.Ans) :
    ((Proxy.httpRoutes isUri rules index
        (Proxy.Route.new req)).eval answer).1 =
      (dispatchRule isUri rules req answer).or
        (dispatchFile env domains wwwRoot cors req answer) ∧
    ∀ uri ∈
        Proxy.contacted
          ((Proxy.httpRoutes isUri rules index
            (Proxy.Route.new req)).calls answer),
      (Proxy.firstMatch rules req.path.toList).map
          (fun (rule, tail) => Proxy.ruleUri rule req tail) =
        some uri := by
  rw [← fileAnswer_eq_dispatchFile hIndex]
  unfold dispatchRule
  cases hFirst :
      Proxy.firstMatch rules req.path.toList with
  | none =>
      rcases @httpRoutes_of_no_match isUri rules index req
          hFirst answer with
        ⟨hEval, hNothing⟩
      rw [hEval, hNothing]
      refine ⟨rfl, ?_⟩
      intro uri hMem
      cases hMem
  | some found =>
      rcases found with ⟨rule, tail⟩
      rcases @Proxy.httpRoutes_of_match isUri rules index req
          rule tail hFirst answer with
        ⟨hEval, hAsks⟩
      refine ⟨hEval, ?_⟩
      intro uri hMem
      rw [hAsks uri hMem]
      rfl

/- A handshake is all there is to an upgrade. -/
theorem eval_wsHandler
    (isWs : Proxy.Incoming → Bool)
    (r : Proxy.Route) :
    wsHandler isWs r =
      .done
        (if upgrades isWs r.req then
          some (.upgraded acceptedProtocol)
        else none, r) := by
  unfold wsHandler exactHeader upgrades
  rw [Matcher.guard_andThen, Matcher.guard_andThen]
  cases isWs r.req with
  | false => rfl
  | true =>
      rw [if_pos rfl, Bool.true_and]
      split
      · rfl
      · rfl

section Upgrade

variable {httpRoutes : Proxy.Filter Proxy.Answer}

/- It asks for nothing, whatever its path is. -/
theorem tlsRoutes_of_upgrade
    {req : Proxy.Incoming}
    (hUpgrade : upgrades isWs req = true) :
    tlsRoutes isWs httpRoutes (Proxy.Route.new req) =
      .done (some (.upgraded acceptedProtocol),
        Proxy.Route.new req) := by
  have hUpgradeNew :
      upgrades isWs (Proxy.Route.new req).req = true :=
    hUpgrade
  unfold tlsRoutes Matcher.or
  rw [eval_wsHandler, if_pos hUpgradeNew]
  rfl

theorem tlsRoutes_of_no_upgrade
    {req : Proxy.Incoming}
    (hOther : upgrades isWs req = false)
    (answer : (op : Proxy.Op) → op.Ans) :
    ((tlsRoutes isWs httpRoutes
        (Proxy.Route.new req)).eval answer).1 =
      ((httpRoutes (Proxy.Route.new req)).eval answer).1.map
        Served.answered ∧
    (tlsRoutes isWs httpRoutes
        (Proxy.Route.new req)).calls answer =
      (httpRoutes (Proxy.Route.new req)).calls answer := by
  have hRejects :
      (wsHandler isWs (Proxy.Route.new req)).eval answer =
        (none, Proxy.Route.new req) := by
    rw [eval_wsHandler]
    change
      (if upgrades isWs req = true then _ else _, _) = _
    rw [hOther]
    rfl
  have hNoCalls :
      (wsHandler isWs (Proxy.Route.new req)).calls answer =
        [] := by
    rw [eval_wsHandler]
    rfl
  have hReset :
      Proxy.resetPath (Proxy.Route.new req)
          (Proxy.Route.new req) =
        Proxy.Route.new req := rfl
  rcases Matcher.or_of_rejects Proxy.resetPath
      (httpRoutes.andThen (fun answer =>
        Matcher.extract (fun _ => Served.answered answer)))
      hRejects with
    ⟨hEval, hCalls⟩
  unfold tlsRoutes
  rw [hEval, hCalls, hNoCalls, hReset, List.nil_append]
  unfold Matcher.andThen
  rw [Program.eval_bind, Program.calls_bind]
  rcases (httpRoutes (Proxy.Route.new req)).eval answer with
    ⟨found, t⟩
  cases found with
  | none => exact ⟨rfl, List.append_nil _⟩
  | some found => exact ⟨rfl, List.append_nil _⟩

end Upgrade

/- The reply of the tree is that of the table. -/
theorem eval_tlsRoutes
    (isWs : Proxy.Incoming → Bool)
    (isUri : String → Bool)
    (rules : List (String × String))
    (hIndex :
      Http.createHttpFileRoutes env domains wwwRoot cors =
        some index)
    (req : Proxy.Incoming)
    (answer : (op : Proxy.Op) → op.Ans) :
    ((tlsRoutes isWs (Proxy.httpRoutes isUri rules index)
        (Proxy.Route.new req)).eval answer).1 =
      dispatch isWs isUri rules env domains wwwRoot cors req
        answer := by
  unfold dispatch
  cases hUpgrade : upgrades isWs req with
  | true =>
      rw [tlsRoutes_of_upgrade hUpgrade]
      rfl
  | false =>
      rw [(tlsRoutes_of_no_upgrade hUpgrade answer).1,
        (httpRoutes_eq_lines hIndex req answer).1]
      rfl

end Lines

/-
  For all rules, domains and requests, and whatever the
  surroundings answer: the tree answers as the table says,
  and asks for no URL but the one of the line it is at.  A
  handshake asks for nothing at all.
-/
theorem tlsRoutes_eq_dispatch
    (isWs : Proxy.Incoming → Bool)
    (isUri : String → Bool)
    (rules : List (String × String))
    (env : Http.Env)
    (domains : List String)
    (wwwRoot : String)
    (cors : Bool)
    (index : Http.Filter)
    (hIndex :
      Http.createHttpFileRoutes env domains wwwRoot cors =
        some index)
    (req : Proxy.Incoming)
    (answer : (op : Proxy.Op) → op.Ans) :
    let task :=
      tlsRoutes isWs (Proxy.httpRoutes isUri rules index)
        (Proxy.Route.new req)
    (task.eval answer).1 =
        dispatch isWs isUri rules env domains wwwRoot cors
          req answer ∧
      (∀ uri ∈ Proxy.contacted (task.calls answer),
        dispatchUri isWs rules req = some uri) ∧
      (upgrades isWs req = true → task.calls answer = []) := by
  dsimp only
  refine ⟨eval_tlsRoutes isWs isUri rules hIndex req answer,
    ?_⟩
  unfold dispatchUri
  cases hUpgrade : upgrades isWs req with
  | true =>
      rw [tlsRoutes_of_upgrade hUpgrade]
      refine ⟨?_, fun _ => rfl⟩
      intro uri hMem
      cases hMem
  | false =>
      rw [(tlsRoutes_of_no_upgrade hUpgrade answer).2]
      refine ⟨(httpRoutes_eq_lines hIndex req answer).2, ?_⟩
      intro hOther
      cases hOther

/- A request to `example.org`. -/
def getFrom
    (path : String) : Proxy.Incoming where
  method := "GET"
  path := path
  query := none
  headers :=
    ⟨[(Proxy.host, ⟨asBytes "example.org", by decide⟩)]⟩
  clientAddr := none

/- Two rules that match below the second prefix. -/
def sampleRules : List (String × String) :=
  [("api", "http://127.0.0.1:8080"),
    ("api/keeper", "http://127.0.0.1:8081")]

/- No upstream runs, and there is a file. -/
def deadUpstream : (op : Proxy.Op) → op.Ans
| .readBody => some []
| .request _ => none
| .collect => none
| .file op => Http.oneFile true op

/- No upstream runs: the line of the files is next. -/
theorem tlsRoutes_eq_dispatch_deadUpstream :
    ∃ index,
      Http.createHttpFileRoutes Http.sampleEnv
          ["example.org"] "/srv/www" false = some index ∧
        ((tlsRoutes (fun _ => false)
            (Proxy.httpRoutes (fun _ => true)
              sampleRules index)
            (Proxy.Route.new (getFrom "api/a.html"))).eval
              deadUpstream).1 =
          dispatch (fun _ => false) (fun _ => true)
            sampleRules Http.sampleEnv ["example.org"]
            "/srv/www" false (getFrom "api/a.html")
            deadUpstream :=
  ⟨_, rfl,
    (tlsRoutes_eq_dispatch (fun _ => false) (fun _ => true)
      sampleRules Http.sampleEnv ["example.org"]
      "/srv/www" false _ rfl (getFrom "api/a.html")
      deadUpstream).1⟩

end Service

end Mles

------------------------------------------------------------
-- The Last Word of a Rule
------------------------------------------------------------

namespace Mles

namespace Service

/- A rejection, a panic or the status of an error. -/
def IsError : Option Served → Prop
| none => True
| some (.upgraded _) => False
| some (.answered answer) => Proxy.IsError (some answer)

theorem isError_answered_iff
    (found : Option Proxy.Answer) :
    IsError (found.map Served.answered) ↔
      Proxy.IsError found := by
  cases found with
  | none => exact Iff.rfl
  | some answer => exact Iff.rfl

/-
  The request gets the reply of the rule's upstream, or an
  error, and no other upstream is asked.
-/
structure AnsweredByRule
    (isUri : String → Bool)
    (rule : String × String)
    (req : Proxy.Incoming)
    (tail : List Char)
    (answer : (op : Proxy.Op) → op.Ans)
    (task : Proxy.Task (Option Served × Proxy.Route)) :
    Prop where
  result :
    (∃ resp,
      Proxy.attempt isUri rule req tail answer = some resp ∧
        (task.eval answer).1 =
          some (.answered (.proxied resp))) ∨
      IsError (task.eval answer).1
  asks :
    ∀ uri ∈ Proxy.contacted (task.calls answer),
      uri = Proxy.ruleUri rule req tail

/-
  For all rules, requests and answers of the upstreams: the
  first rule that matches has the last word exactly if the
  request is no handshake of the protocol, and the rule's
  upstream delivers or there is no file of that path.
-/
theorem answered_by_rule_iff
    (isWs : Proxy.Incoming → Bool)
    (isUri : String → Bool)
    (rules : List (String × String))
    (env : Http.Env)
    (domains : List String)
    (wwwRoot : String)
    (cors : Bool)
    (index : Http.Filter)
    (hIndex :
      Http.createHttpFileRoutes env domains wwwRoot cors =
        some index)
    (req : Proxy.Incoming)
    (rule : String × String)
    (tail : List Char)
    (hFirst :
      Proxy.firstMatch rules req.path.toList =
        some (rule, tail))
    (answer : (op : Proxy.Op) → op.Ans) :
    AnsweredByRule isUri rule req tail answer
        (tlsRoutes isWs (Proxy.httpRoutes isUri rules index)
          (Proxy.Route.new req)) ↔
      upgrades isWs req = false ∧
        (Proxy.Delivers isUri rule req tail answer ∨
          ¬ Proxy.FileBehind env domains wwwRoot cors req
            answer) := by
  cases hUpgrade : upgrades isWs req with
  | true =>
      -- The rules are not even looked at.
      rw [tlsRoutes_of_upgrade hUpgrade]
      constructor
      · rintro ⟨⟨resp, _, hResult⟩ | hError, _⟩
        · cases hResult
        · exact hError.elim
      · rintro ⟨hOther, _⟩
        cases hOther
  | false =>
      rcases @tlsRoutes_of_no_upgrade isWs
          (Proxy.httpRoutes isUri rules index) req hUpgrade
          answer with
        ⟨hEval, hCalls⟩
      rcases @Proxy.httpRoutes_of_match isUri rules index req
          rule tail hFirst answer with
        ⟨hResult, hAsks⟩
      rw [← hCalls] at hAsks
      rw [hResult] at hEval
      rw [Proxy.delivers_iff,
        ← Proxy.isError_fileAnswer_iff hIndex req answer]
      simp only [true_and]
      cases hAttempt :
          Proxy.attempt isUri rule req tail answer with
      | some resp =>
          rw [hAttempt] at hEval
          constructor
          · intro _
            exact Or.inl (Option.some_ne_none resp)
          · intro _
            exact ⟨Or.inl ⟨resp, hAttempt, hEval⟩, hAsks⟩
      | none =>
          rw [hAttempt, Option.map_none, Option.none_or] at hEval
          constructor
          · rintro ⟨⟨resp, hReply, _⟩ | hError, _⟩
            · cases hAttempt.symm.trans hReply
            · rw [hEval, isError_answered_iff] at hError
              exact Or.inr hError
          · rintro (hReply | hError)
            · exact absurd rfl hReply
            · rw [← isError_answered_iff, ← hEval] at hError
              exact ⟨Or.inr hError, hAsks⟩

theorem answered_by_first_rule :
    ∃ index,
      Http.createHttpFileRoutes Http.sampleEnv
          ["example.org"] "/srv/www" false = some index ∧
      AnsweredByRule (fun _ => true)
        ("api", "http://127.0.0.1:8080")
        (getFrom "api/keeper/a.html") "keeper/a.html".toList
        (Proxy.answerWith Proxy.oneCookie)
        (tlsRoutes (fun _ => false)
          (Proxy.httpRoutes (fun _ => true) sampleRules index)
          (Proxy.Route.new (getFrom "api/keeper/a.html"))) :=
  ⟨_, rfl,
    (answered_by_rule_iff (fun _ => false) (fun _ => true)
      sampleRules Http.sampleEnv ["example.org"] "/srv/www"
      false _ rfl (getFrom "api/keeper/a.html")
      ("api", "http://127.0.0.1:8080")
      "keeper/a.html".toList (by decide)
      (Proxy.answerWith Proxy.oneCookie)).mpr
        ⟨rfl, Or.inl ⟨[], rfl, rfl, by decide⟩⟩⟩

/- The file is sent in the place of an error. -/
theorem file_in_place_of_error :
    Proxy.firstMatch sampleRules "api/a.html".toList =
      some (("api", "http://127.0.0.1:8080"),
        "a.html".toList) ∧
    ∃ index reply,
      Http.createHttpFileRoutes Http.sampleEnv
          ["example.org"] "/srv/www" false = some index ∧
      ((tlsRoutes (fun _ => false)
          (Proxy.httpRoutes (fun _ => true) sampleRules index)
          (Proxy.Route.new (getFrom "api/a.html"))).eval
            deadUpstream).1 =
        some (.answered (.file reply)) ∧
      reply.status = 200 ∧
      reply.body = [97] ∧
      ¬ AnsweredByRule (fun _ => true)
        ("api", "http://127.0.0.1:8080")
        (getFrom "api/a.html") "a.html".toList deadUpstream
        (tlsRoutes (fun _ => false)
          (Proxy.httpRoutes (fun _ => true) sampleRules index)
          (Proxy.Route.new (getFrom "api/a.html"))) := by
  refine ⟨by decide, _, _, rfl, rfl, rfl, rfl, ?_⟩
  rintro ⟨⟨resp, hReply, _⟩ | hError, _⟩
  · cases hReply
  · change 400 ≤ 200 at hError
    exact absurd hError (by decide)

end Service

end Mles
