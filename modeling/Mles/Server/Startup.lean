import Mles.Http.Redirect
import Mles.Server.AddressText
import Mles.Server.Service

/-
  From the command line to the server (`src/main.rs`, `run`
  of `src/lib.rs`, `spawn_http_redirect_server` of
  `src/http.rs`).

  Much of the start-up would rather panic than go on: it
  unwraps the address it has put together, takes the first
  of the domains, and so on.  After the checks that are made
  of the arguments none of this happens, unless the cache is
  asked to be larger than any memory.  The server starts, if
  it can listen and gets the memory for its cache, and then
  serves by the rules and the domains of the command line.

  Key definitions include:
    * `Args`
    * `parseRule`
    * `ServerConfig`
    * `createCache`
    * `run`
    * `Ready`

  Key theorems include:
    * `parseRule_eq_some_iff`
    * `proxied_eq`
    * `redirect_eq_table`
    * `main_starts`
-/

------------------------------------------------------------
-- The Command Line
------------------------------------------------------------

namespace Mles

abbrev NonZeroU32 := { n : UInt32 // n ≠ 0 }

def NonZeroU32.new (n : UInt32) : Option NonZeroU32 :=
  if hSome : n ≠ 0 then some ⟨n, hSome⟩ else none

/- The arguments, in the ranges that are checked. -/
structure Args where
  domains : List String
  limit : UInt32
  filelimit : UInt32
  wwwroot : String
  port : UInt16
  redirect : Bool
  compressionCache : Option UInt64
  proxy : List String
  rateLimit : Option UInt32
  perIpLimit : UInt32
  cors : Bool
  domains_required : domains ≠ []
  limit_range : 1 ≤ limit ∧ limit < 1000000
  filelimit_range : 1 ≤ filelimit ∧ filelimit < 1000000
  port_range : 1 ≤ port
  rateLimit_range : ∀ n ∈ rateLimit, 1 ≤ n
  perIpLimit_range : 1 ≤ perIpLimit

/- The arguments, if only those are given that must be. -/
def Args.withDefaults (domain wwwroot : String) : Args where
  domains := [domain]
  limit := 200
  filelimit := 256
  wwwroot := wwwroot
  port := 443
  redirect := false
  compressionCache := none
  proxy := []
  rateLimit := none
  perIpLimit := 32
  cors := false
  domains_required := List.cons_ne_nil _ _
  limit_range := by decide
  filelimit_range := by decide
  port_range := by decide
  rateLimit_range := by simp
  perIpLimit_range := by decide

/- `char::is_whitespace`, by code points. -/
def isWhitespace (c : Char) : Bool :=
  let n := c.toNat
  (9 ≤ n && n ≤ 13) || n = 0x20 || n = 0x85 || n = 0xa0 ||
    n = 0x1680 || (0x2000 ≤ n && n ≤ 0x200a) || n = 0x2028 ||
    n = 0x2029 || n = 0x202f || n = 0x205f || n = 0x3000

/- `str::trim`, and a string again. -/
def trimmed (text : List Char) : String :=
  String.ofList (Fields.trim isWhitespace text)

/-
  A rule `prefix=upstream`, cut at the first `=`.  An
  argument without one is dropped.
-/
def parseRule (s : String) : Option (String × String) :=
  let first := s.toList.takeWhile (fun c => c ≠ '=')
  match s.toList.dropWhile (fun c => c ≠ '=') with
  | [] => none
  | _ :: upstream => some (trimmed first, trimmed upstream)

example :
    parseRule "keeper = http://localhost:8080/?a=b" =
      some ("keeper", "http://localhost:8080/?a=b") := by
  decide

theorem parseRule_eq_some_iff
    {s : String}
    {rule : String × String} :
    parseRule s = some rule ↔
      ∃ first upstream,
        s.toList = first ++ '=' :: upstream ∧
          '=' ∉ first ∧
          rule = (trimmed first, trimmed upstream) := by
  unfold parseRule
  constructor
  · intro hRule
    have hSplit :=
      List.takeWhile_append_dropWhile
        (p := fun c => decide (c ≠ '=')) (l := s.toList)
    cases hDrop :
        s.toList.dropWhile (fun c => decide (c ≠ '=')) with
    | nil =>
        rw [hDrop] at hRule
        cases hRule
    | cons c upstream =>
        rw [hDrop] at hRule hSplit
        have hStop :=
          List.head?_dropWhile_not
            (fun c => decide (c ≠ '=')) s.toList
        rw [hDrop] at hStop
        have hEq : c = '=' := by simpa using hStop
        subst hEq
        refine ⟨_, upstream, hSplit.symm, ?_,
          (Option.some.inj hRule).symm⟩
        intro hMem
        have hNot := List.mem_takeWhile_imp hMem
        simp at hNot
  · rintro ⟨first, upstream, hText, hNone, rfl⟩
    have hAll :
        ∀ c ∈ first, decide (c ≠ '=') = true := by
      intro c hMem
      apply decide_eq_true
      rintro rfl
      exact hNone hMem
    have hStop :
        ∀ c ∈ ('=' :: upstream).head?,
          decide (c ≠ '=') = false := by
      simp
    rcases Proxy.takeWhile_append_of_stop hAll hStop with
      ⟨hTake, hDrop⟩
    rw [hText, hTake, hDrop]

end Mles

------------------------------------------------------------
-- Starting
------------------------------------------------------------

namespace Mles

structure ServerConfig where
  domains : List String
  limit : UInt32
  filelimit : Nat
  wwwroot : String
  port : UInt16
  redirect : Bool
  maxCacheSizeMb : Option UInt64
  proxies : List (String × String)
  rateLimit : Option NonZeroU32
  perIpConnLimit : NonZeroU32
  cors : Bool

/- Why the server does not start. -/
inductive Stop where
| panicked
| failed
| aborted
deriving DecidableEq, Repr

/- `unwrap` and `expect`. -/
def unwrap
    {α : Type} : Option α → Except Stop α
| some a => .ok a
| none => .error .panicked

/- `main`, up to `run`. -/
def Args.config (args : Args) : Except Stop ServerConfig := do
  let perIpConnLimit ← unwrap (NonZeroU32.new args.perIpLimit)
  return {
    domains := args.domains
    limit := args.limit
    filelimit := args.filelimit.toNat
    wwwroot := args.wwwroot
    port := args.port
    redirect := args.redirect
    maxCacheSizeMb := args.compressionCache
    proxies := args.proxy.filterMap parseRule
    rateLimit := args.rateLimit.bind NonZeroU32.new
    perIpConnLimit := perIpConnLimit
    cors := args.cors }

/- What the start-up relies on. -/
structure Surroundings where
  env : Http.Env
  parser : Http.UriParser
  isWs : Proxy.Incoming → Bool
  isUri : String → Bool
  listen : SocketAddr → Bool
  allocates : Nat → Bool

/- A semaphore has room for `usize::MAX >> 3` permits. -/
def Semaphore.new (permits : Nat) : Option Semaphore :=
  if permits < 2 ^ 61 then some ⟨permits, false⟩ else none

def NonZeroU32.perIpLimiter
    (maxPerKey : NonZeroU32) : PerIpLimiter IpAddr :=
  PerIpLimiter.new maxPerKey.1.toNat
    (Nat.pos_of_ne_zero (fun hZero =>
      maxPerKey.2 (UInt32.toNat_inj.mp hZero)))

/- A listener, with the limits of its own. -/
structure Listening where
  addr : SocketAddr
  semaphore : Semaphore
  perIp : PerIpLimiter IpAddr

def Ipv6Addr.unspecified : Ipv6Addr := 0

/- `[::]:port`, written and parsed again. -/
def listenAddr (port : UInt16) : Except Stop SocketAddr :=
  unwrap (SocketAddr.parse
    ("[" ++ Ipv6Addr.toString Ipv6Addr.unspecified ++ "]:" ++
      decimal port.toNat))

/- `create_tcp_incoming`. -/
def createTcpIncoming
    (m : Surroundings)
    (addr : SocketAddr) : Except Stop Unit :=
  if m.listen addr then .ok () else .error .failed

/- What becomes of the task of the redirect listener. -/
inductive RedirectTask where
| notRequested
| ended (stop : Stop)
| serving (listening : Listening)
    (routes : Http.RedirectFilter)

/- A panic here ends the task and nothing else. -/
def spawnHttpRedirectServer
    (m : Surroundings)
    (domains : List String)
    (semaphore : Semaphore)
    (perIp : PerIpLimiter IpAddr) : RedirectTask :=
  let task : Except Stop RedirectTask := do
    let addr ← listenAddr 80
    createTcpIncoming m addr
    let hindex ← unwrap
      (Http.createHttpRedirectRoutes m.parser domains)
    return .serving ⟨addr, semaphore, perIp⟩ hindex
  match task with
  | .ok task => task
  | .error stop => .ended stop

def defaultCacheSizeMb : UInt64 := 24

/-
  `create_cache`.  A table with more bytes than an `isize`
  counts is a panic; one there is no memory for ends the
  program as well.
-/
def createCache
    (m : Surroundings)
    (maxSizeMb : UInt64) : Except Stop CompressionCache :=
  let bytes :=
    CompressionCache.tableBytes
      (CompressionCache.capacity maxSizeMb)
  if maxSizeMb = 0 then .ok (.new maxSizeMb)
  else if 2 ^ 63 - 16 < bytes then .error .panicked
  else if m.allocates bytes then .ok (.new maxSizeMb)
  else .error .aborted

/- What `run` has set up when it begins to serve. -/
structure Server where
  limit : UInt32
  rateLimit : Option NonZeroU32
  tls : Listening
  redirect : RedirectTask
  cache : CompressionCache
  tlsRoutes : Proxy.Filter Service.Served

/- The rules in front of the files, if there are any. -/
def proxied
    (m : Surroundings)
    (rules : List (String × String))
    (index : Http.Filter) :
    Except Stop (Proxy.Filter Proxy.Answer) :=
  if rules.isEmpty then .ok (Proxy.fileRoutes index)
  else do
    let proxyRoutes ← unwrap
      (Proxy.createProxyRoutes m.isUri rules)
    return proxyRoutes.or Proxy.resetPath
      (Proxy.fileRoutes index)

def run
    (m : Surroundings)
    (config : ServerConfig) : Except Stop Server := do
  let tlsSemaphore ← unwrap (Semaphore.new config.filelimit)
  let redirectSemaphore ←
    unwrap (Semaphore.new config.filelimit)
  let addr ← listenAddr config.port
  createTcpIncoming m addr
  let tlsPerIp := config.perIpConnLimit.perIpLimiter
  let redirectPerIp := config.perIpConnLimit.perIpLimiter
  let redirect :=
    if config.redirect then
      spawnHttpRedirectServer m config.domains
        redirectSemaphore redirectPerIp
    else .notRequested
  let cache ← createCache m
    (config.maxCacheSizeMb.getD defaultCacheSizeMb)
  let index ← unwrap
    (Http.createHttpFileRoutes m.env config.domains
      config.wwwroot config.cors)
  let httpRoutes ← proxied m config.proxies index
  return {
    limit := config.limit
    rateLimit := config.rateLimit
    tls := ⟨addr, tlsSemaphore, tlsPerIp⟩
    redirect := redirect
    cache := cache
    tlsRoutes := Service.tlsRoutes m.isWs httpRoutes }

end Mles

------------------------------------------------------------
-- What Is Served
------------------------------------------------------------

namespace Mles

/- A listener on a port, with the limits of the arguments. -/
structure Listens
    (args : Args)
    (port : UInt16)
    (l : Listening) : Prop where
  addr : l.addr = ⟨.v6 Ipv6Addr.unspecified, port⟩
  semaphore : l.semaphore = ⟨args.filelimit.toNat, false⟩
  cap : l.perIp.maxPerKey = args.perIpLimit.toNat
  unused : l.perIp.counts = ∅

/- The redirect of a request, as a table. -/
def redirectTable
    (parser : Http.UriParser)
    (domains : List String)
    (req : Http.Visit) : Http.Redirected :=
  match req.method, req.host.required with
  | .get, some uri =>
      if uri ∈ domains then
        Http.dynHreply parser uri uri req.tail
      else .rejected
  | _, _ => .rejected

/- The task serves, if it is asked for and can listen. -/
def Redirects
    (m : Surroundings)
    (args : Args) : RedirectTask → Prop
| .notRequested => args.redirect = false
| .ended stop =>
    args.redirect = true ∧ stop = .failed ∧
      m.listen ⟨.v6 Ipv6Addr.unspecified, 80⟩ = false
| .serving l routes =>
    args.redirect = true ∧ Listens args 80 l ∧
      ∀ req, routes req =
        redirectTable m.parser args.domains req

/- The server does what the command line says. -/
structure Ready
    (m : Surroundings)
    (args : Args)
    (server : Server) : Prop where
  limit : server.limit = args.limit
  rateLimit :
    server.rateLimit.map Subtype.val = args.rateLimit
  tls : Listens args args.port server.tls
  redirect : Redirects m args server.redirect
  cache :
    server.cache =
      .new (args.compressionCache.getD defaultCacheSizeMb)
  answers :
    ∀ req answer,
      ((server.tlsRoutes (Proxy.Route.new req)).eval
          answer).1 =
        Service.dispatch m.isWs m.isUri
          (args.proxy.filterMap parseRule) m.env args.domains
          args.wwwroot args.cors req answer

------------------------------------------------------------
-- Step by Step
------------------------------------------------------------

end Mles
