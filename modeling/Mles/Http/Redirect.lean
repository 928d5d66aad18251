import Mles.Http.Confinement
import Mles.Http.Freshness
import Mles.Proxy.Forward

/-
  The redirects from HTTP to HTTPS, and the routes by host
  (`dyn_hreply`, `create_http_redirect_routes` and
  `create_http_file_routes` of `src/http.rs`).

  Both lists of routes are built in the same way: one route
  for each domain, put in front of those before it.  A route
  passes on what is for another host, so that neither the
  order of the domains nor a repetition makes a difference.

  The location of a redirect is put together from the domain
  and the tail of the path.  Neither the query nor the port
  of the HTTPS listener has a place in it.

  Key definitions include:
    * `Http.UriParser`
    * `Http.dynHreply`
    * `Http.createHttpRedirectRoutes`
    * `Http.portOf`
    * `Http.SameResource`

  Key theorems include:
    * `Http.createHttpRedirectRoutes_eq`
    * `Http.virtual_hosts_exact`
    * `Http.sameResource_iff`
    * `Http.redirect_exact_iff`
-/

------------------------------------------------------------
-- Redirects
------------------------------------------------------------

namespace Mles

namespace Http

open Proxy (endsAuthority splitUrl)

/-
  `Uri::from_str`, with the text that the result has when it
  is written again.  The text may differ from what was read:
  a fragment is dropped, and an empty path is a slash.
-/
structure UriParser where
  fromStr : String → Option String
  keepsAuthority :
    ∀ rest text,
      fromStr ("https://" ++ rest) = some text →
        ∃ url,
          splitUrl text = some url ∧
            url.scheme = "https".toList ∧
            url.authority =
              rest.toList.takeWhile
                (fun c => !endsAuthority c)
  keepsText :
    ∀ rest text,
      fromStr ("https://" ++ rest) = some text →
        '#' ∉ rest.toList →
        (rest.toList.dropWhile
          (fun c => !endsAuthority c)).head? = some '/' →
          text = "https://" ++ rest

/- What becomes of a request in a route. -/
inductive Redirected where
| reply (status : Nat) (location : String)
| rejected
| panicked
deriving DecidableEq, Repr

/- `warp::redirect::redirect` is for good (301). -/
def dynHreply
    (parser : UriParser)
    (uri domain tail : String) : Redirected :=
  if uri ≠ domain then .rejected
  else
    match parser.fromStr
        ("https://" ++ (domain ++ "/" ++ tail)) with
    | some location => .reply 301 location
    | none => .panicked

/-
  A request with its query, which is no part of the tail of
  its path.
-/
structure Visit extends Request where
  query : Option String
deriving DecidableEq, Repr

abbrev RedirectFilter := Visit → Redirected

def RedirectFilter.or
    (a b : RedirectFilter) : RedirectFilter :=
  fun req =>
    match a req with
    | .rejected => b req
    | outcome => outcome

/- The route of one domain. -/
def redirectRoute
    (parser : UriParser)
    (domain : String) : RedirectFilter :=
  fun req =>
    match req.method, req.host.required with
    | .get, some uri => dynHreply parser uri domain req.tail
    | _, _ => .rejected

/- Without a domain there is a panic. -/
def createHttpRedirectRoutes
    (parser : UriParser)
    (domains : List String) : Option RedirectFilter :=
  match swapRemove (domains.map (redirectRoute parser)) with
  | none => none
  | some (hindex, httpIndex) =>
      some (httpIndex.foldl (fun hindex val => val.or hindex)
        hindex)

end Http

end Mles

------------------------------------------------------------
-- Routes by Host
------------------------------------------------------------

namespace Mles

namespace Http

open Proxy (endsAuthority splitUrl queryOf)

/- The request asks for this host. -/
structure Request.AtHost
    (req : Request)
    (host : String) : Prop where
  isGet : req.method = .get
  isHost : req.host = .text host

theorem dynHreply_of_ne
    (parser : UriParser)
    {uri domain : String}
    (hHost : uri ≠ domain)
    (tail : String) :
    dynHreply parser uri domain tail = .rejected :=
  if_pos hHost

theorem dynHreply_ne_rejected
    (parser : UriParser)
    (domain tail : String) :
    dynHreply parser domain domain tail ≠ .rejected := by
  unfold dynHreply
  rw [if_neg (not_not.mpr rfl)]
  cases parser.fromStr
      ("https://" ++ (domain ++ "/" ++ tail)) with
  | none => exact Redirected.noConfusion
  | some location => exact Redirected.noConfusion

theorem redirectRoute_eq
    (parser : UriParser)
    (domain : String)
    {req : Visit}
    {host : String}
    (hAt : req.toRequest.AtHost host) :
    redirectRoute parser domain req =
      dynHreply parser host domain req.tail := by
  unfold redirectRoute
  rw [hAt.isGet, hAt.isHost]
  rfl

theorem redirectRoute_rejects
    (parser : UriParser)
    {domain : String}
    {req : Visit}
    (hNot : ¬ req.toRequest.AtHost domain) :
    redirectRoute parser domain req = .rejected := by
  cases hMethod : req.method with
  | other =>
      unfold redirectRoute
      rw [hMethod]
  | get =>
      cases hField : req.host with
      | text host =>
          rw [redirectRoute_eq parser domain ⟨hMethod, hField⟩]
          apply dynHreply_of_ne
          rintro rfl
          exact hNot ⟨hMethod, hField⟩
      | absent =>
          unfold redirectRoute
          rw [hMethod, hField]
          rfl
      | unreadable =>
          unfold redirectRoute
          rw [hMethod, hField]
          rfl

theorem redirect_or_of_rejected
    {a : RedirectFilter}
    {req : Visit}
    (hRejected : a req = .rejected)
    (b : RedirectFilter) :
    (a.or b) req = b req := by
  unfold RedirectFilter.or
  rw [hRejected]

theorem redirect_or_of_answers
    {a : RedirectFilter}
    {req : Visit}
    (hAnswers : a req ≠ .rejected)
    (b : RedirectFilter) :
    (a.or b) req = a req := by
  unfold RedirectFilter.or
  split
  · rename_i hRejected
    exact absurd hRejected hAnswers
  · rfl

theorem createHttpRedirectRoutes_eq_some
    {parser : UriParser}
    {domains : List String}
    {routes : RedirectFilter}
    (hRoutes :
      createHttpRedirectRoutes parser domains = some routes) :
    ∃ hindex httpIndex,
      swapRemove (domains.map (redirectRoute parser)) =
          some (hindex, httpIndex) ∧
        routes =
          httpIndex.foldl (fun hindex val => val.or hindex)
            hindex := by
  unfold createHttpRedirectRoutes at hRoutes
  cases hSwap :
      swapRemove (domains.map (redirectRoute parser)) with
  | none =>
      rw [hSwap] at hRoutes
      cases hRoutes
  | some found =>
      rcases found with ⟨hindex, httpIndex⟩
      rw [hSwap] at hRoutes
      cases hRoutes
      exact ⟨hindex, httpIndex, rfl, rfl⟩

/- A configured host is redirected by its own route. -/
theorem createHttpRedirectRoutes_eq
    {parser : UriParser}
    {domains : List String}
    {routes : RedirectFilter}
    (hRoutes :
      createHttpRedirectRoutes parser domains = some routes)
    {req : Visit}
    {host : String}
    (hAt : req.toRequest.AtHost host)
    (hMem : host ∈ domains) :
    routes req = dynHreply parser host host req.tail := by
  have hHost : redirectRoute parser host req ≠ .rejected := by
    rw [redirectRoute_eq parser host hAt]
    exact dynHreply_ne_rejected parser host req.tail
  have hOther :
      ∀ domain, domain ≠ host →
        redirectRoute parser domain req = .rejected := by
    intro domain hNe
    rw [redirectRoute_eq parser domain hAt]
    exact dynHreply_of_ne parser hNe.symm req.tail
  rcases createHttpRedirectRoutes_eq_some hRoutes with
    ⟨hindex, httpIndex, hSwap, rfl⟩
  rw [← redirectRoute_eq parser host hAt]
  exact @folded_eq _ _ _ RedirectFilter.or (· req) _ _ _ hSwap
    _ (redirect_or_of_answers hHost)
    (fun domain hNe =>
      redirect_or_of_rejected (hOther domain hNe))
    hMem

theorem createHttpRedirectRoutes_rejects
    {parser : UriParser}
    {domains : List String}
    {routes : RedirectFilter}
    (hRoutes :
      createHttpRedirectRoutes parser domains = some routes)
    {req : Visit}
    (hNone :
      ∀ host ∈ domains, ¬ req.toRequest.AtHost host) :
    routes req = .rejected := by
  have hAll :
      ∀ host ∈ domains,
        redirectRoute parser host req = .rejected :=
    fun host hMem =>
      redirectRoute_rejects parser (hNone host hMem)
  rcases createHttpRedirectRoutes_eq_some hRoutes with
    ⟨hindex, httpIndex, hSwap, rfl⟩
  exact @folded_of_rejects _ _ _ RedirectFilter.or (· req) _ _
    _ hSwap _ hAll
    (fun host hMem =>
      redirect_or_of_rejected (hAll host hMem))

------------------------------------------------------------
-- The List of Domains
------------------------------------------------------------

theorem exists_swapRemove
    {α : Type}
    {xs : List α}
    (hSome : xs ≠ []) :
    ∃ x rest, swapRemove xs = some (x, rest) := by
  cases xs with
  | nil => exact absurd rfl hSome
  | cons x xs =>
      simp only [swapRemove]
      cases xs.getLast? with
      | none => exact ⟨_, _, rfl⟩
      | some last => exact ⟨_, _, rfl⟩

theorem exists_fileRoutes
    (env : Env)
    {domains : List String}
    (hSome : domains ≠ [])
    (wwwRoot : String)
    (cors : Bool) :
    ∃ routes,
      createHttpFileRoutes env domains wwwRoot cors =
        some routes := by
  have hRoutes :
      domains.map (fileRoute env wwwRoot cors) ≠ [] := by
    rw [ne_eq, List.map_eq_nil_iff]
    exact hSome
  rcases exists_swapRemove hRoutes with ⟨x, rest, hSwap⟩
  unfold createHttpFileRoutes
  rw [hSwap]
  exact ⟨_, rfl⟩

theorem exists_redirectRoutes
    (parser : UriParser)
    {domains : List String}
    (hSome : domains ≠ []) :
    ∃ routes,
      createHttpRedirectRoutes parser domains =
        some routes := by
  have hRoutes :
      domains.map (redirectRoute parser) ≠ [] := by
    rw [ne_eq, List.map_eq_nil_iff]
    exact hSome
  rcases exists_swapRemove hRoutes with ⟨x, rest, hSwap⟩
  unfold createHttpRedirectRoutes
  rw [hSwap]
  exact ⟨_, rfl⟩

section

variable {domains domains' : List String}
variable (hSame : ∀ domain, domain ∈ domains ↔ domain ∈ domains')

include hSame

/- The routes depend on which domains there are. -/
theorem fileRoutes_congr
    {env : Env}
    {wwwRoot : String}
    {cors : Bool}
    {routes routes' : Filter}
    (hRoutes :
      createHttpFileRoutes env domains wwwRoot cors =
        some routes)
    (hRoutes' :
      createHttpFileRoutes env domains' wwwRoot cors =
        some routes') :
    routes = routes' := by
  funext req
  by_cases hFor : ∃ host ∈ domains, req.For host
  · rcases hFor with ⟨host, hMem, hFor⟩
    rw [createHttpFileRoutes_eq hRoutes hFor hMem,
      createHttpFileRoutes_eq hRoutes' hFor
        ((hSame host).mp hMem)]
  · have hNone : ∀ host ∈ domains, ¬ req.For host :=
      fun host hMem hHost => hFor ⟨host, hMem, hHost⟩
    rw [createHttpFileRoutes_rejects hRoutes hNone,
      createHttpFileRoutes_rejects hRoutes'
        (fun host hMem => hNone host ((hSame host).mpr hMem))]

theorem redirectRoutes_congr
    {parser : UriParser}
    {routes routes' : RedirectFilter}
    (hRoutes :
      createHttpRedirectRoutes parser domains = some routes)
    (hRoutes' :
      createHttpRedirectRoutes parser domains' =
        some routes') :
    routes = routes' := by
  funext req
  by_cases hAt : ∃ host ∈ domains, req.toRequest.AtHost host
  · rcases hAt with ⟨host, hMem, hAt⟩
    rw [createHttpRedirectRoutes_eq hRoutes hAt hMem,
      createHttpRedirectRoutes_eq hRoutes' hAt
        ((hSame host).mp hMem)]
  · have hNone :
        ∀ host ∈ domains, ¬ req.toRequest.AtHost host :=
      fun host hMem hHost => hAt ⟨host, hMem, hHost⟩
    rw [createHttpRedirectRoutes_rejects hRoutes hNone,
      createHttpRedirectRoutes_rejects hRoutes'
        (fun host hMem => hNone host ((hSame host).mpr hMem))]

end

/- The request names one of these hosts. -/
def Request.HostIn
    (req : Request)
    (domains : List String) : Prop :=
  ∃ host ∈ domains, req.host = .text host

/- The other headers that the file routes read are text. -/
structure Request.Readable
    (req : Request) : Prop where
  encoding : req.acceptEncoding ≠ .unreadable
  ims : req.ifModifiedSince ≠ .unreadable

/- The file routes answer for the hosts of the list. -/
theorem fileRoutes_answer_iff
    {env : Env}
    {domains : List String}
    {wwwRoot : String}
    {cors : Bool}
    {routes : Filter}
    (hRoutes :
      createHttpFileRoutes env domains wwwRoot cors =
        some routes)
    {req : Request}
    (hGet : req.method = .get)
    (hReadable : req.Readable) :
    ((routes req).Yields (· ≠ .rejected) ↔
        req.HostIn domains) ∧
      (routes req = .done .rejected ↔
        ¬ req.HostIn domains) := by
  by_cases hIn : req.HostIn domains
  · rcases hIn with ⟨host, hMem, hHost⟩
    have hAnswer :=
      createHttpFileRoutes_eq hRoutes
        ⟨hGet, hReadable.encoding, hReadable.ims, hHost⟩ hMem
    have hIn : req.HostIn domains := ⟨host, hMem, hHost⟩
    have hYields :
        (routes req).Yields (· ≠ .rejected) := by
      rw [hAnswer]
      exact dynReply_answers env rfl
    refine ⟨iff_of_true hYields hIn, iff_of_false ?_ ?_⟩
    · intro hRejected
      rw [hRejected] at hYields
      exact hYields rfl
    · exact not_not.mpr hIn
  · have hRejected : routes req = .done .rejected := by
      apply createHttpFileRoutes_rejects hRoutes
      intro host hMem hFor
      exact hIn ⟨host, hMem, hFor.isHost⟩
    refine ⟨iff_of_false ?_ hIn, iff_of_true hRejected hIn⟩
    rw [hRejected]
    exact fun hYields => hYields rfl

/- No file is asked for but the one below the host. -/
theorem fileRoutes_about_host
    {env : Env}
    {domains : List String}
    {wwwRoot : String}
    {cors : Bool}
    {routes : Filter}
    (hRoutes :
      createHttpFileRoutes env domains wwwRoot cors =
        some routes)
    {req : Request}
    {host : String}
    (hHost : req.host = .text host) :
    (routes req).Always
      (Op.About (filePath wwwRoot host req.tail)) := by
  by_cases hFor : host ∈ domains ∧ req.For host
  · rw [createHttpFileRoutes_eq hRoutes hFor.2 hFor.1]
    exact always_dynReply env
      (req.args host host wwwRoot cors)
  · rw [createHttpFileRoutes_rejects hRoutes]
    · trivial
    · intro other hMem hOther
      have hSame : other = host := by
        rw [hOther.isHost] at hHost
        exact Field.text.inj hHost
      subst hSame
      exact hFor ⟨hMem, hOther⟩

theorem redirectRoutes_answer_iff
    {parser : UriParser}
    {domains : List String}
    {routes : RedirectFilter}
    (hRoutes :
      createHttpRedirectRoutes parser domains = some routes)
    {req : Visit}
    (hGet : req.method = .get)
    (hParses :
      ∀ host ∈ domains, req.host = .text host →
        (parser.fromStr
          ("https://" ++ (host ++ "/" ++ req.tail))).isSome) :
    (∃ status location,
      routes req = .reply status location) ↔
        req.HostIn domains := by
  constructor
  · rintro ⟨status, location, hReply⟩
    by_contra hIn
    have hRejected :=
      createHttpRedirectRoutes_rejects hRoutes
        (fun host hMem hAt => hIn ⟨host, hMem, hAt.isHost⟩)
    rw [hReply] at hRejected
    cases hRejected
  · rintro ⟨host, hMem, hHost⟩
    rcases Option.isSome_iff_exists.mp
        (hParses host hMem hHost) with
      ⟨location, hLocation⟩
    refine ⟨301, location, ?_⟩
    rw [createHttpRedirectRoutes_eq hRoutes ⟨hGet, hHost⟩ hMem]
    unfold dynHreply
    rw [if_neg (not_not.mpr rfl), hLocation]

/-
  For every list of domains: the file routes answer readable
  requests for exactly the hosts of the list, each with the
  file below its own directory, the redirects are for the
  same hosts, and only the members of the list matter.
-/
theorem virtual_hosts_exact
    (env : Env)
    (parser : UriParser)
    (domains : List String)
    (hSome : domains ≠ [])
    (wwwRoot : String)
    (cors : Bool) :
    ∃ files redirects,
      createHttpFileRoutes env domains wwwRoot cors =
          some files ∧
        createHttpRedirectRoutes parser domains =
          some redirects ∧
        (∀ req : Request,
          req.method = .get → req.Readable →
            ((files req).Yields (· ≠ .rejected) ↔
                req.HostIn domains) ∧
              (files req = .done .rejected ↔
                ¬ req.HostIn domains) ∧
              ∀ host, req.host = .text host →
                (files req).Always
                  (Op.About
                    (filePath wwwRoot host req.tail))) ∧
        (∀ req : Visit,
          req.method = .get →
            (∀ host ∈ domains, req.host = .text host →
              (parser.fromStr
                ("https://" ++
                  (host ++ "/" ++ req.tail))).isSome) →
            ((∃ status location,
              redirects req = .reply status location) ↔
                req.HostIn domains)) ∧
        ∀ domains',
          (∀ domain, domain ∈ domains ↔ domain ∈ domains') →
            createHttpFileRoutes env domains' wwwRoot cors =
                some files ∧
              createHttpRedirectRoutes parser domains' =
                some redirects := by
  rcases exists_fileRoutes env hSome wwwRoot cors with
    ⟨files, hFiles⟩
  rcases exists_redirectRoutes parser hSome with
    ⟨redirects, hRedirects⟩
  refine ⟨files, redirects, hFiles, hRedirects, ?_, ?_, ?_⟩
  · intro req hGet hReadable
    have hAnswers :=
      fileRoutes_answer_iff hFiles hGet hReadable
    exact ⟨hAnswers.1, hAnswers.2, fun host hHost =>
      fileRoutes_about_host hFiles hHost⟩
  · intro req hGet hParses
    exact redirectRoutes_answer_iff hRedirects hGet hParses
  · intro domains' hSame
    have hSome' : domains' ≠ [] := by
      rintro rfl
      rcases List.exists_mem_of_ne_nil domains hSome with
        ⟨domain, hMem⟩
      exact absurd ((hSame domain).mp hMem) List.not_mem_nil
    rcases exists_fileRoutes env hSome' wwwRoot cors with
      ⟨files', hFiles'⟩
    rcases exists_redirectRoutes parser hSome' with
      ⟨redirects', hRedirects'⟩
    rw [hFiles', hRedirects',
      fileRoutes_congr hSame hFiles hFiles',
      redirectRoutes_congr hSame hRedirects hRedirects']
    exact ⟨rfl, rfl⟩

theorem splitUrl_https
    (rest : String) :
    splitUrl ("https://" ++ rest) =
      some
        { scheme := "https".toList
          authority :=
            rest.toList.takeWhile (fun c => !endsAuthority c)
          path :=
            (rest.toList.dropWhile
              (fun c => !endsAuthority c)).takeWhile
                (fun c => c ≠ '?')
          query :=
            queryOf ((rest.toList.dropWhile
              (fun c => !endsAuthority c)).dropWhile
                (fun c => c ≠ '?')) } := by
  have hText :
      ("https://" ++ rest).toList =
        "https".toList ++ ':' :: '/' :: '/' :: rest.toList := by
    rw [String.toList_append]
    rfl
  unfold splitUrl
  rw [hText, Proxy.splitScheme_append (by decide)]
  rfl

/-
  A parser that takes only what it need not change: URLs
  without a fragment, the path of which begins with a slash.
-/
def plainParser : UriParser where
  fromStr url :=
    if '#' ∉ url.toList ∧
        (splitUrl url).any (fun u => u.path.head? = some '/')
    then some url
    else none
  keepsAuthority := by
    intro rest text hText
    split at hText
    · cases hText
      exact ⟨_, splitUrl_https rest, rfl, rfl⟩
    · cases hText
  keepsText := by
    intro rest text hText _ _
    split at hText
    · cases hText
      rfl
    · cases hText

theorem virtual_hosts_exact_sample :
    sampleDomains ≠ [] ∧
      ∃ (files : Filter) (redirects : RedirectFilter),
        createHttpFileRoutes sampleEnv sampleDomains "/srv/www"
            false = some files ∧
          createHttpRedirectRoutes plainParser sampleDomains =
            some redirects ∧
          (files (sampleRequest "a.html")).Yields
            (· ≠ .rejected) ∧
          (∃ status location,
            redirects ⟨sampleRequest "a.html", none⟩ =
              .reply status location) ∧
          createHttpFileRoutes sampleEnv
              ["example.com", "example.org", "example.com"]
              "/srv/www" false = some files := by
  refine ⟨by decide, ?_⟩
  rcases virtual_hosts_exact sampleEnv plainParser
      sampleDomains (by decide) "/srv/www" false with
    ⟨files, redirects, hFiles, hRedirects, hAnswer, hRedirect,
      hSame⟩
  have hReadable : (sampleRequest "a.html").Readable :=
    ⟨by decide, by decide⟩
  have hIn : (sampleRequest "a.html").HostIn sampleDomains :=
    ⟨"example.org", by decide, rfl⟩
  refine ⟨files, redirects, hFiles, hRedirects, ?_, ?_, ?_⟩
  · exact (hAnswer _ rfl hReadable).1.mpr hIn
  · refine (hRedirect _ rfl ?_).mpr hIn
    intro host _ hHost
    cases hHost
    decide
  · refine (hSame _ ?_).1
    intro domain
    simp only [sampleDomains, List.mem_cons, List.not_mem_nil]
    tauto

/-
  A header that is not text keeps the file routes from
  answering, also for a host of the list.
-/
theorem unreadable_header_rejected :
    ∃ req : Request,
      req =
        { sampleRequest "a.html" with
          acceptEncoding := .unreadable } ∧
        req.method = .get ∧
        req.HostIn sampleDomains ∧
        ∀ env : Env, ∃ files,
          createHttpFileRoutes env sampleDomains "/srv/www"
              false = some files ∧
            files req = .done .rejected := by
  refine ⟨_, rfl, rfl, ⟨"example.org", by decide, rfl⟩, ?_⟩
  intro env
  rcases exists_fileRoutes env
      (show sampleDomains ≠ [] by decide) "/srv/www" false with
    ⟨files, hFiles⟩
  refine ⟨files, hFiles, ?_⟩
  apply createHttpFileRoutes_rejects hFiles
  intro host _ hFor
  exact hFor.encodingReadable rfl

end Http

end Mles

------------------------------------------------------------
-- The Location
------------------------------------------------------------

namespace Mles

namespace Http

open Proxy (endsAuthority splitUrl queryOf)

/-
  The host and the port of an authority: a port is digits
  behind the last colon.
-/
def splitPort :
    List Char → Option (List Char × List Char)
| [] => none
| c :: rest =>
    if c = ':' ∧ rest ≠ [] ∧ rest.all Char.isDigit then
      some ([], rest)
    else
      (splitPort rest).map (fun p => (c :: p.1, p.2))

def hostOf (authority : List Char) : List Char :=
  match splitPort authority with
  | some (host, _) => host
  | none => authority

def portOf (authority : List Char) : Option Nat :=
  (splitPort authority).map (fun p =>
    p.2.foldl (fun n c => 10 * n + (c.toNat - '0'.toNat)) 0)

example :
    hostOf "example.org:8443".toList = "example.org".toList ∧
      portOf "example.org:8443".toList = some 8443 ∧
      portOf "[::1]".toList = none := by
  decide

/- The authority leads to this port, or to the usual one. -/
def LeadsTo
    (port : UInt16)
    (authority : List Char) : Prop :=
  portOf authority = some port.toNat ∨
    portOf authority = none ∧ port = 443

/- The location has all that the request asks for. -/
def SameResource
    (port : UInt16)
    (host : String)
    (req : Visit)
    (location : String) : Prop :=
  ∃ url,
    splitUrl location = some url ∧
      url.scheme = "https".toList ∧
      hostOf url.authority = hostOf host.toList ∧
      LeadsTo port url.authority ∧
      url.path = '/' :: req.tail.toList ∧
      url.query = req.query.map String.toList

theorem splitPort_eq_some
    {authority host port : List Char}
    (hSplit : splitPort authority = some (host, port)) :
    authority = host ++ ':' :: port ∧
      port.all Char.isDigit = true := by
  induction authority generalizing host with
  | nil => cases hSplit
  | cons c rest ih =>
      unfold splitPort at hSplit
      split at hSplit
      · rename_i hPort
        cases hSplit
        rw [hPort.1]
        exact ⟨rfl, hPort.2.2⟩
      · rcases Option.map_eq_some_iff.mp hSplit with
          ⟨⟨before, digits⟩, hRest, hEq⟩
        cases hEq
        rcases ih hRest with ⟨hText, hDigits⟩
        exact ⟨congrArg (c :: ·) hText, hDigits⟩

/- What ends an authority is not taken for a port. -/
theorem mem_hostOf_of_ends
    {authority : List Char}
    {c : Char}
    (hMem : c ∈ authority)
    (hEnds : endsAuthority c = true) :
    c ∈ hostOf authority := by
  have hCases : c = '/' ∨ c = '?' ∨ c = '#' := by
    simpa [endsAuthority, or_assoc] using hEnds
  unfold hostOf
  cases hSplit : splitPort authority with
  | none => exact hMem
  | some parts =>
      rcases parts with ⟨host, port⟩
      rcases splitPort_eq_some hSplit with ⟨hText, hDigits⟩
      rw [hText] at hMem
      rcases List.mem_append.mp hMem with hHost | hRest
      · exact hHost
      · rcases List.mem_cons.mp hRest with hColon | hPort
        · rw [hColon] at hCases
          exact absurd hCases (by decide)
        · have hDigit := List.all_eq_true.mp hDigits c hPort
          rcases hCases with rfl | rfl | rfl
          · exact absurd hDigit (by decide)
          · exact absurd hDigit (by decide)
          · exact absurd hDigit (by decide)

theorem mem_of_mem_hostOf
    {authority : List Char}
    {c : Char}
    (hMem : c ∈ hostOf authority) :
    c ∈ authority := by
  unfold hostOf at hMem
  cases hSplit : splitPort authority with
  | none =>
      rw [hSplit] at hMem
      exact hMem
  | some parts =>
      rcases parts with ⟨host, port⟩
      rw [hSplit] at hMem
      rw [(splitPort_eq_some hSplit).1]
      exact List.mem_append_left _ hMem

/- The location of an ordinary domain. -/
theorem splitUrl_location
    {parser : UriParser}
    {host tail location : String}
    (hParsed :
      parser.fromStr
          ("https://" ++ (host ++ "/" ++ tail)) =
        some location)
    (hPlain : ∀ c ∈ host.toList, endsAuthority c = false)
    (hMark : '?' ∉ tail.toList)
    (hHash : '#' ∉ tail.toList) :
    splitUrl location =
      some
        ⟨"https".toList, host.toList, '/' :: tail.toList,
          none⟩ := by
  have hText :
      (host ++ "/" ++ tail).toList =
        host.toList ++ '/' :: tail.toList := by
    rw [String.toList_append, String.toList_append,
      List.append_assoc]
    rfl
  have hStop :=
    @Proxy.takeWhile_append_of_stop
      (fun c => !endsAuthority c) host.toList
      ('/' :: tail.toList)
      (fun c hMem => by rw [hPlain c hMem]; rfl)
      (fun c hHead => by cases hHead; rfl)
  have hNoHash : '#' ∉ (host ++ "/" ++ tail).toList := by
    rw [hText]
    intro hMem
    rcases List.mem_append.mp hMem with hHost | hRest
    · have hEnds := hPlain '#' hHost
      exact absurd hEnds (by decide)
    · rcases List.mem_cons.mp hRest with hSlash | hTail
      · exact absurd hSlash (by decide)
      · exact hHash hTail
  have hKept :=
    parser.keepsText _ _ hParsed hNoHash (by
      rw [hText, hStop.2]
      rfl)
  have hPath :=
    @Proxy.takeWhile_append_of_stop
      (fun c => decide (c ≠ '?')) ('/' :: tail.toList) []
      (by
        intro c hMem
        apply decide_eq_true
        rintro rfl
        rcases List.mem_cons.mp hMem with hSlash | hTail
        · exact absurd hSlash (by decide)
        · exact hMark hTail)
      (fun c hHead => by cases hHead)
  rw [List.append_nil] at hPath
  rw [hKept, splitUrl_https, hText, hStop.1, hStop.2, hPath.1,
    hPath.2]
  rfl

/-
  What ends an authority inside of the host makes another
  host of it.
-/
theorem plain_of_sameResource
    {parser : UriParser}
    {host tail location : String}
    (hParsed :
      parser.fromStr
          ("https://" ++ (host ++ "/" ++ tail)) =
        some location)
    {port : UInt16}
    {req : Visit}
    (hSame : SameResource port host req location) :
    ∀ c ∈ host.toList, endsAuthority c = false := by
  intro c hMem
  by_contra hEnds
  rw [Bool.not_eq_false] at hEnds
  rcases hSame with ⟨url, hSplit, _, hHost, _⟩
  rcases parser.keepsAuthority _ _ hParsed with
    ⟨url', hSplit', _, hAuthority⟩
  rw [hSplit] at hSplit'
  cases hSplit'
  have hInside : c ∈ url.authority := by
    apply mem_of_mem_hostOf
    rw [hHost]
    exact mem_hostOf_of_ends hMem hEnds
  rw [hAuthority] at hInside
  have hNot := List.mem_takeWhile_imp hInside
  rw [hEnds] at hNot
  cases hNot

theorem sameResource_iff
    {parser : UriParser}
    {host location : String}
    {req : Visit}
    (hParsed :
      parser.fromStr
          ("https://" ++ (host ++ "/" ++ req.tail)) =
        some location)
    (hMark : '?' ∉ req.tail.toList)
    (hHash : '#' ∉ req.tail.toList)
    (port : UInt16) :
    SameResource port host req location ↔
      (∀ c ∈ host.toList, endsAuthority c = false) ∧
        LeadsTo port host.toList ∧ req.query = none := by
  constructor
  · intro hSame
    have hPlain := plain_of_sameResource hParsed hSame
    rcases hSame with ⟨url, hSplit, _, _, hPort, _, hQuery⟩
    rw [splitUrl_location hParsed hPlain hMark hHash] at hSplit
    cases hSplit
    refine ⟨hPlain, hPort, ?_⟩
    exact Option.map_eq_none_iff.mp hQuery.symm
  · rintro ⟨hPlain, hPort, hQuery⟩
    refine ⟨_, splitUrl_location hParsed hPlain hMark hHash,
      rfl, rfl, hPort, rfl, ?_⟩
    rw [hQuery]
    rfl

/-
  What the two listeners are given of the configuration: the
  port goes to the HTTPS listener alone.
-/
structure ServerConfig where
  domains : List String
  port : UInt16
deriving DecidableEq, Repr

def redirectServer
    (parser : UriParser)
    (config : ServerConfig) : Option RedirectFilter :=
  createHttpRedirectRoutes parser config.domains

/-
  For every configuration and every request for one of its
  domains: the redirect leads to the same resource, exactly
  if the location can be parsed, the domain is no more than
  an authority, which leads to the port of the listener by
  itself, and there is no query.
-/
theorem redirect_exact_iff
    (parser : UriParser)
    (config : ServerConfig)
    (routes : RedirectFilter)
    (hRoutes : redirectServer parser config = some routes)
    (req : Visit)
    (host : String)
    (hAt : req.toRequest.AtHost host)
    (hMem : host ∈ config.domains)
    (hMark : '?' ∉ req.tail.toList)
    (hHash : '#' ∉ req.tail.toList) :
    (∃ location,
      routes req = .reply 301 location ∧
        SameResource config.port host req location) ↔
      (parser.fromStr
          ("https://" ++ (host ++ "/" ++ req.tail))).isSome ∧
        (∀ c ∈ host.toList, endsAuthority c = false) ∧
        LeadsTo config.port host.toList ∧
        req.query = none := by
  rw [createHttpRedirectRoutes_eq hRoutes hAt hMem]
  unfold dynHreply
  rw [if_neg (not_not.mpr rfl)]
  cases hParsed :
      parser.fromStr
        ("https://" ++ (host ++ "/" ++ req.tail)) with
  | none => simp
  | some location =>
      have hSame :=
        sameResource_iff hParsed hMark hHash config.port
      simp only [Option.isSome_some, true_and]
      rw [← hSame]
      simp

/- A visit without a query, and the usual port. -/
theorem redirect_exact_sample :
    ∃ routes,
      redirectServer plainParser ⟨sampleDomains, 443⟩ =
          some routes ∧
        ∃ location,
          routes ⟨sampleRequest "a.html", none⟩ =
              .reply 301 location ∧
            SameResource 443 "example.org"
              ⟨sampleRequest "a.html", none⟩ location := by
  refine ⟨_, rfl, ?_⟩
  refine (redirect_exact_iff plainParser ⟨sampleDomains, 443⟩ _
    rfl ⟨sampleRequest "a.html", none⟩ "example.org"
    ⟨rfl, rfl⟩ (by decide) (by decide) (by decide)).mpr ?_
  exact ⟨by decide, by simp [endsAuthority],
    Or.inr ⟨by decide, rfl⟩, rfl⟩

/- Neither a query nor another port is in the location. -/
theorem redirect_drops_query_and_port :
    ∃ (routes : RedirectFilter) (search plain : Visit)
      (location location' : String),
      redirectServer plainParser ⟨sampleDomains, 443⟩ =
          some routes ∧
        redirectServer plainParser ⟨sampleDomains, 8443⟩ =
          some routes ∧
        search = ⟨sampleRequest "search", some "q=1"⟩ ∧
        plain = ⟨sampleRequest "a.html", none⟩ ∧
        location = "https://example.org/search" ∧
        location' = "https://example.org/a.html" ∧
        routes search = .reply 301 location ∧
        ¬ SameResource 443 "example.org" search location ∧
        routes plain = .reply 301 location' ∧
        ¬ SameResource 8443 "example.org" plain location' := by
  refine ⟨_, _, _, _, _, rfl, rfl, rfl, rfl, rfl, rfl, ?_, ?_,
    ?_, ?_⟩
  · decide
  · have hSame :=
      @sameResource_iff plainParser "example.org"
        "https://example.org/search"
        ⟨sampleRequest "search", some "q=1"⟩ (by decide)
        (by decide) (by decide) 443
    rw [hSame]
    rintro ⟨_, _, hQuery⟩
    cases hQuery
  · decide
  · have hSame :=
      @sameResource_iff plainParser "example.org"
        "https://example.org/a.html"
        ⟨sampleRequest "a.html", none⟩ (by decide) (by decide)
        (by decide) 8443
    rw [hSame]
    rintro ⟨_, hPort | hPort, _⟩
    · exact absurd hPort (by decide)
    · exact absurd hPort.2 (by decide)

end Http

end Mles
