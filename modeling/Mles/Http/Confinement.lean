import Mles.Http.Files
import Mles.Library.LexPath

/-
  Which files a request can reach.

  The request path goes into the file path as it was sent,
  so its dot segments are resolved by the file system.  A
  request stays inside the directory of its domain exactly
  when its path, taken alone, climbs no level, or enters
  again by name what it climbed out of.

  Key definitions include:
    * `Http.Within`
    * `Http.Confined`
    * `Http.ReturnsInto`

  Key theorems include:
    * `Http.within_filePath_iff`
    * `Http.Within.webRoot`
    * `Http.Within.eq_domain`
    * `Http.confined_iff_returnsInto`
-/

------------------------------------------------------------
-- Directories
------------------------------------------------------------

namespace Mles

namespace Http

/- The directory of all domains. -/
def webRoot
    (wwwRoot : String) : String :=
  wwwRoot ++ "/"

def domainDir
    (wwwRoot domain : String) : String :=
  wwwRoot ++ "/" ++ domain

/- Where the text leads when no link stands on the way. -/
def resolve
    (path : String) : LexPath.Place (List Char) :=
  LexPath.resolve path.toList

def Within
    (dir path : String) : Prop :=
  (resolve path).Inside (resolve dir)

instance
    (dir path : String) :
    Decidable (Within dir path) := by
  unfold Within
  infer_instance

/- A domain is one ordinary name in a path. -/
def OrdinaryDomain
    (domain : String) : Prop :=
  LexPath.Ordinary domain.toList

instance
    (domain : String) :
    Decidable (OrdinaryDomain domain) := by
  unfold OrdinaryDomain
  infer_instance

/-
  The request path taken alone: what it climbs out of, it
  enters again.
-/
def ReturnsInto
    (dir tail : String) : Prop :=
  (LexPath.net
    (LexPath.moves (requestedPath tail).toList)).Returns
      (resolve dir)

instance
    (dir tail : String) :
    Decidable (ReturnsInto dir tail) := by
  unfold ReturnsInto
  infer_instance

theorem resolve_filePath
    (wwwRoot domain tail : String) :
    resolve (filePath wwwRoot domain tail) =
      (resolve (domainDir wwwRoot domain)).walk
        (LexPath.moves (requestedPath tail).toList) := by
  have hText :
      (filePath wwwRoot domain tail).toList =
        (domainDir wwwRoot domain).toList ++
          '/' :: (requestedPath tail).toList := by
    simp [filePath, domainDir]
  have hNil : (domainDir wwwRoot domain).toList ≠ [] := by
    simp [domainDir]
  unfold resolve
  rw [hText, LexPath.resolve_append,
    LexPath.resolve_slash hNil]

theorem resolve_domainDir
    (wwwRoot : String)
    {domain : String}
    (hOrdinary : OrdinaryDomain domain) :
    resolve (domainDir wwwRoot domain) =
      (resolve (webRoot wwwRoot)).move
        (.down domain.toList) := by
  have hText :
      (domainDir wwwRoot domain).toList =
        wwwRoot.toList ++ '/' :: domain.toList := by
    simp [domainDir]
  have hRoot :
      (webRoot wwwRoot).toList = wwwRoot.toList ++ ['/'] := by
    simp [webRoot]
  unfold resolve
  rw [hText, hRoot, LexPath.resolve_append,
    LexPath.moves_ordinary hOrdinary]
  rfl

/- The file of a request, inside its domain's directory. -/
theorem within_filePath_iff
    (wwwRoot domain tail : String) :
    Within (domainDir wwwRoot domain)
        (filePath wwwRoot domain tail) ↔
      ReturnsInto (domainDir wwwRoot domain) tail := by
  unfold Within
  rw [resolve_filePath, LexPath.Place.inside_walk_iff]
  rfl

theorem Within.webRoot
    {wwwRoot domain path : String}
    (hOrdinary : OrdinaryDomain domain)
    (hWithin : Within (domainDir wwwRoot domain) path) :
    Within (Http.webRoot wwwRoot) path := by
  unfold Within at hWithin
  rw [resolve_domainDir wwwRoot hOrdinary] at hWithin
  exact hWithin.trans (LexPath.Place.inside_down _ _)

/- No file belongs to two domains. -/
theorem Within.eq_domain
    {wwwRoot domain other path : String}
    (hOrdinary : OrdinaryDomain domain)
    (hOtherOrdinary : OrdinaryDomain other)
    (hWithin : Within (domainDir wwwRoot domain) path)
    (hOther : Within (domainDir wwwRoot other) path) :
    other = domain := by
  unfold Within at hWithin hOther
  rw [resolve_domainDir wwwRoot hOrdinary] at hWithin
  rw [resolve_domainDir wwwRoot hOtherOrdinary] at hOther
  exact String.toList_inj.mp
    (LexPath.Place.Inside.eq_of_down hOther hWithin)

end Http

end Mles

------------------------------------------------------------
-- Confinement
------------------------------------------------------------

namespace Mles

namespace Http

/- Every file a task asks for lies in the directory. -/
def Confined
    (dir : String)
    (task : Task Outcome) : Prop :=
  task.Always (fun op => ∀ path ∈ op.path?, Within dir path)

theorem confined_dynReply_iff
    (env : Env)
    {args : Args}
    (dir : String)
    (hHost : args.uri = args.domain) :
    Confined dir (dynReply env args) ↔
      Within dir
        (filePath args.wwwRoot args.uri args.tail) := by
  constructor
  · intro hConfined
    rw [Confined, dynReply_eq_call env hHost] at hConfined
    exact hConfined.1 _ rfl
  · intro hWithin
    refine (always_dynReply env args).mono ?_
    intro op hAbout path hPath
    rw [hAbout path hPath]
    exact hWithin

theorem confined_iff_returnsInto
    {env : Env}
    {domains : List String}
    {wwwRoot : String}
    {cors : Bool}
    {routes : Filter}
    (hRoutes :
      createHttpFileRoutes env domains wwwRoot cors =
        some routes)
    (hOrdinary :
      ∀ domain ∈ domains, OrdinaryDomain domain)
    {req : Request}
    {host : String}
    (hFor : req.For host)
    (hMem : host ∈ domains) :
    (Confined (domainDir wwwRoot host) (routes req) ↔
      ReturnsInto (domainDir wwwRoot host) req.tail) ∧
    ∀ path, Within (domainDir wwwRoot host) path →
      Within (webRoot wwwRoot) path ∧
      ∀ other ∈ domains, other ≠ host →
        ¬ Within (domainDir wwwRoot other) path := by
  constructor
  · rw [createHttpFileRoutes_eq hRoutes hFor hMem,
      confined_dynReply_iff env _ rfl]
    exact within_filePath_iff wwwRoot host req.tail
  · intro path hWithin
    refine ⟨hWithin.webRoot (hOrdinary host hMem), ?_⟩
    intro other hOtherMem hNe hOther
    exact hNe (hWithin.eq_domain (hOrdinary host hMem)
      (hOrdinary other hOtherMem) hOther)

end Http

end Mles

namespace Mles

namespace Http

/- A request of a browser for a path of `example.org`. -/
def sampleRequest
    (tail : String) : Request where
  method := .get
  acceptEncoding := .text "gzip, br, zstd"
  ifModifiedSince := .absent
  host := .text "example.org"
  tail := tail

theorem sampleRequest_for
    (tail : String) :
    (sampleRequest tail).For "example.org" where
  isGet := rfl
  encodingReadable := by simp [sampleRequest]
  imsReadable := by simp [sampleRequest]
  isHost := rfl

def sampleDomains : List String :=
  ["example.org", "example.com"]

theorem sampleDomains_ordinary :
    ∀ domain ∈ sampleDomains, OrdinaryDomain domain := by
  decide

/- Climbing below the domain's directory does no harm. -/
theorem confined_docs :
    "example.org" ∈ sampleDomains ∧
    ∀ env : Env, ∃ routes,
      createHttpFileRoutes env sampleDomains "/srv/www"
        false = some routes ∧
      Confined "/srv/www/example.org"
        (routes (sampleRequest "docs/../a//./b.html")) := by
  refine ⟨by decide, fun env => ⟨_, rfl, ?_⟩⟩
  have hSettled :=
    @confined_iff_returnsInto env sampleDomains "/srv/www"
      false _ rfl sampleDomains_ordinary
      (sampleRequest "docs/../a//./b.html") "example.org"
      (sampleRequest_for _) (by decide)
  exact hSettled.1.mpr (by decide)

/- The password file of the machine is asked for. -/
theorem escape_to_passwd :
    (∀ domain ∈ sampleDomains, OrdinaryDomain domain) ∧
    "example.org" ∈ sampleDomains ∧
    (sampleRequest "../../../etc/passwd").For "example.org" ∧
    ∀ env : Env, ∃ routes,
      createHttpFileRoutes env sampleDomains "/srv/www"
        false = some routes ∧
      ¬ Confined "/srv/www/example.org"
        (routes (sampleRequest "../../../etc/passwd")) := by
  refine ⟨sampleDomains_ordinary, by decide,
    sampleRequest_for _, fun env => ⟨_, rfl, ?_⟩⟩
  have hRoute :=
    @createHttpFileRoutes_eq env sampleDomains "/srv/www"
      false _ rfl (sampleRequest "../../../etc/passwd")
      "example.org" (sampleRequest_for _) (by decide)
  rw [hRoute, confined_dynReply_iff env _ rfl]
  decide

end Http

end Mles
