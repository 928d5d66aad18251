import Mles.Types
import Mles.Library.Program
import Mathlib.Data.List.Infix

/-
  The file routes of the HTTPS server (`src/http.rs`).

  `dynReply` is a program over what it awaits: the file
  system, the compression cache and the encoders.  An answer
  `none` is an error of the call.  The types of media and
  the dates of HTTP come from libraries and are parameters.

  Key definitions include:
    * `Http.Op`
    * `Http.Reply`
    * `Http.filePath`
    * `Http.dynReply`
    * `Http.Filter`
    * `Http.createHttpFileRoutes`

  Key theorems include:
    * `Http.always_dynReply`
    * `Http.dynReply_answers`
    * `Http.createHttpFileRoutes_eq`
    * `Http.createHttpFileRoutes_rejects`
-/

------------------------------------------------------------
-- Surroundings
------------------------------------------------------------

namespace Mles

namespace Http

abbrev Bytes := List UInt8

/- The two encoders, `ZSTD` and `BR` (`compression.rs`). -/
inductive Compression where
| zstd
| br
deriving DecidableEq, Repr

def Compression.name : Compression → String
| .zstd => "zstd"
| .br => "br"

theorem Compression.name_injective
    {enc enc' : Compression}
    (hName : enc.name = enc'.name) :
    enc = enc' := by
  cases enc with
  | zstd =>
      cases enc' with
      | zstd => rfl
      | br => exact absurd hName (by decide)
  | br =>
      cases enc' with
      | zstd => exact absurd hName (by decide)
      | br => rfl

/- Not every system knows a file's modification time. -/
structure Metadata where
  modified : Option Time
  len : Nat
deriving DecidableEq, Repr

/- An open file. -/
abbrev Handle := Nat

/- What a reply waits for. -/
inductive Op where
| metadata (filePath : String)
| cacheGet
    (filePath : String)
    (compression : Compression)
    (modified : Time)
| fileOpen (filePath : String)
| readToEnd (file : Handle)
| compress (comptype : Compression) (data : Bytes)
| cacheInsert
    (filePath : String)
    (compression : Compression)
    (modified : Time)
    (data : Bytes)
deriving DecidableEq, Repr

@[reducible] def Op.Ans : Op → Type
| .metadata _ => Option Metadata
| .cacheGet .. => Option Bytes
| .fileOpen _ => Option Handle
| .readToEnd _ => Option Bytes
| .compress .. => Option Bytes
| .cacheInsert .. => Unit

/- The file whose status or contents the call asks for. -/
def Op.path? : Op → Option String
| .metadata filePath => some filePath
| .fileOpen filePath => some filePath
| _ => none

abbrev Task (α : Type) := Program Op Op.Ans α

/-
  The libraries: the media type of an extension, as its two
  parts, and the dates of HTTP.  A date that cannot be
  written is a panic.
-/
structure Env where
  fromExtension : String → Option (String × String)
  fmtHttpDate : Time → Option String
  parseHttpDate : String → Option Time

end Http

end Mles

------------------------------------------------------------
-- Replies
------------------------------------------------------------

namespace Mles

namespace Http

inductive HeaderName where
| contentType
| lastModified
| contentEncoding
| accessControlAllowOrigin
| strictTransportSecurity
| xContentTypeOptions
| xFrameOptions
| referrerPolicy
| crossOriginOpenerPolicy
| crossOriginEmbedderPolicy
| crossOriginResourcePolicy
deriving DecidableEq, Repr

structure Reply where
  status : Nat
  headers : List (HeaderName × String)
  body : Bytes
deriving DecidableEq, Repr

/- `HeaderValue::from_bytes`: no control characters. -/
def headerValueOk
    (value : String) : Bool :=
  (asBytes value).all
    (fun b => (32 ≤ b && b != 127) || b == 9)

/- `Response::builder()`; an invalid header spoils it. -/
structure Builder where
  status : Nat
  headers : Option (List (HeaderName × String))

namespace Builder

def new
    (status : Nat) : Builder :=
  ⟨status, some []⟩

def header
    (builder : Builder)
    (name : HeaderName)
    (value : String) : Builder :=
  { builder with
    headers :=
      if headerValueOk value then
        builder.headers.map (· ++ [(name, value)])
      else none }

def body
    (builder : Builder)
    (data : Bytes) : Option Reply :=
  builder.headers.map (⟨builder.status, ·, data⟩)

end Builder

/- `warp::reply::with_header` takes the place of others. -/
def withHeader
    (reply : Reply)
    (name : HeaderName)
    (value : String) : Reply :=
  { reply with
    headers :=
      reply.headers.filter (fun h => h.1 ≠ name) ++
        [(name, value)] }

/- `warp::reply::with_status` of a text. -/
def withStatus
    (text : String)
    (status : Nat) : Reply :=
  ⟨status, [(.contentType, "text/plain; charset=utf-8")],
    asBytes text⟩

def withSecurityHeaders
    (reply : Reply) : Reply :=
  withHeader
    (withHeader
      (withHeader
        (withHeader reply .strictTransportSecurity
          "max-age=31536000; includeSubDomains; preload")
        .xContentTypeOptions "nosniff")
      .xFrameOptions "DENY")
    .referrerPolicy "strict-origin-when-cross-origin"

def withIsolation
    (reply : Reply) : Reply :=
  withHeader
    (withHeader
      (withHeader (withSecurityHeaders reply)
        .crossOriginOpenerPolicy "same-origin")
      .crossOriginEmbedderPolicy "require-corp")
    .crossOriginResourcePolicy "same-origin"

def withFileHeaders
    (reply : Reply)
    (cors : Bool) : Reply :=
  if cors then withIsolation reply
  else withSecurityHeaders reply

def err500 : Reply :=
  withStatus "Internal Server Error" 500

def notFound : Reply :=
  withStatus "Not Found" 404

/-
  What becomes of a request in one route.  A rejected
  request is left to the next route.
-/
inductive Outcome where
| reply (r : Reply)
| rejected
| panicked
deriving DecidableEq, Repr

end Http

end Mles

------------------------------------------------------------
-- Serving a File
------------------------------------------------------------

namespace Mles

namespace Http

/- `str::contains`. -/
def contains
    (s pat : String) : Bool :=
  decide (pat.toList <:+: s.toList)

/- What stands behind the last dot of the path. -/
def extension
    (filePath : String) : String :=
  String.ofList
    (((filePath.toList.splitOn '.').getLast?).getD [])

def contentType
    (env : Env)
    (filePath : String) : String :=
  let ext := extension filePath
  match env.fromExtension ext with
  | some (basetype, subtype) => basetype ++ "/" ++ subtype
  | none =>
      if ext = "png" then "image/png"
      else if ext = "jpg" then "image/jpeg"
      else if ext = "ico" then "image/x-icon"
      else if ext = "apk" then
        "application/vnd.android.package-archive"
      else "*/*"

def isCompressible
    (ctype : String) : Bool :=
  contains ctype "text" || contains ctype "json" ||
    contains ctype "javascript" || contains ctype "svg" ||
    contains ctype "wasm"

/- Whole seconds; a time before the epoch counts as it. -/
def secs
    (t : Time) : Nat :=
  t.toNat / 10 ^ 9

/- The `DynReplyArgs` that come with the request. -/
structure Args where
  encoding : Option String
  ims : Option String
  uri : String
  domain : String
  wwwRoot : String
  tail : String
  cors : Bool
deriving DecidableEq, Repr

/- The empty path asks for the index. -/
def requestedPath
    (tail : String) : String :=
  if tail = "" then "index.html" else tail

/- The three parts, joined by slashes. -/
def filePath
    (wwwRoot uri tail : String) : String :=
  wwwRoot ++ "/" ++ uri ++ "/" ++ requestedPath tail

/- The conditional request: the client's copy is current. -/
def isCurrent
    (env : Env)
    (ims : Option String)
    (modified : Time) : Bool :=
  match ims.bind env.parseHttpDate with
  | some since => secs modified ≤ secs since
  | none => false

def notModified
    (lastModified : String)
    (cors : Bool) : Reply :=
  let resp :=
    ((Builder.new 304).header .lastModified
      lastModified).body []
  withFileHeaders (resp.getD ⟨200, [], []⟩) cors

/- The file may be sent in this encoding. -/
def wants
    (ctype : String)
    (encoding : Option String)
    (compression : Compression) : Bool :=
  isCompressible ctype &&
    (encoding.map (contains · compression.name)).getD false

/- What the cache has of the file in a wanted encoding. -/
def tryCached
    (filePath : String)
    (modified : Time)
    (want : Bool)
    (compression : Compression) :
    Task (Option (Bytes × Compression)) :=
  if want then do
    let hit ← Program.ask
      (Op.cacheGet filePath compression modified)
    return hit.map (·, compression)
  else
    return none

/- The file in a wanted encoding, put into the cache. -/
def tryCompress
    (filePath : String)
    (modified : Time)
    (raw : Bytes)
    (want : Bool)
    (compression : Compression) :
    Task (Option (Bytes × Compression)) :=
  if want then do
    let c ← Program.ask (Op.compress compression raw)
    match c with
    | none => return none
    | some c => do
        let _ ← Program.ask
          (Op.cacheInsert filePath compression modified c)
        return some (c, compression)
  else
    return none

/- One of two encodings, the first that succeeds. -/
def either
    (first second : Task (Option (Bytes × Compression))) :
    Task (Option (Bytes × Compression)) := do
  match ← first with
  | some found => return some found
  | none => second

/- The contents of the file, encoded if that is wanted. -/
def encodeBody
    (filePath : String)
    (modified : Time)
    (wantZstd wantBr : Bool)
    (raw : Bytes) :
    Task (Bytes × Option Compression) := do
  let encoded ← either
    (tryCompress filePath modified raw wantZstd .zstd)
    (tryCompress filePath modified raw wantBr .br)
  match encoded with
  | some (c, enc) => return (c, some enc)
  | none => return (raw, none)

/- The body from the disk; `none` if it cannot be read. -/
def readBody
    (filePath : String)
    (modified : Time)
    (wantZstd wantBr : Bool) :
    Task (Option (Bytes × Option Compression)) := do
  match ← Program.ask (Op.fileOpen filePath) with
  | none => return none
  | some file =>
      match ← Program.ask (Op.readToEnd file) with
      | none => return none
      | some raw =>
          some <$> encodeBody filePath modified wantZstd
            wantBr raw

/- The cache is asked before the disk is touched. -/
def loadBody
    (filePath : String)
    (modified : Time)
    (wantZstd wantBr : Bool) :
    Task (Option (Bytes × Option Compression)) := do
  let hit ← either
    (tryCached filePath modified wantZstd .zstd)
    (tryCached filePath modified wantBr .br)
  match hit with
  | some (body, enc) => return some (body, some enc)
  | none => readBody filePath modified wantZstd wantBr

/- The reply with the file. -/
def fileReply
    (ctype lastModified : String)
    (cors : Bool)
    (body : Bytes)
    (chosen : Option Compression) : Reply :=
  let builder :=
    ((Builder.new 200).header .contentType ctype).header
      .lastModified lastModified
  let builder :=
    match chosen with
    | some enc => builder.header .contentEncoding enc.name
    | none => builder
  let builder :=
    if cors && contains ctype "json" then
      builder.header .accessControlAllowOrigin "*"
    else builder
  match builder.body body with
  | some r => withFileHeaders r cors
  | none => err500

/- From the file's status to the reply. -/
def serve
    (env : Env)
    (args : Args)
    (filePath : String)
    (metadata : Metadata) : Task Outcome :=
  let modified := metadata.modified.getD 0
  match env.fmtHttpDate modified with
  | none => return .panicked
  | some lastModified =>
      if isCurrent env args.ims modified then
        return .reply (notModified lastModified args.cors)
      else do
        let ctype := contentType env filePath
        let body ← loadBody filePath modified
          (wants ctype args.encoding .zstd)
          (wants ctype args.encoding .br)
        match body with
        | none => return .reply err500
        | some (body, chosen) =>
            return .reply
              (fileReply ctype lastModified args.cors body
                chosen)

def serveIfFound
    (env : Env)
    (args : Args)
    (filePath : String) : Option Metadata → Task Outcome
| none => return .reply notFound
| some metadata => serve env args filePath metadata

def dynReply
    (env : Env)
    (args : Args) : Task Outcome :=
  if args.uri ≠ args.domain then
    return .rejected
  else do
    let path := filePath args.wwwRoot args.uri args.tail
    let metadata ← Program.ask (Op.metadata path)
    serveIfFound env args path metadata

end Http

end Mles

------------------------------------------------------------
-- Routes
------------------------------------------------------------

namespace Mles

namespace Http

inductive Method where
| get
| other
deriving DecidableEq, Repr

/- A header of a request; some values are not text. -/
inductive Field where
| absent
| text (value : String)
| unreadable
deriving DecidableEq, Repr

/- `warp::header::<String>`; `none` is a rejection. -/
def Field.required : Field → Option String
| .text value => some value
| _ => none

/- `warp::header::optional::<String>`. -/
def Field.optional : Field → Option (Option String)
| .absent => some none
| .text value => some (some value)
| .unreadable => none

/-
  A request.  `tail` is the path behind its first slash, as
  it was sent: `warp::path::tail` neither decodes it nor
  removes dot segments.
-/
structure Request where
  method : Method
  acceptEncoding : Field
  ifModifiedSince : Field
  host : Field
  tail : String
deriving DecidableEq, Repr

abbrev Filter := Request → Task Outcome

/- `a.or(b)`: what `a` rejects is left to `b`. -/
def Filter.or
    (a b : Filter) : Filter :=
  fun req => do
    match ← a req with
    | .rejected => b req
    | outcome => return outcome

/- The route of one domain. -/
def fileRoute
    (env : Env)
    (wwwRoot : String)
    (cors : Bool)
    (domain : String) : Filter :=
  fun req =>
    match req.method, req.acceptEncoding.optional,
      req.ifModifiedSince.optional, req.host.required with
    | .get, some encoding, some ims, some uri =>
        dynReply env
          { encoding, ims, uri, domain, wwwRoot, cors,
            tail := req.tail }
    | _, _, _, _ => return .rejected

/- `Vec::swap_remove(0)`: the last takes the first's place. -/
def swapRemove
    {α : Type} : List α → Option (α × List α)
| [] => none
| a :: rest =>
    match rest.getLast? with
    | none => some (a, [])
    | some last => some (a, last :: rest.dropLast)

/-
  Without a domain there is a panic.  `wwwRoot` is the text
  of the configured path, which must be UTF-8.
-/
def createHttpFileRoutes
    (env : Env)
    (domains : List String)
    (wwwRoot : String)
    (cors : Bool) : Option Filter :=
  match swapRemove
      (domains.map (fileRoute env wwwRoot cors)) with
  | none => none
  | some (index, vindex) =>
      some (vindex.foldl (fun index val => val.or index)
        index)

end Http

end Mles

------------------------------------------------------------
-- What a Reply Touches
------------------------------------------------------------

namespace Mles

namespace Http

/- The call asks for this file, if for any. -/
def Op.About
    (path : String)
    (op : Op) : Prop :=
  ∀ p ∈ op.path?, p = path

theorem always_tryCached
    (path filePath : String)
    (modified : Time)
    (want : Bool)
    (compression : Compression) :
    (tryCached filePath modified want compression).Always
      (Op.About path) := by
  unfold tryCached
  split
  · simp [Op.About, Op.path?]
  · simp

theorem always_tryCompress
    (path filePath : String)
    (modified : Time)
    (raw : Bytes)
    (want : Bool)
    (compression : Compression) :
    (tryCompress filePath modified raw want
      compression).Always (Op.About path) := by
  unfold tryCompress
  split
  · rw [Program.ask_bind, Program.always_call]
    constructor
    · simp [Op.About, Op.path?]
    · intro c
      cases c with
      | none => trivial
      | some c => simp [Op.About, Op.path?]
  · simp

theorem always_either
    {P : Op → Prop}
    {first second : Task (Option (Bytes × Compression))}
    (hFirst : first.Always P)
    (hSecond : second.Always P) :
    (either first second).Always P := by
  unfold either
  rw [Program.always_bind_iff]
  refine ⟨hFirst, Program.yields_of_forall _ ?_⟩
  intro found
  cases found with
  | none => exact hSecond
  | some found => trivial

theorem always_encodeBody
    (path filePath : String)
    (modified : Time)
    (wantZstd wantBr : Bool)
    (raw : Bytes) :
    (encodeBody filePath modified wantZstd wantBr
      raw).Always (Op.About path) := by
  unfold encodeBody
  rw [Program.always_bind_iff]
  constructor
  · apply always_either
    · exact always_tryCompress path filePath modified raw
        wantZstd .zstd
    · exact always_tryCompress path filePath modified raw
        wantBr .br
  · refine Program.yields_of_forall _ ?_
    intro encoded
    cases encoded with
    | none => trivial
    | some found => trivial

theorem always_readBody
    (filePath : String)
    (modified : Time)
    (wantZstd wantBr : Bool) :
    (readBody filePath modified wantZstd wantBr).Always
      (Op.About filePath) := by
  unfold readBody
  rw [Program.ask_bind, Program.always_call]
  constructor
  · simp [Op.About, Op.path?]
  · intro file
    cases file with
    | none => trivial
    | some file =>
        show Program.Always _ (Program.ask _ >>= _)
        rw [Program.ask_bind, Program.always_call]
        constructor
        · simp [Op.About, Op.path?]
        · intro raw
          cases raw with
          | none => trivial
          | some raw =>
              show Program.Always _ (_ >>= _)
              rw [Program.always_bind_iff]
              exact ⟨always_encodeBody filePath filePath
                modified wantZstd wantBr raw,
                Program.yields_of_forall _
                  (fun _ => trivial)⟩

theorem always_loadBody
    (filePath : String)
    (modified : Time)
    (wantZstd wantBr : Bool) :
    (loadBody filePath modified wantZstd wantBr).Always
      (Op.About filePath) := by
  unfold loadBody
  rw [Program.always_bind_iff]
  constructor
  · apply always_either
    · exact always_tryCached filePath filePath modified
        wantZstd .zstd
    · exact always_tryCached filePath filePath modified
        wantBr .br
  · refine Program.yields_of_forall _ ?_
    intro hit
    cases hit with
    | some found => trivial
    | none =>
        exact always_readBody filePath modified wantZstd
          wantBr

theorem always_serve
    (env : Env)
    (args : Args)
    (filePath : String)
    (metadata : Metadata) :
    (serve env args filePath metadata).Always
      (Op.About filePath) := by
  unfold serve
  dsimp only
  split
  · trivial
  · split
    · trivial
    · rw [Program.always_bind_iff]
      refine ⟨always_loadBody _ _ _ _,
        Program.yields_of_forall _ ?_⟩
      intro body
      cases body with
      | none => trivial
      | some body => trivial

/- A request for a domain begins with its file's status. -/
theorem dynReply_eq_call
    (env : Env)
    {args : Args}
    (hHost : args.uri = args.domain) :
    dynReply env args =
      .call
        (.metadata
          (filePath args.wwwRoot args.uri args.tail))
        (serveIfFound env args
          (filePath args.wwwRoot args.uri args.tail)) := by
  unfold dynReply
  rw [if_neg (not_not.mpr hHost)]
  rfl

theorem dynReply_of_ne
    (env : Env)
    {args : Args}
    (hHost : args.uri ≠ args.domain) :
    dynReply env args = .done .rejected := by
  unfold dynReply
  rw [if_pos hHost]
  rfl

/- A reply touches no file but the one of its path. -/
theorem always_dynReply
    (env : Env)
    (args : Args) :
    (dynReply env args).Always
      (Op.About
        (filePath args.wwwRoot args.uri args.tail)) := by
  by_cases hHost : args.uri = args.domain
  · rw [dynReply_eq_call env hHost, Program.always_call]
    constructor
    · simp [Op.About, Op.path?]
    · intro metadata
      cases metadata with
      | none => trivial
      | some metadata => exact always_serve env args _ metadata
  · rw [dynReply_of_ne env hHost]
    trivial

end Http

end Mles

------------------------------------------------------------
-- Who Answers
------------------------------------------------------------

namespace Mles

namespace Http

theorem serve_answers
    (env : Env)
    (args : Args)
    (filePath : String)
    (metadata : Metadata) :
    (serve env args filePath metadata).Yields
      (· ≠ .rejected) := by
  unfold serve
  dsimp only
  split
  · exact Outcome.noConfusion
  · split
    · exact Outcome.noConfusion
    · rw [Program.yields_bind_iff]
      refine Program.yields_of_forall _ ?_
      intro body
      cases body with
      | none => exact Outcome.noConfusion
      | some body => exact Outcome.noConfusion

/- The domain asked for is never left to another route. -/
theorem dynReply_answers
    (env : Env)
    {args : Args}
    (hHost : args.uri = args.domain) :
    (dynReply env args).Yields (· ≠ .rejected) := by
  rw [dynReply_eq_call env hHost, Program.yields_call]
  intro metadata
  cases metadata with
  | none => exact Outcome.noConfusion
  | some metadata => exact serve_answers env args _ metadata

theorem or_of_rejected
    {a b : Filter}
    {req : Request}
    (hRejected : a req = .done .rejected) :
    (a.or b) req = b req := by
  unfold Filter.or
  rw [hRejected]
  rfl

theorem or_of_answers
    {a b : Filter}
    {req : Request}
    (hAnswers : (a req).Yields (· ≠ .rejected)) :
    (a.or b) req = a req := by
  refine Program.bind_eq_self (hAnswers.mono ?_)
  intro outcome hNe
  cases outcome with
  | rejected => exact absurd rfl hNe
  | reply r => rfl
  | panicked => rfl

/- The request gets as far as `dyn_reply` for this host. -/
structure Request.For
    (req : Request)
    (host : String) : Prop where
  isGet : req.method = .get
  encodingReadable : req.acceptEncoding ≠ .unreadable
  imsReadable : req.ifModifiedSince ≠ .unreadable
  isHost : req.host = .text host

/- What `dyn_reply` is given for such a request. -/
def Request.args
    (req : Request)
    (host domain wwwRoot : String)
    (cors : Bool) : Args where
  encoding := req.acceptEncoding.optional.getD none
  ims := req.ifModifiedSince.optional.getD none
  uri := host
  domain := domain
  wwwRoot := wwwRoot
  tail := req.tail
  cors := cors

theorem Field.optional_eq
    {field : Field}
    (hReadable : field ≠ .unreadable) :
    field.optional = some (field.optional.getD none) := by
  cases field with
  | absent => rfl
  | text value => rfl
  | unreadable => exact absurd rfl hReadable

theorem fileRoute_eq
    (env : Env)
    (wwwRoot : String)
    (cors : Bool)
    (domain : String)
    {req : Request}
    {host : String}
    (hFor : req.For host) :
    fileRoute env wwwRoot cors domain req =
      dynReply env (req.args host domain wwwRoot cors) := by
  unfold fileRoute
  rw [hFor.isGet, Field.optional_eq hFor.encodingReadable,
    Field.optional_eq hFor.imsReadable, hFor.isHost]
  rfl

theorem swapRemove_map
    {α β : Type}
    (f : α → β)
    (xs : List α) :
    swapRemove (xs.map f) =
      (swapRemove xs).map (fun p => (f p.1, p.2.map f)) := by
  cases xs with
  | nil => rfl
  | cons x xs =>
      simp only [swapRemove, List.map_cons,
        List.getLast?_map]
      cases xs.getLast? with
      | none => rfl
      | some last => simp [List.map_dropLast]

theorem mem_swapRemove_iff
    {α : Type}
    {xs rest : List α}
    {x y : α}
    (hSwap : swapRemove xs = some (x, rest)) :
    y ∈ xs ↔ y = x ∨ y ∈ rest := by
  cases xs with
  | nil => exact absurd hSwap (by simp [swapRemove])
  | cons z zs =>
      rcases List.eq_nil_or_concat zs with
        rfl | ⟨init, last, rfl⟩
      · simp [swapRemove] at hSwap
        rcases hSwap with ⟨rfl, rfl⟩
        simp
      · simp [swapRemove] at hSwap
        rcases hSwap with ⟨rfl, rfl⟩
        simp [or_comm]

section

/-
  Routes of any kind, each made for one domain, and what
  they come to on one request.
-/
variable {A B : Type}
variable {F : String → A} {either : A → A → A} {result : A → B}
variable {domains : List String}
variable {index : A} {vindex : List A}

/- The routes tried later come first in the end. -/
theorem foldl_either_eq
    {host : String}
    (hHost : ∀ b, result (either (F host) b) = result (F host))
    (hOther :
      ∀ domain, domain ≠ host →
        ∀ b, result (either (F domain) b) = result b)
    (hosts : List String)
    (index : A) :
    result ((hosts.map F).foldl
        (fun index val => either val index) index) =
      if host ∈ hosts then result (F host) else result index := by
  induction hosts generalizing index with
  | nil => rfl
  | cons domain hosts ih =>
      rw [List.map_cons, List.foldl_cons, ih]
      by_cases hMem : host ∈ hosts
      · rw [if_pos hMem,
          if_pos (List.mem_cons_of_mem domain hMem)]
      · rw [if_neg hMem]
        by_cases hEq : domain = host
        · subst hEq
          rw [if_pos List.mem_cons_self, hHost]
        · rw [hOther domain hEq, if_neg]
          intro hCons
          rcases List.mem_cons.mp hCons with hHead | hTail
          · exact hEq hHead.symm
          · exact hMem hTail

/- A configured host is answered by its own route. -/
theorem folded_eq
    (hSwap :
      swapRemove (domains.map F) = some (index, vindex))
    {host : String}
    (hHost : ∀ b, result (either (F host) b) = result (F host))
    (hOther :
      ∀ domain, domain ≠ host →
        ∀ b, result (either (F domain) b) = result b)
    (hMem : host ∈ domains) :
    result (vindex.foldl (fun index val => either val index)
      index) = result (F host) := by
  rw [swapRemove_map] at hSwap
  rcases Option.map_eq_some_iff.mp hSwap with
    ⟨⟨first, hosts⟩, hDomains, hEq⟩
  cases hEq
  rw [foldl_either_eq hHost hOther]
  split
  · rfl
  · rename_i hNotMem
    rcases (mem_swapRemove_iff hDomains).mp hMem with
      rfl | hRest
    · rfl
    · exact absurd hRest hNotMem

/- What every route passes on is passed on by all. -/
theorem folded_of_rejects
    (hSwap :
      swapRemove (domains.map F) = some (index, vindex))
    {rejected : B}
    (hAll :
      ∀ domain ∈ domains, result (F domain) = rejected)
    (hPass :
      ∀ domain ∈ domains,
        ∀ b, result (either (F domain) b) = result b) :
    result (vindex.foldl (fun index val => either val index)
      index) = rejected := by
  rw [swapRemove_map] at hSwap
  rcases Option.map_eq_some_iff.mp hSwap with
    ⟨⟨first, hosts⟩, hDomains, hEq⟩
  cases hEq
  have hRest (hosts : List String)
      (hHosts : ∀ domain ∈ hosts, domain ∈ domains)
      (index : A)
      (hIndex : result index = rejected) :
      result ((hosts.map F).foldl
        (fun index val => either val index) index) =
          rejected := by
    induction hosts generalizing index with
    | nil => exact hIndex
    | cons domain hosts ih =>
        rw [List.map_cons, List.foldl_cons]
        apply ih
        · intro other hMem
          exact hHosts other (List.mem_cons_of_mem domain hMem)
        · rw [hPass domain (hHosts domain List.mem_cons_self)]
          exact hIndex
  apply hRest
  · intro domain hMem
    exact (mem_swapRemove_iff hDomains).mpr (Or.inr hMem)
  · exact hAll first
      ((mem_swapRemove_iff hDomains).mpr (Or.inl rfl))

end

/- The routes, once there is a domain. -/
theorem createHttpFileRoutes_eq_some
    {env : Env}
    {domains : List String}
    {wwwRoot : String}
    {cors : Bool}
    {routes : Filter}
    (hRoutes :
      createHttpFileRoutes env domains wwwRoot cors =
        some routes) :
    ∃ index vindex,
      swapRemove (domains.map (fileRoute env wwwRoot cors)) =
          some (index, vindex) ∧
        routes =
          vindex.foldl (fun index val => val.or index)
            index := by
  unfold createHttpFileRoutes at hRoutes
  cases hSwap :
      swapRemove
        (domains.map (fileRoute env wwwRoot cors)) with
  | none =>
      rw [hSwap] at hRoutes
      cases hRoutes
  | some found =>
      rcases found with ⟨index, vindex⟩
      rw [hSwap] at hRoutes
      cases hRoutes
      exact ⟨index, vindex, rfl, rfl⟩

theorem createHttpFileRoutes_eq
    {env : Env}
    {domains : List String}
    {wwwRoot : String}
    {cors : Bool}
    {routes : Filter}
    (hRoutes :
      createHttpFileRoutes env domains wwwRoot cors =
        some routes)
    {req : Request}
    {host : String}
    (hFor : req.For host)
    (hMem : host ∈ domains) :
    routes req =
      dynReply env (req.args host host wwwRoot cors) := by
  have hHost :
      (fileRoute env wwwRoot cors host req).Yields
        (· ≠ .rejected) := by
    rw [fileRoute_eq env wwwRoot cors host hFor]
    exact dynReply_answers env rfl
  have hOther :
      ∀ domain, domain ≠ host →
        fileRoute env wwwRoot cors domain req =
          .done .rejected := by
    intro domain hNe
    rw [fileRoute_eq env wwwRoot cors domain hFor]
    exact dynReply_of_ne env hNe.symm
  rcases createHttpFileRoutes_eq_some hRoutes with
    ⟨index, vindex, hSwap, rfl⟩
  rw [← fileRoute_eq env wwwRoot cors host hFor]
  exact @folded_eq _ _ _ Filter.or (· req) _ _ _ hSwap _
    (fun b => or_of_answers hHost)
    (fun domain hNe b => or_of_rejected (hOther domain hNe))
    hMem

/- A request that no route is for. -/
theorem fileRoute_rejects
    (env : Env)
    (wwwRoot : String)
    (cors : Bool)
    {domain : String}
    {req : Request}
    (hNot : ¬ req.For domain) :
    fileRoute env wwwRoot cors domain req =
      .done .rejected := by
  unfold fileRoute
  split
  · rename_i encoding ims uri hGet hEncoding hIms hUri
    apply dynReply_of_ne
    intro hSame
    apply hNot
    refine ⟨hGet, ?_, ?_, ?_⟩
    · intro hBad
      rw [hBad] at hEncoding
      cases hEncoding
    · intro hBad
      rw [hBad] at hIms
      cases hIms
    · cases hField : req.host with
      | text value =>
          rw [hField] at hUri
          cases hUri
          exact congrArg Field.text hSame
      | absent =>
          rw [hField] at hUri
          cases hUri
      | unreadable =>
          rw [hField] at hUri
          cases hUri
  · rfl

/- What is for none of the hosts is left to others. -/
theorem createHttpFileRoutes_rejects
    {env : Env}
    {domains : List String}
    {wwwRoot : String}
    {cors : Bool}
    {routes : Filter}
    (hRoutes :
      createHttpFileRoutes env domains wwwRoot cors =
        some routes)
    {req : Request}
    (hNone : ∀ host ∈ domains, ¬ req.For host) :
    routes req = .done .rejected := by
  have hAll :
      ∀ host ∈ domains,
        fileRoute env wwwRoot cors host req =
          .done .rejected :=
    fun host hMem =>
      fileRoute_rejects env wwwRoot cors (hNone host hMem)
  rcases createHttpFileRoutes_eq_some hRoutes with
    ⟨index, vindex, hSwap, rfl⟩
  exact @folded_of_rejects _ _ _ Filter.or (· req) _ _ _ hSwap
    _ hAll (fun host hMem b => or_of_rejected (hAll host hMem))

end Http

end Mles
