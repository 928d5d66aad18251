import Mles.Http.Freshness

/-
  A client that asks whether its copy is current.

  The client sends back the date it was given with the file,
  and is told that its copy is current if the file is not
  from a later second.  Two versions of one second cannot be
  told apart this way: the client is right to keep its copy
  as long as a write in the second of the version it
  replaces leaves the content as it was.

  Key definitions include:
    * `Http.Env.DatesExact`
    * `Http.Site.Ordered`
    * `Http.Site.Apart`
    * `Http.Dated`

  Key theorems include:
    * `Http.Site.dated_run`
    * `Http.Site.isCurrent_of_notModified`
    * `Http.Site.kept_is_current`
-/

------------------------------------------------------------
-- Histories of a File
------------------------------------------------------------

namespace Mles

namespace Http

/-
  A date keeps the whole seconds of a time, and parsing
  undoes the formatting.
-/
def Env.DatesExact (env : Env) : Prop :=
  ∀ t text, 0 ≤ t → env.fmtHttpDate t = some text →
    ∃ since, env.parseHttpDate text = some since ∧
      secs since = secs t

theorem secs_mono
    {t u : Time}
    (hLe : t ≤ u) :
    secs t ≤ secs u :=
  Nat.div_le_div_right (Int.toNat_le_toNat hLe)

/-
  The versions of a file, each later than the ones before;
  those of one second have one content.
-/
structure Dated (versions : List Version) : Prop where
  epoch : ∀ v ∈ versions, 0 ≤ v.modified
  later :
    versions.Pairwise (fun v w => v.modified < w.modified)
  apart :
    versions.Pairwise (fun v w =>
      secs w.modified ≤ secs v.modified →
        w.content = v.content)

theorem dated_nil : Dated [] :=
  ⟨by simp, .nil, .nil⟩

/- The newest version is the latest. -/
theorem Dated.le_last
    {versions : List Version}
    (hDated : Dated versions)
    {last : Version}
    (hLast : versions.getLast? = some last)
    {v : Version}
    (hMem : v ∈ versions) :
    v = last ∨
      v.modified < last.modified ∧
      (secs last.modified ≤ secs v.modified →
        last.content = v.content) := by
  rcases List.getLast?_eq_some_iff.mp hLast with ⟨init, rfl⟩
  rcases List.mem_append.mp hMem with hInit | hEnd
  · have hLater := List.pairwise_append.mp hDated.later
    have hApart := List.pairwise_append.mp hDated.apart
    exact Or.inr ⟨hLater.2.2 v hInit last (by simp),
      hApart.2.2 v hInit last (by simp)⟩
  · exact Or.inl (List.mem_singleton.mp hEnd)

theorem Dated.secs_le
    {versions : List Version}
    (hDated : Dated versions)
    {i j : Nat}
    {v w : Version}
    (hLe : i ≤ j)
    (hFirst : versions[i]? = some v)
    (hSecond : versions[j]? = some w) :
    secs v.modified ≤ secs w.modified := by
  rcases List.getElem?_eq_some_iff.mp hFirst with ⟨hLt, rfl⟩
  rcases List.getElem?_eq_some_iff.mp hSecond with ⟨hLt', rfl⟩
  rcases Nat.eq_or_lt_of_le hLe with rfl | hBefore
  · exact Nat.le_refl _
  · have hLater := List.pairwise_iff_getElem.mp hDated.later
      i j hLt hLt' hBefore
    exact secs_mono (le_of_lt hLater)

/- A write keeps the history dated. -/
theorem Dated.snoc
    {versions : List Version}
    (hDated : Dated versions)
    {v : Version}
    (hEpoch : 0 ≤ v.modified)
    (hLater :
      ∀ last, versions.getLast? = some last →
        last.modified < v.modified)
    (hApart :
      ∀ last, versions.getLast? = some last →
        secs v.modified = secs last.modified →
          v.content = last.content) :
    Dated (versions ++ [v]) := by
  cases hLast : versions.getLast? with
  | none =>
      rw [List.getLast?_eq_none_iff] at hLast
      subst hLast
      exact ⟨by simpa using hEpoch, by simp, by simp⟩
  | some last =>
      have hAfter := hLater last hLast
      have hSame := hApart last hLast
      refine ⟨?_, ?_, ?_⟩
      · intro w hMem
        rcases List.mem_append.mp hMem with hOld | hNew
        · exact hDated.epoch w hOld
        · rw [List.mem_singleton.mp hNew]
          exact hEpoch
      · refine List.pairwise_append.mpr
          ⟨hDated.later, by simp, ?_⟩
        intro w hOld x hNew
        rw [List.mem_singleton.mp hNew]
        rcases hDated.le_last hLast hOld with
          rfl | ⟨hBefore, _⟩
        · exact hAfter
        · exact lt_trans hBefore hAfter
      · refine List.pairwise_append.mpr
          ⟨hDated.apart, by simp, ?_⟩
        intro w hOld x hNew hSecs
        rw [List.mem_singleton.mp hNew] at hSecs ⊢
        have hUp := secs_mono (le_of_lt hAfter)
        rcases hDated.le_last hLast hOld with
          rfl | ⟨hBefore, hContent⟩
        · exact hSame (by omega)
        · have hDown := secs_mono (le_of_lt hBefore)
          rw [hSame (by omega)]
          exact hContent (by omega)

end Http

end Mles

------------------------------------------------------------
-- Runs with Writes Apart
------------------------------------------------------------

namespace Mles

namespace Http

namespace Site

/-
  Each write of the file sets a later time of modification,
  none before the epoch.
-/
def Ordered
    (file : Inode)
    (s : Site) : SiteAct → Prop
| .write other v =>
    other = file →
      0 ≤ v.modified ∧
      ∀ last, (s.versions file).getLast? = some last →
        last.modified < v.modified
| _ => True

/-
  A write of the file in the second of the version that it
  replaces leaves the content as it was.
-/
def Apart
    (file : Inode)
    (s : Site) : SiteAct → Prop
| .write other v =>
    other = file →
      ∀ last, (s.versions file).getLast? = some last →
        secs v.modified = secs last.modified →
          v.content = last.content
| _ => True

/- The history of the file in a run of such writes. -/
theorem dated_run
    {m : Machine}
    {maxSizeMb : UInt64}
    {file : Inode}
    {acts : List SiteAct}
    {s : Site}
    (hOrdered :
      Trace.Along (step m) (Ordered file) (init maxSizeMb)
        acts)
    (hApart :
      Trace.Along (step m) (Apart file) (init maxSizeMb) acts)
    (hRun : run m maxSizeMb acts = some s) :
    Dated (s.versions file) := by
  refine Trace.run_induction_along
    (C := fun s a => Ordered file s a ∧ Apart file s a)
    (P := fun _ s => Dated (s.versions file))
    dated_nil ?_ ?_ hRun
  · intro _ s a t _ ih hMeets hStep
    rcases step_cases hStep with
      ⟨other, v, rfl, _, rfl⟩ | ⟨args, _, rfl⟩ |
      ⟨r, seen, args, op, k, ans, u, _, _, hPerform, rfl⟩ |
      ⟨r, args, op, k, ans, _, _, _, rfl⟩
    · by_cases hFile : other = file
      · have hTimes := hMeets.1 hFile
        have hContents := hMeets.2 hFile
        subst hFile
        simp only [Function.update_self]
        exact ih.snoc hTimes.1 hTimes.2 hContents
      · simp only [Function.update_of_ne (Ne.symm hFile)]
        exact ih
    · exact ih
    · simp only [Site.resume, (perform_frame hPerform).1]
      exact ih
    · exact ih
  · intro pre a post t hSplit hPre
    exact ⟨hOrdered pre a post t hSplit hPre,
      hApart pre a post t hSplit hPre⟩

/- The request is not answered yet. -/
def UnderWay
    (s : Site)
    (r : Nat)
    (args : Args) : Prop :=
  ∃ op k, s.requests[r]? = some ⟨args, .call op k⟩

theorem served_status
    {m : Machine}
    {Had : Bytes → Prop}
    {modified : Time}
    {reply : Reply}
    (hServed : Served m Had modified (.reply reply)) :
    reply.status ≠ 304 := by
  rcases hServed with ⟨_, hSame, hOr⟩
  cases hSame
  rcases hOr with hError | ⟨hStatus, _⟩
  · rw [hError]
    decide
  · rw [hStatus]
    decide

/- The status is what finds a client's copy current. -/
theorem isCurrent_of_status
    {m : Machine}
    {args : Args}
    {newest : Option Version}
    {reply : Reply}
    (hTask :
      serveIfFound m.env args args.path
          (newest.map
            (fun v => ⟨some v.modified, v.content.length⟩)) =
        .done (.reply reply))
    (hStatus : reply.status = 304) :
    ∃ v, newest = some v ∧
      isCurrent m.env args.ims v.modified = true := by
  cases newest with
  | none =>
      cases hTask
      cases hStatus
  | some v =>
      refine ⟨v, rfl, ?_⟩
      rcases serve_cases m args args.path v.modified
          v.content.length with
        hPanicked | ⟨_, _, hCurrent, _⟩ | hKeeps
      · cases hPanicked.symm.trans hTask
      · exact hCurrent
      · have hServed :=
          hKeeps (fun _ => True) (fun _ => True)
        have hDone :
            serve m.env args args.path
                ⟨some v.modified, v.content.length⟩ =
              .done (.reply reply) :=
          hTask
        rw [hDone] at hServed
        exact absurd hStatus (served_status hServed)

end Site

end Http

end Mles

------------------------------------------------------------
-- Keeping a Copy
------------------------------------------------------------

namespace Mles

namespace Http

namespace Site

/- What goes on with a request in a step that ends it. -/
theorem step_of_underWay
    {m : Machine}
    {s t : Site}
    {a : SiteAct}
    (hStep : s.step m a = some t)
    {r : Nat}
    {args : Args}
    {op : Op}
    {k : op.Ans → Task Outcome}
    (hAt : s.requests[r]? = some ⟨args, .call op k⟩)
    {outcome : Outcome}
    (hDone : t.requests[r]? = some ⟨args, .done outcome⟩) :
    t.versions = s.versions ∧
      ((∃ seen ans u,
        s.perform m seen op = some (ans, u) ∧
        k ans = .done outcome) ∨
      ∃ ans, op.error = some ans ∧
        k ans = .done outcome) := by
  rcases step_cases hStep with
    ⟨file, v, _, _, rfl⟩ | ⟨args', _, rfl⟩ |
    ⟨r', seen, args', op', k', ans, u, _, hAt', hPerform,
      rfl⟩ |
    ⟨r', args', op', k', ans, _, hAt', hError, rfl⟩
  · cases hAt.symm.trans hDone
  · rcases List.getElem?_eq_some_iff.mp hAt with ⟨hLt, _⟩
    simp only [List.getElem?_append_left hLt] at hDone
    cases hAt.symm.trans hDone
  · rcases requests_resume hDone with ⟨rfl, hEq⟩ | hOld
    · cases hAt.symm.trans hAt'
      exact ⟨(perform_frame hPerform).1,
        Or.inl ⟨seen, ans, u, hPerform,
          (congrArg Pending.task hEq).symm⟩⟩
    · rw [(perform_frame hPerform).2.2] at hOld
      cases hAt.symm.trans hOld
  · rcases requests_resume hDone with ⟨rfl, hEq⟩ | hOld
    · cases hAt.symm.trans hAt'
      exact ⟨rfl, Or.inr ⟨ans, hError,
        (congrArg Pending.task hEq).symm⟩⟩
    · cases hAt.symm.trans hOld

/-
  A client is told that its copy is current in the very step
  in which the status of the file is seen.
-/
theorem isCurrent_of_notModified
    {m : Machine}
    {Seen : Nat → Args → Nat → Prop}
    {s t : Site}
    (hFresh : s.Fresh m Seen)
    {a : SiteAct}
    (hStep : s.step m a = some t)
    {r : Nat}
    {args : Args}
    (hUnderWay : s.UnderWay r args)
    {reply : Reply}
    (hReply :
      t.requests[r]? = some ⟨args, .done (.reply reply)⟩)
    (hStatus : reply.status = 304) :
    t.versions = s.versions ∧
    ∃ v,
      (s.versions (m.locate args.path)).getLast? = some v ∧
      isCurrent m.env args.ims v.modified = true := by
  rcases hUnderWay with ⟨op, k, hAt⟩
  rcases step_of_underWay hStep hAt hReply with
    ⟨hVersions, hEnds⟩
  refine ⟨hVersions, ?_⟩
  cases hFresh.phases r _ hAt with
  | waiting hTask =>
      have hCall :=
        hAt.symm.trans (awaitsStatus_of_waiting hAt hTask)
      cases hCall
      rcases hEnds with
        ⟨seen, ans, u, hPerform, hDone⟩ |
        ⟨ans, hError, hDone⟩
      · cases hPerform
        exact isCurrent_of_status hDone hStatus
      · cases hError
        cases hDone
        cases hStatus
  | closed outcome hTask hOther => cases hTask
  | serving j v hSeen hVersion hKeeps =>
      -- Past the status, the file itself is the answer.
      refine absurd hStatus ?_
      have hCall := hKeeps _ _ (fun _ hHad => hHad)
        (fun _ hOpened => hOpened)
      rcases hEnds with
        ⟨seen, ans, u, hPerform, hDone⟩ |
        ⟨ans, hError, hDone⟩
      · have hGrows := perform_grows hPerform
        have hLater := hKeeps
          (u.Had (m.locate args.path) j)
          (u.Opened (m.locate args.path) j)
          (fun _ => hGrows.had) (fun _ => hGrows.opened)
        have hGiven :=
          (perform_spec hFresh.tidy hVersion hCall.1
            hPerform).2
        have hServed := hLater.2 ans hGiven
        rw [hDone] at hServed
        exact served_status hServed
      · have hServed := hCall.2 ans (given_error hError)
        rw [hDone] at hServed
        exact served_status hServed

/-
  In every run whose writes of the file are apart: a client
  that was sent the file, and is later told that its copy is
  current, has the content of the file.
-/
theorem kept_is_current
    (m : Machine)
    (hDates : m.env.DatesPlain)
    (hExact : m.env.DatesExact)
    (maxSizeMb : UInt64)
    (acts : List SiteAct)
    (a : SiteAct)
    (s t : Site)
    (hRun : run m maxSizeMb acts = some s)
    (hStep : s.step m a = some t)
    (r r' : Nat)
    (args args' : Args)
    (reply reply' : Reply)
    (lastModified : String)
    (raw : Bytes)
    (hReply :
      s.requests[r]? = some ⟨args, .done (.reply reply)⟩)
    (hStatus : reply.status = 200)
    (hDate : reply.header .lastModified = some lastModified)
    (hBody : reply.decode m.codec = some raw)
    (hFile : m.locate args'.path = m.locate args.path)
    (hIms : args'.ims = some lastModified)
    (hUnderWay : s.UnderWay r' args')
    (hReply' :
      t.requests[r']? = some ⟨args', .done (.reply reply')⟩)
    (hStatus' : reply'.status = 304)
    (hOrdered :
      Trace.Along (step m) (Ordered (m.locate args.path))
        (init maxSizeMb) acts)
    (hApart :
      Trace.Along (step m) (Apart (m.locate args.path))
        (init maxSizeMb) acts) :
    t.content (m.locate args.path) = some raw := by
  have hDated := dated_run hOrdered hApart hRun
  rcases isCurrent_of_notModified (fresh_run hDates hRun) hStep
      hUnderWay hReply' hStatus' with
    ⟨hVersions, newest, hNewest, hCurrent⟩
  rw [hFile] at hNewest
  rcases saw_of_reply hDates hRun hReply hStatus with
    ⟨j, seen, raw', _, hSeen, hHeader, hRaw, i, v, hLe,
      hVersion, hContent⟩
  have hSame : raw' = raw :=
    Option.some.inj (hRaw.symm.trans hBody)
  -- The date the client sends back is that of its version.
  have hSince : secs newest.modified ≤ secs seen.modified := by
    rw [hHeader] at hDate
    rcases hExact seen.modified lastModified
        (hDated.epoch seen (List.mem_of_getElem? hSeen))
        hDate with ⟨since, hParse, hSecs⟩
    simpa [isCurrent, hIms, hParse, hSecs] using hCurrent
  have hRead : secs seen.modified ≤ secs v.modified :=
    hDated.secs_le hLe hSeen hVersion
  unfold content
  rw [hVersions, hNewest, Option.map_some, ← hSame, ← hContent]
  rcases hDated.le_last hNewest
      (List.mem_of_getElem? hVersion) with rfl | ⟨_, hEqual⟩
  · rfl
  · rw [hEqual (Nat.le_trans hSince hRead)]

end Site

theorem sampleEnv_datesExact : sampleEnv.DatesExact := by
  intro t text hEpoch hDate
  simp only [sampleEnv, if_pos hEpoch] at hDate
  have hFew : secs t < 2 := by
    rcases List.getElem?_eq_some_iff.mp hDate with ⟨hLt, _⟩
    exact hLt
  cases hSecs : secs t with
  | zero =>
      rw [hSecs] at hDate
      cases hDate
      exact ⟨0, rfl, rfl⟩
  | succ n =>
      have hOne : n = 0 := by omega
      rw [hSecs, hOne] at hDate
      cases hDate
      rw [hOne]
      exact ⟨1000000000, rfl, rfl⟩

namespace Site

instance
    (file : Inode)
    (s : Site)
    (a : SiteAct) :
    Decidable (Ordered file s a) :=
  match a with
  | .write other v =>
      inferInstanceAs (Decidable
        (other = file →
          0 ≤ v.modified ∧
          ∀ last ∈ (s.versions file).getLast?,
            last.modified < v.modified))
  | .request _ => isTrue trivial
  | .answered _ _ => isTrue trivial
  | .failed _ => isTrue trivial

instance
    (file : Inode)
    (s : Site)
    (a : SiteAct) :
    Decidable (Apart file s a) :=
  match a with
  | .write other v =>
      inferInstanceAs (Decidable
        (other = file →
          ∀ last ∈ (s.versions file).getLast?,
            secs v.modified = secs last.modified →
              v.content = last.content))
  | .request _ => isTrue trivial
  | .answered _ _ => isTrue trivial
  | .failed _ => isTrue trivial

theorem along_of_check
    {m : Machine}
    {maxSizeMb : UInt64}
    {C : Site → SiteAct → Prop}
    [∀ s a, Decidable (C s a)]
    {acts : List SiteAct}
    (hCheck :
      Trace.check (step m) (fun s a => decide (C s a))
        (init maxSizeMb) acts = true) :
    Trace.Along (step m) C (init maxSizeMb) acts :=
  Trace.Along.of_check
    (fun _ _ hOk => of_decide_eq_true hOk) hCheck

/- A client asks for the file, and then for its date. -/
def plainArgs : Args :=
  { sampleArgs with encoding := none }

def againArgs
    (lastModified : String) : Args :=
  { plainArgs with ims := some lastModified }

/- The file is written in two seconds, and then visited. -/
def visitedLater : List SiteAct :=
  [.write 0 ⟨[97], 500000000⟩,
    .write 0 ⟨[98], 1500000000⟩,
    .request plainArgs, .answered 0 0, .answered 0 0,
    .answered 0 1,
    .request (againArgs "Thu, 01 Jan 1970 00:00:01 GMT")]

theorem kept_is_current_visitedLater :
    ∃ s t reply reply',
      run sampleMachine 1 visitedLater = some s ∧
      s.step sampleMachine (.answered 1 0) = some t ∧
      s.requests[0]? =
        some ⟨plainArgs, .done (.reply reply)⟩ ∧
      reply.decode storedFrame = some [98] ∧
      t.requests[1]? =
        some ⟨againArgs "Thu, 01 Jan 1970 00:00:01 GMT",
          .done (.reply reply')⟩ ∧
      reply'.status = 304 ∧
      t.content 0 = some [98] := by
  refine ⟨_, _, _, _, rfl, rfl, rfl, rfl, rfl, rfl, ?_⟩
  exact kept_is_current sampleMachine sampleEnv_datesPlain
    sampleEnv_datesExact 1 visitedLater (.answered 1 0) _ _
    rfl rfl 0 1 plainArgs
    (againArgs "Thu, 01 Jan 1970 00:00:01 GMT") _ _ _ [98]
    rfl rfl rfl rfl rfl rfl ⟨_, _, rfl⟩ rfl rfl
    (along_of_check rfl) (along_of_check rfl)

/- The file is written twice in one second. -/
def visitedBetween : List SiteAct :=
  [.write 0 ⟨[97], 10⟩, .request plainArgs, .answered 0 0,
    .answered 0 0, .answered 0 0, .write 0 ⟨[98], 20⟩,
    .request (againArgs "Thu, 01 Jan 1970 00:00:00 GMT")]

/- The client is told to keep what is no longer there. -/
theorem stale_copy_kept :
    ∃ s t reply reply',
      Trace.Along (step sampleMachine) (Ordered 0) (init 1)
        visitedBetween ∧
      run sampleMachine 1 visitedBetween = some s ∧
      s.step sampleMachine (.answered 1 0) = some t ∧
      s.requests[0]? =
        some ⟨plainArgs, .done (.reply reply)⟩ ∧
      reply.status = 200 ∧
      reply.header .lastModified =
        some "Thu, 01 Jan 1970 00:00:00 GMT" ∧
      reply.decode storedFrame = some [97] ∧
      s.UnderWay 1
        (againArgs "Thu, 01 Jan 1970 00:00:00 GMT") ∧
      t.requests[1]? =
        some ⟨againArgs "Thu, 01 Jan 1970 00:00:00 GMT",
          .done (.reply reply')⟩ ∧
      reply'.status = 304 ∧
      t.content 0 ≠ some [97] := by
  refine ⟨_, _, _, _, along_of_check rfl, rfl, rfl, rfl, rfl,
    rfl, rfl, ⟨_, _, rfl⟩, rfl, rfl, ?_⟩
  decide

end Site

end Http

end Mles
