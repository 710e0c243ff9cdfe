/-
  File:      Osclan/Proofs/FileChange.lean
  Subject:   What the operations on a file system change.

  Writing and removing change one place; making directories adds directories where nothing stood.
  For each it is said what stands there before and after, that everything still stands in a
  directory, and where paths lead afterwards.

  * `ChangesAt` -- two file systems that differ in one place;
  * `writeText_ok`, `removeFile_join` -- what is written and removed;
  * `Adds`, `makeDirs_adds` -- making directories adds and changes nothing else;
  * `makeDirs_new` -- a directory that had to be made is new, and so is everything in it.
-/
import Osclan.Proofs.ArtifactPath

namespace Osclan.FileSystem

/-! ## 1. One place -/

/-- The file systems differ at most in what stands at one place. -/
structure ChangesAt (fs fs' : FileSystem) (q : Place) : Prop where
  working : fs'.workingDir = fs.workingDir
  other : ∀ r, r ≠ q → fs'.entry? r = fs.entry? r

section

variable {fs fs' : FileSystem} {slash : PathEnd} {path dir name : String} {p q D : Place}

theorem put_changesAt (fs : FileSystem) (hq : q ≠ []) (e : Entry) : fs.ChangesAt (fs.put q e) q :=
  ⟨rfl, fun r hr => by rw [entryAt_put fs hq, if_neg hr]⟩

theorem erase_changesAt (fs : FileSystem) (hq : q ≠ []) : fs.ChangesAt (fs.erase q) q :=
  ⟨rfl, fun r hr => by rw [entryAt_erase fs hq, if_neg hr]⟩

theorem startOf_congr (h : fs'.workingDir = fs.workingDir) (path : String) :
    fs'.startOf path = fs.startOf path := by
  unfold startOf
  rw [h]

/-- **Everything stands in a directory after a change** that replaces no directory and puts nothing
    outside of one. -/
theorem ChangesAt.rooted (hc : fs.ChangesAt fs' q) (h : fs.Rooted)
    (hq : fs.entry? q ≠ some .dir)
    (hin : fs'.entry? q ≠ none → ∃ dir name, q = dir ++ [name] ∧ fs.entry? dir = some .dir) :
    fs'.Rooted where
  parent {dir name e} he := by
    have hdir : fs.entry? dir = some .dir := by
      by_cases hplace : dir ++ [name] = q
      · obtain ⟨dir', name', eq, hdir'⟩ := hin (by rw [← hplace, he]; exact Option.some_ne_none e)
        obtain ⟨rfl, _⟩ := List.append_inj' (hplace.trans eq) rfl
        exact hdir'
      · rw [hc.other _ hplace] at he
        exact h.parent he
    rw [hc.other dir fun e => hq (e ▸ hdir), hdir]
  working := by
    rw [hc.working, hc.other _ fun e => hq (e ▸ h.working), h.working]

theorem ChangesAt.resolve (hc : fs.ChangesAt fs' q) (hq : ¬ fs'.Passage q)
    (h : fs'.resolve slash path = .ok p) : p = q ∨ fs.resolve slash path = .ok p := by
  obtain ⟨hform, hne, hwalk⟩ := resolve_ok.mp h
  rw [startOf_congr hc.working] at hwalk
  rcases walk_of_change hc.other hq hwalk with e | hbefore
  · exact .inl e
  · exact .inr (resolve_ok.mpr ⟨hform, hne, hbefore⟩)

theorem dirAt_dir (h : fs.Rooted) (hD : fs.dirAt path = .ok D) : fs.entry? D = some .dir :=
  walkToDir_dir h (h.startOf path) hD

/-- A path that leads to a directory after a change led there before. -/
theorem ChangesAt.dirAt (hc : fs.ChangesAt fs' q) (h : fs'.Rooted) (hq : ¬ fs'.Passage q)
    (hD : fs'.dirAt path = .ok D) : fs.dirAt path = .ok D := by
  have hdir := dirAt_dir h hD
  unfold FileSystem.dirAt at hD ⊢
  rw [startOf_congr hc.working] at hD
  rcases walk_of_change hc.other hq hD with e | hbefore
  · rw [e] at hdir
    exact absurd (.inl hdir) hq
  · exact hbefore

/-- A path leads to its directory after a change where neither a directory nor a link stood. -/
theorem ChangesAt.dirAt_kept (hc : fs.ChangesAt fs' q) (h : fs.Rooted) (hq : ¬ fs.Passage q)
    (hD : fs.dirAt path = .ok D) : fs'.dirAt path = .ok D := by
  unfold FileSystem.dirAt at hD ⊢
  rw [startOf_congr hc.working]
  exact walkToDir_of_passages h (h.startOf path)
    (fun r hr => hc.other r fun e => hq (e ▸ hr)) hD

/-! ## 2. Writing and removing -/

/-- **What is written**: a file, at the place the path leads to. -/
theorem writeText_ok {text : String} (h : fs.writeText path text = .ok fs') :
    ∃ q, fs.resolve .refused path = .ok q ∧ fs.entry? q ≠ some .dir ∧
      fs' = fs.put q (.file text.toUTF8) := by
  unfold writeText writeBytes at h
  cases hr : fs.resolve .refused path with
  | error e =>
    rw [hr] at h
    cases h
  | ok q =>
    rw [hr] at h
    simp only [bind, Except.bind] at h
    refine ⟨q, rfl, ?_⟩
    split at h
    · cases h
    · rename_i hdir
      exact ⟨hdir, (Except.ok.inj h).symm⟩

theorem ne_root (h : fs.entry? q ≠ some .dir) : q ≠ [] := fun e => h (e ▸ rfl)

/-- What a path leads to for writing is no link, and it leads there for reading. -/
theorem resolve_refused (h : fs.Rooted) (hr : fs.resolve .refused path = .ok q)
    (hdir : fs.entry? q ≠ some .dir) : fs.resolve .directory path = .ok q ∧ ¬ fs.Passage q ∧
      ∃ dir name, q = dir ++ [name] ∧ fs.entry? dir = some .dir := by
  obtain ⟨hform, hne, hwalk⟩ := resolve_ok.mp hr
  refine ⟨resolve_ok.mpr ⟨hform, hne, walk_loosen (PathEnd.ofPath_looser path) _ _ _ hwalk⟩, ?_⟩
  rcases walk_end h _ _ _ (h.startOf path) hwalk with hd | ⟨_, hname, hpass⟩
  · exact absurd hd hdir
  · exact ⟨hpass, hname⟩

/-- **What is removed below a directory**: the file or link of that name. -/
theorem removeFile_join (hn : PathText.IsName name)
    (h : fs.removeFile (PathText.join dir name) = .ok fs') :
    ∃ D, fs.dirAt dir = .ok D ∧ fs.entry? (D ++ [name]) ≠ none ∧
      fs.entry? (D ++ [name]) ≠ some .dir ∧ fs' = fs.erase (D ++ [name]) := by
  unfold removeFile lastName at h
  rw [PathText.names_join dir hn, startOf_join hn, List.dropLast_concat,
    List.getLast?_concat] at h
  unfold dirAt
  cases hD : fs.walkToDir (fs.startOf dir) (PathText.names dir) with
  | error e =>
    rw [hD] at h
    cases h
  | ok D =>
    rw [hD] at h
    simp only [bind, Except.bind, pure, Except.pure] at h
    refine ⟨D, rfl, ?_⟩
    cases he : fs.entry? (D ++ [name]) with
    | none =>
      rw [he] at h
      cases h
    | some e =>
      rw [he] at h
      cases e with
      | dir => cases h
      | file content => exact ⟨by simp, by simp, (Except.ok.inj h).symm⟩
      | link target => exact ⟨by simp, by simp, (Except.ok.inj h).symm⟩

theorem rooted_put (h : fs.Rooted) (hdir : fs.entry? D = some .dir)
    (hq : fs.entry? (D ++ [name]) ≠ some .dir) (e : Entry) : (fs.put (D ++ [name]) e).Rooted :=
  (put_changesAt fs (ne_root hq) e).rooted h hq fun _ => ⟨D, name, rfl, hdir⟩

theorem rooted_erase (h : fs.Rooted) (hq : fs.entry? q ≠ some .dir) : (fs.erase q).Rooted := by
  refine (erase_changesAt fs (ne_root hq)).rooted h hq fun hnone => ?_
  rw [entryAt_erase fs (ne_root hq), if_pos rfl] at hnone
  exact absurd rfl hnone

/-! ## 3. Making directories -/

/-- What stood in the first file system stands in the second. -/
structure Adds (fs fs' : FileSystem) : Prop where
  working : fs'.workingDir = fs.workingDir
  kept : ∀ q e, fs.entry? q = some e → fs'.entry? q = some e

theorem Adds.refl (fs : FileSystem) : fs.Adds fs := ⟨rfl, fun _ _ h => h⟩

theorem Adds.trans {fs'' : FileSystem} (h : fs.Adds fs') (h' : fs'.Adds fs'') : fs.Adds fs'' :=
  ⟨h'.working.trans h.working, fun q e he => h'.kept q e (h.kept q e he)⟩

theorem adds_put (hq : fs.entry? q = none) (e : Entry) : fs.Adds (fs.put q e) := by
  have hne : q ≠ [] := ne_root (by rw [hq]; exact (Option.some_ne_none _).symm)
  refine ⟨rfl, fun r x hr => ?_⟩
  rw [entryAt_put fs hne, if_neg, hr]
  intro e
  rw [e, hq] at hr
  cases hr

/-- **What is made**: a directory where nothing stood, in the directory of the names before it. -/
theorem makeDir_ok {start : Place} {above : List String} {dotted : Bool}
    (h : fs.makeDir start (above ++ [name]) dotted = .ok fs') :
    ∃ D, fs.walkToDir start above = .ok D ∧ name ≠ ".." ∧
      ¬ PathText.longestName < name.utf8ByteSize ∧ fs.entry? (D ++ [name]) = none ∧
      fs' = fs.put (D ++ [name]) .dir := by
  unfold makeDir at h
  cases dotted with
  | true =>
    cases hw : fs.walkToDir start (above ++ [name]) <;> rw [hw] at h <;> cases h
  | false =>
    simp only [Bool.false_eq_true, if_false, putNew, lastName, List.dropLast_concat,
      List.getLast?_concat] at h
    cases hD : fs.walkToDir start above with
    | error e =>
      rw [hD] at h
      cases h
    | ok D =>
      rw [hD] at h
      simp only [bind, Except.bind, pure, Except.pure] at h
      refine ⟨D, rfl, ?_⟩
      by_cases hup : name = ".."
      · rw [if_pos hup] at h
        cases h
      by_cases hlen : PathText.longestName < name.utf8ByteSize
      · rw [if_neg hup, if_pos hlen] at h
        cases h
      rw [if_neg hup, if_neg hlen] at h
      cases he : fs.entry? (D ++ [name]) with
      | some e =>
        rw [he] at h
        cases h
      | none =>
        rw [he] at h
        exact ⟨hup, hlen, rfl, (Except.ok.inj h).symm⟩

/-- **What making a row of directories can do**: the ones above are made if that is needed, and then
    the last one, unless that fails or it is there. -/
theorem makeDirs_cons {start : Place} {dotted : Bool} {above : List String}
    {r : Except IoError Unit} (h : fs.makeDirs start dotted (name :: above) = (r, fs')) :
    ∃ fs₁, (fs₁ = fs ∨ ∃ r₁, fs.makeDirs start false above = (r₁, fs₁) ∧
        (r = .ok () → r₁ = .ok ())) ∧
      (fs₁.makeDir start (above.reverse ++ [name]) dotted = .ok fs' ∨
        fs' = fs₁ ∧ (r = .ok () →
          ∃ D, fs₁.walkToDir start (above.reverse ++ [name]) = .ok D)) := by
  -- what is left where the last directory is not made: it is there already, or the row fails
  have horDir : ∀ {fs₁ : FileSystem} {e : IoError} {made : Except IoError Unit × FileSystem},
      made = (r, fs') →
      (∀ D, fs₁.walkToDir start (above.reverse ++ [name]) = .ok D → made = (.ok (), fs₁)) →
      (∀ e', fs₁.walkToDir start (above.reverse ++ [name]) = .error e' → made = (.error e, fs₁)) →
      fs' = fs₁ ∧ (r = .ok () →
        ∃ D, fs₁.walkToDir start (above.reverse ++ [name]) = .ok D) := by
    intro fs₁ e made h hdir hfail
    cases hD : fs₁.walkToDir start (above.reverse ++ [name]) with
    | ok D =>
      cases h.symm.trans (hdir D hD)
      exact ⟨rfl, fun _ => ⟨D, rfl⟩⟩
    | error e' =>
      cases h.symm.trans (hfail e' hD)
      exact ⟨rfl, fun hr => by cases hr⟩
  rw [makeDirs] at h
  simp only [List.reverse_cons] at h
  split at h
  · rename_i hmake
    cases h
    exact ⟨fs, .inl rfl, .inl hmake⟩
  · split at h
    · rename_i e fs₁ habove
      cases h
      exact ⟨_, .inr ⟨_, habove, id⟩, .inr ⟨rfl, fun hr => by cases hr⟩⟩
    · rename_i fs₁ habove
      refine ⟨fs₁, .inr ⟨_, habove, fun _ => rfl⟩, ?_⟩
      split at h
      · rename_i hmake
        cases h
        exact .inl hmake
      · exact .inr (horDir h (fun D hD => by rw [hD]) fun e' he => by rw [he])
  · exact ⟨fs, .inl rfl, .inr (horDir h (fun D hD => by rw [hD]) fun e' he => by rw [he])⟩

/-- **Making directories only adds**, and everything stands in a directory afterwards. -/
theorem makeDirs_adds {start : Place} {dotted : Bool} {names : List String}
    {r : Except IoError Unit} (h : fs.Rooted) (hstart : fs.entry? start = some .dir)
    (hmade : fs.makeDirs start dotted names = (r, fs')) : fs.Adds fs' ∧ fs'.Rooted := by
  induction names generalizing dotted r fs' with
  | nil =>
    cases hmade
    exact ⟨.refl fs, h⟩
  | cons name above ih =>
    obtain ⟨fs₁, habove, hlast⟩ := makeDirs_cons hmade
    have hfirst : fs.Adds fs₁ ∧ fs₁.Rooted := by
      rcases habove with e | ⟨r₁, hr₁, _⟩
      · rw [e]
        exact ⟨.refl fs, h⟩
      · exact ih hr₁
    rcases hlast with hmake | ⟨e, _⟩
    · obtain ⟨D, hD, _, _, hnone, rfl⟩ := makeDir_ok hmake
      have hdir := walkToDir_dir hfirst.2 (hfirst.1.kept _ _ hstart) hD
      have hnew : fs₁.entry? (D ++ [name]) ≠ some .dir := by
        rw [hnone]
        exact (Option.some_ne_none _).symm
      exact ⟨hfirst.1.trans (adds_put hnone .dir), rooted_put hfirst.2 hdir hnew .dir⟩
    · rw [e]
      exact hfirst

/-- A name leads to a directory only if one stands there, or a link. -/
theorem walk_single_dir {links : Nat} (hup : name ≠ "..")
    (h : fs.walk .directory links .directory D [name] = .ok p) :
    fs.entry? (D ++ [name]) ≠ none := by
  have hfollow : ∀ onLink, fs.follow .directory onLink D [name] = .ok p →
      fs.entry? (D ++ [name]) ≠ none := by
    intro onLink hf
    obtain ⟨_, _, ⟨_, _, hfree, _⟩ | ⟨he, _⟩ | ⟨target, he, _⟩⟩ := (follow_cons_ok hup).mp hf
    · cases hfree
    · simp [he]
    · simp [he]
  cases links with
  | zero => exact hfollow _ h
  | succ links => exact hfollow _ h

theorem walkToDir_concat (name : String) {start : Place} {above : List String}
    (hD : fs.walkToDir start above = .ok D) : ∃ links,
      fs.walkToDir start (above ++ [name]) = fs.walk .directory links .directory D [name] := by
  have hleads := walk_append fs .directory .directory name
    linkLimit start above
  unfold walkToDir at hD ⊢
  rw [hD] at hleads
  exact hleads

/-- A directory that has just been made is where its path leads. -/
theorem walkToDir_put {start : Place} {above : List String} (h : fs.Rooted)
    (hstart : fs.entry? start = some .dir) (hD : fs.walkToDir start above = .ok D)
    (hup : name ≠ "..") (hlen : ¬ PathText.longestName < name.utf8ByteSize)
    (hnone : fs.entry? (D ++ [name]) = none) :
    (fs.put (D ++ [name]) .dir).walkToDir start (above ++ [name]) = .ok (D ++ [name]) := by
  have hne := append_singleton_ne_nil D name
  have hsame : ∀ r, fs.Passage r → entry? (fs.put (D ++ [name]) .dir) r = fs.entry? r := by
    intro r hr
    rw [entryAt_put fs hne, if_neg]
    intro e
    simp [Passage, e, hnone] at hr
  obtain ⟨links, hlinks⟩ := walkToDir_concat name
    (walkToDir_of_passages h hstart hsame hD)
  rw [hlinks]
  have hdir : entry? (fs.put (D ++ [name]) .dir) (D ++ [name]) = some .dir := by
    rw [entryAt_put fs hne, if_pos rfl]
  have hfollow : ∀ onLink, (fs.put (D ++ [name]) .dir).follow .directory onLink D [name] =
      .ok (D ++ [name]) := fun onLink =>
    (follow_cons_ok hup).mpr ⟨by simp, hlen, .inr (.inl ⟨hdir, rfl⟩)⟩
  cases links with
  | zero => exact hfollow _
  | succ links => exact hfollow _

/-- **A directory that had to be made is new.** Without `..` in the path it leads afterwards to a
    place where nothing stood, and only places on the way to that one have changed. -/
theorem makeDirs_new {start : Place} {dotted : Bool} {names : List String} (h : fs.Rooted)
    (hstart : fs.entry? start = some .dir) (hup : ".." ∉ names)
    (hmade : fs.makeDirs start dotted names = (.ok (), fs')) :
    (fs' = fs ∧ ∃ D, fs.walkToDir start names.reverse = .ok D) ∨
      ∃ D, fs.entry? D = none ∧ fs'.walkToDir start names.reverse = .ok D ∧
        ∀ q, ¬ q <+: D → fs'.entry? q = fs.entry? q := by
  induction names generalizing dotted fs' with
  | nil =>
    cases hmade
    exact .inl ⟨rfl, start, rfl⟩
  | cons name above ih =>
    rw [List.mem_cons, not_or] at hup
    obtain ⟨fs₁, habove, hlast⟩ := makeDirs_cons hmade
    rw [List.reverse_cons]
    have hfirst : fs₁ = fs ∨ ∃ D, fs.entry? D = none ∧
        fs₁.walkToDir start above.reverse = .ok D ∧
        (∀ q, ¬ q <+: D → fs₁.entry? q = fs.entry? q) ∧ fs.Adds fs₁ ∧ fs₁.Rooted := by
      rcases habove with e | ⟨r₁, hr₁, hok⟩
      · exact .inl e
      · rw [hok rfl] at hr₁
        rcases ih hup.2 hr₁ with ⟨e, _⟩ | ⟨D, hD⟩
        · exact .inl e
        · exact .inr ⟨D, hD.1, hD.2.1, hD.2.2, makeDirs_adds h hstart hr₁⟩
    -- below a place where nothing stood, nothing stood
    have hbelow : ∀ D, fs.entry? D = none → fs.entry? (D ++ [name]) = none := by
      intro D hD
      cases he : fs.entry? (D ++ [name]) with
      | none => rfl
      | some e =>
        rw [h.parent he] at hD
        cases hD
    rcases hlast with hmake | ⟨e, hthere⟩
    · right
      obtain ⟨D, hD, hname, hlen, hnone, rfl⟩ := makeDir_ok hmake
      have hne := append_singleton_ne_nil D name
      have hout : ∀ q, ¬ q <+: D ++ [name] → q ≠ D ++ [name] := by
        intro q hq e
        rw [e] at hq
        exact hq (List.prefix_refl _)
      rcases hfirst with rfl | ⟨D₁, hnew, hD₁, hother, hadds, hrooted⟩
      · refine ⟨D ++ [name], hnone, walkToDir_put h hstart hD hname hlen hnone, fun q hq => ?_⟩
        rw [entryAt_put _ hne, if_neg (hout q hq)]
      · rw [hD, Except.ok.injEq] at hD₁
        subst hD₁
        refine ⟨D ++ [name], hbelow D hnew,
          walkToDir_put hrooted (hadds.kept _ _ hstart) hD hname hlen hnone, fun q hq => ?_⟩
        rw [entryAt_put _ hne, if_neg (hout q hq),
          hother q fun hpre => hq (hpre.trans (List.prefix_append D [name]))]
    · obtain ⟨D', hD'⟩ := hthere rfl
      rcases hfirst with rfl | ⟨D₁, hnew, hD₁, hother, _, _⟩
      · exact .inl ⟨e, D', hD'⟩
      · -- nothing stands yet below the directory just made
        obtain ⟨links, hlinks⟩ := walkToDir_concat name hD₁
        rw [hlinks] at hD'
        refine absurd ?_ (walk_single_dir (Ne.symm hup.1) hD')
        rw [hother _ ?_, hbelow D₁ hnew]
        intro hpre
        have hle := hpre.length_le
        simp at hle

/-- Making the directory of a path only adds, and everything stands in a directory afterwards. -/
theorem createDirs_adds {r : Except IoError Unit} (h : fs.Rooted)
    (hmade : fs.createDirs path = (r, fs')) : fs.Adds fs' ∧ fs'.Rooted := by
  unfold createDirs at hmade
  split at hmade
  · cases hmade
    exact ⟨.refl fs, h⟩
  · exact makeDirs_adds h (h.startOf path) hmade

/-- **A missing directory is made new**: afterwards its path leads to a place where nothing stood,
    and nothing stands in it. -/
theorem createDirs_new (h : fs.Rooted) (hmissing : fs.pathExists path = false) (hne : path ≠ "")
    (hup : ".." ∉ PathText.names path) (hmade : fs.createDirs path = (.ok (), fs')) :
    ∃ D, fs.entry? D = none ∧ fs'.dirAt path = .ok D ∧
      (∀ name, fs'.entry? (D ++ [name]) = none) ∧ ∀ q, ¬ q <+: D → fs'.entry? q = fs.entry? q := by
  have hworking := (createDirs_adds h hmade).1.working
  unfold createDirs at hmade
  split at hmade
  · cases hmade
  rename_i hform
  rcases makeDirs_new h (h.startOf path) (fun hmem => hup (List.mem_reverse.mp hmem)) hmade with
    ⟨_, D, hD⟩ | ⟨D, hnew, hD, hother⟩
  · -- a path that leads to a directory exists
    rw [List.reverse_reverse] at hD
    have hdir := walkToDir_dir h (h.startOf path) hD
    have hresolve : fs.resolve .directory path = .ok D := resolve_ok.mpr
      ⟨hform, hne, walk_ofDir (PathEnd.ofPath_ne_refused path) _ _ _ hD⟩
    rw [pathExists, locate_ok.mpr ⟨hresolve, hdir⟩] at hmissing
    cases hmissing
  · rw [List.reverse_reverse] at hD
    refine ⟨D, hnew, ?_, fun name => ?_, hother⟩
    · unfold dirAt
      rw [startOf_congr hworking]
      exact hD
    · rw [hother]
      · cases he : fs.entry? (D ++ [name]) with
        | none => rfl
        | some e =>
          rw [h.parent he] at hnew
          cases hnew
      · intro hpre
        have hle := hpre.length_le
        simp at hle

end

end Osclan.FileSystem
