/-
  File:      Osclan/Proofs/FileRun.lean
  Subject:   What the steps of a compilation do to the file system.

  A compilation reads the source, makes the output directory ready and writes one artifact after the
  other. For each step it is said once what it can do; what a whole run preserves then follows from
  what one removal and one write preserve.

  * `FileRun.bind_cases`, `FileRun.fileStep_cases` -- how steps follow each other;
  * `removeArtifacts_preserves`, `writeArtifacts_preserves` -- invariants of the two loops;
  * `removeArtifacts_clears` -- a sweep of the output directory leaves no artifact;
  * `Prepares`, `Runs` -- what making ready and the whole run can do.
-/
import Osclan.Proofs.FileChange

namespace Osclan

/-! ## 1. Steps -/

/-- A run on a file system. -/
abbrev FileRun (α : Type) : Type := ExceptT CompileStop (StateM FileSystem) α

namespace FileRun

variable {α β : Type} {fs fs' : FileSystem}

theorem bind_cases {x : FileRun α} {f : α → FileRun β} {r : Except CompileStop β}
    (h : (x >>= f) fs = (r, fs')) :
    (∃ e, x fs = (.error e, fs') ∧ r = .error e) ∨
      ∃ a fs₁, x fs = (.ok a, fs₁) ∧ f a fs₁ = (r, fs') := by
  have hbind : (x >>= f) fs = ExceptT.bindCont f (x fs).1 (x fs).2 := rfl
  rw [hbind] at h
  generalize x fs = first at h ⊢
  obtain ⟨first, fs₁⟩ := first
  cases first with
  | error e =>
    cases h
    exact .inl ⟨e, rfl, rfl⟩
  | ok a => exact .inr ⟨a, fs₁, rfl, h⟩

theorem fileStep_cases {op : StateM FileSystem (Except IoError α)} {r : Except CompileStop α}
    (h : (fileStep op : FileRun α) fs = (r, fs')) :
    (∃ e, op fs = (.error e, fs') ∧ r = .error (.error (.io e))) ∨
      ∃ a, op fs = (.ok a, fs') ∧ r = .ok a := by
  rcases bind_cases h with ⟨e, hlift, _⟩ | ⟨a, fs₁, hlift, hrest⟩
  · cases hlift
  · have hop : op fs = (a, fs₁) := by
      cases hlift
      rfl
    cases a with
    | error e =>
      cases hrest
      exact .inl ⟨e, hop, rfl⟩
    | ok a =>
      cases hrest
      exact .inr ⟨a, hop, rfl⟩

theorem read_cases {f : FileSystem → Except IoError α} {r : Except CompileStop α}
    (h : (fileStep (fun fs => (f fs, fs)) : FileRun α) fs = (r, fs')) :
    fs' = fs ∧ ((∃ e, f fs = .error e ∧ r = .error (.error (.io e))) ∨
      ∃ a, f fs = .ok a ∧ r = .ok a) := by
  rcases fileStep_cases h with ⟨e, hop, hr⟩ | ⟨a, hop, hr⟩
  · obtain ⟨hf, rfl⟩ := Prod.mk.inj hop
    exact ⟨rfl, .inl ⟨e, hf, hr⟩⟩
  · obtain ⟨hf, rfl⟩ := Prod.mk.inj hop
    exact ⟨rfl, .inr ⟨a, hf, hr⟩⟩

/-- A step that reads and what follows: the run ends there, or goes on from the same file system. -/
theorem read_bind_cases {f : FileSystem → Except IoError α} {g : α → FileRun β}
    {r : Except CompileStop β}
    (h : ((fileStep (fun fs => (f fs, fs)) : FileRun α) >>= g) fs = (r, fs')) :
    (∃ e, f fs = .error e ∧ fs' = fs ∧ r = .error (.error (.io e))) ∨
      ∃ a, f fs = .ok a ∧ g a fs = (r, fs') := by
  rcases bind_cases h with ⟨e, hstep, hr⟩ | ⟨a, fs₁, hstep, hrest⟩
  · obtain ⟨e₁, ⟨io, hf, hio⟩ | ⟨_, _, hok⟩⟩ := read_cases hstep
    · cases hio
      exact .inl ⟨io, hf, e₁, hr⟩
    · cases hok
  · obtain ⟨e₁, ⟨io, _, hio⟩ | ⟨a', hf, hok⟩⟩ := read_cases hstep
    · cases hio
    · cases hok
      rw [e₁] at hrest
      exact .inr ⟨a, hf, hrest⟩

theorem change_cases {f : FileSystem → Except IoError FileSystem} {r : Except CompileStop Unit}
    (h : (fileStep (FileSystem.change f) : FileRun Unit) fs = (r, fs')) :
    (∃ e, f fs = .error e ∧ fs' = fs ∧ r = .error (.error (.io e))) ∨
      f fs = .ok fs' ∧ r = .ok () := by
  rcases fileStep_cases h with ⟨e, hop, hr⟩ | ⟨_, hop, hr⟩
  · unfold FileSystem.change at hop
    split at hop
    · cases hop
    · rename_i hf
      cases hop
      exact .inl ⟨e, hf, rfl, hr⟩
  · unfold FileSystem.change at hop
    split at hop
    · rename_i hf
      cases hop
      exact .inr ⟨hf, hr⟩
    · cases hop

end FileRun

theorem Options.isName (o : Options) (a : Artifact) : PathText.IsName (a.fileName o.stem) :=
  a.fileName_isName o.noSlash_stem

/-! ## 2. The two loops -/

section

variable {fs fs' : FileSystem} {o : Options}

/-- One round of the sweep: an artifact that is a file is removed, anything else is left. -/
theorem removeArtifacts_cons {name : String} {names : List String} {r : Except CompileStop Unit}
    (h : (removeArtifacts o.output o.stem (name :: names) : FileRun Unit) fs = (r, fs')) :
    (∃ a, name = a.fileName o.stem ∧ fs.isFile (o.artifact a) = true ∧
      ((∃ e, fs' = fs ∧ r = .error (.error (.io e))) ∨
        ∃ fs₁, fs.removeFile (o.artifact a) = .ok fs₁ ∧
          (removeArtifacts o.output o.stem names : FileRun Unit) fs₁ = (r, fs'))) ∨
    (∀ a, name = a.fileName o.stem → fs.isFile (o.artifact a) = false) ∧
      (removeArtifacts o.output o.stem names : FileRun Unit) fs = (r, fs') := by
  rw [removeArtifacts] at h
  rcases FileRun.bind_cases h with ⟨e, hask, _⟩ | ⟨isFile, fs₁, hask, hrest⟩
  · cases hask
  have hasked : isFile = fs.isFile (PathText.join o.output name) ∧ fs₁ = fs := by
    cases hask
    exact ⟨rfl, rfl⟩
  obtain ⟨rfl, rfl⟩ := hasked
  dsimp only at hrest
  by_cases hname : ∃ a, name = a.fileName o.stem ∧ fs₁.isFile (o.artifact a) = true
  · obtain ⟨a, rfl, hfile⟩ := hname
    have hand : (fs₁.isFile (PathText.join o.output (a.fileName o.stem)) &&
        Artifact.isNameOf o.stem (a.fileName o.stem)) = true :=
      Bool.and_eq_true_iff.mpr ⟨hfile, Artifact.isNameOf_iff.mpr ⟨a, rfl⟩⟩
    refine .inl ⟨a, rfl, hfile, ?_⟩
    rw [if_pos hand] at hrest
    rcases FileRun.bind_cases hrest with ⟨e, hremove, hr⟩ | ⟨_, fs₂, hremove, hrest⟩
    · rcases FileRun.change_cases hremove with ⟨io, _, e, hio⟩ | ⟨_, hok⟩
      · cases hio
        exact .inl ⟨io, e, hr⟩
      · cases hok
    · rcases FileRun.change_cases hremove with ⟨io, _, _, hio⟩ | ⟨hremoved, _⟩
      · cases hio
      · exact .inr ⟨fs₂, hremoved, hrest⟩
  · rw [if_neg] at hrest
    · refine .inr ⟨fun a e => ?_, hrest⟩
      cases hfile : fs₁.isFile (o.artifact a) with
      | false => rfl
      | true => exact absurd ⟨a, e, hfile⟩ hname
    · intro hand
      obtain ⟨hfile, hartifact⟩ := Bool.and_eq_true_iff.mp hand
      obtain ⟨a, rfl⟩ := Artifact.isNameOf_iff.mp hartifact
      exact hname ⟨a, rfl, hfile⟩

/-- **What a sweep preserves**: whatever each removal of an artifact preserves. -/
theorem removeArtifacts_preserves {I : FileSystem → Prop}
    (hstep : ∀ fs fs' a, I fs → fs.isFile (o.artifact a) = true →
      fs.removeFile (o.artifact a) = .ok fs' → I fs')
    {names : List String} {r : Except CompileStop Unit} (h : I fs)
    (hrun : (removeArtifacts o.output o.stem names : FileRun Unit) fs = (r, fs')) : I fs' := by
  induction names generalizing fs with
  | nil =>
    cases hrun
    exact h
  | cons name names ih =>
    rcases removeArtifacts_cons hrun with
      ⟨a, _, hfile, ⟨_, rfl, _⟩ | ⟨fs₁, hremoved, hrest⟩⟩ | ⟨_, hrest⟩
    · exact h
    · exact ih (hstep fs fs₁ a h hfile hremoved) hrest
    · exact ih h hrest

/-- A sweep fails only where a file operation does. -/
theorem removeArtifacts_error {names : List String} {e : CompileStop}
    (hrun : (removeArtifacts o.output o.stem names : FileRun Unit) fs = (.error e, fs')) :
    ∃ io, e = .error (.io io) := by
  induction names generalizing fs with
  | nil => cases hrun
  | cons name names ih =>
    rcases removeArtifacts_cons hrun with
      ⟨_, _, _, ⟨io, _, hr⟩ | ⟨fs₁, _, hrest⟩⟩ | ⟨_, hrest⟩
    · cases hr
      exact ⟨io, rfl⟩
    · exact ih hrest
    · exact ih hrest

/-- One round of writing. -/
theorem writeArtifacts_cons {a : Artifact} {text : String} {rest : List (Artifact × String)}
    {r : Except CompileStop (List String)}
    (h : (writeArtifacts o.output o.stem ((a, text) :: rest) : FileRun (List String)) fs =
      (r, fs')) :
    (∃ e, fs' = fs ∧ r = .error (.error (.io e))) ∨
      ∃ fs₁ r₁, fs.writeText (o.artifact a) text = .ok fs₁ ∧
        (writeArtifacts o.output o.stem rest : FileRun (List String)) fs₁ = (r₁, fs') ∧
        r = r₁.map (o.artifact a :: ·) := by
  rw [writeArtifacts] at h
  rcases FileRun.bind_cases h with ⟨e, hwrite, hr⟩ | ⟨_, fs₁, hwrite, hrest⟩
  · rcases FileRun.change_cases hwrite with ⟨io, _, e, hio⟩ | ⟨_, hok⟩
    · cases hio
      exact .inl ⟨io, e, hr⟩
    · cases hok
  · rcases FileRun.change_cases hwrite with ⟨io, _, _, hio⟩ | ⟨hwritten, _⟩
    · cases hio
    · refine .inr ⟨fs₁, ?_⟩
      rcases FileRun.bind_cases hrest with ⟨e, hrec, hr⟩ | ⟨paths, fs₂, hrec, hpure⟩
      · exact ⟨.error e, hwritten, hrec, hr⟩
      · cases hpure
        exact ⟨.ok paths, hwritten, hrec, rfl⟩

/-- **What writing preserves**: whatever each write of an artifact preserves, where the invariant
    may speak of what has been written. -/
theorem writeArtifacts_preserves {I : List (Artifact × String) → FileSystem → Prop}
    (hstep : ∀ fs fs' done a text, I done fs → fs.writeText (o.artifact a) text = .ok fs' →
      I (done ++ [(a, text)]) fs')
    (done : List (Artifact × String)) {artifacts : List (Artifact × String)}
    {r : Except CompileStop (List String)} (h : I done fs)
    (hrun : (writeArtifacts o.output o.stem artifacts : FileRun (List String)) fs = (r, fs')) :
    (∃ written, I written fs') ∧
      ∀ paths, r = .ok paths → I (done ++ artifacts) fs' ∧
        paths = artifacts.map fun x => o.artifact x.1 := by
  induction artifacts generalizing fs done r with
  | nil =>
    cases hrun
    refine ⟨⟨done, h⟩, fun paths hok => ?_⟩
    cases hok
    rw [List.append_nil]
    exact ⟨h, rfl⟩
  | cons first rest ih =>
    rcases writeArtifacts_cons hrun with ⟨e, rfl, rfl⟩ | ⟨fs₁, r₁, hwritten, hrest, rfl⟩
    · exact ⟨⟨done, h⟩, fun paths hok => by cases hok⟩
    · obtain ⟨hsome, hall⟩ := ih _ (hstep fs fs₁ done first.1 first.2 h hwritten) hrest
      refine ⟨hsome, fun paths hok => ?_⟩
      cases r₁ with
      | error e => cases hok
      | ok paths₁ =>
        cases hok
        obtain ⟨hI, rfl⟩ := hall paths₁ rfl
        rw [List.append_assoc] at hI
        exact ⟨hI, rfl⟩

theorem FileSystem.isFile_iff {path : String} : fs.isFile path = true ↔
    ∃ p content, fs.locate path = .ok (p, .file content) := by
  unfold FileSystem.isFile
  split
  · rename_i p content h
    exact ⟨fun _ => ⟨p, content, h⟩, fun _ => rfl⟩
  · rename_i hno
    constructor
    · intro h
      cases h
    · intro h
      obtain ⟨p, content, h⟩ := h
      exact absurd h (hno p content)

/-- A removal makes no path lead to a file that did not. -/
theorem FileSystem.isFile_of_erase {path : String} {q : Place} (hq : q ≠ [])
    (h : (fs.erase q).isFile path = true) : fs.isFile path = true := by
  obtain ⟨p, content, hloc⟩ := isFile_iff.mp h
  obtain ⟨hres, hentry⟩ := locate_ok.mp hloc
  have hnone : entry? (fs.erase q) q = none := by rw [entryAt_erase fs hq, if_pos rfl]
  have hpq : p ≠ q := by
    intro e
    rw [e, hnone] at hentry
    cases hentry
  have hchange := erase_changesAt fs hq
  rcases hchange.resolve (by simp [Passage, hnone]) hres with e | hbefore
  · exact absurd e hpq
  · rw [hchange.other p hpq] at hentry
    exact isFile_iff.mpr ⟨p, content, locate_ok.mpr ⟨hbefore, hentry⟩⟩

/-- **A removed artifact is no file any more.** -/
theorem FileSystem.isFile_removed (h : fs.Rooted) {a : Artifact}
    (hremoved : fs.removeFile (o.artifact a) = .ok fs') : fs'.isFile (o.artifact a) = false := by
  obtain ⟨D, hD, _, hdir, rfl⟩ := removeFile_join (o.isName a) hremoved
  have hq := ne_root hdir
  have hnone : entry? (fs.erase (D ++ [a.fileName o.stem])) (D ++ [a.fileName o.stem]) = none := by
    rw [entryAt_erase fs hq, if_pos rfl]
  have hpass : ¬ (fs.erase (D ++ [a.fileName o.stem])).Passage (D ++ [a.fileName o.stem]) := by
    simp [Passage, hnone]
  rw [← Bool.not_eq_true]
  intro hfile
  obtain ⟨p, content, hloc⟩ := isFile_iff.mp hfile
  obtain ⟨hres, hentry⟩ := locate_ok.mp hloc
  obtain ⟨_, D', _, hD', _⟩ := resolve_join (o.isName a) hres
  -- the path still goes through the same directory, where the name is gone
  have hsame := (erase_changesAt fs hq).dirAt (rooted_erase h hdir) hpass hD'
  rw [hD, Except.ok.injEq] at hsame
  subst hsame
  have hp := resolve_join_of_dir (o.isName a) hD' (by simp [hnone]) hres
  rw [hp, hnone] at hentry
  cases hentry

/-- A sweep makes no path lead to a file that did not. -/
theorem removeArtifacts_isFile {path : String} {names : List String}
    {r : Except CompileStop Unit}
    (hrun : (removeArtifacts o.output o.stem names : FileRun Unit) fs = (r, fs'))
    (h : fs'.isFile path = true) : fs.isFile path = true := by
  refine removeArtifacts_preserves
    (I := fun fs₁ => fs₁.isFile path = true → fs.isFile path = true) ?_ id hrun h
  intro fs₁ fs₂ a hbefore _ hremoved hfile
  obtain ⟨D, _, _, hdir, rfl⟩ := FileSystem.removeFile_join (o.isName a) hremoved
  exact hbefore (FileSystem.isFile_of_erase (FileSystem.ne_root hdir) hfile)

/-- A sweep leaves no artifact it has seen. -/
theorem isFile_of_mem_swept (h : fs.Rooted) {names : List String}
    (hrun : (removeArtifacts o.output o.stem names : FileRun Unit) fs = (.ok (), fs'))
    {a : Artifact} (ha : a.fileName o.stem ∈ names) : fs'.isFile (o.artifact a) = false := by
  -- once no file, never a file again
  have hkeep : ∀ {fs₁ : FileSystem} {rest}, fs₁.isFile (o.artifact a) = false →
      (removeArtifacts o.output o.stem rest : FileRun Unit) fs₁ = (.ok (), fs') →
      fs'.isFile (o.artifact a) = false := by
    intro fs₁ rest hno hrest
    rw [← Bool.not_eq_true] at hno ⊢
    exact fun hfile => hno (removeArtifacts_isFile hrest hfile)
  induction names generalizing fs with
  | nil => exact absurd ha List.not_mem_nil
  | cons name names ih =>
    rcases removeArtifacts_cons hrun with
      ⟨b, hb, _, ⟨_, _, hr⟩ | ⟨fs₁, hremoved, hrest⟩⟩ | ⟨hno, hrest⟩
    · cases hr
    · by_cases hab : a = b
      · subst hab
        exact hkeep (FileSystem.isFile_removed h hremoved) hrest
      · have hmem : a.fileName o.stem ∈ names := by
          rcases List.mem_cons.mp ha with e | hmem
          · exact absurd (Artifact.fileName_injective o.stem (e.trans hb)) hab
          · exact hmem
        obtain ⟨D, _, _, hdir, rfl⟩ := FileSystem.removeFile_join (o.isName b) hremoved
        exact ih (FileSystem.rooted_erase h hdir) hrest hmem
    · rcases List.mem_cons.mp ha with e | hmem
      · exact hkeep (hno a e.symm) hrest
      · exact ih h hrest hmem

namespace FileSystem

theorem mem_namesIn {D : Place} {name : String} (h : fs.entry? (D ++ [name]) ≠ none) :
    name ∈ fs.namesIn D := by
  unfold entry? at h
  rw [if_neg (append_singleton_ne_nil D name)] at h
  obtain ⟨e, he⟩ := Option.ne_none_iff_exists'.mp h
  obtain ⟨pre, post, hsplit, _⟩ := List.lookup_eq_some_iff.mp he
  refine List.mem_filterMap.mpr ⟨(D ++ [name], e), ?_, by simp⟩
  rw [hsplit]
  exact List.mem_append_right _ List.mem_cons_self

/-- The names of a directory, and where its path leads. -/
theorem list_ok {path : String} {names : List String} (h : fs.list path = .ok names) :
    ∃ D, fs.dirAt path = .ok D ∧ fs.realPlace path = .ok D ∧ names = fs.namesIn D := by
  unfold list at h
  cases hloc : fs.locate path with
  | error e =>
    rw [hloc] at h
    cases h
  | ok found =>
    obtain ⟨D, e⟩ := found
    rw [hloc] at h
    cases e with
    | dir =>
      cases h
      obtain ⟨hres, hdir⟩ := locate_ok.mp hloc
      refine ⟨D, walk_toDir hdir _ _ _ (resolve_ok.mp hres).2.2, ?_, rfl⟩
      unfold realPlace
      rw [hloc]
      rfl
    | file content => cases h
    | link target => cases h

/-- Where an artifact is a file, something stands at its name in the output directory. -/
theorem entry_of_isFile {a : Artifact} {D : Place} (hD : fs.dirAt o.output = .ok D)
    (h : fs.isFile (o.artifact a) = true) : fs.entry? (D ++ [a.fileName o.stem]) ≠ none := by
  obtain ⟨p, content, hloc⟩ := isFile_iff.mp h
  obtain ⟨hres, hentry⟩ := locate_ok.mp hloc
  intro hnone
  rw [resolve_join_of_dir (o.isName a) hD (by simp [hnone]) hres, hnone] at hentry
  cases hentry

end FileSystem

/-- **A sweep of the output directory leaves no artifact.** -/
theorem removeArtifacts_clears (h : fs.Rooted) {names : List String}
    (hnames : fs.list o.output = .ok names)
    (hrun : (removeArtifacts o.output o.stem names : FileRun Unit) fs = (.ok (), fs'))
    (a : Artifact) : fs'.isFile (o.artifact a) = false := by
  by_cases ha : a.fileName o.stem ∈ names
  · exact isFile_of_mem_swept h hrun ha
  · obtain ⟨D, hD, _, rfl⟩ := FileSystem.list_ok hnames
    rw [← Bool.not_eq_true]
    intro hfile
    exact ha (FileSystem.mem_namesIn
      (FileSystem.entry_of_isFile hD (removeArtifacts_isFile hrun hfile)))

/-! ## 4. Making ready, and the whole run -/

/-- What making the output directory ready can do. -/
inductive Prepares (o : Options) (fs : FileSystem) :
    Except CompileStop Unit → FileSystem → Prop where
  | failed (e : IoError) : Prepares o fs (.error (.error (.io e))) fs
  | refused : Prepares o fs (.error (.error (.outputContainsInput o.output))) fs
  | swept (source D : Place) (names : List String) (r : Except CompileStop Unit)
      (fs' : FileSystem) (hsource : fs.realPlace o.input = .ok source)
      (hD : fs.realPlace o.output = .ok D) (houtside : ¬ D <+: source)
      (hnames : fs.list o.output = .ok names)
      (hrun : (removeArtifacts o.output o.stem names : FileRun Unit) fs = (r, fs')) :
      Prepares o fs r fs'
  | made (fs' : FileSystem) (hmissing : fs.pathExists o.output = false)
      (hmade : fs.createDirs o.output = (.ok (), fs')) : Prepares o fs (.ok ()) fs'
  | unmade (e : IoError) (fs' : FileSystem) (hmissing : fs.pathExists o.output = false)
      (hmade : fs.createDirs o.output = (.error e, fs')) :
      Prepares o fs (.error (.error (.io e))) fs'

theorem prepare_prepares {r : Except CompileStop Unit}
    (h : (prepare o o.stem : FileRun Unit) fs = (r, fs')) : Prepares o fs r fs' := by
  rw [prepare] at h
  rcases FileRun.bind_cases h with ⟨e, hask, _⟩ | ⟨isThere, fs₁, hask, hrest⟩
  · cases hask
  have hasked : isThere = fs.pathExists o.output ∧ fs₁ = fs := by
    cases hask
    exact ⟨rfl, rfl⟩
  obtain ⟨rfl, rfl⟩ := hasked
  cases hthere : fs₁.pathExists o.output with
  | false =>
    rw [hthere] at hrest
    rcases FileRun.fileStep_cases hrest with ⟨e, hmade, rfl⟩ | ⟨_, hmade, rfl⟩
    · exact .unmade e fs' hthere hmade
    · exact .made fs' hthere hmade
  | true =>
    rw [hthere] at hrest
    rcases FileRun.read_bind_cases (f := (·.realPlace o.input)) hrest with
      ⟨io, _, rfl, rfl⟩ | ⟨source, hsource, hrest⟩
    · exact .failed io
    rcases FileRun.read_bind_cases (f := (·.realPlace o.output)) hrest with
      ⟨io, _, rfl, rfl⟩ | ⟨D, hD, hrest⟩
    · exact .failed io
    by_cases hinside : D.isPrefixOf source = true
    · rw [if_pos hinside] at hrest
      cases hrest
      exact .refused
    · rw [if_neg hinside] at hrest
      rcases FileRun.read_bind_cases (f := (·.list o.output)) hrest with
        ⟨io, _, rfl, rfl⟩ | ⟨names, hnames, hrest⟩
      · exact .failed io
      · refine .swept source D names r fs' hsource hD ?_ hnames hrest
        rwa [List.isPrefixOf_iff_prefix] at hinside

/-- What a run can do. -/
inductive Runs (now : Calendar.Instant) (o : Options) (fs : FileSystem) :
    Except CompileStop Output → FileSystem → Prop where
  | unread (e : IoError) (hread : fs.readText o.input = .error e) :
      Runs now o fs (.error (.error (.io e))) fs
  | unprepared (source : String) (e : CompileStop) (fs' : FileSystem)
      (hread : fs.readText o.input = .ok source)
      (hprepared : (prepare o o.stem : FileRun Unit) fs = (.error e, fs')) :
      Runs now o fs (.error e) fs'
  | unwritten (source : String) (e : CompileStop) (fs₁ fs' : FileSystem)
      (hread : fs.readText o.input = .ok source)
      (hprepared : (prepare o o.stem : FileRun Unit) fs = (.ok (), fs₁))
      (hwritten : (writeArtifacts o.output o.stem
        (build o.input source o.intermediate now).artifacts : FileRun (List String)) fs₁ =
          (.error e, fs')) :
      Runs now o fs (.error e) fs'
  | done (source : String) (paths : List String) (fs₁ fs' : FileSystem)
      (hread : fs.readText o.input = .ok source)
      (hprepared : (prepare o o.stem : FileRun Unit) fs = (.ok (), fs₁))
      (hwritten : (writeArtifacts o.output o.stem
        (build o.input source o.intermediate now).artifacts : FileRun (List String)) fs₁ =
          (.ok paths, fs')) :
      Runs now o fs ((build o.input source o.intermediate now).result.map fun c =>
        ⟨c.assembly, c.warnings, paths⟩) fs'

/-- **Every run does one of these.** -/
theorem compile_runs {now : Calendar.Instant} {r : Except CompileStop Output}
    (h : (compile now o : FileRun Output) fs = (r, fs')) : Runs now o fs r fs' := by
  rw [compile] at h
  rcases FileRun.read_bind_cases (f := (·.readText o.input)) h with
    ⟨io, hread, rfl, rfl⟩ | ⟨source, hread, hrest⟩
  · exact .unread io hread
  rcases FileRun.bind_cases hrest with ⟨e, hprepared, rfl⟩ | ⟨_, fs₁, hprepared, hrest⟩
  · exact .unprepared source e fs' hread hprepared
  rcases FileRun.bind_cases hrest with ⟨e, hwritten, rfl⟩ | ⟨paths, fs₂, hwritten, hrest⟩
  · exact .unwritten source e fs₁ fs' hread hprepared hwritten
  have hlast : fs₂ = fs' ∧ r = (build o.input source o.intermediate now).result.map fun c =>
      ⟨c.assembly, c.warnings, paths⟩ := by
    cases hresult : (build o.input source o.intermediate now).result with
    | ok c =>
      rw [hresult] at hrest
      cases hrest
      exact ⟨rfl, rfl⟩
    | error e =>
      rw [hresult] at hrest
      cases hrest
      exact ⟨rfl, rfl⟩
  rw [← hlast.1, hlast.2]
  exact .done source paths fs₁ fs₂ hread hprepared hwritten

/-- What a run leaves is what writing leaves, once the source is read and the directory ready. -/
theorem compile_written {now : Calendar.Instant} {source : String} {fs₁ : FileSystem}
    (hread : fs.readText o.input = .ok source)
    (hprepared : (prepare o o.stem : FileRun Unit) fs = (.ok (), fs₁)) :
    ((compile now o : FileRun Output) fs).2 = ((writeArtifacts o.output o.stem
      (build o.input source o.intermediate now).artifacts : FileRun (List String)) fs₁).2 := by
  generalize hrun : (compile now o : FileRun Output) fs = result
  obtain ⟨r, fs'⟩ := result
  cases compile_runs hrun with
  | unread e hunread =>
    rw [hunread] at hread
    cases hread
  | unprepared source' e fs' hread' hprepared' =>
    rw [hprepared] at hprepared'
    cases hprepared'
  | unwritten source' e fs₁' fs' hread' hprepared' hwritten =>
    rw [hread] at hread'
    rw [hprepared] at hprepared'
    cases hread'
    cases hprepared'
    rw [hwritten]
  | done source' paths fs₁' fs' hread' hprepared' hwritten =>
    rw [hread] at hread'
    rw [hprepared] at hprepared'
    cases hread'
    cases hprepared'
    rw [hwritten]

end

end Osclan
