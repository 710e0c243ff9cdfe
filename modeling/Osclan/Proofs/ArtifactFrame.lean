/-
  File:      Osclan/Proofs/ArtifactFrame.lean
  Subject:   A run changes its own artifacts and nothing else.

  Several sources may be compiled to one output directory. The artifacts of each are named by its
  stem, which is any text and may itself end like an artifact. No ending is the end of another one
  behind a dot, so the stem can be read off the name. A run in a directory that is there removes and
  writes at the names of its own stem alone, however it ends.

  * `Artifact.fileName_ne` -- two stems have no artifact name in common;
  * `OwnChanges` -- two file systems that differ at most at the artifacts of a run;
  * `OwnChanges.remove`, `OwnChanges.write` -- what one removal and one write preserve;
  * `compile_ownChanges` -- what a whole run preserves;
  * `compile_keeps_others` -- the artifacts of other sources after a run.
-/
import Osclan.Proofs.FileRun

namespace Osclan

open FileSystem

/-! ## 1. Names of two stems -/

/-- No ending is the end of another one behind a dot. -/
theorem Artifact.eq_of_suffix {a b : Artifact}
    (h : '.' :: a.ending.toList <:+ '.' :: b.ending.toList) : a = b := by
  revert h
  cases a <;> cases b <;> decide

/-- **Two stems have no artifact name in common.** -/
theorem Artifact.fileName_ne {stem stem' : String} (h : stem ≠ stem') (a b : Artifact) :
    a.fileName stem ≠ b.fileName stem' := by
  intro e
  have hlist := congrArg String.toList e
  rw [toList_fileName, toList_fileName] at hlist
  -- Both endings end the one name, so the shorter of them ends the longer.
  have ha : '.' :: a.ending.toList <:+ stem'.toList ++ '.' :: b.ending.toList :=
    ⟨stem.toList, hlist⟩
  have hb : '.' :: b.ending.toList <:+ stem'.toList ++ '.' :: b.ending.toList :=
    List.suffix_append _ _
  have hab : a = b := by
    rcases List.suffix_or_suffix_of_suffix ha hb with hsuffix | hsuffix
    · exact eq_of_suffix hsuffix
    · exact (eq_of_suffix hsuffix).symm
  rw [hab] at hlist
  exact h (String.toList_injective (List.append_cancel_right hlist))

/-! ## 2. One change -/

/-- The file system differs from the first one at most at the artifacts of the run in the directory
    `D`; the output path still leads there, and no artifact is a link. -/
structure OwnChanges (o : Options) (D : Place) (first fs : FileSystem) : Prop where
  rooted : fs.Rooted
  dir : fs.dirAt o.output = .ok D
  noLink : ∀ (a : Artifact) target, fs.entry? (D ++ [a.fileName o.stem]) ≠ some (.link target)
  working : fs.workingDir = first.workingDir
  other : ∀ q, (∀ a : Artifact, q ≠ D ++ [a.fileName o.stem]) → fs.entry? q = first.entry? q

section

variable {o : Options} {D : Place} {first fs fs' : FileSystem} {a : Artifact}

/-- A change at an artifact that was no directory and does not become a link. -/
theorem OwnChanges.change (h : OwnChanges o D first fs)
    (hc : fs.ChangesAt fs' (D ++ [a.fileName o.stem])) (hrooted : fs'.Rooted)
    (hdir : fs.entry? (D ++ [a.fileName o.stem]) ≠ some .dir)
    (hlink : ∀ target, fs'.entry? (D ++ [a.fileName o.stem]) ≠ some (.link target)) :
    OwnChanges o D first fs' where
  rooted := hrooted
  dir := by
    refine hc.dirAt_kept h.rooted ?_ h.dir
    rintro (e | ⟨target, e⟩)
    · exact hdir e
    · exact h.noLink a target e
  noLink b target := by
    by_cases hb : D ++ [b.fileName o.stem] = D ++ [a.fileName o.stem]
    · rw [hb]
      exact hlink target
    · rw [hc.other _ hb]
      exact h.noLink b target
  working := hc.working.trans h.working
  other q hq := (hc.other q (hq a)).trans (h.other q hq)

/-- **One removal of an artifact.** -/
theorem OwnChanges.remove (h : OwnChanges o D first fs)
    (hremoved : fs.removeFile (o.artifact a) = .ok fs') : OwnChanges o D first fs' := by
  obtain ⟨D', hD', _, hdir, rfl⟩ := removeFile_join (o.isName a) hremoved
  obtain rfl := Except.ok.inj (h.dir.symm.trans hD')
  have hq := ne_root hdir
  refine h.change (erase_changesAt fs hq) (rooted_erase h.rooted hdir) hdir fun target => ?_
  rw [entryAt_erase fs hq, if_pos rfl]
  exact (Option.some_ne_none _).symm

/-- **One write of an artifact.** -/
theorem OwnChanges.write (h : OwnChanges o D first fs) {text : String}
    (hwritten : fs.writeText (o.artifact a) text = .ok fs') : OwnChanges o D first fs' := by
  obtain ⟨q, hres, hdir, rfl⟩ := writeText_ok hwritten
  obtain rfl := resolve_join_of_dir (o.isName a) h.dir (h.noLink a) hres
  have hq := ne_root hdir
  refine h.change (put_changesAt fs hq _)
    (rooted_put h.rooted (dirAt_dir h.rooted h.dir) hdir _) hdir fun target => ?_
  rw [entryAt_put fs hq, if_pos rfl]
  simp

/-! ## 3. A whole run -/

/-- Making a directory ready that is there. -/
theorem Prepares.ownChanges {r : Except CompileStop Unit} (h : OwnChanges o D fs fs)
    (hthere : fs.pathExists o.output = true) (hprepared : Prepares o fs r fs') :
    OwnChanges o D fs fs' := by
  cases hprepared with
  | failed e => exact h
  | refused => exact h
  | swept source D' names r fs' hsource hD' houtside hnames hrun =>
    exact removeArtifacts_preserves (fun _ _ _ hI _ hremoved => hI.remove hremoved) h hrun
  | made fs' hmissing =>
    rw [hthere] at hmissing
    cases hmissing
  | unmade e fs' hmissing =>
    rw [hthere] at hmissing
    cases hmissing

/-- Writing artifacts, all or up to one that cannot be written. -/
theorem OwnChanges.writeAll (h : OwnChanges o D first fs) {artifacts : List (Artifact × String)}
    {r : Except CompileStop (List String)}
    (hrun : (writeArtifacts o.output o.stem artifacts : FileRun (List String)) fs = (r, fs')) :
    OwnChanges o D first fs' := by
  obtain ⟨⟨_, hlast⟩, _⟩ := writeArtifacts_preserves (I := fun _ fs => OwnChanges o D first fs)
    (fun _ _ _ _ _ hI hwritten => hI.write hwritten) [] h hrun
  exact hlast

/-- **A whole run**, however it ends. -/
theorem compile_ownChanges {now : Calendar.Instant} {r : Except CompileStop Output}
    (h : OwnChanges o D fs fs) (hthere : fs.pathExists o.output = true)
    (hrun : (compile now o : FileRun Output) fs = (r, fs')) : OwnChanges o D fs fs' := by
  cases compile_runs hrun with
  | unread e hread => exact h
  | unprepared source e fs' hread hprepared =>
    exact (prepare_prepares hprepared).ownChanges h hthere
  | unwritten source e fs₁ fs' hread hprepared hwritten =>
    exact ((prepare_prepares hprepared).ownChanges h hthere).writeAll hwritten
  | done source paths fs₁ fs' hread hprepared hwritten =>
    exact ((prepare_prepares hprepared).ownChanges h hthere).writeAll hwritten

/-- A name in the output directory that is no artifact of the run. -/
theorem OwnChanges.other_stem (h : OwnChanges o D first fs) {stem : String} (hstem : stem ≠ o.stem)
    (b : Artifact) : fs.entry? (D ++ [b.fileName stem]) = first.entry? (D ++ [b.fileName stem]) := by
  refine h.other _ fun a e => ?_
  exact Artifact.fileName_ne hstem b a (List.cons.inj (List.append_cancel_left e)).1

end

namespace FileSystem

variable {fs fs' : FileSystem} {dir name : String} {D : Place}

/-- **Reading a name in a directory** depends on what stands there, if that is no link. -/
theorem readText_join_congr (hn : PathText.IsName name) (hD : fs.dirAt dir = .ok D)
    (hD' : fs'.dirAt dir = .ok D) (hsame : fs'.entry? (D ++ [name]) = fs.entry? (D ++ [name]))
    (hlink : ∀ target, fs.entry? (D ++ [name]) ≠ some (.link target)) (text : String) :
    fs'.readText (PathText.join dir name) = .ok text ↔
      fs.readText (PathText.join dir name) = .ok text := by
  have hlink' : ∀ target, fs'.entry? (D ++ [name]) ≠ some (.link target) := by
    rwa [hsame]
  have hlocate : ∀ q e, fs'.locate (PathText.join dir name) = .ok (q, e) ↔
      fs.locate (PathText.join dir name) = .ok (q, e) := by
    intro q e
    rw [locate_ok, locate_ok, resolve_join_iff hn hD' hlink', resolve_join_iff hn hD hlink]
    refine and_congr_right fun hq => ?_
    rw [hq.2.2, hsame]
  constructor
  · intro h
    obtain ⟨q, content, hloc⟩ := locate_of_readText h
    rwa [readText_congr ((hlocate q _).mp hloc) hloc] at h
  · intro h
    obtain ⟨q, content, hloc⟩ := locate_of_readText h
    rwa [readText_congr hloc ((hlocate q _).mpr hloc)]

end FileSystem

/-! ## 4. Other sources -/

/-- **A run leaves the artifacts of other sources alone.** Two stems have no artifact name in common.
    The output is a directory that is there, and no artifact of the run is a link. Then, whether the
    run is good or fails at any step, nothing is changed, made or removed but at the six names of
    its own artifacts in that directory. So what stands at the artifact names of any other stem is
    the same before and after, and unless it is a link, so is what is read there. -/
theorem compile_keeps_others (now : Calendar.Instant) (o : Options) (fs : FileSystem) (D : Place)
    (hrooted : fs.Rooted) (hD : fs.locate o.output = .ok (D, .dir))
    (hlink : ∀ (a : Artifact) target,
      fs.entry? (D ++ [a.fileName o.stem]) ≠ some (.link target))
    {r : Except CompileStop Output} {fs' : FileSystem}
    (hrun : (compile now o : FileRun Output) fs = (r, fs')) :
    (∀ stem stem', stem ≠ stem' → ∀ a b : Artifact, a.fileName stem ≠ b.fileName stem') ∧
    fs'.Rooted ∧ fs'.workingDir = fs.workingDir ∧
    (∀ q, (∀ a : Artifact, q ≠ D ++ [a.fileName o.stem]) → fs'.entry? q = fs.entry? q) ∧
    ∀ o' : Options, o'.output = o.output → o'.stem ≠ o.stem → ∀ b : Artifact,
      fs'.entry? (D ++ [b.fileName o'.stem]) = fs.entry? (D ++ [b.fileName o'.stem]) ∧
      ((∀ target, fs.entry? (D ++ [b.fileName o'.stem]) ≠ some (.link target)) →
        ∀ text, fs'.readText (o'.artifact b) = .ok text ↔
          fs.readText (o'.artifact b) = .ok text) := by
  obtain ⟨hres, hdir⟩ := locate_ok.mp hD
  have hdirAt : fs.dirAt o.output = .ok D := walk_toDir hdir _ _ _ (resolve_ok.mp hres).2.2
  have hthere : fs.pathExists o.output = true := by
    rw [pathExists, hD]
    rfl
  have hrunChanges : OwnChanges o D fs fs' :=
    compile_ownChanges ⟨hrooted, hdirAt, hlink, rfl, fun _ _ => rfl⟩ hthere hrun
  refine ⟨fun stem stem' hstem => Artifact.fileName_ne hstem, hrunChanges.rooted,
    hrunChanges.working, hrunChanges.other, fun o' houtput hstem b => ?_⟩
  have hsame := hrunChanges.other_stem hstem b
  refine ⟨hsame, fun hplain text => ?_⟩
  rw [Options.artifact, houtput]
  exact readText_join_congr (o'.isName b) hdirAt hrunChanges.dir hsame hplain text

/-- An output directory with artifacts of two sources, `hello` and `hello.tokens`. -/
def sharedOutput : FileSystem :=
  ⟨[(["work"], .dir), (["work", "hello.osc"], .file "declare".toUTF8), (["work", "out"], .dir),
    (["work", "out", "hello.s"], .file "old".toUTF8),
    (["work", "out", "hello.tokens.s"], .file "other".toUTF8)], ["work"]⟩

/-- A run on `hello` that keeps all artifacts. -/
def sharedRun : Options := ⟨"hello.osc", "out", true⟩

/-- The failed run removes the assembly of the one and keeps that of the other. -/
theorem compile_keeps_others_sharedOutput :
    ((compile 0 sharedRun : FileRun Output) sharedOutput).2.pathExists "out/hello.s" = false ∧
    ((compile 0 sharedRun : FileRun Output) sharedOutput).2.readText "out/hello.tokens.s" =
      .ok "other" := by
  have hD : sharedOutput.locate sharedRun.output = .ok (["work", "out"], .dir) :=
    locate_ok.mpr ⟨by decide +kernel, rfl⟩
  have hlink : ∀ name target,
      sharedOutput.entry? (["work", "out"] ++ [name]) ≠ some (.link target) := by
    intro name target e
    obtain ⟨before, after, hsplit, _⟩ := List.lookup_eq_some_iff.mp e
    have hmem : (["work", "out"] ++ [name], Entry.link target) ∈ sharedOutput.entries := by
      rw [hsplit]
      exact List.mem_append_right _ List.mem_cons_self
    simp [sharedOutput] at hmem
  refine ⟨by decide +kernel, ?_⟩
  obtain ⟨_, _, _, _, hothers⟩ := compile_keeps_others 0 sharedRun sharedOutput ["work", "out"]
    (rooted_of_isRooted (by decide +kernel)) hD (fun a => hlink _) (Prod.mk.eta).symm
  have hother := hothers ⟨"hello.tokens.osc", "out", true⟩ rfl (by decide +kernel) .assembly
  exact (hother.2 (hlink _) "other").mpr (by decide +kernel)

end Osclan
