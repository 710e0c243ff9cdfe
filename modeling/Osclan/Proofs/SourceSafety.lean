/-
  File:      Osclan/Proofs/SourceSafety.lean
  Subject:   A compilation leaves its source as it was.

  Reading the source looks at the places on its way and at the file. A run removes artifacts of the
  output directory, makes directories where nothing stood and writes files, and none of this touches
  those places: an output directory that holds the source is refused, and every other artifact
  path leads elsewhere. There are two exceptions, and both are real. A link at the name of an
  artifact is removed although the source may be read through it; and the refusal is skipped for an
  output directory that is not there yet, which the empty path and a path with `..` may bring
  back to the directory of the source.

  * `Keeps` -- what reading looks at is unchanged;
  * `SourceApart` -- the two exceptions do not arise;
  * `readText_compile` -- the source after a run;
  * `source_lost` -- runs that lose their source.
-/
import Osclan.Proofs.FileRun

namespace Osclan

namespace FileSystem

variable {fs fs' : FileSystem} {slash : PathEnd} {path : String} {p q : Place}

/-! ## 1. What reading looks at -/

/-- The places that reading a path looks at are unchanged: those on its way and the place `p` it
    leads to. -/
structure Keeps (path : String) (p : Place) (fs fs' : FileSystem) : Prop where
  working : fs'.workingDir = fs.workingDir
  onWay : ∀ q ∈ fs.way path, fs'.entry? q = fs.entry? q
  atEnd : fs'.entry? p = fs.entry? p

theorem Keeps.refl (path : String) (p : Place) (fs : FileSystem) : Keeps path p fs fs :=
  ⟨rfl, fun _ _ => rfl, rfl⟩

/-- **A path whose places are unchanged leads to the same file.** -/
theorem Keeps.locate (h : Keeps path p fs fs') {e : Entry} (hloc : fs.locate path = .ok (p, e)) :
    fs'.locate path = .ok (p, e) := by
  obtain ⟨hres, hentry⟩ := locate_ok.mp hloc
  obtain ⟨hform, hne, hwalk⟩ := resolve_ok.mp hres
  refine locate_ok.mpr ⟨resolve_ok.mpr ⟨hform, hne, ?_⟩, h.atEnd.trans hentry⟩
  rw [startOf_congr h.working, walk_congr linkLimit _ _ h.onWay]
  exact hwalk

theorem way_passage (h : fs.resolve slash path = .ok p) : ∀ q ∈ fs.way path,
    q = p ∨ fs.Passage q :=
  walkWay_passage linkLimit _ _ (resolve_ok.mp h).2.2

/-- A change away from the places keeps them. -/
theorem Keeps.change {fs₁ : FileSystem} (h : Keeps path p fs fs₁) (hc : fs₁.ChangesAt fs' q)
    (hend : q ≠ p) (hway : q ∉ fs.way path) : Keeps path p fs fs' where
  working := hc.working.trans h.working
  onWay r hr := (hc.other r fun e => hway (e ▸ hr)).trans (h.onWay r hr)
  atEnd := (hc.other p hend.symm).trans h.atEnd

/-- Adding keeps the places of a path that leads to something. -/
theorem Adds.keeps (h : fs.Adds fs') {e : Entry} (hloc : fs.locate path = .ok (p, e)) :
    Keeps path p fs fs' := by
  obtain ⟨hres, hentry⟩ := locate_ok.mp hloc
  refine ⟨h.working, fun q hq => ?_, ?_⟩
  · rcases way_passage hres q hq with rfl | hdir | ⟨target, hlink⟩
    · rw [hentry, h.kept _ _ hentry]
    · rw [hdir, h.kept _ _ hdir]
    · rw [hlink, h.kept _ _ hlink]
  · rw [hentry, h.kept _ _ hentry]

end FileSystem

open FileSystem

/-! ## 2. Runs that keep their distance -/

/-- No artifact of the run stands in for the source.
    `links`: a link at the name of an artifact in the output directory is not on the way to the
    source.
    `paths`: where the output directory is still to be made, and its path is empty or goes up, no
    artifact path leads to the source afterwards. -/
structure SourceApart (o : Options) (fs : FileSystem) : Prop where
  links : ∀ (D : Place) (a : Artifact) (target : String), fs.realPlace o.output = .ok D →
    fs.entry? (D ++ [a.fileName o.stem]) = some (.link target) →
    D ++ [a.fileName o.stem] ∉ fs.way o.input
  paths : fs.pathExists o.output = false → o.output = "" ∨ ".." ∈ PathText.names o.output →
    ∀ a p, fs.realPlace o.input = .ok p →
      (fs.createDirs o.output).2.realPlace (o.artifact a) ≠ .ok p

section

variable {o : Options} {fs : FileSystem} {p : Place} {content : ByteArray}

/-- The state of a run that has kept the source. -/
structure Sound (o : Options) (p : Place) (fs fs₁ : FileSystem) : Prop where
  rooted : fs₁.Rooted
  keeps : Keeps o.input p fs fs₁

/-- No artifact path leads to the source. -/
def NoArtifactAt (o : Options) (p : Place) (fs : FileSystem) : Prop :=
  ∀ a, fs.resolve .directory (o.artifact a) ≠ .ok p

/-- **One removal keeps the source**: what is removed stands in the output directory, which does not
    hold the source, and is no link on the way to it. -/
theorem Sound.remove {fs₁ fs₂ : FileSystem} {D : Place}
    (hloc : fs.locate o.input = .ok (p, .file content)) (houtside : ¬ D <+: p)
    (hlinks : ∀ (a : Artifact) target, fs.entry? (D ++ [a.fileName o.stem]) = some (.link target) →
      D ++ [a.fileName o.stem] ∉ fs.way o.input)
    (h : Sound o p fs fs₁) (hD : ∀ D', fs₁.dirAt o.output = .ok D' → D' = D) {a : Artifact}
    (hremoved : fs₁.removeFile (o.artifact a) = .ok fs₂) :
    Sound o p fs fs₂ ∧ ∀ D', fs₂.dirAt o.output = .ok D' → D' = D := by
  obtain ⟨D', hD', hnone, hdir, rfl⟩ := removeFile_join (o.isName a) hremoved
  obtain rfl := hD D' hD'
  have hq := ne_root hdir
  have hchange := erase_changesAt fs₁ hq
  have hrooted := rooted_erase h.rooted hdir
  have hpass : ¬ (fs₁.erase (D' ++ [a.fileName o.stem])).Passage (D' ++ [a.fileName o.stem]) := by
    simp [Passage, entryAt_erase fs₁ hq]
  refine ⟨⟨hrooted, h.keeps.change hchange ?_ ?_⟩, fun D'' hD'' =>
    hD D'' (hchange.dirAt hrooted hpass hD'')⟩
  · intro e
    exact houtside (e ▸ List.prefix_append D' _)
  · intro hway
    have hsame := h.keeps.onWay _ hway
    rcases way_passage (locate_ok.mp hloc).1 _ hway with e | hd | ⟨target, hl⟩
    · exact houtside (e ▸ List.prefix_append D' _)
    · exact hdir (hsame.trans hd)
    · exact hlinks a target hl hway

/-- **One write keeps the source**: it goes to a place that is neither the source nor a directory or
    link on the way to it. -/
theorem Sound.write {fs₁ fs₂ : FileSystem} (hloc : fs.locate o.input = .ok (p, .file content))
    (h : Sound o p fs fs₁) (hno : NoArtifactAt o p fs₁) {a : Artifact} {text : String}
    (hwritten : fs₁.writeText (o.artifact a) text = .ok fs₂) :
    Sound o p fs fs₂ ∧ NoArtifactAt o p fs₂ := by
  obtain ⟨q, hres, hdir, rfl⟩ := writeText_ok hwritten
  obtain ⟨hread, hpass, hname⟩ := resolve_refused h.rooted hres hdir
  have hchange := put_changesAt fs₁ (ne_root hdir) (.file text.toUTF8)
  have hqp : q ≠ p := fun e => hno a (e ▸ hread)
  have hfile : ¬ (fs₁.put q (.file text.toUTF8)).Passage q := by
    simp [Passage, entryAt_put fs₁ (ne_root hdir)]
  refine ⟨⟨hchange.rooted h.rooted hdir fun _ => hname, h.keeps.change hchange hqp ?_⟩, ?_⟩
  · intro hway
    have hsame := h.keeps.onWay q hway
    rcases way_passage (locate_ok.mp hloc).1 q hway with e | hd | ⟨target, hl⟩
    · exact hqp e
    · exact hpass (.inl (hsame.trans hd))
    · exact hpass (.inr ⟨target, hsame.trans hl⟩)
  · intro b hb
    rcases hchange.resolve hfile hb with e | hbefore
    · exact hqp e.symm
    · exact hno b hbefore

/-- **Making ready keeps the source**, and afterwards no artifact path leads to it. -/
theorem Prepares.sound {r : Except CompileStop Unit} {fs₁ : FileSystem} (h : fs.Rooted)
    (hloc : fs.locate o.input = .ok (p, .file content)) (hapart : SourceApart o fs)
    (hprepared : Prepares o fs r fs₁) :
    Sound o p fs fs₁ ∧ (r = .ok () → NoArtifactAt o p fs₁) := by
  have hreal : fs.realPlace o.input = .ok p := by
    unfold realPlace
    rw [hloc]
    rfl
  have hstart : Sound o p fs fs := ⟨h, .refl _ _ _⟩
  cases hprepared with
  | failed e => exact ⟨hstart, fun hr => by cases hr⟩
  | refused => exact ⟨hstart, fun hr => by cases hr⟩
  | swept source D names r fs₁ hsource hD houtside hnames hrun =>
    rw [hreal, Except.ok.injEq] at hsource
    subst hsource
    obtain ⟨D', hdirAt, hD', _⟩ := list_ok hnames
    rw [hD, Except.ok.injEq] at hD'
    subst hD'
    have hsound : Sound o p fs fs₁ ∧ ∀ D', fs₁.dirAt o.output = .ok D' → D' = D := by
      refine removeArtifacts_preserves
        (I := fun fs₁ => Sound o p fs fs₁ ∧ ∀ D', fs₁.dirAt o.output = .ok D' → D' = D)
        (fun fs₂ fs₃ a hI _ hremoved => ?_) ⟨hstart, fun D' hD' => ?_⟩ hrun
      · exact hI.1.remove hloc houtside (fun a target => hapart.links D a target hD) hI.2 hremoved
      · rw [hdirAt, Except.ok.injEq] at hD'
        exact hD'.symm
    refine ⟨hsound.1, fun hr a hleads => ?_⟩
    -- a path to the source would be a path to a file, and the sweep leaves none
    subst hr
    have hfile : fs₁.isFile (o.artifact a) = true := isFile_iff.mpr ⟨p, content,
      locate_ok.mpr ⟨hleads, (locate_ok.mp (hsound.1.keeps.locate hloc)).2⟩⟩
    rw [removeArtifacts_clears h hnames hrun a] at hfile
    cases hfile
  | made fs₁ hmissing hmade =>
    obtain ⟨hadds, hrooted⟩ := createDirs_adds h hmade
    have hkeeps := hadds.keeps hloc
    have hentry := (locate_ok.mp (hkeeps.locate hloc)).2
    refine ⟨⟨hrooted, hkeeps⟩, fun _ a hleads => ?_⟩
    by_cases hodd : o.output = "" ∨ ".." ∈ PathText.names o.output
    · refine hapart.paths hmissing hodd a p hreal ?_
      rw [hmade]
      unfold realPlace
      rw [locate_ok.mpr ⟨hleads, hentry⟩]
      rfl
    · rw [not_or] at hodd
      obtain ⟨D, _, hD, hempty, _⟩ := createDirs_new h hmissing hodd.1 hodd.2 hmade
      rw [resolve_join_of_dir (o.isName a) hD (by simp [hempty]) hleads, hempty] at hentry
      cases hentry
  | unmade e fs₁ hmissing hmade =>
    obtain ⟨hadds, hrooted⟩ := createDirs_adds h hmade
    exact ⟨⟨hrooted, hadds.keeps hloc⟩, fun hr => by cases hr⟩

/-- **Writing keeps the source.** -/
theorem Sound.writeAll {fs₁ fs₂ : FileSystem} {r : Except CompileStop (List String)}
    {artifacts : List (Artifact × String)} (hloc : fs.locate o.input = .ok (p, .file content))
    (h : Sound o p fs fs₁) (hno : NoArtifactAt o p fs₁)
    (hrun : (writeArtifacts o.output o.stem artifacts : FileRun (List String)) fs₁ = (r, fs₂)) :
    Sound o p fs fs₂ := by
  obtain ⟨⟨_, hI⟩, _⟩ := writeArtifacts_preserves
    (I := fun _ fs₁ => Sound o p fs fs₁ ∧ NoArtifactAt o p fs₁)
    (fun _ _ _ a text hI hwritten => hI.1.write hloc hI.2 hwritten) [] ⟨h, hno⟩ hrun
  exact hI.1

/-- **A run leaves its source as it was**, whether it succeeds or fails and wherever it fails:
    reading the input gives afterwards what it gave before, text or error. -/
theorem readText_compile (now : Calendar.Instant) (o : Options) (fs : FileSystem) (h : fs.Rooted)
    (hapart : SourceApart o fs) :
    ((compile now o : FileRun Output) fs).2.readText o.input = fs.readText o.input := by
  generalize hrun : (compile now o : FileRun Output) fs = result
  obtain ⟨r, fs'⟩ := result
  have hread : ∀ {source : String}, fs.readText o.input = .ok source →
      (∀ p content, fs.locate o.input = .ok (p, .file content) → Sound o p fs fs') →
      fs'.readText o.input = fs.readText o.input := by
    intro source hsource hsound
    obtain ⟨p, content, hloc⟩ := locate_of_readText hsource
    exact readText_congr hloc ((hsound p content hloc).keeps.locate hloc)
  cases compile_runs hrun with
  | unread e hunread => rfl
  | unprepared source e fs' hsource hprepared =>
    exact hread hsource fun p content hloc =>
      ((prepare_prepares hprepared).sound h hloc hapart).1
  | unwritten source e fs₁ fs' hsource hprepared hwritten =>
    refine hread hsource fun p content hloc => ?_
    obtain ⟨hsound, hno⟩ := (prepare_prepares hprepared).sound h hloc hapart
    exact hsound.writeAll hloc (hno rfl) hwritten
  | done source paths fs₁ fs' hsource hprepared hwritten =>
    refine hread hsource fun p content hloc => ?_
    obtain ⟨hsound, hno⟩ := (prepare_prepares hprepared).sound h hloc hapart
    exact hsound.writeAll hloc (hno rfl) hwritten

end

/-! ## 3. A source next to a link, and sources that are lost -/

/-- A source, and in the output directory a link to it under the name of an artifact. -/
def linkedOutput : FileSystem :=
  ⟨[(["work"], .dir), (["work", "src"], .dir), (["work", "out"], .dir),
    (["work", "src", "hello.osc"], .file "#".toUTF8),
    (["work", "out", "hello.s"], .link "../src/hello.osc")], ["work"]⟩

theorem sourceApart_linkedOutput : SourceApart ⟨"src/hello.osc", "out", true⟩ linkedOutput where
  links D a target hD _ := by
    have hout : linkedOutput.realPlace "out" = .ok ["work", "out"] := by decide +kernel
    obtain rfl := Except.ok.inj (hout.symm.trans hD)
    cases a <;> decide +kernel
  paths hmissing := by
    have hthere : linkedOutput.pathExists "out" = true := by decide +kernel
    cases hthere.symm.trans hmissing

/-- The link is removed as an earlier artifact, and the source it leads to stays. -/
theorem readText_compile_linkedOutput : linkedOutput.Rooted ∧
    ((compile 0 ⟨"src/hello.osc", "out", true⟩ : FileRun Output) linkedOutput).2.readText
      "src/hello.osc" = .ok "#" := by
  have hrooted : linkedOutput.Rooted := FileSystem.rooted_of_isRooted (by decide +kernel)
  have hread : linkedOutput.readText "src/hello.osc" = .ok "#" := by decide +kernel
  exact ⟨hrooted, (readText_compile 0 ⟨"src/hello.osc", "out", true⟩ linkedOutput hrooted
    sourceApart_linkedOutput).trans hread⟩

/-- A source, of one comment, whose name is that of its own assembly. -/
def sourceLikeArtifact : FileSystem :=
  ⟨[(["work"], .dir), (["work", "hello.s"], .file ".* keep me".toUTF8)], ["work"]⟩

theorem build_comment : (build "hello.s" ".* keep me" false 0).artifacts =
    [(.assembly, (Assembly.ofTree 0 (⟨[]⟩ : Program).toNode).text)] := by
  have htokens : tokenize "hello.s" ".* keep me" = .ok [⟨.eof, "", ⟨"hello.s", 1, 11, 10⟩⟩] := by
    decide +kernel
  have hprogram : Program.ofTokens [⟨.eof, "", ⟨"hello.s", 1, 11, 10⟩⟩] = .ok ⟨[]⟩ := by cbv
  have htree : Check.analyze (⟨[]⟩ : Program).toNode Analyzer.fresh =
      .ok ⟨(⟨[]⟩ : Program).toNode, [], [], ScopeStack.fresh.root⟩ Analyzer.fresh := by
    simp only [Check.analyze, Program.toNode, List.map_nil, visit, visitAll]
    rfl
  simp only [build, buildTokens, buildTree, htokens, hprogram, htree, keep, Bool.false_eq_true,
    if_false, List.nil_append]

/-- Output to a directory that is still to be made, and up again. -/
def upward : Options := ⟨"hello.s", "new/..", false⟩

/-- Output to the empty path. -/
def nowhere : Options := ⟨"hello.s", "", false⟩

/-- **Runs that lose their source.** An output directory that is still to be made and turns out to
    be that of the source is not refused, so the assembly is written over the source: with `..` behind
    the missing name, and with the empty path. Where the source is read through a link that has the
    name of an artifact, the link is removed. -/
theorem source_lost :
    (((compile 0 upward : FileRun Output) sourceLikeArtifact).2.readText "hello.s" ≠
      sourceLikeArtifact.readText "hello.s") ∧
    (((compile 0 nowhere : FileRun Output) sourceLikeArtifact).2.readText "hello.s" ≠
      sourceLikeArtifact.readText "hello.s") ∧
    (((compile 0 ⟨"out/hello.s", "out", false⟩ : FileRun Output) linkedOutput).2.readText
      "out/hello.s" ≠ linkedOutput.readText "out/hello.s") := by
  have hread : sourceLikeArtifact.readText "hello.s" = .ok ".* keep me" := by decide +kernel
  have hupward : ((prepare upward upward.stem : FileRun Unit) sourceLikeArtifact).1 = .ok () := by
    decide +kernel
  have hnowhere :
      ((prepare nowhere nowhere.stem : FileRun Unit) sourceLikeArtifact).1 = .ok () := by
    decide +kernel
  refine ⟨?_, ?_, by decide +kernel⟩
  · rw [compile_written (o := upward) hread (Prod.ext hupward rfl)]
    have hbuild : (build upward.input ".* keep me" upward.intermediate 0).artifacts = _ :=
      build_comment
    rw [hbuild]
    decide +kernel
  · rw [compile_written (o := nowhere) hread (Prod.ext hnowhere rfl)]
    have hbuild : (build nowhere.input ".* keep me" nowhere.intermediate 0).artifacts = _ :=
      build_comment
    rw [hbuild]
    decide +kernel

end Osclan
