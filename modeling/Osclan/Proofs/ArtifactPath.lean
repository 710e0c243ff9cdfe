/-
  File:      Osclan/Proofs/ArtifactPath.lean
  Subject:   The path of a name below a directory.

  The path of an artifact is the output path with one more name. Its names are those of the output
  path and that name, so it leads to the output directory first and from there to the name.

  * `PathText.IsName` -- texts that are one name of a path;
  * `PathText.names_join` -- the names of a joined path;
  * `Artifact.fileName_isName`, `Artifact.fileName_injective` -- the names of artifacts;
  * `FileSystem.resolve_join`, `FileSystem.resolve_join_iff` -- where a joined path leads.
-/
import Osclan.Compile
import Osclan.Proofs.PathWalk

namespace Osclan

/-! ## 1. Names of written paths -/

namespace PathText

/-- The text is one name of a path, which leads neither nowhere nor up. -/
structure IsName (name : String) : Prop where
  noSlash : '/' ∉ name.toList
  ne_empty : name ≠ ""
  ne_dot : name ≠ "."
  ne_up : name ≠ ".."

theorem pieces_ne_nil (text : List Char) : pieces text ≠ [] := by
  cases text with
  | nil => simp [pieces]
  | cons c rest =>
    unfold pieces
    split
    · simp
    · split <;> simp

theorem pieces_append_slash (a b : List Char) : pieces (a ++ '/' :: b) = pieces a ++ pieces b := by
  induction a with
  | nil => simp [pieces]
  | cons c a ih =>
    rw [List.cons_append, pieces, pieces, ih]
    by_cases hc : c = '/'
    · rw [if_pos hc, if_pos hc, List.cons_append]
    · rw [if_neg hc, if_neg hc]
      cases ha : pieces a with
      | nil => exact absurd ha (pieces_ne_nil a)
      | cons piece others => rfl

theorem pieces_of_noSlash {text : List Char} (h : '/' ∉ text) : pieces text = [text] := by
  induction text with
  | nil => rfl
  | cons c rest ih =>
    rw [List.mem_cons, not_or] at h
    rw [pieces, if_neg (Ne.symm h.1), ih h.2]

theorem noSlash_of_mem_pieces {text piece : List Char} (h : piece ∈ pieces text) :
    '/' ∉ piece := by
  induction text generalizing piece with
  | nil =>
    rw [pieces, List.mem_singleton] at h
    rw [h]
    exact List.not_mem_nil
  | cons c rest ih =>
    rw [pieces] at h
    by_cases hc : c = '/'
    · rw [if_pos hc] at h
      rcases List.mem_cons.mp h with e | hrest
      · rw [e]
        exact List.not_mem_nil
      · exact ih hrest
    · rw [if_neg hc] at h
      cases hp : pieces rest with
      | nil => exact absurd hp (pieces_ne_nil rest)
      | cons first others =>
        rw [hp] at h ih
        rcases List.mem_cons.mp h with e | hrest
        · rw [e, List.mem_cons, not_or]
          exact ⟨Ne.symm hc, ih List.mem_cons_self⟩
        · exact ih (List.mem_cons_of_mem first hrest)

/-- **The pieces of a joined path**, empty ones apart, are those of the directory and the name. -/
theorem pieces_join {dir name : String} (h : IsName name) :
    (pieces (join dir name).toList).filter (· ≠ []) =
      (pieces dir.toList).filter (· ≠ []) ++ [name.toList] := by
  have hname : name.toList ≠ [] := fun e => h.ne_empty (String.toList_eq_nil_iff.mp e)
  have hlast : (pieces name.toList).filter (· ≠ []) = [name.toList] := by
    rw [pieces_of_noSlash h.noSlash]
    simp [hname]
  unfold join
  by_cases hempty : dir = ""
  · rw [if_pos (.inl hempty), hempty, String.empty_append, hlast]
    rfl
  by_cases hslash : dir.toList.getLast? = some '/'
  · obtain ⟨d, hd⟩ := List.getLast?_eq_some_iff.mp hslash
    rw [if_pos (.inr hslash), String.toList_append, hd, List.append_assoc, List.singleton_append,
      pieces_append_slash, pieces_append_slash, List.filter_append, List.filter_append, hlast]
    simp [pieces]
  · rw [if_neg (not_or.mpr ⟨hempty, hslash⟩), String.toList_append, String.toList_append,
      List.append_assoc]
    rw [show "/".toList ++ name.toList = '/' :: name.toList from rfl, pieces_append_slash,
      List.filter_append, hlast]

/-- The names of a path, from its pieces that are not empty. -/
theorem names_eq_pieces (path : String) :
    names path = (((pieces path.toList).filter (· ≠ [])).map String.ofList).filter (· ≠ ".") := by
  unfold names
  rw [List.filter_map, List.filter_map, List.filter_filter]
  congr 1
  refine List.filter_congr fun piece _ => ?_
  have e : String.ofList piece = "" ↔ piece = [] := by
    rw [← String.toList_eq_nil_iff, String.toList_ofList]
  simp [e, Bool.and_comm]

/-- **A joined path has the names of the directory and one more.** -/
theorem names_join (dir : String) {name : String} (h : IsName name) :
    names (join dir name) = names dir ++ [name] := by
  rw [names_eq_pieces, names_eq_pieces, pieces_join h, List.map_append, List.filter_append]
  simp [h.ne_dot]

theorem isAbsolute_join {dir name : String} (h : IsName name) :
    isAbsolute (join dir name) = isAbsolute dir := by
  have hname : name.toList.head? ≠ some '/' := fun e => h.noSlash (List.mem_of_mem_head? e)
  unfold isAbsolute join
  by_cases hempty : dir = ""
  · rw [if_pos (.inl hempty), hempty, String.empty_append]
    simpa using hname
  · have hne : dir.toList ≠ [] := fun e => hempty (String.toList_eq_nil_iff.mp e)
    split <;> simp [String.toList_append, List.head?_append, List.head?_eq_some_head hne]

theorem endsInSlash_join {dir name : String} (h : IsName name) :
    endsInSlash (join dir name) = false := by
  have hne : name.toList ≠ [] := fun e => h.ne_empty (String.toList_eq_nil_iff.mp e)
  have hlast : name.toList.getLast hne ≠ '/' := fun e => h.noSlash (e ▸ List.getLast_mem hne)
  have hend : ∀ front : List Char, (front ++ name.toList).getLast? = name.toList.getLast? := by
    intro front
    rw [List.getLast?_append, List.getLast?_eq_some_getLast hne, Option.some_or]
  unfold endsInSlash join
  split <;>
    simp only [String.toList_append, hend, List.getLast?_eq_some_getLast hne] <;> simpa using hlast

theorem endsInDot_join {dir name : String} (h : IsName name) :
    endsInDot (join dir name) = false := by
  have hdot : name.toList ≠ ['.'] := fun e => h.ne_dot (String.toList_injective e)
  unfold endsInDot
  rw [pieces_join h]
  simp [hdot]

theorem join_ne_empty {dir name : String} (h : IsName name) : join dir name ≠ "" := by
  intro e
  have hnames := names_join dir h
  rw [e] at hnames
  exact FileSystem.append_singleton_ne_nil (names dir) name hnames.symm

theorem noSlash_of_mem_names {path name : String} (h : name ∈ names path) :
    '/' ∉ name.toList := by
  obtain ⟨piece, hpiece, rfl⟩ := List.mem_map.mp (List.mem_filter.mp h).1
  rw [String.toList_ofList]
  exact noSlash_of_mem_pieces hpiece

theorem noSlash_stemOfName {name : String} (h : '/' ∉ name.toList) :
    '/' ∉ (stemOfName name).toList := by
  unfold stemOfName
  simp only
  split
  · exact h
  · rw [String.toList_ofList, List.mem_reverse]
    exact fun hmem => h (List.mem_reverse.mp (List.mem_of_mem_drop hmem))

theorem noSlash_stem? {path stem : String} (h : stem? path = some stem) : '/' ∉ stem.toList := by
  unfold stem? at h
  cases hlast : (names path).getLast? with
  | none =>
    rw [hlast] at h
    cases h
  | some name =>
    rw [hlast] at h
    by_cases hup : name = ".."
    · rw [hup] at h
      cases h
    · simp only [if_neg hup, Option.some.injEq] at h
      rw [← h]
      exact noSlash_stemOfName (noSlash_of_mem_names (List.mem_of_getLast? hlast))

end PathText

/-! ## 2. Names of artifacts -/

/-- The stem that the artifacts of a run are named by. -/
def Options.stem (o : Options) : String := (PathText.stem? o.input).getD defaultStem

/-- The path of an artifact of a run. -/
def Options.artifact (o : Options) (a : Artifact) : String :=
  PathText.join o.output (a.fileName o.stem)

theorem Options.noSlash_stem (o : Options) : '/' ∉ o.stem.toList := by
  unfold Options.stem
  cases h : PathText.stem? o.input with
  | none => decide
  | some stem => exact PathText.noSlash_stem? h

namespace Artifact

theorem toList_fileName (stem : String) (a : Artifact) :
    (a.fileName stem).toList = stem.toList ++ '.' :: a.ending.toList := by
  simp [fileName, String.toList_append]

/-- **The name of an artifact is a name**: its last character is neither a slash nor a dot. -/
theorem fileName_isName {stem : String} (h : '/' ∉ stem.toList) (a : Artifact) :
    PathText.IsName (a.fileName stem) := by
  have hlast : ∀ c ∈ (a.fileName stem).toList.getLast?, c ≠ '.' := by
    rw [toList_fileName]
    cases a <;> simp [ending]
  refine ⟨?_, ?_, ?_, ?_⟩
  · rw [toList_fileName, List.mem_append, List.mem_cons, not_or, not_or]
    exact ⟨h, by decide, by cases a <;> decide⟩
  · intro e
    have := toList_fileName stem a
    rw [e] at this
    simp at this
  · intro e
    rw [e] at hlast
    exact hlast '.' rfl rfl
  · intro e
    rw [e] at hlast
    exact hlast '.' rfl rfl

/-- Two artifacts of one source have two names. -/
theorem fileName_injective (stem : String) : Function.Injective (fileName stem) := by
  intro a b e
  have hlist := congrArg String.toList e
  rw [toList_fileName, toList_fileName, List.append_cancel_left_eq, List.cons.injEq] at hlist
  have hending := String.toList_injective hlist.2
  cases a <;> cases b <;> first | rfl | exact absurd hending (by decide)

theorem mem_all (a : Artifact) : a ∈ all := by cases a <;> decide

theorem isNameOf_iff {stem name : String} : isNameOf stem name = true ↔
    ∃ a, name = fileName stem a := by
  simp [isNameOf, mem_all]

end Artifact

/-! ## 3. Where the path of a name leads -/

namespace FileSystem

/-- The directory that a path leads to. -/
def dirAt (fs : FileSystem) (path : String) : Except IoError Place :=
  fs.walkToDir (fs.startOf path) (PathText.names path)

section

variable {fs fs' : FileSystem} {slash : PathEnd} {dir name path : String} {D q : Place}

theorem startOf_join (h : PathText.IsName name) :
    fs.startOf (PathText.join dir name) = fs.startOf dir := by
  unfold startOf
  rw [PathText.isAbsolute_join h]

theorem ofPath_join (h : PathText.IsName name) :
    PathEnd.ofPath slash (PathText.join dir name) = .free := by
  unfold PathEnd.ofPath
  rw [PathText.endsInDot_join h, PathText.endsInSlash_join h]
  rfl

theorem resolve_ok : fs.resolve slash path = .ok q ↔
    PathText.checkForm path = .ok () ∧ path ≠ "" ∧
      fs.walk slash linkLimit (.ofPath slash path) (fs.startOf path) (PathText.names path) =
        .ok q := by
  unfold resolve
  cases PathText.checkForm path with
  | error e => simp [bind, Except.bind]
  | ok u => by_cases hp : path = "" <;> simp [bind, Except.bind, hp]

theorem locate_ok {e : Entry} : fs.locate path = .ok (q, e) ↔
    fs.resolve .directory path = .ok q ∧ fs.entry? q = some e := by
  unfold locate
  cases hr : fs.resolve .directory path with
  | error x => simp [bind, Except.bind]
  | ok p =>
    simp only [bind, Except.bind]
    cases he : fs.entry? p with
    | none =>
      simp only [reduceCtorEq, Except.ok.injEq, false_iff, not_and]
      intro e
      simp [← e, he]
    | some x =>
      simp only [pure, Except.pure, Except.ok.injEq, Prod.mk.injEq]
      constructor
      · intro h
        exact ⟨h.1, by rw [← h.1, he, h.2]⟩
      · intro h
        refine ⟨h.1, ?_⟩
        rw [← h.1, he] at h
        exact Option.some.inj h.2

/-- What is read is the file that the path leads to. -/
theorem locate_of_readText {text : String} (h : fs.readText path = .ok text) :
    ∃ p content, fs.locate path = .ok (p, .file content) := by
  unfold readText at h
  cases hloc : fs.locate path with
  | error e =>
    rw [hloc] at h
    cases h
  | ok found =>
    obtain ⟨p, e⟩ := found
    rw [hloc] at h
    cases e with
    | file content => exact ⟨p, content, rfl⟩
    | dir => cases h
    | link target => cases h

theorem readText_congr {found : Place × Entry} (h : fs.locate path = .ok found)
    (h' : fs'.locate path = .ok found) : fs'.readText path = fs.readText path := by
  unfold readText
  rw [h, h']

/-- **A joined path leads to the directory first.** -/
theorem resolve_join (h : PathText.IsName name)
    (hr : fs.resolve slash (PathText.join dir name) = .ok q) :
    PathText.checkForm (PathText.join dir name) = .ok () ∧
      ∃ D links, fs.dirAt dir = .ok D ∧ fs.walk slash links .free D [name] = .ok q := by
  obtain ⟨hform, _, hwalk⟩ := resolve_ok.mp hr
  rw [ofPath_join h, startOf_join h, PathText.names_join dir h] at hwalk
  refine ⟨hform, ?_⟩
  have hleads := walk_append fs slash .free name linkLimit
    (fs.startOf dir) (PathText.names dir)
  rw [hwalk] at hleads
  unfold dirAt walkToDir
  cases hdir : fs.walk .directory linkLimit .directory (fs.startOf dir) (PathText.names dir) with
  | error e =>
    rw [hdir] at hleads
    cases hleads
  | ok D =>
    rw [hdir] at hleads
    obtain ⟨links, hlinks⟩ := hleads
    exact ⟨D, links, rfl, hlinks.symm⟩

/-- **A joined path leads to the name in the directory**, if it can be looked up at all and no link
    stands there. -/
theorem resolve_join_iff (h : PathText.IsName name) (hD : fs.dirAt dir = .ok D)
    (hlink : ∀ target, fs.entry? (D ++ [name]) ≠ some (.link target)) :
    fs.resolve slash (PathText.join dir name) = .ok q ↔
      PathText.checkForm (PathText.join dir name) = .ok () ∧
        ¬ PathText.longestName < name.utf8ByteSize ∧ q = D ++ [name] := by
  have hleads := walk_append fs slash .free name linkLimit
    (fs.startOf dir) (PathText.names dir)
  unfold dirAt walkToDir at hD
  rw [hD] at hleads
  obtain ⟨links, hlinks⟩ := hleads
  rw [resolve_ok, ofPath_join h, startOf_join h, PathText.names_join dir h, hlinks]
  constructor
  · intro hr
    have hlen : ¬ PathText.longestName < name.utf8ByteSize := by
      cases links with
      | zero => exact ((follow_cons_ok h.ne_up).mp hr.2.2).2.1
      | succ links => exact ((follow_cons_ok h.ne_up).mp hr.2.2).2.1
    have hwalk := hr.2.2
    rw [walk_single h.ne_up hlen hlink] at hwalk
    exact ⟨hr.1, hlen, (Except.ok.inj hwalk).symm⟩
  · intro hr
    refine ⟨hr.1, PathText.join_ne_empty h, ?_⟩
    rw [walk_single h.ne_up hr.2.1 hlink, hr.2.2]

theorem resolve_join_of_dir (h : PathText.IsName name) (hD : fs.dirAt dir = .ok D)
    (hlink : ∀ target, fs.entry? (D ++ [name]) ≠ some (.link target))
    (hr : fs.resolve slash (PathText.join dir name) = .ok q) : q = D ++ [name] :=
  ((resolve_join_iff h hD hlink).mp hr).2.2

end

end FileSystem

end Osclan
