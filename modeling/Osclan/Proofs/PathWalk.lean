/-
  File:      Osclan/Proofs/PathWalk.lean
  Subject:   The places that a path looks at on its way.

  A path is followed by looking up one place after the other. Where it leads depends on what stands
  at these places and on nothing else; and where it leads somewhere, a directory or a link stands at
  each of them but the last. Both facts are proved once, and what a change of the file system does
  to a path is read off the place that was changed.

  * `entryAt_put`, `entryAt_erase` -- entries after a change;
  * `walkWay`, `way` -- the places looked up;
  * `walk_congr`, `walkWay_passage` -- the two facts;
  * `walk_of_change` -- a path after one place has been changed;
  * `walk_append` -- a path and one more name;
  * `Rooted`, `walk_end` -- everything stands in a directory, and what a path can lead to;
  * `walk_loosen`, `walk_toDir`, `walk_ofDir` -- the same path with another end.
-/
import Mathlib
import Osclan.FileSystem

namespace Osclan.FileSystem

/-! ## 1. Entries after a change -/

theorem lookup_filter_ne (p q : Place) (l : List (Place × Entry)) :
    (l.filter (·.1 ≠ p)).lookup q = if q = p then none else l.lookup q := by
  induction l with
  | nil => simp
  | cons entry l ih =>
    by_cases hp : entry.1 = p
    · rw [List.filter_cons_of_neg (by simpa using hp), ih]
      by_cases hq : q = p
      · rw [if_pos hq, if_pos hq]
      · have hne : (q == entry.1) = false := beq_eq_false_iff_ne.mpr fun e => hq (e.trans hp)
        rw [if_neg hq, if_neg hq, List.lookup_cons, hne]
    · rw [List.filter_cons_of_pos (by simpa using hp), List.lookup_cons, List.lookup_cons, ih]
      by_cases hq : q = p
      · have hne : (q == entry.1) = false := beq_eq_false_iff_ne.mpr fun e => hp (e.symm.trans hq)
        simp only [hne, if_pos hq]
      · simp only [if_neg hq]

theorem entryAt_erase (fs : FileSystem) {p : Place} (hp : p ≠ []) (q : Place) :
    entry? (fs.erase p) q = if q = p then none else fs.entry? q := by
  unfold entry? erase
  by_cases hq : q = []
  · rw [if_pos hq, if_pos hq, if_neg fun e => hp (e.symm.trans hq)]
  · rw [if_neg hq, if_neg hq, lookup_filter_ne]

theorem entryAt_put (fs : FileSystem) {p : Place} (hp : p ≠ []) (e : Entry) (q : Place) :
    entry? (fs.put p e) q = if q = p then some e else fs.entry? q := by
  unfold entry? put
  by_cases hq : q = []
  · rw [if_pos hq, if_pos hq, if_neg fun h => hp (h.symm.trans hq)]
  · rw [if_neg hq, if_neg hq, List.lookup_append, lookup_filter_ne]
    by_cases hqp : q = p
    · rw [if_pos hqp, if_pos hqp, hqp, List.lookup_cons_self]
      rfl
    · rw [if_neg hqp, if_neg hqp, List.lookup_cons, beq_eq_false_iff_ne.mpr hqp]
      exact Option.or_none

theorem append_singleton_ne_nil (dir : Place) (name : String) : dir ++ [name] ≠ [] :=
  List.append_ne_nil_of_right_ne_nil dir (List.cons_ne_nil name [])

/-! ## 2. The way of a path -/

/-- The places that are looked up where names lead from a directory; `onLink` gives those behind a
    link. -/
def followWay (fs : FileSystem) (onLink : Place → String → List String → List Place) :
    Place → List String → List Place
  | _, [] => []
  | dir, name :: rest =>
    if name = ".." then followWay fs onLink dir.dropLast rest
    else (dir ++ [name]) ::
      match fs.entry? (dir ++ [name]) with
      | some .dir => followWay fs onLink (dir ++ [name]) rest
      | some (.link target) => onLink dir target rest
      | _ => []

/-- The places that are looked up through at most `links` links. -/
def walkWay (fs : FileSystem) : Nat → Place → List String → List Place
  | 0 => followWay fs fun _ _ _ => []
  | links + 1 => followWay fs fun dir target rest =>
    walkWay fs links (if PathText.isAbsolute target then [] else dir)
      (PathText.names target ++ rest)

/-- The places that a path looks up. -/
def way (fs : FileSystem) (path : String) : List Place :=
  fs.walkWay linkLimit (fs.startOf path) (PathText.names path)

section

variable {fs fs' : FileSystem} {pathEnd slash : PathEnd}

/-- A directory or a link stands at the place: a path may lead on from there. -/
def Passage (fs : FileSystem) (q : Place) : Prop :=
  fs.entry? q = some .dir ∨ ∃ target, fs.entry? q = some (.link target)

/-- **When a name leads somewhere**: it is the last one and no directory or link stands there, or it
    leads on through a directory, or through a link. -/
theorem follow_cons_ok {onLink : Place → String → List String → Except IoError Place}
    {dir p : Place} {name : String} {rest : List String} (hup : name ≠ "..") :
    fs.follow pathEnd onLink dir (name :: rest) = .ok p ↔
      ¬ (rest = [] ∧ pathEnd = .refused) ∧ ¬ PathText.longestName < name.utf8ByteSize ∧
      ((¬ fs.Passage (dir ++ [name]) ∧ rest = [] ∧ pathEnd = .free ∧ p = dir ++ [name]) ∨
        fs.entry? (dir ++ [name]) = some .dir ∧
          fs.follow pathEnd onLink (dir ++ [name]) rest = .ok p ∨
        ∃ target, fs.entry? (dir ++ [name]) = some (.link target) ∧
          onLink dir target rest = .ok p) := by
  have hstop : ∀ error : IoError, (if rest = [] ∧ pathEnd = .free then
      Except.ok (dir ++ [name]) else .error error) = .ok p ↔
      rest = [] ∧ pathEnd = .free ∧ p = dir ++ [name] := by
    intro error
    by_cases hlast : rest = [] ∧ pathEnd = .free
    · rw [if_pos hlast, Except.ok.injEq]
      exact ⟨fun e => ⟨hlast.1, hlast.2, e.symm⟩, fun h => h.2.2.symm⟩
    · rw [if_neg hlast]
      constructor
      · intro h
        cases h
      · intro h
        exact absurd ⟨h.1, h.2.1⟩ hlast
  rw [follow, if_neg hup]
  by_cases hrefused : rest = [] ∧ pathEnd = .refused
  · simp [hrefused]
  by_cases hlen : PathText.longestName < name.utf8ByteSize
  · simp [hrefused, hlen]
  rw [if_neg hrefused, if_neg hlen]
  cases he : fs.entry? (dir ++ [name]) with
  | none => simp [Passage, he, hstop, hrefused, hlen]
  | some e => cases e <;> simp [Passage, he, hstop, hrefused, hlen]

theorem follow_congr {onLink onLink' : Place → String → List String → Except IoError Place}
    {onWay : Place → String → List String → List Place}
    (hlink : ∀ dir target rest, (∀ q ∈ onWay dir target rest, fs'.entry? q = fs.entry? q) →
      onLink' dir target rest = onLink dir target rest)
    (dir : Place) (names : List String)
    (h : ∀ q ∈ fs.followWay onWay dir names, fs'.entry? q = fs.entry? q) :
    fs'.follow pathEnd onLink' dir names = fs.follow pathEnd onLink dir names := by
  induction names generalizing dir with
  | nil => rfl
  | cons name rest ih =>
    unfold followWay at h
    unfold follow
    by_cases hup : name = ".."
    · rw [if_pos hup] at h ⊢
      rw [if_pos hup]
      exact ih _ h
    · rw [if_neg hup] at h ⊢
      rw [if_neg hup]
      obtain ⟨hhere, hrest⟩ := List.forall_mem_cons.mp h
      rw [hhere]
      cases he : fs.entry? (dir ++ [name]) with
      | none => rfl
      | some e =>
        rw [he] at hrest
        cases e with
        | file content => rfl
        | dir => simp only [ih _ hrest]
        | link target => simp only [hlink _ _ _ hrest]

/-- **Where a path leads depends only on the places it looks up.** -/
theorem walk_congr (links : Nat) (dir : Place) (names : List String)
    (h : ∀ q ∈ fs.walkWay links dir names, fs'.entry? q = fs.entry? q) :
    fs'.walk slash links pathEnd dir names = fs.walk slash links pathEnd dir names := by
  induction links generalizing pathEnd dir names with
  | zero => exact follow_congr (fun _ _ _ _ => rfl) dir names h
  | succ links ih => exact follow_congr (fun _ _ _ hw => ih _ _ hw) dir names h

theorem followWay_passage {onLink : Place → String → List String → Except IoError Place}
    {onWay : Place → String → List String → List Place} {p : Place}
    (hlink : ∀ dir target rest, onLink dir target rest = .ok p →
      ∀ q ∈ onWay dir target rest, q = p ∨ fs.Passage q)
    (dir : Place) (names : List String) (h : fs.follow pathEnd onLink dir names = .ok p) :
    ∀ q ∈ fs.followWay onWay dir names, q = p ∨ fs.Passage q := by
  induction names generalizing dir with
  | nil => exact fun q hq => absurd hq List.not_mem_nil
  | cons name rest ih =>
    unfold followWay
    by_cases hup : name = ".."
    · rw [follow, if_pos hup] at h
      rw [if_pos hup]
      exact ih _ h
    · rw [if_neg hup, List.forall_mem_cons]
      obtain ⟨_, _, ⟨hp, _, _, e⟩ | ⟨he, hr⟩ | ⟨target, he, hr⟩⟩ := (follow_cons_ok hup).mp h
      · refine ⟨.inl e.symm, ?_⟩
        split
        · rename_i he
          exact absurd (.inl he) hp
        · rename_i target he
          exact absurd (.inr ⟨target, he⟩) hp
        · exact fun q hq => absurd hq List.not_mem_nil
      · rw [he]
        exact ⟨.inr (.inl he), ih _ hr⟩
      · rw [he]
        exact ⟨.inr (.inr ⟨target, he⟩), hlink _ _ _ hr⟩

/-- **On the way to a place stand directories and links only.** -/
theorem walkWay_passage {p : Place} (links : Nat) (dir : Place) (names : List String)
    (h : fs.walk slash links pathEnd dir names = .ok p) :
    ∀ q ∈ fs.walkWay links dir names, q = p ∨ fs.Passage q := by
  induction links generalizing pathEnd dir names with
  | zero => exact followWay_passage (fun _ _ _ h => by cases h) dir names h
  | succ links ih => exact followWay_passage (fun _ _ _ h => ih _ _ h) dir names h

/-- **A path after one place has been changed** leads to that place, or to where it led before,
    unless a directory or a link has been put there. -/
theorem walk_of_change {q p : Place} (hother : ∀ r, r ≠ q → fs'.entry? r = fs.entry? r)
    (hq : ¬ fs'.Passage q) {links : Nat} {dir : Place} {names : List String}
    (h : fs'.walk slash links pathEnd dir names = .ok p) :
    p = q ∨ fs.walk slash links pathEnd dir names = .ok p := by
  by_cases hp : p = q
  · exact .inl hp
  · right
    have hway := walkWay_passage links dir names h
    rw [← h]
    refine walk_congr links dir names fun r hr => (hother r ?_).symm
    intro e
    subst e
    rcases hway r hr with e | hpass
    · exact hp e.symm
    · exact hq hpass

/-! ## 3. One more name -/

/-- What follows of where a path to a directory leads for the same path with one more name. -/
def LeadsOn (fs : FileSystem) (slash pathEnd : PathEnd) (name : String) :
    Except IoError Place → Except IoError Place → Prop
  | .ok dir, r => ∃ links, r = fs.walk slash links pathEnd dir [name]
  | .error e, r => r = .error e

theorem follow_append {onDir onLink : Place → String → List String → Except IoError Place}
    {name : String}
    (hbase : ∀ dir, ∃ links, fs.follow pathEnd onLink dir [name] =
      fs.walk slash links pathEnd dir [name])
    (hlink : ∀ dir target rest, fs.LeadsOn slash pathEnd name (onDir dir target rest)
      (onLink dir target (rest ++ [name])))
    (dir : Place) (names : List String) :
    fs.LeadsOn slash pathEnd name (fs.follow .directory onDir dir names)
      (fs.follow pathEnd onLink dir (names ++ [name])) := by
  induction names generalizing dir with
  | nil => exact hbase dir
  | cons first rest ih =>
    -- with a name behind it, no name is the last
    have hmore : rest ++ [name] ≠ [] := append_singleton_ne_nil rest name
    rw [List.cons_append]
    unfold follow
    by_cases hup : first = ".."
    · rw [if_pos hup, if_pos hup]
      exact ih _
    · have hdir : ¬ (rest = [] ∧ PathEnd.directory = .refused) := fun h => PathEnd.noConfusion h.2
      have hlast : ¬ (rest ++ [name] = [] ∧ pathEnd = .refused) := fun h => hmore h.1
      simp only [if_neg hup, if_neg hdir, if_neg hlast]
      by_cases hlen : PathText.longestName < first.utf8ByteSize
      · simp only [if_pos hlen]
        rfl
      · simp only [if_neg hlen]
        cases fs.entry? (dir ++ [first]) with
        | none => simp [hmore, LeadsOn]
        | some e =>
          cases e with
          | file content => simp [hmore, LeadsOn]
          | dir => exact ih _
          | link target => exact hlink _ _ _

/-- **A path with one more name leads to the directory first.** -/
theorem walk_append (fs : FileSystem) (slash pathEnd : PathEnd) (name : String) (links : Nat)
    (dir : Place) (names : List String) :
    fs.LeadsOn slash pathEnd name (fs.walk .directory links .directory dir names)
      (fs.walk slash links pathEnd dir (names ++ [name])) := by
  induction links generalizing dir names with
  | zero =>
    refine follow_append (fun dir => ⟨0, rfl⟩) (fun dir target rest => ?_) dir names
    rfl
  | succ links ih =>
    refine follow_append (fun dir => ⟨links + 1, rfl⟩) (fun dir target rest => ?_) dir names
    have hmore : rest ++ [name] ≠ [] := append_singleton_ne_nil rest name
    have hlast := ih (if PathText.isAbsolute target then [] else dir)
      (PathText.names target ++ rest)
    rw [List.append_assoc] at hlast
    simp only [hmore, false_and, if_false, reduceCtorEq, and_false]
    exact hlast

/-- One name leads to the place of that name, unless a link stands there. -/
theorem walk_single {name : String} {links : Nat} {dir : Place} (hup : name ≠ "..")
    (hlen : ¬ PathText.longestName < name.utf8ByteSize)
    (hlink : ∀ target, fs.entry? (dir ++ [name]) ≠ some (.link target)) :
    fs.walk slash links .free dir [name] = .ok (dir ++ [name]) := by
  have hfollow : ∀ onLink, fs.follow .free onLink dir [name] = .ok (dir ++ [name]) := by
    intro onLink
    refine (follow_cons_ok hup).mpr ⟨by simp, hlen, ?_⟩
    by_cases hd : fs.entry? (dir ++ [name]) = some .dir
    · exact .inr (.inl ⟨hd, rfl⟩)
    · refine .inl ⟨?_, rfl, rfl, rfl⟩
      intro hp
      rcases hp with hp | ⟨target, hp⟩
      · exact hd hp
      · exact hlink target hp
  cases links with
  | zero => exact hfollow _
  | succ links => exact hfollow _

/-! ## 4. Where a path can lead -/

/-- Everything but the root stands in a directory, and the working directory is one. -/
structure Rooted (fs : FileSystem) : Prop where
  parent : ∀ {dir : Place} {name : String} {e : Entry},
    fs.entry? (dir ++ [name]) = some e → fs.entry? dir = some .dir
  working : fs.entry? fs.workingDir = some .dir

/-- A computed test for `Rooted`. -/
def isRooted (fs : FileSystem) : Bool :=
  (fs.workingDir :: fs.entries.map (·.1.dropLast)).all fun p =>
    match fs.entry? p with
    | some .dir => true
    | _ => false

theorem rooted_of_isRooted (h : fs.isRooted = true) : fs.Rooted := by
  have hdir : ∀ p ∈ fs.workingDir :: fs.entries.map (·.1.dropLast), fs.entry? p = some .dir := by
    intro p hp
    have hp' := List.all_eq_true.mp h p hp
    split at hp'
    · assumption
    · cases hp'
  refine ⟨fun {dir name e} he => ?_, hdir _ List.mem_cons_self⟩
  unfold entry? at he
  rw [if_neg (append_singleton_ne_nil dir name)] at he
  obtain ⟨before, after, hsplit, _⟩ := List.lookup_eq_some_iff.mp he
  refine hdir dir (List.mem_cons_of_mem _ (List.mem_map.mpr ⟨(dir ++ [name], e), ?_, ?_⟩))
  · rw [hsplit]
    exact List.mem_append_right _ List.mem_cons_self
  · exact List.dropLast_concat

theorem Rooted.dropLast (h : fs.Rooted) {dir : Place} (hd : fs.entry? dir = some .dir) :
    fs.entry? dir.dropLast = some .dir := by
  rcases List.eq_nil_or_concat dir with e | ⟨above, name, e⟩
  · rw [e]
    rfl
  · rw [e, List.concat_eq_append] at hd
    rw [e, List.concat_eq_append, List.dropLast_concat]
    exact h.parent hd

theorem Rooted.startOf (h : fs.Rooted) (path : String) :
    fs.entry? (fs.startOf path) = some .dir := by
  unfold FileSystem.startOf
  split
  · rfl
  · exact h.working

/-- What a path can lead to: a directory, or, if its end is free, a name in a directory with a file
    or nothing there. -/
def IsEnd (fs : FileSystem) (pathEnd : PathEnd) (q : Place) : Prop :=
  fs.entry? q = some .dir ∨
    pathEnd = .free ∧ (∃ dir name, q = dir ++ [name] ∧ fs.entry? dir = some .dir) ∧ ¬ fs.Passage q

theorem follow_end (h : fs.Rooted)
    {onLink : Place → String → List String → Except IoError Place} {q : Place}
    (hlink : ∀ dir target rest, fs.entry? dir = some .dir → onLink dir target rest = .ok q →
      fs.IsEnd pathEnd q)
    (dir : Place) (names : List String) (hd : fs.entry? dir = some .dir)
    (hw : fs.follow pathEnd onLink dir names = .ok q) : fs.IsEnd pathEnd q := by
  induction names generalizing dir with
  | nil =>
    cases hw
    exact .inl hd
  | cons name rest ih =>
    by_cases hup : name = ".."
    · rw [follow, if_pos hup] at hw
      exact ih _ (h.dropLast hd) hw
    · obtain ⟨_, _, ⟨hp, _, hfree, e⟩ | ⟨he, hr⟩ | ⟨target, he, hr⟩⟩ := (follow_cons_ok hup).mp hw
      · rw [e]
        exact .inr ⟨hfree, ⟨dir, name, rfl, hd⟩, hp⟩
      · exact ih _ he hr
      · exact hlink _ _ _ hd hr

/-- **A path leads to a directory, or to a name in one where no link stands.** -/
theorem walk_end (h : fs.Rooted) {q : Place} (links : Nat) (dir : Place) (names : List String)
    (hd : fs.entry? dir = some .dir) (hw : fs.walk slash links pathEnd dir names = .ok q) :
    fs.IsEnd pathEnd q := by
  induction links generalizing pathEnd dir names with
  | zero => exact follow_end h (fun _ _ _ _ h => by cases h) dir names hd hw
  | succ links ih =>
    refine follow_end h (fun dir target rest hdir hl => ?_) dir names hd hw
    have hstart : fs.entry? (if PathText.isAbsolute target then [] else dir) = some .dir := by
      split
      · rfl
      · exact hdir
    have hend := ih _ _ hstart hl
    by_cases hfree : rest = [] ∧ pathEnd = .free
    · rcases hend with hdir | ⟨_, hname⟩
      · exact .inl hdir
      · exact .inr ⟨hfree.2, hname⟩
    · rwa [if_neg hfree] at hend

theorem walkToDir_dir (h : fs.Rooted) {start D : Place} {names : List String}
    (hstart : fs.entry? start = some .dir) (hw : fs.walkToDir start names = .ok D) :
    fs.entry? D = some .dir := by
  rcases walk_end h linkLimit start names hstart hw with hdir | ⟨hfree, _⟩
  · exact hdir
  · cases hfree

/-- **A path to a directory leads there as long as no directory and no link is changed.** -/
theorem walkToDir_of_passages (h : fs.Rooted) {start D : Place} {names : List String}
    (hstart : fs.entry? start = some .dir)
    (hsame : ∀ r, fs.Passage r → fs'.entry? r = fs.entry? r)
    (hw : fs.walkToDir start names = .ok D) : fs'.walkToDir start names = .ok D := by
  rw [← hw]
  refine walk_congr linkLimit start names fun r hr => hsame r ?_
  rcases walkWay_passage linkLimit start names hw r hr with e | hpass
  · rw [e]
    exact .inl (walkToDir_dir h hstart hw)
  · exact hpass

/-! ## 5. The same path with another end -/

/-- The first end is the second, or refuses more than asking for a directory. -/
def PathEnd.Looser (a b : PathEnd) : Prop := b = a ∨ a = .refused ∧ b = .directory

theorem PathEnd.ofPath_looser (path : String) :
    PathEnd.Looser (.ofPath .refused path) (.ofPath .directory path) := by
  unfold PathEnd.ofPath
  split
  · exact .inl rfl
  · split
    · exact .inr ⟨rfl, rfl⟩
    · exact .inl rfl

theorem follow_loosen {onLink onLink' : Place → String → List String → Except IoError Place}
    {a b : PathEnd} (hab : a.Looser b) {q : Place}
    (hlink : ∀ dir target rest, onLink dir target rest = .ok q → onLink' dir target rest = .ok q)
    (dir : Place) (names : List String) (h : fs.follow a onLink dir names = .ok q) :
    fs.follow b onLink' dir names = .ok q := by
  induction names generalizing dir with
  | nil => exact h
  | cons name rest ih =>
    by_cases hup : name = ".."
    · rw [follow, if_pos hup] at h ⊢
      exact ih _ h
    · obtain ⟨hrefused, hlen, hways⟩ := (follow_cons_ok hup).mp h
      have hb : ¬ (rest = [] ∧ b = .refused) := by
        rcases hab with e | ⟨_, eb⟩
        · rw [e]
          exact hrefused
        · simp [eb]
      refine (follow_cons_ok hup).mpr ⟨hb, hlen, ?_⟩
      rcases hways with ⟨hp, hrest, hfree, e⟩ | ⟨he, hr⟩ | ⟨target, he, hr⟩
      · have hbfree : b = .free := by
          rcases hab with eb | ⟨ea, _⟩
          · rw [eb, hfree]
          · exact absurd (ea.symm.trans hfree) PathEnd.noConfusion
        exact .inl ⟨hp, hrest, hbfree, e⟩
      · exact .inr (.inl ⟨he, ih _ hr⟩)
      · exact .inr (.inr ⟨target, he, hlink _ _ _ hr⟩)

/-- **What a path leads to for writing, it leads to for reading.** -/
theorem walk_loosen {a b : PathEnd} (hab : a.Looser b) {q : Place} (links : Nat) (dir : Place)
    (names : List String) (h : fs.walk .refused links a dir names = .ok q) :
    fs.walk .directory links b dir names = .ok q := by
  induction links generalizing a b dir names with
  | zero => exact follow_loosen hab (fun _ _ _ h => by cases h) dir names h
  | succ links ih =>
    refine follow_loosen hab (fun dir target rest hl => ih ?_ _ _ hl) dir names h
    rcases hab with e | ⟨ea, eb⟩
    · rw [e]
      split
      · exact PathEnd.ofPath_looser target
      · exact .inl rfl
    · simp [ea, eb, PathEnd.Looser]

theorem PathEnd.ofPath_ne_refused (path : String) : PathEnd.ofPath .directory path ≠ .refused := by
  unfold PathEnd.ofPath
  split
  · exact PathEnd.noConfusion
  · split <;> exact PathEnd.noConfusion

theorem follow_ofDir (hend : pathEnd ≠ .refused)
    {onDir onLink : Place → String → List String → Except IoError Place} {q : Place}
    (hlink : ∀ dir target rest, onDir dir target rest = .ok q → onLink dir target rest = .ok q)
    (dir : Place) (names : List String) (h : fs.follow .directory onDir dir names = .ok q) :
    fs.follow pathEnd onLink dir names = .ok q := by
  induction names generalizing dir with
  | nil => exact h
  | cons name rest ih =>
    by_cases hup : name = ".."
    · rw [follow, if_pos hup] at h ⊢
      exact ih _ h
    · obtain ⟨_, hlen, ⟨_, _, hfree, _⟩ | ⟨he, hr⟩ | ⟨target, he, hr⟩⟩ := (follow_cons_ok hup).mp h
      · cases hfree
      · exact (follow_cons_ok hup).mpr ⟨fun h => hend h.2, hlen, .inr (.inl ⟨he, ih _ hr⟩)⟩
      · exact (follow_cons_ok hup).mpr
          ⟨fun h => hend h.2, hlen, .inr (.inr ⟨target, he, hlink _ _ _ hr⟩)⟩

/-- A path that leads to a directory leads there also if it need not be one. -/
theorem walk_ofDir (hend : pathEnd ≠ .refused) {q : Place} (links : Nat) (dir : Place)
    (names : List String) (h : fs.walk .directory links .directory dir names = .ok q) :
    fs.walk .directory links pathEnd dir names = .ok q := by
  induction links generalizing pathEnd dir names with
  | zero => exact follow_ofDir hend (fun _ _ _ h => by cases h) dir names h
  | succ links ih =>
    refine follow_ofDir hend (fun dir target rest hl => ?_) dir names h
    simp only [reduceCtorEq, and_false, if_false] at hl
    refine ih ?_ _ _ hl
    split
    · exact PathEnd.ofPath_ne_refused target
    · exact hend

theorem follow_toDir
    {onDir onLink : Place → String → List String → Except IoError Place} {q : Place}
    (hq : fs.entry? q = some .dir)
    (hlink : ∀ dir target rest, onLink dir target rest = .ok q → onDir dir target rest = .ok q)
    (dir : Place) (names : List String) (h : fs.follow pathEnd onLink dir names = .ok q) :
    fs.follow .directory onDir dir names = .ok q := by
  induction names generalizing dir with
  | nil => exact h
  | cons name rest ih =>
    by_cases hup : name = ".."
    · rw [follow, if_pos hup] at h ⊢
      exact ih _ h
    · have hdir : ¬ (rest = [] ∧ PathEnd.directory = .refused) := fun h => PathEnd.noConfusion h.2
      obtain ⟨_, hlen, ⟨hp, _, _, e⟩ | ⟨he, hr⟩ | ⟨target, he, hr⟩⟩ := (follow_cons_ok hup).mp h
      · rw [e] at hq
        exact absurd (.inl hq) hp
      · exact (follow_cons_ok hup).mpr ⟨hdir, hlen, .inr (.inl ⟨he, ih _ hr⟩)⟩
      · exact (follow_cons_ok hup).mpr ⟨hdir, hlen, .inr (.inr ⟨target, he, hlink _ _ _ hr⟩)⟩

/-- **A path that leads to a directory may be asked for one.** -/
theorem walk_toDir {q : Place} (hq : fs.entry? q = some .dir) (links : Nat) (dir : Place)
    (names : List String) (h : fs.walk .directory links pathEnd dir names = .ok q) :
    fs.walk .directory links .directory dir names = .ok q := by
  induction links generalizing pathEnd dir names with
  | zero => exact follow_toDir hq (fun _ _ _ h => by cases h) dir names h
  | succ links ih =>
    refine follow_toDir hq (fun dir target rest hl => ?_) dir names h
    simp only [reduceCtorEq, and_false, if_false]
    exact ih _ _ hl

end

end Osclan.FileSystem
