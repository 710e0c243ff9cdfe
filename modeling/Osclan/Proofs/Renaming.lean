/-
  File:      Osclan/Proofs/Renaming.lean
  Subject:   Identifiers, and what it means to rename them.

  A renaming maps identifiers to identifiers, no two to one, and keeps the names that the check
  treats by their spelling. Names stand in more places than declarations: in the keys of tables, in
  written paths and in the texts of warnings. Each of these forms gives the name back that it was
  made from, so a renaming acts on all of them.

  * `Name.IsIdent`, `Name.InSource` -- the names a source can have;
  * `Renaming`, `Name.rename` -- a renaming, and its action on a name;
  * `Name.renameKey`, `Name.renamePath`, `Name.renameText` -- keys, paths and texts;
  * `Node.rename`, `Scope.rename`, `Fault.rename`, `Analysis.rename` -- all data of the check.
-/
import Osclan.Proofs.SourceNames
import Osclan.Proofs.Lookup

namespace Osclan

/-! ## 1. Identifiers -/

/-- The text is an identifier, as the lexer makes them. -/
def Name.IsIdent (name : String) : Prop := ReadsAs name .ident name

instance (name : String) : Decidable (Name.IsIdent name) := inferInstanceAs (Decidable (_ = _))

/-- The name is one a source can have: an identifier, or the word `struct` for a type. -/
def Name.InSource (name : String) : Prop := name = "struct" ∨ Name.IsIdent name

namespace Name

variable {name : String}

/-- An identifier begins with a letter and goes on with letters, digits and hyphens. -/
theorem IsIdent.shape (h : IsIdent name) : ∃ c cs, name.toList = c :: cs ∧
    Text.isAlphabetic c = true ∧ ∀ d ∈ cs, isIdentChar d = true := by
  obtain ⟨c, cs, hl, hh⟩ := readsAs_iff.mp h
  refine ⟨c, cs, hl, ?_⟩
  have hi := head_is c cs
  rw [hh] at hi
  -- only an identifier has this kind, and it takes the whole text
  generalize hk : TokenKind.ident = kind at hi
  generalize hlen : cs.length = more at hi
  cases hi with
  | text => cases hk
  | reserved ho hr =>
    have hall : ∀ r ∈ reservedWords, TokenKind.ident ≠ r.kind := by decide
    exact absurd hk (hall _ (reserved?_eq_some hr).1)
  | @ident _ tail rest ho hr ha hrun =>
    rw [List.length_append] at hlen
    obtain rfl : rest = [] := List.length_eq_zero_iff.mp (by omega)
    rw [List.append_nil]
    exact ⟨ha, hrun.all⟩
  | number => cases hk
  | symbol ho hr ha hd hs =>
    have hall : ∀ r ∈ symbols, TokenKind.ident ≠ r.2 := by decide
    exact absurd hk (hall _ (mem_symbols_of_symbolKind? hs))

/-- A character that may stand nowhere in an identifier does not. -/
theorem IsIdent.not_mem (h : IsIdent name) {d : Char} (hfirst : Text.isAlphabetic d = false)
    (hrest : isIdentChar d = false) : d ∉ name.toList := by
  obtain ⟨c, cs, hl, ha, hcs⟩ := h.shape
  rw [hl]
  intro hm
  rcases List.mem_cons.mp hm with rfl | hm
  · rw [hfirst] at ha
    cases ha
  · rw [hcs d hm] at hrest
    cases hrest

theorem InSource.not_mem (h : InSource name) {d : Char} (hd : d = '_' ∨ d = ':' ∨ d = '(') :
    d ∉ name.toList := by
  have hchars : Text.isAlphabetic d = false ∧ isIdentChar d = false ∧ d ∉ "struct".toList := by
    rcases hd with rfl | rfl | rfl <;> decide +kernel
  rcases h with rfl | h
  · exact hchars.2.2
  · exact h.not_mem hchars.1 hchars.2.1

theorem InSource.plain (h : InSource name) : Name.Plain name := h.not_mem (.inl rfl)

theorem InSource.head_not_digit (h : InSource name) :
    name.toList.head?.any Char.isDigit = false := by
  rcases h with rfl | h
  · decide
  · obtain ⟨c, cs, hl, ha, _⟩ := h.shape
    rw [hl, List.head?_cons, Option.any_some]
    by_contra hd
    rw [isAlphabetic_of_isDigit (eq_true_of_ne_false hd)] at ha
    cases ha

theorem InSource.ne_empty (h : InSource name) : name ≠ "" := by
  rintro rfl
  rcases h with h | h
  · exact absurd h (by decide)
  · exact absurd h (by decide)

/-- The names of the types every program knows are identifiers. -/
theorem isIdent_builtin (h : name ∈ Ty.builtins.map Ty.name) : IsIdent name := by
  have hall : ∀ w ∈ Ty.builtins.map Ty.name, IsIdent w := by decide +kernel
  exact hall name h

end Name

/-- The value of the word `struct` is the word. -/
theorem value_of_struct {c : Char} {cs : List Char} {value : String} {more : Nat}
    (h : head c cs = .token .struct value more) : value = "struct" := by
  have hi := head_is c cs
  rw [h] at hi
  generalize hk : TokenKind.struct = kind at hi
  cases hi with
  | text => cases hk
  | reserved ho hr =>
    have hall : ∀ r ∈ reservedWords, TokenKind.struct = r.kind → r.value = "struct" := by decide
    exact hall _ (reserved?_eq_some hr).1 hk
  | ident => cases hk
  | number => cases hk
  | symbol ho hr ha hd hs =>
    have hall : ∀ r ∈ symbols, TokenKind.struct ≠ r.2 := by decide
    exact absurd hk (hall _ (mem_symbols_of_symbolKind? hs))

/-- The names among the tokens of a source are names a source can have. -/
theorem Token.Spelled.inSource {t : Token} (h : t.Spelled) : t.Names Name.InSource := by
  intro hk
  rcases t with ⟨kind, value, pos⟩
  have hr : ReadsAs (spelling kind value) kind value := h
  rcases hk with hk | hk
  · obtain rfl : kind = .ident := hk
    exact .inr hr
  · obtain rfl : kind = .struct := hk
    obtain ⟨c, cs, _, hh⟩ := readsAs_iff.mp hr
    exact .inl (value_of_struct hh)

/-! ## 2. Renaming names -/

/-- The map renames identifiers: it makes identifiers of them, tells them apart, and keeps those
    that the check knows by their spelling. -/
structure Renaming (r : String → String) : Prop where
  ident : ∀ {x : String}, Name.IsIdent x → Name.IsIdent (r x)
  inj : ∀ {x y : String}, Name.IsIdent x → Name.IsIdent y → r x = r y → x = y
  builtin : ∀ {x : String}, x ∈ Ty.builtins.map Ty.name → r x = x
  word : ∀ {x : String}, isVoid x = true ∨ Text.isAsciiWord "struct" x = true → r x = x

namespace Name

variable (r : String → String)

/-- The name after a renaming. What has no name has none after it. -/
def rename (name : String) : String := if name = "" then "" else r name

/-- The key of the renamed name. -/
def renameKey (key : String) : String :=
  match demangle? key with
  | some name => mangle (rename r name)
  | none => key

/-- The path with each segment renamed. Between the two colons of `::` stands an empty segment,
    which stays. -/
def renamePath (path : String) : String :=
  String.ofList ([':'].intercalate
    ((path.toList.splitOn ':').map fun segment => (rename r (String.ofList segment)).toList))

/-- The text of a type, as messages write it, with the name before the size renamed. -/
def renameText (text : String) : String :=
  rename r (String.ofList (text.toList.takeWhile (· ≠ '('))) ++
    String.ofList (text.toList.dropWhile (· ≠ '('))

variable {r} {name : String}

theorem rename_of_inSource (h : InSource name) : rename r name = r name := if_neg h.ne_empty

theorem InSource.rename (h : InSource name) (hr : Renaming r) : InSource (Name.rename r name) := by
  rw [rename_of_inSource h]
  rcases h with rfl | h
  · exact .inl (hr.word (.inr (by decide)))
  · exact .inr (hr.ident h)

/-- **A key gives back the name it was made from.** -/
theorem demangle?_mangle (hu : Name.Plain name) (hd : name.toList.head?.any Char.isDigit = false) :
    demangle? (mangle name) = some name := by
  -- the name does not begin with a digit, so the count ends where it was written to end
  have hrun : Run Char.isDigit (Nat.toDigits 10 name.toList.length)
      (replaceChar '-' '_' name.toList) := by
    refine ⟨fun d hm => Nat.isDigit_of_mem_toDigits (by decide) (by decide) hm, ?_⟩
    rw [replaceChar, List.head?_map]
    cases hc : name.toList.head? with
    | none => rfl
    | some c =>
      rw [hc, Option.any_some] at hd
      rw [Option.map_some, Option.any_some]
      split
      · rfl
      · exact hd
  have hcount : Nat.toDigits 10 name.toList.length ≠ [] ∧
      Nat.ofDigitChars 10 (Nat.toDigits 10 name.toList.length) 0 =
        (replaceChar '-' '_' name.toList).length := by
    rw [Nat.ofDigitChars_ten_toDigits, length_replaceChar]
    exact ⟨List.ne_nil_of_length_pos Nat.length_toDigits_pos, rfl⟩
  unfold demangle?
  rw [toList_mangle]
  simp only [hrun.takeWhile_eq, hrun.dropWhile_eq, if_pos hcount]
  rw [replaceChar_replaceChar hu, String.ofList_toList]

theorem renameKey_mangle (h : name = "" ∨ InSource name) :
    renameKey r (mangle name) = mangle (rename r name) := by
  have hd : demangle? (mangle name) = some name := by
    rcases h with rfl | h
    · exact demangle?_mangle (by decide) rfl
    · exact demangle?_mangle h.plain h.head_not_digit
  rw [renameKey, hd]

/-- A name alone is a path of one segment. -/
theorem renamePath_of_inSource (h : InSource name) : renamePath r name = rename r name := by
  have hc : ':' ∉ name.toList := h.not_mem (.inr (.inl rfl))
  rw [renamePath, List.splitOn_eq_singleton hc, List.map_singleton, List.intercalate_singleton,
    String.ofList_toList, String.ofList_toList]

/-- One more segment at the end of a joined path. -/
theorem intercalate_snoc (x : List Char) : ∀ {parts : List (List Char)}, parts ≠ [] →
    [':'].intercalate (parts ++ [[], x]) = [':'].intercalate parts ++ ':' :: ':' :: x
  | [], h => absurd rfl h
  | [part], _ => by
    rw [List.singleton_append, List.intercalate_cons_cons, List.intercalate_cons_cons,
      List.intercalate_singleton, List.intercalate_singleton, List.append_assoc]
    rfl
  | part :: next :: rest, _ => by
    have ih := intercalate_snoc x (List.cons_ne_nil next rest)
    rw [List.cons_append] at ih
    rw [List.cons_append, List.cons_append, List.intercalate_cons_cons, ih,
      List.intercalate_cons_cons, List.append_assoc (part ++ [':'])]

/-- **Paths are renamed segment by segment.** -/
theorem renamePath_joinPath (path : String) (h : InSource name) :
    renamePath r (joinPath path name) = joinPath (renamePath r path) (rename r name) := by
  have hc : ':' ∉ name.toList := h.not_mem (.inr (.inl rfl))
  have hlist : (joinPath path name).toList = path.toList ++ ':' :: ([] ++ ':' :: name.toList) := by
    rw [joinPath, String.toList_append, String.toList_append, List.append_assoc]
    rfl
  have hsplit : (joinPath path name).toList.splitOn ':' =
      path.toList.splitOn ':' ++ [[], name.toList] := by
    rw [hlist, List.splitOn_append_cons_self, List.splitOn_append_cons_self, List.splitOn_nil,
      List.splitOn_eq_singleton hc]
    rfl
  have hempty : (rename r (String.ofList [])).toList = [] := rfl
  have hne : (path.toList.splitOn ':').map
      (fun segment => (rename r (String.ofList segment)).toList) ≠ [] := by
    rw [ne_eq, List.map_eq_nil_iff]
    exact List.splitOn_ne_nil _ _
  apply String.toList_inj.mp
  rw [renamePath, hsplit, List.map_append, List.map_cons, List.map_singleton, hempty,
    String.ofList_toList, intercalate_snoc _ hne, String.toList_ofList, joinPath,
    String.toList_append, String.toList_append, renamePath, String.toList_ofList,
    List.append_assoc]
  rfl

theorem renameText_textAs {t : Ty} (h : '(' ∉ t.name.toList) (size : UInt64) :
    renameText r (t.textAs size) = ({ t with name := rename r t.name } : Ty).textAs size := by
  have hlist : (t.textAs size).toList =
      t.name.toList ++ '(' :: (size.toNat.repr.toList ++ [')']) := by
    simp only [Ty.textAs, String.toList_append, List.append_assoc]
    rfl
  have hrun : Run (· ≠ '(') t.name.toList ('(' :: (size.toNat.repr.toList ++ [')'])) := by
    exact ⟨fun d hd => decide_eq_true fun e => h (e ▸ hd), rfl⟩
  apply String.toList_inj.mp
  rw [renameText, hlist, hrun.takeWhile_eq, hrun.dropWhile_eq, String.ofList_toList]
  simp only [Ty.textAs, String.toList_append, String.toList_ofList, List.append_assoc]
  rfl

end Name

/-! ## 3. Renaming the data of the check -/

section Data

variable (r : String → String)

/-- The label with its names renamed; literals, directives and modifiers stay. -/
def Label.rename (l : Label) : Label :=
  { l with
    value := if l.naming then Name.rename r l.value else l.value
    typeName := l.typeName.map (Name.rename r)
    path := l.path.map (Name.renamePath r) }

mutual

/-- The tree with the names in its labels renamed. -/
def Node.rename : Node → Node
  | ⟨l, children⟩ => ⟨l.rename r, Node.renameAll children⟩

/-- Some trees, renamed. -/
def Node.renameAll : List Node → List Node
  | [] => []
  | n :: rest => n.rename :: Node.renameAll rest

end

mutual

/-- The type with its name and the keys of its fields renamed. -/
def Ty.rename : Ty → Ty
  | ⟨name, size, fields⟩ => ⟨Name.rename r name, size, Ty.renameFields fields⟩

/-- The fields of a type, renamed. -/
def Ty.renameFields : List (String × Ty) → List (String × Ty)
  | [] => []
  | (key, type) :: rest => (Name.renameKey r key, type.rename) :: Ty.renameFields rest

end

/-- The variable with its name and its type renamed. -/
def Variable.rename (v : Variable) : Variable :=
  { v with name := Name.rename r v.name, type := v.type.rename r }

/-- The procedure with its name, its result and its parameters renamed. -/
def Procedure.rename (p : Procedure) : Procedure :=
  { name := Name.rename r p.name
    returns := p.returns.map (Ty.rename r)
    params := p.params.map (Variable.rename r) }

/-- The table with its keys renamed and its values changed. -/
def Table.rename {α : Type} (f : α → α) (t : Table α) : Table α :=
  t.map fun entry => (Name.renameKey r entry.1, f entry.2)

/-- The scope with the keys and the declarations of its tables renamed. -/
def Scope.rename (sc : Scope) : Scope :=
  { depth := sc.depth
    vars := sc.vars.rename r (Variable.rename r)
    types := sc.types.rename r (Ty.rename r)
    procs := sc.procs.rename r (Procedure.rename r) }

/-- The source of a store that is warned of is a literal, so only the place is renamed. -/
def Warning.rename (w : Warning) : Warning := { w with dest := Name.renameText r w.dest }

/-- The same sort of thing, under the new name. -/
def Redeclared.rename (w : Redeclared) : Redeclared := { w with name := Name.rename r w.name }

/-- The fault of the renamed name. What is said of the shape of a tree stays. -/
def Fault.rename : Fault → Fault
  | .unresolvedVariable name => .unresolvedVariable (Name.rename r name)
  | .unresolvedType name => .unresolvedType (Name.rename r name)
  | .unresolvedPath path => .unresolvedPath (Name.renamePath r path)
  | .unresolvedProcedure name => .unresolvedProcedure (Name.rename r name)
  | .redeclared what => .redeclared (what.rename r)
  | .illegalAssignment dest source => .illegalAssignment (Name.renameText r dest) source
  | .malformedParameter name => .malformedParameter (Name.rename r name)
  | .malformedNode kind problem => .malformedNode kind problem
  | .argumentCount name expected got => .argumentCount (Name.rename r name) expected got
  | .unreachableCode name => .unreachableCode (Name.rename r name)
  | .unexpectedReturnValue name => .unexpectedReturnValue (Name.rename r name)
  | .missingReturnValue name => .missingReturnValue (Name.rename r name)

/-- A stop at a size names nothing. -/
def Abort.rename : Abort → Abort
  | .fault f => .fault (f.rename r)
  | .sizeOverflow => .sizeOverflow

/-- All that a run hands over, renamed. -/
def Analysis.rename (a : Analysis) : Analysis :=
  { tree := a.tree.rename r
    warnings := a.warnings.map (Warning.rename r)
    scopes := a.scopes.map (Scope.rename r)
    globals := a.globals.rename r }

end Data

end Osclan
