/-
  File:      Osclan/Proofs/RecordedSize.lean
  Subject:   The size that is recorded for a variable, read off the source.

  A size can come from four places: from the leaves of a composite, from the annotation, from the
  literal that a variable starts with, or from nowhere. The table of types has no elementary type
  with a size of its own, so the size of an elementary variable never comes from its type.

  * `VarDecl.RecordedAs` -- the size, and the type, that a variable is recorded with;
  * `Founded.recordedAs` -- a variable that is meant is recorded so;
  * `NumberIn`, `tokenize_numberIn` -- the numbers of a source;
  * `ofTokens_writtenIn` -- what is known of the variables of a source;
  * **`recorded_sizes`** -- the variables of an accepted source.
-/
import Mathlib
import Osclan.Proofs.CompositeSize
import Osclan.Proofs.DeclaredVariables

namespace Osclan

/-! ## 1. What is recorded -/

namespace VarDecl

/-- The number of bytes that a variable starts with: one for each digit of a number, those of a text
    in UTF-8, and none without a literal. -/
def startLength (d : VarDecl) : Nat :=
  match d.value with
  | some (.number digits) => digits.length
  | some (.text content) => content.utf8ByteSize
  | _ => 0

/-- The size of a variable whose type is elementary: that of the annotation unless it is 0, else the
    length of what the variable starts with. -/
def elementarySize (d : VarDecl) : UInt64 :=
  if d.type.size.getD 0 ≠ 0 then d.type.size.getD 0 else UInt64.ofNat d.startLength

/-- **What is recorded of a variable**: the name and the fields of the type that it is written with,
    and as its size the sum over the leaves of the type if it is composite, else the elementary
    size. -/
structure RecordedAs (types : Table Ty) (d : VarDecl) (v : Variable) : Prop where
  name : v.name = d.name
  typeName : v.type.name = d.type.name
  size : ∃ base, types.find? (Name.mangle d.type.name) = some base ∧ v.type.fields = base.fields ∧
    (base.isComposite = true → v.size.toNat = base.total) ∧
    (base.isComposite = false → v.size = d.elementarySize)

/-- If the variable starts with a number, the number has the property. -/
def Numbered (P : String → Prop) (d : VarDecl) : Prop :=
  ∀ digits, d.value = some (.number digits) → P digits

end VarDecl

/-! ## 2. Sizes -/

theorem utf8Size_of_isDigit {c : Char} (h : c.isDigit = true) : c.utf8Size = 1 := by
  obtain ⟨_, hhigh⟩ := toNat_of_isDigit h
  rw [Char.utf8Size_eq_one_iff]
  exact UInt32.le_iff_toNat_le.mpr (by simpa using Nat.le_trans hhigh (by decide))

/-- A digit is one byte. -/
theorem utf8ByteSize_of_digits {digits : String} (h : ∀ d ∈ digits.toList, d.isDigit = true) :
    digits.utf8ByteSize = digits.length := by
  rw [← String.utf8Len_toList, ← String.length_toList]
  generalize digits.toList = cs at h
  induction cs with
  | nil => rfl
  | cons c cs ih =>
    obtain ⟨hc, hcs⟩ := List.forall_mem_cons.mp h
    rw [String.utf8Len_cons, List.length_cons, ih hcs, utf8Size_of_isDigit hc]

/-- The length of the literal is that of what the variable starts with. -/
theorem VarDecl.start_eq (d : VarDecl)
    (h : d.Numbered fun digits => ∀ c ∈ digits.toList, c.isDigit = true) :
    d.binding.start.getD 0 = UInt64.ofNat d.startLength := by
  rcases d with ⟨type, name, value⟩
  cases value with
  | none => rfl
  | some value =>
    cases value with
    | number digits =>
      show UInt64.ofNat digits.utf8ByteSize = UInt64.ofNat digits.length
      rw [utf8ByteSize_of_digits (h digits rfl)]
    | _ => rfl

namespace Ty

theorem startingAt_name (t : Ty) (start : Option UInt64) : (t.startingAt start).name = t.name := by
  unfold startingAt
  split
  · split <;> rfl
  · rfl

theorem startingAt_fields (t : Ty) (start : Option UInt64) :
    (t.startingAt start).fields = t.fields := by
  unfold startingAt
  split
  · split <;> rfl
  · rfl

/-- An elementary type takes the length of the literal where it has no size. -/
theorem startingAt_size {t : Ty} (h : t.isComposite = false) (start : Option UInt64) :
    (t.startingAt start).size = if t.size ≠ 0 then t.size else start.getD 0 := by
  unfold startingAt
  cases start with
  | none =>
    by_cases hz : t.size = 0
    · simp [hz]
    · simp [hz]
  | some length =>
    by_cases hz : t.size = 0
    · simp [h, hz]
    · simp [hz]

theorem isComposite_eq_false_iff {t : Ty} : t.isComposite = false ↔ t.fields = [] := by
  simp [isComposite]

theorem leafSum_of_elementary {t : Ty} (h : t.isComposite = false) : t.leafSum = t.size.toNat := by
  rcases t with ⟨name, size, fields⟩
  obtain rfl := isComposite_eq_false_iff.mp h
  rw [leafSum]

/-- The leaves of a composite are those of its fields, whatever name and size it carries. -/
theorem leafSum_of_composite {t t' : Ty} (h : t.isComposite = true) (hf : t'.fields = t.fields) :
    t'.leafSum = t.total := by
  rcases t with ⟨name, size, fields⟩
  rcases t' with ⟨name', size', fields'⟩
  obtain rfl : fields' = fields := hf
  cases fields' with
  | nil => cases h
  | cons f fs => rw [leafSum_eq_total, total_of_cons, total_of_cons]

end Ty

/-- What is found in a founded table has no size of its own, and the key of its name. -/
theorem Founded.found {items : Item → Prop} {types : Table Ty} (hf : Founded items types)
    {key : String} {base : Ty} (h : types.find? key = some base) :
    key = Name.mangle base.name ∧ base.size = 0 ∧ (base ∈ Ty.builtins ∨
      ∃ mods fields, items (.declaration mods (.record base.name fields))) := by
  obtain ⟨i, hi⟩ := List.getElem?_of_mem (Table.mem_of_find? h)
  obtain ⟨hkey, _, hsize, hsource⟩ := hf i _ hi
  refine ⟨hkey, hsize, hsource.imp id ?_⟩
  intro hrecord
  obtain ⟨mods, fields, hitem, _⟩ := hrecord
  exact ⟨mods, fields, hitem⟩

/-- **A variable that is meant is recorded as its declaration says.** The size of the type in the
    table is 0, so that of an elementary variable comes from the annotation or the literal. -/
theorem Founded.recordedAs {items : Item → Prop} {types : Table Ty} (hf : Founded items types)
    (hitems : ∀ mods name fields, items (.declaration mods (.record name fields)) → Name.Plain name)
    {d : VarDecl} {v : Variable} (hname : Name.Plain d.type.name)
    (hstart : d.Numbered fun digits => ∀ c ∈ digits.toList, c.isDigit = true)
    (h : d.binding.Means types v) : d.RecordedAs types v := by
  obtain ⟨t, ⟨base, hbase, rfl⟩, hv⟩ := h.type
  obtain ⟨hkey, hzero, hsource⟩ := hf.found hbase
  have hplain : Name.Plain base.name := by
    rcases hsource with hb | ⟨mods, fields, hitem⟩
    · have hall : ∀ t ∈ Ty.builtins, Name.Plain t.name := by decide
      exact hall base hb
    · exact hitems mods base.name fields hitem
  have hfields : v.type.fields = base.fields := by rw [hv, Ty.startingAt_fields]
  have hsize := h.size
  refine ⟨h.name, ?_, base, hbase, hfields, fun hc => ?_, fun he => ?_⟩
  · rw [hv, Ty.startingAt_name]
    exact hplain.mangle_inj hname hkey.symm
  · rw [hsize, Ty.leafSum_of_composite hc hfields]
  · have helem : v.type.isComposite = false := by
      rw [Ty.isComposite_eq_false_iff, hfields]
      exact Ty.isComposite_eq_false_iff.mp he
    have hwritten : Ty.isComposite { base with size := d.type.size.getD base.size } = false := he
    rw [Ty.leafSum_of_elementary helem] at hsize
    rw [UInt64.toNat_inj.mp hsize, hv]
    refine (Ty.startingAt_size hwritten _).trans ?_
    rw [d.start_eq hstart, hzero]
    rfl

/-! ## 3. Numbers in the source -/

/-- **A number in a source**: all the digits that stand at a place, or the one digit of a word that
    stands for a number, in capital or small letters. -/
inductive NumberIn (source : List Char) : String → Prop where
  | written {before digits after : List Char} : source = before ++ (digits ++ after) →
      digits ≠ [] → Run Char.isDigit digits after → NumberIn source (String.ofList digits)
  | word {before word after : List Char} {d : Char} : source = before ++ (word ++ after) →
      String.ofList (word.map Text.lower) ∈ ["ok", "true", "false"] → d.isDigit = true →
      NumberIn source (String.singleton d)

theorem NumberIn.isDigit {source : List Char} {digits : String} (h : NumberIn source digits) :
    ∀ c ∈ digits.toList, c.isDigit = true := by
  cases h with
  | written _ _ hrun =>
    rw [String.toList_ofList]
    exact hrun.all
  | word _ _ hd =>
    rw [String.toList_singleton]
    exact List.forall_mem_singleton.mpr hd

/-- The value of a number token is a number in the source. -/
theorem tokenize_numberIn {file source : String} {ts : List Token}
    (h : tokenize file source = .ok ts) {t : Token} (ht : t ∈ ts) (hk : t.kind = .number) :
    NumberIn source.toList t.value := by
  have heof : t.kind ≠ .eof := by
    rw [hk]
    decide
  obtain ⟨front, c, rest, more, hcs, _, hh⟩ := lex_token h ht heof
  have hi := head_is c rest
  rw [hh] at hi
  generalize t.kind = kind at hk hi
  generalize t.value = value at hi
  rw [hcs]
  cases hi with
  | text => cases hk
  | @reserved _ _ row ho hr =>
    have hall : ∀ r ∈ reservedWords, r.kind = .number →
        r.text ∈ ["ok", "true", "false"] ∧ (r.value = "0" ∨ r.value = "1") := by decide
    obtain ⟨htext, hvalue⟩ := hall row (reserved?_eq_some hr).1 hk
    have hcut : front ++ c :: rest = front ++ ((c :: rest.take (row.text.length - 1)) ++
        rest.drop (row.text.length - 1)) := by
      rw [List.cons_append, List.take_append_drop]
    have hword : String.ofList ((c :: rest.take (row.text.length - 1)).map Text.lower) ∈
        ["ok", "true", "false"] := by
      rw [map_lower_of_reserved? hr, String.ofList_toList]
      exact htext
    rcases hvalue with hv | hv
    · rw [hv]
      exact .word (d := '0') hcut hword rfl
    · rw [hv]
      exact .word (d := '1') hcut hword rfl
  | ident => cases hk
  | @number _ tail after ho hr ha hd hrun =>
    have hcut : front ++ c :: (tail ++ after) = front ++ ((c :: tail) ++ after) := rfl
    refine .written hcut (List.cons_ne_nil c tail) ⟨?_, hrun.ends⟩
    exact List.forall_mem_cons.mpr ⟨hd, hrun.all⟩
  | symbol ho hr ha hd hs =>
    have hall : ∀ r ∈ symbols, r.2 ≠ .number := by decide
    exact absurd hk (hall _ (mem_symbols_of_symbolKind? hs))

section Derivations

variable {P : String → Prop} {pre : List Token} {n : Node}

/-- If the token is a number, it has the property. -/
def Token.Numbers (P : String → Prop) (t : Token) : Prop := t.kind = .number → P t.value

/-- If the node is a declaration that starts with a number, the number has the property. -/
def Node.Numbered (P : String → Prop) (n : Node) : Prop :=
  n.kind = .declaration → ∀ v ∈ n.children, v.kind = .scalar → v.label.typeName = some "int" →
    P v.value

theorem FormsValue.numbers (h : FormsValue pre n) :
    OfTokens (Token.Numbers P) (fun n => n.kind = .scalar → n.label.typeName = some "int" →
      P n.value) pre n := by
  intro ht hk htype
  cases h with
  | number hnumber => exact ht _ List.mem_cons_self hnumber
  | text => exact absurd (Option.some.inj htype) (by decide : "string" ≠ "int")
  | path hp => cases hp with | mk => cases hk
  | call hc => cases hc with | mk => cases hk
  | allocate => cases hk
  | pointer => cases hk
  | anon => cases hk

theorem FormsBinding.isNumbered (h : FormsBinding pre n) :
    OfTokens (Token.Numbers P) (Node.Numbered P) pre n := by
  intro ht _
  cases h with
  | @mk tpre post ty name c value htype hname hc hv =>
    refine List.forall_mem_cons.mpr ⟨fun hk => ?_, List.forall_mem_singleton.mpr ?_⟩
    · cases hk
    · exact hv.numbers fun t hm => ht t (by simp [hm])

theorem FormsStatement.isNumbered (h : FormsStatement pre n) :
    OfTokens (Token.Numbers P) (Node.Numbered P) pre n := by
  intro ht
  cases h with
  | declare _ hb => exact hb.isNumbered (List.forall_mem_cons.mp ht).2
  | call hc =>
    cases hc with
    | mk => exact fun hk => NodeKind.noConfusion hk
  | _ => exact fun hk => NodeKind.noConfusion hk

theorem FormsBody.isNumbered {ns : List Node} (h : FormsBody pre ns)
    (ht : ∀ t ∈ pre, t.Numbers P) : ∀ n ∈ ns, n.Numbered P := by
  have hmany : ∀ {pre : List Token} {ns : List Node}, Many FormsStatement pre ns →
      (∀ t ∈ pre, t.Numbers P) → ∀ n ∈ ns, n.Numbered P :=
    fun hm => (hm.imp fun _ _ _ hs => hs.isNumbered).ofTokens
  cases h with
  | plain hm => exact hmany hm ht
  | bareRet hm hr =>
    refine List.forall_mem_append.mpr ⟨hmany hm (List.forall_mem_append.mp ht).1, ?_⟩
    exact List.forall_mem_singleton.mpr fun hk => NodeKind.noConfusion hk

/-- The declarations that an item is, or has in its body. -/
def Node.NumberedItem (P : String → Prop) (n : Node) : Prop :=
  n.Numbered P ∧ (n.kind = .procedure → ∀ m ∈ n.children, m.Numbered P)

theorem FormsDeclared.isNumbered (h : FormsDeclared pre n) :
    OfTokens (Token.Numbers P) (Node.NumberedItem P) pre n := by
  intro ht
  cases h with
  | record => exact ⟨fun hk => NodeKind.noConfusion hk, fun hk => NodeKind.noConfusion hk⟩
  | @procedure tpre params body ty c name l r e ps ns htype hc hname hl hp hr hb he =>
    refine ⟨fun hk => NodeKind.noConfusion hk, fun _ => List.forall_mem_cons.mpr ⟨?_, ?_⟩⟩
    · cases htype
      exact fun hk => NodeKind.noConfusion hk
    · refine List.forall_mem_append.mpr ⟨hp.forall_mem fun _ _ hparam => ?_, ?_⟩
      · cases hparam
        exact fun hk => NodeKind.noConfusion hk
      · exact hb.isNumbered fun t hm => ht t (by simp [hm])
  | «global» hb =>
    refine ⟨hb.isNumbered ht, fun hk => ?_⟩
    cases hb
    cases hk

theorem FormsItem.isNumbered (h : FormsItem pre n) :
    OfTokens (Token.Numbers P) (Node.NumberedItem P) pre n := by
  intro ht
  cases h with
  | directive => exact ⟨fun hk => NodeKind.noConfusion hk, fun hk => NodeKind.noConfusion hk⟩
  | @declaration d ms pre mods n hd hm hdecl =>
    obtain ⟨hself, hbelow⟩ := hdecl.isNumbered (P := P) fun t hmem => ht t (by simp [hmem])
    have hmods : ∀ m ∈ mods, m.kind = .modifier := hm.forall_mem fun _ _ hmod => by
      cases hmod
      rfl
    refine ⟨fun hk => List.forall_mem_append.mpr ⟨hself hk, fun m hmem hs => ?_⟩,
      fun hk => List.forall_mem_append.mpr ⟨hbelow hk, fun m hmem hs => ?_⟩⟩
    · rw [hmods m hmem] at hs
      cases hs
    · rw [hmods m hmem] at hs
      cases hs

end Derivations

/-! ## 4. Variables of a source -/

/-- What is known of a variable of a source: the name of its type is plain, and if it starts with a
    number, that is one in the source. -/
structure VarDecl.WrittenIn (source : List Char) (d : VarDecl) : Prop where
  typeName : Name.Plain d.type.name
  number : d.Numbered (NumberIn source)

section Variables

variable {source : List Char}

/-- A declaration, at the top or in a body. -/
theorem declarationNode_writtenIn {type : TypeExpr} {name : String} {value : Value}
    (mods : List Node)
    (hn : Node.Named Name.Plain ⟨(declarationNode type name value).label,
      (declarationNode type name value).children ++ mods⟩)
    (hv : Node.Numbered (NumberIn source) ⟨(declarationNode type name value).label,
      (declarationNode type name value).children ++ mods⟩) :
    VarDecl.WrittenIn source ⟨type, name, some value⟩ := by
  refine ⟨(hn.children _ List.mem_cons_self).label.typeName _ rfl, fun digits hd => ?_⟩
  obtain rfl : value = .number digits := Option.some.inj hd
  exact hv rfl _ (List.mem_cons_of_mem _ List.mem_cons_self) rfl rfl

/-- The parameters and the declarations of a procedure. -/
theorem ProcDecl.writtenIn (d : ProcDecl) (mods : List String)
    (hn : ∀ n ∈ procedureNodes d.heading.returns d.heading.params d.body mods,
      n.Named Name.Plain)
    (hv : ∀ n ∈ procedureNodes d.heading.returns d.heading.params d.body mods,
      n.Numbered (NumberIn source)) : ∀ x ∈ d.varDecls, x.WrittenIn source := by
  obtain ⟨hnodes, _⟩ := List.forall_mem_append.mp hn
  obtain ⟨hparams, hbody⟩ := List.forall_mem_append.mp (List.forall_mem_cons.mp hnodes).2
  obtain ⟨hnumbers, _⟩ := List.forall_mem_append.mp hv
  obtain ⟨_, hlocals⟩ := List.forall_mem_append.mp (List.forall_mem_cons.mp hnumbers).2
  refine List.forall_mem_append.mpr ⟨List.forall_mem_map.mpr fun param hp => ?_, fun x hx => ?_⟩
  · refine ⟨(hparams _ (List.mem_map_of_mem hp)).label.typeName _ rfl, fun _ e => ?_⟩
    cases e
  · obtain ⟨st, hst, hx⟩ := List.mem_filterMap.mp hx
    cases st with
    | declare type name value =>
      cases hx
      exact declarationNode_writtenIn [] (hbody _ (List.mem_map_of_mem hst))
        (hlocals _ (List.mem_map_of_mem hst))
    | assign => cases hx
    | ret => cases hx
    | print => cases hx
    | call => cases hx

end Variables

/-- **The variables of a source** are written with plain type names, and start with numbers that
    stand in it. -/
theorem ofTokens_writtenIn {file source : String} {ts : List Token} {p : Program}
    (ht : tokenize file source = .ok ts) (hp : Program.ofTokens ts = .ok p) :
    ∀ d ∈ p.varDecls, d.WrittenIn source.toList := by
  have hnamed : p.toNode.Named Name.Plain :=
    ofTokens_named ht hp (by decide) (by decide) fun _ hs => hs.plain
  obtain ⟨pre, eof, rest, rfl, _, hforms, _⟩ := ofTokens_sound hp
  have hnumbers : ∀ t ∈ pre, t.Numbers (NumberIn source.toList) := fun t hm =>
    tokenize_numberIn ht (List.mem_append_left _ hm)
  have hitems : ∀ n ∈ p.toNode.children, n.NumberedItem (NumberIn source.toList) := by
    generalize p.toNode = tree at hforms
    cases hforms with
    | mk hmany => exact (hmany.imp fun _ _ _ h => h.isNumbered).ofTokens hnumbers
  refine List.forall_mem_append.mpr ⟨fun d hd => ?_, fun d hd => ?_⟩
  · obtain ⟨item, hm, hd⟩ := List.mem_filterMap.mp hd
    obtain ⟨mods, type, name, value, rfl, rfl⟩ := Item.varDecl?_eq_some hd
    have hnode := List.mem_map_of_mem (f := Item.toNode) hm
    exact declarationNode_writtenIn _ (hnamed.children _ hnode) (hitems _ hnode).1
  · obtain ⟨proc, hproc, hd⟩ := List.mem_flatMap.mp hd
    obtain ⟨item, hm, hproc⟩ := List.mem_filterMap.mp hproc
    obtain ⟨mods, rfl⟩ := Item.procDecl?_eq_some hproc
    have hnode := List.mem_map_of_mem (f := Item.toNode) hm
    exact proc.writtenIn mods (hnamed.children _ hnode).children ((hitems _ hnode).2 rfl) d hd

/-! ## 5. The main result -/

/-- Variables that are meant are recorded as they are written, each under the key of its name. -/
theorem Founded.recordedAll {items : Item → Prop} {types : Table Ty} (hf : Founded items types)
    (hitems : ∀ mods name fields, items (.declaration mods (.record name fields)) → Name.Plain name)
    {source : List Char} {ds : List VarDecl} {vars : Table Variable}
    (hds : ∀ d ∈ ds, d.WrittenIn source)
    (h : List.Forall₂ (Entered Binding.name (Binding.Means types)) (ds.map VarDecl.binding) vars) :
    List.Forall₂ (Entered VarDecl.name (VarDecl.RecordedAs types)) ds vars := by
  rw [List.forall₂_map_left_iff] at h
  refine ((List.forall₂_and_left _ _).mpr ⟨hds, h⟩).imp fun d e hd => ⟨hd.2.key, ?_⟩
  have hdigits : d.Numbered fun digits => ∀ c ∈ digits.toList, c.isDigit = true :=
    fun digits he => (hd.1.number digits he).isDigit
  exact hf.recordedAs hitems hd.1.typeName hdigits hd.2.value

/-- **The sizes of the variables of an accepted source.** The variables of the root are those at the
    top. The procedures of the root have their parameters, and for each a scope on file holds the
    parameters and the variables of the body; the other scopes on file hold no variable. Each of
    these variables is recorded with the name and the fields of the type that it is written with. If
    the type is composite, its size is the sum over the leaves of the type; else it is that of the
    annotation if there is one other than 0, else the number of bytes of the literal that the
    variable starts with, else 0. The bytes of a number are its digits: all that are written in the
    source, or the one digit of a word that stands for a number. -/
theorem recorded_sizes {file source : String} {p : Program} {a : Analysis}
    (h : Accepted file source p a) :
    List.Forall₂ (Entered VarDecl.name (VarDecl.RecordedAs a.globals.types)) p.globalDecls
      a.globals.vars ∧
    List.Forall₂ (Entered (fun d => d.heading.name) fun d proc =>
      List.Forall₂ (VarDecl.RecordedAs a.globals.types) d.params proc.params) p.procDecls
      a.globals.procs ∧
    (∃ filed, filed.Sublist a.scopes ∧ a.scopes.flatMap Scope.vars = filed.flatMap Scope.vars ∧
      List.Forall₂ (fun d sc => List.Forall₂ (Entered VarDecl.name
        (VarDecl.RecordedAs a.globals.types)) (d.params ++ d.locals) sc.vars) p.procDecls filed) ∧
    ∀ d ∈ p.varDecls, ∀ digits, d.value = some (.number digits) →
      NumberIn source.toList digits := by
  obtain ⟨ts, s, ht, hp, ha⟩ := h
  obtain ⟨scopes, _, hall, hscopes, hblocks⟩ := (p.runs rfl rfl).ok ha
  have hdecls := ofTokens_writtenIn ht hp
  have htop := ofTokens_topName ht hp
  have hrecord : ∀ mods name fields, .declaration mods (.record name fields) ∈ p.items →
      Name.InSource name := fun mods name fields hm =>
    htop (.type, name) (List.mem_filterMap.mpr ⟨_, hm, rfl⟩)
  have hplain : ∀ mods name fields, .declaration mods (.record name fields) ∈ p.items →
      Name.Plain name := fun mods name fields hm => (hrecord mods name fields hm).plain
  have hnamed : ∀ r ∈ p.records, r.name ≠ "" := by
    intro r hr
    obtain ⟨item, hm, hr⟩ := List.mem_filterMap.mp hr
    obtain ⟨mods, rfl⟩ := Item.record?_eq_some hr
    exact (hrecord mods r.name r.fields hm).ne_empty
  have hfounded : Founded (· ∈ p.items) a.globals.types :=
    hall.founded (fun _ hm => hm) (.fresh _)
  obtain ⟨_, ⟨procs, hprocs, hheadings⟩, ⟨vars, hvars, hbindings⟩⟩ := hall.extends hnamed
  obtain ⟨hglobals, hinner⟩ := List.forall_mem_append.mp hdecls
  have hproc : ∀ d ∈ p.procDecls, ∀ x ∈ d.varDecls, x.WrittenIn source.toList :=
    fun d hd x hx => hinner x (List.mem_flatMap.mpr ⟨d, hd, hx⟩)
  refine ⟨?_, ?_, ?_, fun d hd => (hdecls d hd).number⟩
  · rw [show a.globals.vars = vars from hvars]
    refine hfounded.recordedAll hplain hglobals ?_
    rw [← p.bindings_eq_map]
    exact hbindings
  · rw [show a.globals.procs = procs from hprocs]
    have hmeant : List.Forall₂ (Entered Heading.name (Heading.Means a.globals.types))
        (p.procDecls.map ProcDecl.heading) procs := by
      rw [← p.headings_eq_map]
      exact hheadings
    rw [List.forall₂_map_left_iff] at hmeant
    refine ((List.forall₂_and_left _ _).mpr ⟨hproc, hmeant⟩).imp fun d e hd => ⟨hd.2.key, ?_⟩
    have hparams := hd.2.value.params
    rw [List.forall₂_map_left_iff] at hparams
    rw [ProcDecl.params, List.forall₂_map_left_iff]
    refine ((List.forall₂_and_left _ _).mpr ⟨fun x hx => ?_, hparams⟩).imp fun x v hv =>
      hfounded.recordedAs hplain hv.1 (fun _ e => by cases e) hv.2
    exact (hd.1 x.varDecl (List.mem_append_left _ (List.mem_map_of_mem hx))).typeName
  · obtain ⟨filed, hsub, hsame, hfiled⟩ :=
      procedure_scopes hblocks (p.toNode.kind_of_mem_blocks 0)
    rw [p.procedureBlocks_bindings, List.forall₂_map_left_iff] at hfiled
    rw [hscopes]
    refine ⟨filed, hsub, hsame, ?_⟩
    exact ((List.forall₂_and_left _ _).mpr ⟨hproc, hfiled⟩).imp fun d sc hd =>
      hfounded.recordedAll hplain hd.1 hd.2

/-- A text of one character and two bytes, and a reserved word that is a number. -/
def sizeSource : String :=
  "declare [string] s : \"é\" declare [void] :: f() declare [int] n : TRUE end"

/-- The program of the source. -/
def sizeSample : Program :=
  ⟨[.declaration [] (.global ⟨"string", none, false⟩ "s" (.text "é")),
    .declaration [] (.procedure ⟨"void", none, false⟩ "f" []
      [.declare ⟨"int", none, false⟩ "n" (.number "1")])]⟩

/-- The tokens of the source. -/
def sizeTokens : List Token :=
  [sampleToken 0 .declare "declare", sampleToken 8 .lbracket "[", sampleToken 9 .ident "string",
    sampleToken 15 .rbracket "]", sampleToken 17 .ident "s", sampleToken 19 .colon ":",
    sampleToken 21 .text "é", sampleToken 25 .declare "declare", sampleToken 33 .lbracket "[",
    sampleToken 34 .ident "void", sampleToken 38 .rbracket "]", sampleToken 40 .doubleColon "::",
    sampleToken 43 .ident "f", sampleToken 44 .lparen "(", sampleToken 45 .rparen ")",
    sampleToken 47 .declare "declare", sampleToken 55 .lbracket "[", sampleToken 56 .ident "int",
    sampleToken 59 .rbracket "]", sampleToken 61 .ident "n", sampleToken 63 .colon ":",
    sampleToken 65 .number "1", sampleToken 70 .endBlock "end", sampleToken 73 .eof ""]

/-- A type that every program knows is the same behind an accepted source. -/
theorem Accepted.known_type {file source : String} {p : Program} {a : Analysis}
    (h : Accepted file source p a) {key : String} {t : Ty}
    (hkey : ScopeStack.fresh.root.types.find? key = some t) :
    a.globals.types.find? key = some t := by
  obtain ⟨_, _, _, _, ha⟩ := h
  obtain ⟨_, _, hall, _⟩ := (p.runs rfl rfl).ok ha
  exact Table.find?_of_isPrefix hall.types hkey

set_option maxRecDepth 20000 in
/-- The text of one character is recorded with two bytes, and the word `TRUE` with one. -/
theorem recorded_sizes_of_sample :
    ∃ a, Accepted "sample" sizeSource sizeSample a ∧
      (∃ s, a.globals.vars = [("_O1s", s)] ∧ s.type.name = "string" ∧ s.size = 2) ∧
      ∃ n, a.scopes.flatMap Scope.vars = [("_O1n", n)] ∧ n.type.name = "int" ∧ n.size = 1 := by
  have ht : (tokenize "sample" sizeSource).toOption = some sizeTokens := by decide +kernel
  have hp : Program.ofTokens sizeTokens = .ok sizeSample := by cbv
  obtain ⟨a, h⟩ := accepted_of_stages ht hp (by cbv)
  obtain ⟨hglobals, _, ⟨filed, _, hvars, hfiled⟩, _⟩ := recorded_sizes h
  -- what is recorded of a variable that is the only one of its table
  have hone : ∀ {type name key : String} {value : Value} {size : UInt64} {vars : Table Variable},
      a.globals.types.find? (Name.mangle type) = some ⟨type, 0, []⟩ → Name.mangle name = key →
      VarDecl.elementarySize ⟨⟨type, none, false⟩, name, some value⟩ = size →
      List.Forall₂ (Entered VarDecl.name (VarDecl.RecordedAs a.globals.types))
        [⟨⟨type, none, false⟩, name, some value⟩] vars →
      ∃ v, vars = [(key, v)] ∧ v.type.name = type ∧ v.size = size := by
    intro type name key value size vars htype hkey hsize hall
    obtain ⟨⟨found, v⟩, _, ⟨hk, hv⟩, hnil, rfl⟩ := List.forall₂_cons_left_iff.mp hall
    cases hnil
    obtain ⟨base, hbase, _, _, helem⟩ := hv.size
    rw [htype] at hbase
    cases hbase
    obtain rfl : found = key := hk.trans hkey
    exact ⟨v, rfl, hv.typeName, (helem rfl).trans hsize⟩
  refine ⟨a, h, hone (h.known_type (by cbv)) (by cbv) (by decide) hglobals, ?_⟩
  obtain ⟨sc, _, hsc, hnil, rfl⟩ := List.forall₂_cons_left_iff.mp hfiled
  cases hnil
  rw [hvars, List.flatMap_cons, List.flatMap_nil, List.append_nil]
  exact hone (h.known_type (by cbv)) (by cbv) (by decide) hsc

end Osclan
