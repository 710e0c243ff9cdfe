/-
  File:      Osclan/Proofs/WrittenPaths.lean
  Subject:   The paths written in a tree agree with the tree.

  A field of a reference carries the path that leads to it as one text, and so does a record nested
  in another one. Both texts repeat what the tree says: the first joins the values from the nearest
  reference or offset down to the field, so that it begins anew in every offset; the second joins
  the names of the records from the outermost one down. No other node carries a path.

  * `Occurs` -- a node of a tree with the labels above it;
  * `baseValues`, `recordNames` -- what those labels say of paths;
  * `PathAgrees` -- what a node carries agrees with the labels above it;
  * `Path.agrees`, `Value.agrees`, `Field.agrees`, … -- the parts of a program;
  * `paths_agree` -- the trees that reading returns.
-/
import Mathlib
import Osclan.Proofs.Parsing
import Osclan.Proofs.TreeValues

namespace Osclan

/-! ## 1. Nodes and what is above them -/

/-- The node occurs in the tree, with the labels on the way up from it, the nearest first. -/
inductive Occurs : Node → List Label → Node → Prop where
  | root {tree : Node} : Occurs tree [] tree
  | child {l : Label} {children : List Node} {m n : Node} {above : List Label} :
      m ∈ children → Occurs m above n → Occurs ⟨l, children⟩ (above ++ [l]) n

/-- Every node of the tree is as `P` says, if the tree itself stands below `above`. -/
def Everywhere (P : List Label → Node → Prop) (above : List Label) (tree : Node) : Prop :=
  ∀ way n, Occurs tree way n → P (way ++ above) n

section

variable {P : List Label → Node → Prop} {above : List Label} {l : Label} {children : List Node}

/-- **A tree is its root and the trees below it.** -/
theorem everywhere_mk (hroot : P above ⟨l, children⟩)
    (hall : ∀ n ∈ children, Everywhere P (l :: above) n) : Everywhere P above ⟨l, children⟩ := by
  intro way n h
  cases h with
  | root => exact hroot
  | @child _ _ m _ way hm hn =>
    have := hall m hm way n hn
    rwa [List.append_cons] at this

end

/-! ## 2. Paths by the labels above -/

/-- A variable, or an offset read at run time: what the fields of a path lead on from. -/
def Label.IsBase (l : Label) : Prop := l.kind = .reference ∨ l.kind = .dynamicOffset

instance (l : Label) : Decidable l.IsBase := inferInstanceAs (Decidable (_ ∨ _))

/-- The values from the nearest base down, if there is one. -/
def baseValues : List Label → Option (List String)
  | [] => none
  | l :: above => if l.IsBase then some [l.value] else (baseValues above).map (· ++ [l.value])

/-- The names of the records, the outermost first. -/
def recordNames (above : List Label) : List String :=
  ((above.filter (·.kind == .record)).map Label.value).reverse

/-- Does the nearest label belong to a record? -/
def inRecord (above : List Label) : Bool := above.head?.any (·.kind == .record)

/-- The text of a path. -/
def pathText (names : List String) : String := "::".intercalate names

/-- **What a node carries agrees with the labels above it.** -/
structure PathAgrees (above : List Label) (n : Node) : Prop where
  /-- Right below a variable or an offset there is at most one node, a field. -/
  base : n.label.IsBase → n.children.map Node.kind ∈ [[], [.field]]
  /-- A field that a base leads to has the path from there, and at most one field below it, behind
      at most one offset read at run time, which excludes a constant one. -/
  segment : ∀ values, n.kind = .field → baseValues above = some values →
    n.label.path = some (pathText (values ++ [n.value])) ∧
    n.children.map Node.kind ∈ [[], [.field], [.dynamicOffset], [.dynamicOffset, .field]] ∧
    (.dynamicOffset ∈ n.children.map Node.kind → n.label.offset = 0)
  /-- A record in a record has the path from the outermost one. -/
  nested : n.kind = .record → inRecord above = true →
    n.label.path = some (pathText (recordNames above ++ [n.value]))
  /-- No other node has a path. -/
  only : n.label.path ≠ none → n.kind = .field ∧ baseValues above ≠ none ∨
    n.kind = .record ∧ inRecord above = true
  /-- A record with a name stands at the top exactly if it has no path. -/
  top : n.kind = .record → n.value ≠ "" →
    (n.label.path = none ↔ above.map Label.kind = [.root])

section

variable {above : List Label} {l : Label} {children : List Node}

theorem baseValues_base (h : l.IsBase) : baseValues (l :: above) = some [l.value] := by
  rw [baseValues, if_pos h]

theorem baseValues_cons (h : ¬ l.IsBase) :
    baseValues (l :: above) = (baseValues above).map (· ++ [l.value]) := by
  rw [baseValues, if_neg h]

theorem baseValues_ne_nil {values : List String} (h : baseValues above = some values) :
    values ≠ [] := by
  cases above with
  | nil => cases h
  | cons l above =>
    by_cases hl : l.IsBase
    · rw [baseValues_base hl] at h
      cases h
      exact List.cons_ne_nil _ _
    · rw [baseValues_cons hl, Option.map_eq_some_iff] at h
      obtain ⟨values, _, rfl⟩ := h
      exact List.append_ne_nil_of_right_ne_nil _ (List.cons_ne_nil _ _)

theorem recordNames_cons (h : l.kind = .record) :
    recordNames (l :: above) = recordNames above ++ [l.value] := by
  simp [recordNames, h]

theorem pathText_snoc {names : List String} (h : names ≠ []) (name : String) :
    pathText (names ++ [name]) = joinPath (pathText names) name := by
  rw [pathText, String.intercalate_append_of_ne_nil h (List.cons_ne_nil _ _),
    String.intercalate_singleton]
  rfl

theorem not_isBase {kind : NodeKind} (hk : l.kind = kind)
    (h : kind ∉ [NodeKind.reference, NodeKind.dynamicOffset]) : ¬ l.IsBase := by
  subst hk
  rintro (hl | hl)
  · exact h (hl ▸ List.mem_cons_self)
  · exact h (hl ▸ List.mem_cons_of_mem _ List.mem_cons_self)

/-! ## 3. Nodes by their kind -/

/-- The kinds that paths have to do with. -/
def pathKinds : List NodeKind := [.reference, .dynamicOffset, .field, .record]

theorem not_isBase_plain (kind : NodeKind) (hk : l.kind = kind) (h : kind ∉ pathKinds) :
    ¬ l.IsBase :=
  not_isBase hk fun hm => h (List.mem_append_left [NodeKind.field, NodeKind.record] hm)

theorem PathAgrees.plain (kind : NodeKind) (hk : l.kind = kind) (h : kind ∉ pathKinds)
    (hpath : l.path = none) : PathAgrees above ⟨l, children⟩ where
  base hb := absurd hb (not_isBase_plain kind hk h)
  segment _ hf := by
    rw [← hk, show l.kind = .field from hf] at h
    exact absurd (by decide) h
  nested hr := by
    rw [← hk, show l.kind = .record from hr] at h
    exact absurd (by decide) h
  only hp := absurd hpath hp
  top hr := by
    rw [← hk, show l.kind = .record from hr] at h
    exact absurd (by decide) h

theorem PathAgrees.ofBase (hbase : l.IsBase) (hpath : l.path = none)
    (hchain : children.map Node.kind = [] ∨ children.map Node.kind = [.field]) :
    PathAgrees above ⟨l, children⟩ where
  base _ := by
    show children.map Node.kind ∈ _
    rcases hchain with he | he
    · rw [he]
      decide
    · rw [he]
      decide
  segment _ h := absurd hbase (not_isBase h (by decide))
  nested h := absurd hbase (not_isBase h (by decide))
  only h := absurd hpath h
  top h := absurd hbase (not_isBase h (by decide))

/-- A field that a base leads to: the path goes on in `chain`, behind an offset if there is one. -/
theorem PathAgrees.onPath {values : List String} {chain : List Node} (hk : l.kind = .field)
    (habove : baseValues above = some values)
    (hpath : l.path = some (pathText (values ++ [l.value])))
    (hchain : chain.map Node.kind = [] ∨ chain.map Node.kind = [.field])
    (hchildren : children = chain ∨
      ∃ o, children = o :: chain ∧ o.kind = .dynamicOffset ∧ l.offset = 0) :
    PathAgrees above ⟨l, children⟩ where
  base h := absurd h (not_isBase hk (by decide))
  segment _ _ h := by
    rw [habove] at h
    cases h
    refine ⟨hpath, ?_⟩
    show children.map Node.kind ∈ _ ∧ (_ ∈ children.map Node.kind → l.offset = 0)
    rcases hchildren with rfl | ⟨o, rfl, ho, hoffset⟩
    · rcases hchain with he | he
      · rw [he]
        exact ⟨by decide, fun hd => absurd hd (by decide)⟩
      · rw [he]
        exact ⟨by decide, fun hd => absurd hd (by decide)⟩
    · rw [List.map_cons, ho]
      rcases hchain with he | he
      · rw [he]
        exact ⟨by decide, fun _ => hoffset⟩
      · rw [he]
        exact ⟨by decide, fun _ => hoffset⟩
  nested h := by cases hk.symm.trans h
  only _ := .inl ⟨hk, by rw [habove]; exact Option.some_ne_none _⟩
  top h := by cases hk.symm.trans h

/-- A field that no base leads to. -/
theorem PathAgrees.offPath (hk : l.kind = .field) (hpath : l.path = none)
    (habove : baseValues above = none) : PathAgrees above ⟨l, children⟩ where
  base h := absurd h (not_isBase hk (by decide))
  segment _ _ h := by
    rw [habove] at h
    cases h
  nested h := by cases hk.symm.trans h
  only h := absurd hpath h
  top h := by cases hk.symm.trans h

/-- A record that is not in a record: one at the top, or one without a name. -/
theorem PathAgrees.ofRecord (hk : l.kind = .record) (hpath : l.path = none)
    (habove : inRecord above = false) (hname : l.value ≠ "" → above.map Label.kind = [.root]) :
    PathAgrees above ⟨l, children⟩ where
  base h := absurd h (not_isBase hk (by decide))
  segment _ h := by cases hk.symm.trans h
  nested _ h := by
    rw [habove] at h
    cases h
  only h := absurd hpath h
  top _ h := ⟨fun _ => hname h, fun _ => hpath⟩

/-- A record in a record. -/
theorem PathAgrees.ofNested (hk : l.kind = .record) (habove : inRecord above = true)
    (hpath : l.path = some (pathText (recordNames above ++ [l.value]))) :
    PathAgrees above ⟨l, children⟩ where
  base h := absurd h (not_isBase hk (by decide))
  segment _ h := by cases hk.symm.trans h
  nested _ _ := hpath
  only _ := .inr ⟨hk, habove⟩
  top _ _ := by
    constructor
    · intro h
      cases hpath.symm.trans h
    · intro h
      cases above with
      | nil => cases h
      | cons r above =>
        have hr : r.kind = .root := (List.cons.inj h).1
        simp [inRecord, hr] at habove

end

/-! ## 4. Paths -/

section

variable {above : List Label}

/-- The fields of a path are no node or one. -/
theorem Segment.kinds_toNodes (before : String) (segments : List Segment) :
    (Segment.toNodes before segments).map Node.kind = [] ∨
      (Segment.toNodes before segments).map Node.kind = [.field] := by
  cases segments with
  | nil => exact .inl rfl
  | cons segment rest => cases segment <;> exact .inr rfl

/-- Below a field that a base leads to, the values go on with its own. -/
theorem baseValues_field {l : Label} {values : List String} (hk : l.kind = .field)
    (h : baseValues above = some values) :
    baseValues (l :: above) = some (values ++ [l.value]) := by
  rw [baseValues_cons (not_isBase hk (by decide)), h]
  rfl

mutual

/-- **Paths agree wherever they stand**: what is above a base does not count below it. -/
theorem Path.agrees {kind : NodeKind} (hk : kind = .reference ∨ kind = .dynamicOffset) :
    ∀ (p : Path) (above : List Label), Everywhere PathAgrees above (p.toNode kind)
  | .mk base segments, above => by
    have hbase : Label.IsBase { kind, value := base } := hk
    have hvalues := @baseValues_base above _ hbase
    rw [Path.toNode]
    exact everywhere_mk (.ofBase hbase rfl (Segment.kinds_toNodes base segments))
      (Segment.agrees segments hvalues)

theorem Segment.agrees : ∀ (segments : List Segment) {above : List Label} {values : List String},
    baseValues above = some values →
    ∀ n ∈ Segment.toNodes (pathText values) segments, Everywhere PathAgrees above n
  | [], _, _, _ => fun _ hn => absurd hn List.not_mem_nil
  | .fixed name offset :: rest, above, values, h => by
    have hkinds := Segment.kinds_toNodes (pathText (values ++ [name])) rest
    simp only [Segment.toNodes, ← pathText_snoc (baseValues_ne_nil h), List.mem_singleton,
      forall_eq]
    exact everywhere_mk (.onPath rfl h rfl hkinds (.inl rfl))
      (Segment.agrees rest (baseValues_field rfl h))
  | .dynamic name offset :: rest, above, values, h => by
    have hkinds := Segment.kinds_toNodes (pathText (values ++ [name])) rest
    simp only [Segment.toNodes, ← pathText_snoc (baseValues_ne_nil h), List.mem_singleton,
      forall_eq]
    refine everywhere_mk
      (.onPath rfl h rfl hkinds (.inr ⟨_, rfl, Path.kind_toNode _ offset, rfl⟩)) ?_
    intro n hn
    rcases List.mem_cons.mp hn with rfl | hn
    -- the offset is a base itself: its own fields begin anew, while those of `rest` go on
    · exact Path.agrees (.inr rfl) offset _
    · exact Segment.agrees rest (baseValues_field rfl h) n hn

end

/-! ## 5. Values -/

/-- The place is neither on a path nor right in a record. -/
structure Apart (above : List Label) : Prop where
  noBase : baseValues above = none
  noRecord : inRecord above = false

theorem baseValues_none {l : Label} (h : baseValues above = none) (hl : ¬ l.IsBase) :
    baseValues (l :: above) = none := by
  rw [baseValues_cons hl, h]
  rfl

/-- Below a node of a kind that paths have nothing to do with. -/
theorem Apart.below {l : Label} (h : baseValues above = none) (kind : NodeKind)
    (hk : l.kind = kind) (hp : kind ∉ pathKinds) : Apart (l :: above) := by
  refine ⟨baseValues_none h (not_isBase_plain kind hk hp), ?_⟩
  rw [inRecord, List.head?_cons, Option.any_some, hk, beq_eq_false_iff_ne]
  rintro rfl
  exact hp (by decide)

theorem everywhere_leaf {P : List Label → Node → Prop} {l : Label} (h : P above ⟨l, []⟩) :
    Everywhere P above ⟨l, []⟩ :=
  everywhere_mk h fun _ hn => absurd hn List.not_mem_nil

mutual

/-- **Values agree** in every place that is apart. -/
theorem Value.agrees : ∀ (v : Value) {above : List Label}, Apart above →
    Everywhere PathAgrees above v.toNode
  | .allocate _, _, _ => everywhere_leaf (.plain .allocation rfl (by decide) rfl)
  | .number _, _, _ => everywhere_leaf (.plain .scalar rfl (by decide) rfl)
  | .text _, _, _ => everywhere_leaf (.plain .scalar rfl (by decide) rfl)
  | .path p, above, _ => by
    rw [Value.toNode]
    exact p.agrees (.inl rfl) above
  | .pointer _, _, _ => everywhere_leaf (.ofBase (.inl rfl) rfl (.inl rfl))
  | .anon members, above, h => by
    have hbelow := baseValues_none h.noBase
      (@not_isBase { kind := .record } .record rfl (by decide))
    rw [Value.toNode]
    exact everywhere_mk (.ofRecord rfl rfl h.noRecord fun hne => absurd rfl hne)
      (Member.agrees members hbelow)
  | .call name args, above, h => by
    have hbelow : Apart ({ kind := .call, value := name } :: above) :=
      .below h.noBase .call rfl (by decide)
    rw [Value.toNode]
    exact everywhere_mk (.plain .call rfl (by decide) rfl) (Value.args_agree args hbelow.noBase)

/-- Members of a record have no path, since no base leads to them. -/
theorem Member.agrees : ∀ (members : List Member) {above : List Label}, baseValues above = none →
    ∀ n ∈ Member.toNodes members, Everywhere PathAgrees above n
  | [], _, _ => fun _ hn => absurd hn List.not_mem_nil
  | .mk name value :: rest, above, h => by
    have hbelow : Apart ({ kind := .assignment } :: above) :=
      .below h .assignment rfl (by decide)
    rw [Member.toNodes, List.forall_mem_cons]
    refine ⟨everywhere_mk (.plain .assignment rfl (by decide) rfl) ?_, Member.agrees rest h⟩
    rw [List.forall_mem_cons, List.forall_mem_singleton]
    exact ⟨everywhere_leaf (.offPath rfl rfl hbelow.noBase), Value.agrees value hbelow⟩

theorem Value.args_agree : ∀ (args : List Value) {above : List Label}, baseValues above = none →
    ∀ n ∈ Value.argNodes args, Everywhere PathAgrees above n
  | [], _, _ => fun _ hn => absurd hn List.not_mem_nil
  | value :: rest, above, h => by
    have hbelow : Apart ({ kind := .argument } :: above) := .below h .argument rfl (by decide)
    rw [Value.argNodes, List.forall_mem_cons]
    refine ⟨everywhere_mk (.plain .argument rfl (by decide) rfl) ?_, Value.args_agree rest h⟩
    rw [List.forall_mem_singleton]
    exact Value.agrees value hbelow

end

/-! ## 6. Statements, records and items -/

/-- A declaration agrees, whatever stands behind its value. -/
theorem declarationNode_agrees (type : TypeExpr) (name : String) (value : Value) (h : Apart above)
    {mods : List Node} (hm : ∀ l, ∀ n ∈ mods, Everywhere PathAgrees (l :: above) n) :
    Everywhere PathAgrees above ⟨(declarationNode type name value).label,
      (declarationNode type name value).children ++ mods⟩ := by
  have hbelow : Apart ({ kind := .declaration } :: above) :=
    .below h.noBase .declaration rfl (by decide)
  refine everywhere_mk (.plain .declaration rfl (by decide) rfl) ?_
  rw [List.forall_mem_append]
  refine ⟨?_, hm _⟩
  simp only [declarationNode]
  rw [List.forall_mem_cons, List.forall_mem_singleton]
  exact ⟨everywhere_leaf (.ofBase (.inl rfl) rfl (.inl rfl)), value.agrees hbelow⟩

theorem Statement.agrees (st : Statement) (h : Apart above) :
    Everywhere PathAgrees above st.toNode := by
  cases st with
  | declare type name value =>
    have hd := @declarationNode_agrees above type name value h [] fun _ _ hn =>
      absurd hn List.not_mem_nil
    rwa [List.append_nil] at hd
  | assign target value =>
    have hbelow : Apart ({ kind := .assignment } :: above) :=
      .below h.noBase .assignment rfl (by decide)
    refine everywhere_mk (.plain .assignment rfl (by decide) rfl) ?_
    rw [List.forall_mem_cons, List.forall_mem_singleton]
    exact ⟨target.agrees (.inl rfl) _, value.agrees hbelow⟩
  | ret value =>
    have hbelow : Apart ({ kind := .ret } :: above) := .below h.noBase .ret rfl (by decide)
    refine everywhere_mk (.plain .ret rfl (by decide) rfl) ?_
    cases value with
    | none => exact fun _ hn => absurd hn List.not_mem_nil
    | some v => exact List.forall_mem_singleton.mpr (v.agrees hbelow)
  | print value =>
    have hbelow : Apart ({ kind := .print } :: above) := .below h.noBase .print rfl (by decide)
    exact everywhere_mk (.plain .print rfl (by decide) rfl)
      (List.forall_mem_singleton.mpr (value.agrees hbelow))
  | call name args => exact (Value.call name args).agrees h

theorem TypeExpr.agrees (a : TypeExpr) (above : List Label) :
    Everywhere PathAgrees above a.toNode :=
  everywhere_leaf (.plain .typeExpr rfl (by decide) rfl)

theorem recordNames_ne_nil (h : inRecord above = true) : recordNames above ≠ [] := by
  cases above with
  | nil => cases h
  | cons l above =>
    rw [inRecord, List.head?_cons, Option.any_some, beq_iff_eq] at h
    rw [recordNames_cons h]
    exact List.append_ne_nil_of_right_ne_nil _ (List.cons_ne_nil _ _)

mutual

/-- **The fields of a record agree**, if no base leads to it. -/
theorem Field.agrees : ∀ (field : Field) {above : List Label}, inRecord above = true →
    baseValues above = none →
    Everywhere PathAgrees above (field.toNode (pathText (recordNames above)))
  | .plain type name, above, _, h => by
    rw [Field.toNode]
    exact everywhere_mk (.offPath rfl rfl h) (List.forall_mem_singleton.mpr (type.agrees _))
  | .nested name fields, above, hin, h => by
    have hall : ∀ l : Label, l.kind = .record → l.value = name →
        ∀ n ∈ Field.toNodes (pathText (recordNames above ++ [name])) fields,
          Everywhere PathAgrees (l :: above) n := by
      rintro l hk rfl
      have hin' : inRecord (l :: above) = true := beq_iff_eq.mpr hk
      have := Field.all_agree fields hin' (baseValues_none h (not_isBase hk (by decide)))
      rwa [recordNames_cons hk] at this
    simp only [Field.toNode, ← pathText_snoc (recordNames_ne_nil hin)]
    exact everywhere_mk (.ofNested rfl hin rfl) (hall _ rfl rfl)

theorem Field.all_agree : ∀ (fields : List Field) {above : List Label}, inRecord above = true →
    baseValues above = none →
    ∀ n ∈ Field.toNodes (pathText (recordNames above)) fields, Everywhere PathAgrees above n
  | [], _, _, _ => fun _ hn => absurd hn List.not_mem_nil
  | field :: rest, above, hin, h => by
    rw [Field.toNodes, List.forall_mem_cons]
    exact ⟨Field.agrees field hin h, Field.all_agree rest hin h⟩

end

theorem modifierNode_agrees (name : String) (above : List Label) :
    Everywhere PathAgrees above (modifierNode name) :=
  everywhere_leaf (.plain .modifier rfl (by decide) rfl)

theorem Param.agrees (p : Param) (above : List Label) : Everywhere PathAgrees above p.toNode :=
  everywhere_mk (.plain .argument rfl (by decide) rfl)
    (List.forall_mem_singleton.mpr (p.type.agrees _))

end

/-- The fields of a record at the top agree. -/
theorem topFields_agree (name : String) (fields : List Field) :
    ∀ n ∈ Field.toNodes name fields,
      Everywhere PathAgrees [{ kind := .record, value := name }, { kind := .root }] n := by
  have hin : inRecord [{ kind := .record, value := name }, { kind := .root }] = true := rfl
  have hall := Field.all_agree fields hin rfl
  rwa [recordNames_cons rfl, show recordNames [{ kind := .root }] = [] from rfl, List.nil_append,
    pathText, String.intercalate_singleton] at hall

/-- **Items agree** at the top of a tree. -/
theorem Item.agrees (item : Item) : Everywhere PathAgrees [{ kind := .root }] item.toNode := by
  have hapart : Apart [{ kind := .root }] := ⟨rfl, rfl⟩
  cases item with
  | directive name argument =>
    exact everywhere_mk (.plain .directive rfl (by decide) rfl)
      (List.forall_mem_singleton.mpr (everywhere_leaf (.plain .argument rfl (by decide) rfl)))
  | declaration modifiers declared =>
    have hmods : ∀ l : Label, ∀ n ∈ modifiers.map modifierNode,
        Everywhere PathAgrees (l :: [{ kind := .root }]) n := by
      intro l
      rw [List.forall_mem_map]
      exact fun name _ => modifierNode_agrees name _
    cases declared with
    | record name fields =>
      refine everywhere_mk (.ofRecord rfl rfl rfl fun _ => rfl) ?_
      rw [List.forall_mem_append]
      exact ⟨topFields_agree name fields, hmods _⟩
    | procedure returns name params body =>
      have hbelow : Apart [{ kind := .procedure, value := name }, { kind := .root }] :=
        .below hapart.noBase .procedure rfl (by decide)
      refine everywhere_mk (.plain .procedure rfl (by decide) rfl) ?_
      rw [List.forall_mem_append]
      refine ⟨?_, hmods _⟩
      simp only [Declared.toNode, List.forall_mem_cons, List.forall_mem_append, List.forall_mem_map]
      exact ⟨returns.agrees _, fun p _ => p.agrees _, fun st _ => st.agrees hbelow⟩
    | «global» type name value => exact declarationNode_agrees type name value hapart hmods

theorem Program.agrees (p : Program) : Everywhere PathAgrees [] p.toNode := by
  refine everywhere_mk (.plain .root rfl (by decide) rfl) ?_
  rw [List.forall_mem_map]
  exact fun item _ => item.agrees

/-! ## 7. Trees that are read -/

/-- **The paths written in a tree agree with the tree**, at every node of every tree that reading
    returns. -/
theorem paths_agree {ts : List Token} {tree : Node}
    (h : (Program.ofTokens ts).map Program.toNode = .ok tree) {above : List Label} {n : Node}
    (hn : Occurs tree above n) : PathAgrees above n := by
  cases hp : Program.ofTokens ts with
  | error e =>
    rw [hp] at h
    cases h
  | ok p =>
    rw [hp] at h
    obtain rfl := Except.ok.inj h
    have := p.agrees above n hn
    rwa [List.append_nil] at this

/-- The tokens of `declare struct p [struct] q begin end end declare [int] x : a::b(c::d)`. -/
def pathTokens : List Token :=
  [tokenOf .declare "declare", tokenOf .struct "struct", tokenOf .ident "p", tokenOf .lbracket "[",
   tokenOf .struct "struct", tokenOf .rbracket "]", tokenOf .ident "q", tokenOf .beginBlock "begin",
   tokenOf .endBlock "end", tokenOf .endBlock "end", tokenOf .declare "declare",
   tokenOf .lbracket "[", tokenOf .ident "int", tokenOf .rbracket "]", tokenOf .ident "x",
   tokenOf .colon ":", tokenOf .ident "a", tokenOf .doubleColon "::", tokenOf .ident "b",
   tokenOf .lparen "(", tokenOf .ident "c", tokenOf .doubleColon "::", tokenOf .ident "d",
   tokenOf .rparen ")", tokenOf .eof ""]

/-- The program of these tokens. -/
def pathProgram : Program :=
  ⟨[.declaration [] (.record "p" [.nested "q" []]),
    .declaration [] (.global ⟨"int", none, false⟩ "x"
      (.path (.mk "a" [.dynamic "b" (.mk "c" [.fixed "d" 0])])))]⟩

/-- The path of a field in an offset begins at the offset, and that of a record in a record at the
    outer one. -/
theorem paths_agree_of_pathProgram :
    (Program.ofTokens pathTokens).map Program.toNode = .ok pathProgram.toNode ∧
    (∃ above n, Occurs pathProgram.toNode above n ∧ n.value = "d" ∧
      baseValues above = some ["c"] ∧ n.label.path = some "c::d") ∧
    ∃ above n, Occurs pathProgram.toNode above n ∧ n.value = "q" ∧
      recordNames above = ["p"] ∧ n.label.path = some "p::q" := by
  have hp : Program.ofTokens pathTokens = .ok pathProgram := by cbv
  have htree : (Program.ofTokens pathTokens).map Program.toNode = .ok pathProgram.toNode := by
    rw [hp]
    rfl
  have hsecond : ∀ {m n : Node}, n ∈ [m, n] := List.mem_cons_of_mem _ List.mem_cons_self
  have hfield : Occurs pathProgram.toNode _
      ⟨{ kind := .field, value := "d", path := some "c::d" }, []⟩ :=
    .child hsecond (.child hsecond (.child List.mem_cons_self (.child List.mem_cons_self
      (.child List.mem_cons_self .root))))
  have hrecord : Occurs pathProgram.toNode _
      ⟨{ kind := .record, value := "q", path := some "p::q" }, []⟩ :=
    .child List.mem_cons_self (.child List.mem_cons_self .root)
  refine ⟨htree, ⟨_, _, hfield, rfl, rfl, ?_⟩, ⟨_, _, hrecord, rfl, rfl, ?_⟩⟩
  · exact ((paths_agree htree hfield).segment ["c"] rfl rfl).1
  · exact (paths_agree htree hrecord).nested rfl rfl

end Osclan
