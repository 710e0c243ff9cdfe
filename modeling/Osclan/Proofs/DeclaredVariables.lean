/-
  File:      Osclan/Proofs/DeclaredVariables.lean
  Subject:   The variables that a program declares, and the tables they go to.

  The walk over a program is told in nodes: what a node declares, and which nodes are blocks. Here
  the same is told in the program itself. The variables at the top go to the root. Those of a
  procedure, its parameters and the variables of its body, go to the scope that is filed for it, and
  no other scope on file holds any.

  * `VarDecl`, `ProcDecl` -- variables and procedures as they are written;
  * `Program.bindings_eq_map`, `Program.headings_eq_map` -- the declarations at the top;
  * `Program.procedureBlocks_bindings` -- the procedures among the blocks of a program;
  * `procedure_scopes` -- the scopes on file that belong to procedures.
-/
import Osclan.Proofs.GlobalScope

namespace Osclan

/-! ## 1. Variables and procedures as they are written -/

/-- A variable as it is written. A parameter starts without a value. -/
structure VarDecl where
  type : TypeExpr
  name : String
  value : Option Value

/-- A procedure as it is written. -/
structure ProcDecl where
  heading : Heading
  body : List Statement

/-- The variable that a parameter is. -/
def Param.varDecl (p : Param) : VarDecl := ⟨p.type, p.name, none⟩

/-- The variable that a statement declares. -/
def Statement.varDecl? : Statement → Option VarDecl
  | .declare type name value => some ⟨type, name, some value⟩
  | _ => none

/-- The variable that an item declares. -/
def Item.varDecl? : Item → Option VarDecl
  | .declaration _ (.global type name value) => some ⟨type, name, some value⟩
  | _ => none

/-- The procedure that an item declares. -/
def Item.procDecl? : Item → Option ProcDecl
  | .declaration _ (.procedure returns name params body) => some ⟨⟨returns, name, params⟩, body⟩
  | _ => none

namespace ProcDecl

/-- The parameters as variables. -/
def params (d : ProcDecl) : List VarDecl := d.heading.params.map Param.varDecl

/-- The variables of the body. -/
def locals (d : ProcDecl) : List VarDecl := d.body.filterMap Statement.varDecl?

/-- The variables of a procedure: its parameters, and behind them those of its body. -/
def varDecls (d : ProcDecl) : List VarDecl := d.params ++ d.locals

end ProcDecl

namespace Program

/-- The variables at the top. -/
def globalDecls (p : Program) : List VarDecl := p.items.filterMap Item.varDecl?

/-- The procedures at the top. -/
def procDecls (p : Program) : List ProcDecl := p.items.filterMap Item.procDecl?

/-- All variables of a program. -/
def varDecls (p : Program) : List VarDecl :=
  p.globalDecls ++ p.procDecls.flatMap ProcDecl.varDecls

end Program

/-- The same variable with the length of the literal it starts with, if it does. -/
def VarDecl.binding (d : VarDecl) : Binding :=
  ⟨d.type, d.name, (d.value.bind Value.literal?).map Literal.size⟩

/-! ## 2. Declarations at the top -/

section

variable {item : Item}

theorem Item.varDecl?_eq_some {d : VarDecl} (h : item.varDecl? = some d) :
    ∃ mods type name value, item = .declaration mods (.global type name value) ∧
      d = ⟨type, name, some value⟩ := by
  cases item with
  | directive => cases h
  | declaration mods declared =>
    cases declared with
    | «global» type name value =>
      cases h
      exact ⟨mods, type, name, value, rfl, rfl⟩
    | record => cases h
    | procedure => cases h

theorem Item.procDecl?_eq_some {d : ProcDecl} (h : item.procDecl? = some d) :
    ∃ mods, item = .declaration mods
      (.procedure d.heading.returns d.heading.name d.heading.params d.body) := by
  cases item with
  | directive => cases h
  | declaration mods declared =>
    cases declared with
    | procedure returns name params body =>
      cases h
      exact ⟨mods, rfl⟩
    | record => cases h
    | «global» => cases h

theorem Item.record?_eq_some {r : Record} (h : item.record? = some r) :
    ∃ mods, item = .declaration mods (.record r.name r.fields) := by
  cases item with
  | directive => cases h
  | declaration mods declared =>
    cases declared with
    | record name fields =>
      cases h
      exact ⟨mods, rfl⟩
    | procedure => cases h
    | «global» => cases h

end

theorem Program.bindings_eq_map (p : Program) :
    p.bindings = p.globalDecls.map VarDecl.binding := by
  have hitem : ∀ item : Item, item.binding? = item.varDecl?.map VarDecl.binding := by
    intro item
    cases item with
    | directive => rfl
    | declaration mods declared => cases declared <;> rfl
  rw [Program.bindings, Program.globalDecls, List.map_filterMap]
  exact List.filterMap_congr fun item _ => hitem item

theorem Program.headings_eq_map (p : Program) :
    p.headings = p.procDecls.map ProcDecl.heading := by
  have hitem : ∀ item : Item, item.heading? = item.procDecl?.map ProcDecl.heading := by
    intro item
    cases item with
    | directive => rfl
    | declaration mods declared => cases declared <;> rfl
  rw [Program.headings, Program.procDecls, List.map_filterMap]
  exact List.filterMap_congr fun item _ => hitem item

/-! ## 3. The scopes of procedures -/

theorem Statement.binding?_toNode (st : Statement) :
    st.toNode.binding? = st.varDecl?.map VarDecl.binding := by
  by_cases hk : st.toNode.kind = .declaration
  · cases st with
    | declare type name value => exact binding?_declarationNode type name value
    | assign => cases hk
    | ret => cases hk
    | print => cases hk
    | call => cases hk
  · rw [Node.binding?_of_kind st.kind_ne_argument hk]
    cases st with
    | declare => exact absurd rfl hk
    | _ => rfl

/-- The variables that the node of a procedure declares are those that are written. -/
theorem ProcDecl.bindings_eq_map (l : Label) (d : ProcDecl) (mods : List String) :
    (Node.mk l (procedureNodes d.heading.returns d.heading.params d.body mods)).bindings =
      d.varDecls.map VarDecl.binding := by
  have hreturns : d.heading.returns.toNode.binding? = none := Node.binding?_of_kind nofun nofun
  have hmods : (mods.map modifierNode).filterMap Node.binding? = [] := by
    rw [List.filterMap_map, List.filterMap_eq_nil_iff]
    exact fun name _ => Node.binding?_of_kind nofun nofun
  have hparams : (d.heading.params.map Param.toNode).filterMap Node.binding? =
      d.params.map VarDecl.binding := by
    rw [List.filterMap_map, params, List.map_map, ← List.filterMap_eq_map]
    rfl
  have hbody : (d.body.map Statement.toNode).filterMap Node.binding? =
      d.locals.map VarDecl.binding := by
    rw [List.filterMap_map, locals, List.map_filterMap]
    exact List.filterMap_congr fun st _ => st.binding?_toNode
  rw [bindings_procedureNodes, procedureNodes, List.filterMap_append, hmods, List.append_nil,
    List.filterMap_cons_none hreturns, List.filterMap_append, hparams, hbody, varDecls,
    List.map_append]

/-- The blocks that are procedures. -/
def procedureBlocks (blocks : List (Nat × Node)) : List (Nat × Node) :=
  blocks.filter fun b => b.2.kind = .procedure

theorem procedureBlocks_of_records {blocks : List (Nat × Node)}
    (h : ∀ b ∈ blocks, b.2.kind = .record) : procedureBlocks blocks = [] := by
  refine List.filter_eq_nil_iff.mpr fun b hb => ?_
  rw [h b hb]
  decide

/-- An item has at most one procedure among its blocks: itself. -/
theorem Item.procedureBlocks_bindings (item : Item) :
    (procedureBlocks (item.toNode.blocks 0)).map (fun b => b.2.bindings) =
      item.procDecl?.toList.map fun d => d.varDecls.map VarDecl.binding := by
  cases item with
  | directive name argument =>
    rw [procedureBlocks_of_records ((directive_inert name argument).records 0)]
    rfl
  | declaration mods declared =>
    cases declared with
    | record name fields =>
      have hblocks : (Item.declaration mods (.record name fields)).toNode.blocks 0 =
          Node.blocksAll 1 (Field.toNodes name fields ++ mods.map modifierNode) ++
            [(1, (Item.declaration mods (.record name fields)).toNode)] :=
        Node.blocks_block (.inl rfl)
      have hrecords : ∀ n ∈ Field.toNodes name fields ++ mods.map modifierNode, n.HoldsRecords :=
        List.forall_mem_append.mpr ⟨fun n hn => (Field.inertAll name fields n hn).records,
          fun n hn => (modifierNodes_inert mods n hn).records⟩
      rw [hblocks, procedureBlocks_of_records (List.forall_mem_append.mpr
        ⟨records_blocksAll hrecords 1, List.forall_mem_singleton.mpr rfl⟩)]
      rfl
    | procedure returns name params body =>
      have hblocks : (Item.declaration mods (.procedure returns name params body)).toNode.blocks 0 =
          Node.blocksAll 1 (procedureNodes returns params body mods) ++
            [(1, ⟨{ kind := .procedure, value := name },
              procedureNodes returns params body mods⟩)] :=
        Node.blocks_block (.inr rfl)
      have hinner : procedureBlocks (Node.blocksAll 1 (procedureNodes returns params body mods)) =
          [] := procedureBlocks_of_records (records_blocksAll (fun n hn =>
        (procedureNodes_inBody returns params body mods n hn).records) 1)
      rw [procedureBlocks] at hinner
      rw [hblocks, procedureBlocks, List.filter_append, hinner]
      exact congrArg (fun bs => [bs])
        (ProcDecl.bindings_eq_map _ ⟨⟨returns, name, params⟩, body⟩ mods)
    | «global» type name value =>
      have hblocks : (Item.declaration mods (.global type name value)).toNode.blocks 0 =
          value.toNode.blocks 0 := blocks_declarationNode type name value mods 0
      rw [hblocks, procedureBlocks_of_records (value.inert.records 0)]
      rfl

/-- **The procedures among the blocks of a program** are those at the top, in order. -/
theorem Program.procedureBlocks_bindings (p : Program) :
    (procedureBlocks (p.toNode.blocks 0)).map (fun b => b.2.bindings) =
      p.procDecls.map fun d => d.varDecls.map VarDecl.binding := by
  have hblocks : p.toNode.blocks 0 = Node.blocksAll 0 (p.items.map Item.toNode) :=
    Node.blocks_plain ⟨nofun, nofun⟩
  rw [hblocks, Program.procDecls]
  induction p.items with
  | nil => rfl
  | cons item rest ih =>
    have hitem := item.procedureBlocks_bindings
    rw [procedureBlocks] at hitem ih ⊢
    rw [List.map_cons, Node.blocksAll, List.filter_append, List.map_append, hitem, ih,
      List.filterMap_cons]
    cases item.procDecl? with
    | none => rfl
    | some d => rfl

mutual

/-- A block is a record or a procedure. -/
theorem Node.kind_of_mem_blocks : ∀ (n : Node) (above : Nat), ∀ b ∈ n.blocks above,
    b.2.kind = .record ∨ b.2.kind = .procedure
  | ⟨l, children⟩, above => by
    by_cases hk : l.kind = .record ∨ l.kind = .procedure
    · have hinner := Node.kind_of_mem_blocksAll children (above + 1)
      rw [Node.blocks_block hk]
      exact List.forall_mem_append.mpr ⟨hinner, List.forall_mem_singleton.mpr hk⟩
    · have hinner := Node.kind_of_mem_blocksAll children above
      rw [Node.blocks_plain (not_or.mp hk)]
      exact hinner

theorem Node.kind_of_mem_blocksAll : ∀ (ns : List Node) (above : Nat),
    ∀ b ∈ Node.blocksAll above ns, b.2.kind = .record ∨ b.2.kind = .procedure
  | [], above => by
    rw [Node.blocksAll]
    exact List.forall_mem_nil _
  | n :: rest, above => by
    have hn := Node.kind_of_mem_blocks n above
    have hrest := Node.kind_of_mem_blocksAll rest above
    rw [Node.blocksAll]
    exact List.forall_mem_append.mpr ⟨hn, hrest⟩

end

/-- **The scopes of procedures** are among those on file, in order, and hold all variables on file:
    those of records are empty. -/
theorem procedure_scopes {types : Table Ty} {blocks : List (Nat × Node)} {scopes : List Scope}
    (h : List.Forall₂ (fun b sc => sc.OfBlock types b) blocks scopes)
    (hk : ∀ b ∈ blocks, b.2.kind = .record ∨ b.2.kind = .procedure) :
    ∃ filed, filed.Sublist scopes ∧ scopes.flatMap Scope.vars = filed.flatMap Scope.vars ∧
      List.Forall₂ (fun bs sc => List.Forall₂ (Entered Binding.name (Binding.Means types)) bs
        sc.vars) ((procedureBlocks blocks).map fun b => b.2.bindings) filed := by
  induction h with
  | nil => exact ⟨[], .slnil, rfl, .nil⟩
  | @cons b sc blocks scopes hb _ ih =>
    obtain ⟨hkind, hrest⟩ := List.forall_mem_cons.mp hk
    obtain ⟨filed, hsub, hvars, hall⟩ := ih hrest
    rcases hkind with hkind | hkind
    · have hskip : procedureBlocks (b :: blocks) = procedureBlocks blocks :=
        List.filter_cons_of_neg (by simp [hkind])
      refine ⟨filed, hsub.cons sc, ?_, ?_⟩
      · rw [List.flatMap_cons, hb.ofRecord hkind, hvars]
        rfl
      · rw [hskip]
        exact hall
    · have htake : procedureBlocks (b :: blocks) = b :: procedureBlocks blocks :=
        List.filter_cons_of_pos (by simp [hkind])
      refine ⟨sc :: filed, hsub.cons_cons sc, ?_, ?_⟩
      · rw [List.flatMap_cons, List.flatMap_cons, hvars]
      · rw [htake, List.map_cons]
        exact .cons (hb.ofProcedure hkind) hall

end Osclan
