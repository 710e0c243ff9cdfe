/-
  File:      Osclan/Proofs/Blocks.lean
  Subject:   The blocks of a tree, and the nodes that declare nothing.

  A record or a procedure is a block: the walk opens a scope for it and puts the scope on file when
  it leaves. Most nodes of a program declare nothing. The walk over them leaves the scopes as they
  are and files one empty scope for each block in them, innermost blocks first.

  * `Node.blocks` -- the blocks of a tree in the order in which they end, each with its depth;
  * `Node.HoldsRecords` -- trees whose blocks are records;
  * `Node.Inert` -- nodes that declare nothing;
  * `Path.files`, `Value.inert`, `Field.inert` -- paths, values, and fields of records;
  * `Statement.inert` -- statements that are not declarations.
-/
import Osclan.Proofs.Outcome
import Osclan.Proofs.StoreCheck

namespace Osclan

/-! ## 1. Blocks -/

mutual

/-- The records and procedures of a tree, each behind those inside it, and each with the number of
    records and procedures on the way to it, itself and those above the tree included. -/
def Node.blocks (above : Nat) : Node → List (Nat × Node)
  | ⟨l, children⟩ =>
    if l.kind = .record ∨ l.kind = .procedure then
      Node.blocksAll (above + 1) children ++ [(above + 1, ⟨l, children⟩)]
    else
      Node.blocksAll above children

/-- The blocks of some trees, one tree after the other. -/
def Node.blocksAll (above : Nat) : List Node → List (Nat × Node)
  | [] => []
  | n :: rest => Node.blocks above n ++ Node.blocksAll above rest

end

section

variable {above : Nat} {l : Label} {ns : List Node}

theorem Node.blocks_block (h : l.kind = .record ∨ l.kind = .procedure) :
    Node.blocks above ⟨l, ns⟩ = Node.blocksAll (above + 1) ns ++ [(above + 1, ⟨l, ns⟩)] := by
  rw [Node.blocks, if_pos h]

theorem Node.blocks_plain (h : l.kind ≠ .record ∧ l.kind ≠ .procedure) :
    Node.blocks above ⟨l, ns⟩ = Node.blocksAll above ns := by
  rw [Node.blocks, if_neg (not_or.mpr h)]

theorem Node.blocksAll_append (ms : List Node) :
    Node.blocksAll above (ns ++ ms) = Node.blocksAll above ns ++ Node.blocksAll above ms := by
  induction ns with
  | nil => rfl
  | cons n rest ih => rw [List.cons_append, Node.blocksAll, Node.blocksAll, ih, List.append_assoc]

end

mutual

/-- There is no block in a path. -/
theorem Path.blocks_toNode : ∀ (p : Path) (above : Nat) {kind : NodeKind},
    kind ≠ .record ∧ kind ≠ .procedure → (p.toNode kind).blocks above = []
  | .mk base segments, above, kind, hk => by
    have hsegments := Segment.blocks_toNodes segments above base
    rw [Path.toNode, Node.blocks_plain hk, hsegments]

theorem Segment.blocks_toNodes : ∀ (segments : List Segment) (above : Nat) (before : String),
    Node.blocksAll above (Segment.toNodes before segments) = []
  | [], above, before => by
    rw [Segment.toNodes, Node.blocksAll]
  | .fixed name offset :: rest, above, before => by
    have hrest := Segment.blocks_toNodes rest above (joinPath before name)
    simp only [Segment.toNodes, Node.blocksAll, Node.blocks, reduceCtorEq, or_self, if_false, hrest,
      List.append_nil]
  | .dynamic name offset :: rest, above, before => by
    have hrest := Segment.blocks_toNodes rest above (joinPath before name)
    have hoffset : (offset.toNode .dynamicOffset).blocks above = [] :=
      Path.blocks_toNode offset above ⟨nofun, nofun⟩
    simp only [Segment.toNodes, Node.blocksAll, Node.blocks, reduceCtorEq, or_self, if_false, hrest,
      hoffset, List.append_nil]

end

theorem Node.blocksAll_modifiers (above : Nat) (mods : List String) :
    Node.blocksAll above (mods.map modifierNode) = [] := by
  induction mods with
  | nil => rw [List.map_nil, Node.blocksAll]
  | cons m rest ih =>
    have hm : (modifierNode m).blocks above = [] := Node.blocks_plain ⟨nofun, nofun⟩
    rw [List.map_cons, Node.blocksAll, hm, ih, List.append_nil]

/-- The blocks of the node are records. -/
def Node.HoldsRecords (n : Node) : Prop := ∀ above, ∀ b ∈ n.blocks above, b.2.kind = .record

theorem records_blocksAll {ns : List Node} (h : ∀ n ∈ ns, n.HoldsRecords) (above : Nat) :
    ∀ b ∈ Node.blocksAll above ns, b.2.kind = .record := by
  induction ns with
  | nil => exact List.forall_mem_nil _
  | cons n rest ih =>
    obtain ⟨hn, hrest⟩ := List.forall_mem_cons.mp h
    rw [Node.blocksAll]
    exact List.forall_mem_append.mpr ⟨hn above, ih hrest⟩

/-! ## 2. Nodes that declare nothing -/

/-- The scope of a block in which nothing is declared. -/
def emptyScope (block : Nat × Node) : Scope := { depth := block.1 }

/-- A node that declares nothing: its blocks are records, and the walk over it leaves the scopes and
    files an empty scope for each of them. -/
structure Node.Inert (n : Node) : Prop where
  records : n.HoldsRecords
  files : ∀ s : Analyzer, (visit n).Files s ((n.blocks s.scopes.depth).map emptyScope)

section

variable {n : Node} {l : Label} {ns : List Node} {s : Analyzer}

theorem visitAll_files : ∀ {ns : List Node}, (∀ n ∈ ns, n.Inert) → ∀ s : Analyzer,
    (visitAll ns).Files s ((Node.blocksAll s.scopes.depth ns).map emptyScope)
  | [], _, s => by
    unfold visitAll
    exact .pure []
  | n :: rest, h, s => by
    obtain ⟨hn, hrest⟩ := List.forall_mem_cons.mp h
    rw [Node.blocksAll, List.map_append]
    unfold visitAll
    refine (hn.files s).bind ?_
    intro n' t ht
    have hfiles := visitAll_files hrest t
    rw [ht] at hfiles
    exact hfiles.bind_last fun ns' _ => .pure (n' :: ns')

/-- A node without blocks. -/
theorem Node.Inert.of_no_blocks (hblocks : ∀ above, n.blocks above = [])
    (h : ∀ s, (visit n).Files s []) : n.Inert := by
  refine ⟨fun above => ?_, fun s => ?_⟩
  · rw [hblocks]
    exact List.forall_mem_nil _
  · rw [hblocks]
    exact h s

/-- A node whose blocks are those of some nodes that declare nothing. -/
theorem Node.Inert.of_blocks (hblocks : ∀ above, n.blocks above = Node.blocksAll above ns)
    (hns : ∀ n ∈ ns, n.Inert)
    (h : ∀ s, (visit n).Files s ((Node.blocksAll s.scopes.depth ns).map emptyScope)) : n.Inert := by
  refine ⟨fun above => ?_, fun s => ?_⟩
  · rw [hblocks]
    exact records_blocksAll (fun n hn => (hns n hn).records) above
  · rw [hblocks]
    exact h s

/-- A node that only has its children walked. -/
theorem Node.Inert.through
    (hk : l.kind = .root ∨ l.kind = .directive ∨ l.kind = .field ∨ l.kind = .print)
    (h : ∀ n ∈ ns, n.Inert) : (Node.mk l ns).Inert := by
  have hplain : l.kind ≠ .record ∧ l.kind ≠ .procedure := by
    rcases hk with hk | hk | hk | hk <;> rw [hk] <;> exact ⟨nofun, nofun⟩
  have hvisit : visit ⟨l, ns⟩ = do return ⟨l, ← visitAll ns⟩ := by
    unfold visit
    rcases hk with hk | hk | hk | hk <;> simp only [hk]
  refine .of_blocks (fun _ => Node.blocks_plain hplain) h fun s => ?_
  rw [hvisit]
  exact (visitAll_files h s).bind_last fun ns' _ => .pure (Node.mk l ns')

/-- A record without a name, or nested in another, is not declared. -/
theorem declareRecord_eq_pure
    (hnone : l.value = "" ∨ l.path.any (hasSegments ·.toList) = true) (ns : List Node) :
    declareRecord ⟨l, ns⟩ = pure () := by
  have hcond : (decide ((Node.mk l ns).value = "") ||
      (Node.mk l ns).label.path.any (hasSegments ·.toList)) = true := by
    rw [Bool.or_eq_true, decide_eq_true_iff]
    exact hnone
  rw [declareRecord, if_pos hcond]

theorem Node.Inert.record (hk : l.kind = .record)
    (hnone : l.value = "" ∨ l.path.any (hasSegments ·.toList) = true) (h : ∀ n ∈ ns, n.Inert) :
    (Node.mk l ns).Inert := by
  refine ⟨fun above => ?_, fun s => ?_⟩
  · rw [Node.blocks_block (.inl hk)]
    exact List.forall_mem_append.mpr ⟨records_blocksAll (fun n hn => (h n hn).records) _,
      List.forall_mem_singleton.mpr hk⟩
  · rw [Node.blocks_block (.inl hk), List.map_append]
    unfold visit
    simp only [hk]
    refine Check.Files.inScope ((visitAll_files h _).bind_last fun ns' t => ?_)
    rw [declareRecord_eq_pure hnone, pure_bind]
    exact .pure _

/-- A node of a written type. -/
theorem TypeExpr.inert (type : TypeExpr) : type.toNode.Inert := by
  have hk : type.label.kind = .typeExpr := rfl
  refine .of_no_blocks (fun _ => Node.blocks_plain ⟨nofun, nofun⟩) fun s => ?_
  unfold TypeExpr.toNode visit
  simp only [hk]
  split
  · exact .pure _
  · exact .bind_scopes fun st => .bind_ofExcept fun _ => .pure _

theorem modifierNodes_inert (mods : List String) : ∀ n ∈ mods.map modifierNode, n.Inert := by
  refine List.forall_mem_map.mpr fun name _ => ?_
  refine .of_no_blocks (fun _ => Node.blocks_plain ⟨nofun, nofun⟩) fun s => ?_
  unfold modifierNode visit
  exact .pure _

/-! ## 3. Paths -/

theorem resolve_files (h : ∀ parent : Ty, (resolveFields parent parent ns).Files s []) :
    (resolve ⟨l, ns⟩).Files s [] := by
  unfold resolve
  refine .bind_scopes fun st => ?_
  cases st.lookupVariable? l.value with
  | none => exact .refuse _
  | some v => exact (h v.type).bind_last fun r t => .pure _

/-- One field of a path, and what stands below it. -/
theorem resolveFields_files (hk : l.kind = .field)
    (h : ∀ parent : Ty, (resolveFields parent parent ns).Files s []) (parent : Ty) :
    (resolveFields parent parent [⟨l, ns⟩]).Files s [] := by
  unfold resolveFields
  simp only [hk]
  cases parent.field? l.value with
  | none => exact .refuse _
  | some type =>
    refine (h type).bind_last fun r t => ?_
    unfold resolveFields
    rw [pure_bind]
    exact .pure _

end

mutual

theorem Path.files (kind : NodeKind) : ∀ (p : Path) (s : Analyzer),
    (resolve (p.toNode kind)).Files s []
  | .mk base segments, s => by
    have hsegments := Segment.filesAll segments base s
    rw [Path.toNode]
    exact resolve_files hsegments

theorem Segment.filesAll : ∀ (segments : List Segment) (before : String) (s : Analyzer)
    (parent : Ty), (resolveFields parent parent (Segment.toNodes before segments)).Files s []
  | [], before, s, parent => by
    rw [Segment.toNodes]
    unfold resolveFields
    exact .pure _
  | .fixed name offset :: rest, before, s, parent => by
    have hrest := Segment.filesAll rest (joinPath before name) s
    rw [Segment.toNodes]
    exact resolveFields_files rfl hrest parent
  | .dynamic name offset :: rest, before, s, parent => by
    have hrest := Segment.filesAll rest (joinPath before name)
    have hoffset := Path.files .dynamicOffset offset s
    rw [Segment.toNodes]
    refine resolveFields_files rfl (fun type => ?_) parent
    rw [resolveFields_offset (offset.kind_toNode _)]
    refine hoffset.bind_last fun r t => ?_
    exact (hrest t type).bind_last fun out u => .pure _

end

/-! ## 4. Values -/

/-- A reference is walked by resolving it. -/
theorem Node.Inert.reference {l : Label} {ns : List Node} (hk : l.kind = .reference)
    (hblocks : ∀ above, Node.blocksAll above ns = [])
    (h : ∀ s, (resolve ⟨l, ns⟩).Files s []) : (Node.mk l ns).Inert := by
  have hplain : l.kind ≠ .record ∧ l.kind ≠ .procedure := by
    rw [hk]
    exact ⟨nofun, nofun⟩
  refine .of_no_blocks (fun above => (Node.blocks_plain hplain).trans (hblocks above)) fun s => ?_
  unfold visit
  simp only [hk]
  exact (h s).bind_last fun r t => .pure _

theorem Path.inert (p : Path) : (p.toNode .reference).Inert := by
  have hfiles := p.files .reference
  cases p with
  | mk base segments =>
    rw [Path.toNode] at hfiles ⊢
    exact .reference rfl (fun above => Segment.blocks_toNodes segments above base) hfiles

theorem assignArguments_files : ∀ (params : List Variable) (args : List Node) {s : Analyzer},
    (assignArguments params args).Files s []
  | [], _, _ => .pure ()
  | _ :: _, [], _ => .pure ()
  | p :: params, arg :: args, s => by
    unfold assignArguments
    refine Check.Files.bind_last (.assignLiteral _ _ _) fun _ t => ?_
    exact assignArguments_files params args

/-- A call is walked through its arguments. -/
theorem Node.Inert.call {l : Label} {ns : List Node} (hk : l.kind = .call)
    (h : ∀ n ∈ ns, n.Inert) : (Node.mk l ns).Inert := by
  have hplain : l.kind ≠ .record ∧ l.kind ≠ .procedure := by
    rw [hk]
    exact ⟨nofun, nofun⟩
  refine .of_blocks (fun _ => Node.blocks_plain hplain) h fun s => ?_
  unfold visit
  simp only [hk]
  refine .bind_scopes fun st => ?_
  cases st.lookupProcedure? l.value with
  | none => exact .refuse _
  | some p =>
    refine (visitAll_files h s).bind_last fun ns' t => ?_
    unfold checkArguments
    split
    · exact .refuse _
    · exact (assignArguments_files _ _).bind_last fun _ u => .pure _

mutual

/-- **A value declares nothing.** Its blocks are its anonymous records. -/
theorem Value.inert : ∀ v : Value, v.toNode.Inert
  | .allocate type => by
    rw [Value.toNode]
    refine .of_no_blocks (fun _ => Node.blocks_plain ⟨nofun, nofun⟩) fun s => ?_
    unfold visit
    exact .bind_scopes fun st => .bind_ofExcept fun ty => .pure _
  | .number digits => by
    rw [Value.toNode]
    refine .of_no_blocks (fun _ => Node.blocks_plain ⟨nofun, nofun⟩) fun s => ?_
    unfold visit
    exact .pure _
  | .text content => by
    rw [Value.toNode]
    refine .of_no_blocks (fun _ => Node.blocks_plain ⟨nofun, nofun⟩) fun s => ?_
    unfold visit
    exact .pure _
  | .path p => by
    have hpath := p.inert
    rw [Value.toNode]
    exact hpath
  | .pointer name => by
    rw [Value.toNode]
    refine .reference rfl (fun above => by rw [Node.blocksAll]) fun s => ?_
    refine resolve_files fun parent => ?_
    unfold resolveFields
    exact .pure _
  | .anon members => by
    have hmembers := Member.inertAll members
    rw [Value.toNode]
    exact .record rfl (.inl rfl) hmembers
  | .call name args => by
    have hargs := Value.inertArgs args
    rw [Value.toNode]
    exact .call rfl hargs

theorem Member.inertAll : ∀ members : List Member, ∀ n ∈ Member.toNodes members, n.Inert
  | [] => by
    rw [Member.toNodes]
    exact List.forall_mem_nil _
  | .mk name value :: rest => by
    have hvalue := Value.inert value
    have hrest := Member.inertAll rest
    rw [Member.toNodes]
    refine List.forall_mem_cons.mpr ⟨?_, hrest⟩
    -- the field that is set is not walked, and has no blocks
    have hblocks : ∀ above, Node.blocks above ⟨{ kind := .assignment },
        [⟨{ kind := .field, value := name }, []⟩, value.toNode]⟩ =
        Node.blocksAll above [value.toNode] := by
      intro above
      simp only [Node.blocks, Node.blocksAll, reduceCtorEq, or_self, if_false, List.nil_append]
    refine .of_blocks hblocks (List.forall_mem_singleton.mpr hvalue) fun s => ?_
    rw [Node.blocksAll, Node.blocksAll, List.append_nil]
    unfold visit
    exact (hvalue.files s).bind_last fun n t => .pure _

theorem Value.inertArgs : ∀ args : List Value, ∀ n ∈ Value.argNodes args, n.Inert
  | [] => by
    rw [Value.argNodes]
    exact List.forall_mem_nil _
  | value :: rest => by
    have hvalue := Value.inert value
    have hrest := Value.inertArgs rest
    rw [Value.argNodes]
    have hone : ∀ n ∈ [value.toNode], n.Inert := List.forall_mem_singleton.mpr hvalue
    have hnone : [value.toNode].filter (·.kind == .typeExpr) = [] :=
      List.filter_eq_nil_iff.mpr fun n hn => by
        rw [List.mem_singleton.mp hn]
        simp [value.kind_ne (.inl rfl)]
    refine List.forall_mem_cons.mpr ⟨?_, hrest⟩
    refine .of_blocks (fun _ => Node.blocks_plain ⟨nofun, nofun⟩) hone fun s => ?_
    unfold visit
    simp only [hnone, List.length_nil]
    exact (visitAll_files hone s).bind_last fun ns t => .pure _

end

/-! ## 5. Fields -/

mutual

/-- **A field declares nothing**, nor does a record nested in a record. -/
theorem Field.inert : ∀ (parent : String) (f : Field), (f.toNode parent).Inert
  | parent, .plain type name => by
    rw [Field.toNode]
    exact .through (.inr (.inr (.inl rfl))) (List.forall_mem_singleton.mpr type.inert)
  | parent, .nested name fields => by
    have hfields := Field.inertAll (joinPath parent name) fields
    rw [Field.toNode]
    exact .record rfl (.inr (hasSegments_joinPath parent name)) hfields

theorem Field.inertAll : ∀ (parent : String) (fields : List Field),
    ∀ n ∈ Field.toNodes parent fields, n.Inert
  | parent, [] => by
    rw [Field.toNodes]
    exact List.forall_mem_nil _
  | parent, f :: rest => by
    have hf := Field.inert parent f
    have hrest := Field.inertAll parent rest
    rw [Field.toNodes]
    exact List.forall_mem_cons.mpr ⟨hf, hrest⟩

end

/-! ## 6. Statements -/

theorem checkReturn_files (value : Option Node) {s : Analyzer} : (checkReturn value).Files s [] := by
  unfold checkReturn
  refine .bind_get ?_
  cases s.procedure with
  | none => exact .pure ()
  | some p =>
    rcases p with ⟨name, returns, params⟩
    cases returns <;> cases value
    · exact .pure ()
    · exact .refuse _
    · exact .refuse _
    · exact .assignLiteral _ _ _

/-- **A statement that is not a declaration declares nothing.** -/
theorem Statement.inert (st : Statement) (h : st.toNode.kind ≠ .declaration) : st.toNode.Inert := by
  cases st with
  | declare type name value => exact absurd rfl h
  | assign target value =>
    have htarget : ¬ (target.toNode .reference).kind = .field := by
      rw [target.kind_toNode]
      decide
    have hblocks : ∀ above, (Statement.assign target value).toNode.blocks above =
        Node.blocksAll above [value.toNode] := by
      intro above
      have hpath : (target.toNode .reference).blocks above = [] :=
        target.blocks_toNode _ ⟨by decide, by decide⟩
      simp only [Statement.toNode, Node.blocks, Node.blocksAll, reduceCtorEq, or_self, if_false,
        hpath, List.nil_append]
    refine .of_blocks hblocks (List.forall_mem_singleton.mpr value.inert) fun s => ?_
    rw [Node.blocksAll, Node.blocksAll, List.append_nil]
    unfold Statement.toNode visit
    simp only [if_neg htarget]
    refine (value.inert.files s).bind_last fun value' t => ?_
    refine (target.files .reference t).bind_last fun r u => ?_
    exact (Check.Files.assignLiteral _ _ _).bind_last fun _ w => .pure _
  | ret value =>
    have hvalue : ∀ n ∈ (value.map Value.toNode).toList, n.Inert := by
      cases value with
      | none => exact List.forall_mem_nil _
      | some v => exact List.forall_mem_singleton.mpr v.inert
    refine .of_blocks (fun _ => Node.blocks_plain ⟨by decide, by decide⟩) hvalue fun s => ?_
    unfold visit
    refine (visitAll_files hvalue s).bind_last fun ns t => ?_
    exact (checkReturn_files _).bind_last fun _ u => .pure _
  | print value =>
    exact .through (.inr (.inr (.inr rfl))) (List.forall_mem_singleton.mpr value.inert)
  | call name args => exact (Value.call name args).inert

end Osclan
