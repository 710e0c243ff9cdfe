/-
  File:      Osclan/Proofs/Printing.lean
  Subject:   Trees written back as source.

  Every node is written by the production of its kind, as a list of words. What the source may
  spell in two ways is written in one: a member of an anonymous record is always `x : v`, an offset
  is written only if it is not zero, and no size but the written one stands in a type. Modifiers are
  the last children of a declaration and come right after the word `declare`.

  The words of a node depend on its label and on the kinds and words of its children, nothing else.
  So the walk over the tree (`Node.words`) and the choice of words (`layout`) are apart.

  * `layout` -- the words of a node from those of its children;
  * `Node.words`, `Node.source` -- the words of a tree, and its source;
  * `Node.words_reference`, `Node.words_anon`, … -- the words by production.
-/
import Osclan.Proofs.Spelling
import Osclan.Tree

namespace Osclan

/-! ## 1. The words of a node -/

/-- A child as its parent writes it. -/
structure Part where
  kind : NodeKind
  words : List String

/-- The words of some parts, one part after the other. -/
def flat (parts : List Part) : List String := parts.flatMap Part.words

/-- The words of some lists, with a word between neighbours. -/
def separated (word : String) : List (List String) → List String
  | [] => []
  | first :: rest => first ++ rest.flatMap (word :: ·)

/-- A size in parentheses, if there is one. -/
def sizeWords : Option UInt64 → List String
  | none => []
  | some size => ["(", size.toNat.repr, ")"]

/-- The mark of a pointer. -/
def starWords (pointer : Bool) : List String := if pointer then ["*"] else []

/-- A type expression: `[name(size)*]`. -/
def typeWords (name : String) (size : Option UInt64) (pointer : Bool) : List String :=
  "[" :: name :: (sizeWords size ++ (starWords pointer ++ ["]"]))

/-- The offset of a segment. An offset of 0 is not written. -/
def offsetWords (offset : UInt64) : List String :=
  if offset = 0 then [] else ["(", offset.toNat.repr, ")"]

/-- What stands after the word `declare` and the modifiers. -/
def declaredWords (l : Label) (parts : List Part) : List String :=
  match l.kind with
  | .record => "struct" :: l.value :: (flat parts ++ ["end"])
  | .procedure =>
    flat (parts.filter (·.kind == .typeExpr)) ++ "::" :: l.value :: "(" ::
      (separated "," ((parts.filter (·.kind == .argument)).map Part.words) ++ ")" ::
        (flat (parts.filter fun p => p.kind != .typeExpr && p.kind != .argument) ++ ["end"]))
  | _ => separated ":" (parts.map Part.words)

/-- A declaration: the word `declare`, the modifiers, which are the last parts, and what is
    declared. -/
def declaring (l : Label) (parts : List Part) : List String :=
  "declare" :: (flat (parts.filter (·.kind == .modifier)) ++
    declaredWords l (parts.filter (·.kind != .modifier)))

/-- How a node writes the words of its parts: one case for each kind. -/
def layout (l : Label) (parts : List Part) : List String :=
  match l.kind with
  | .root => flat parts
  | .directive => "." :: l.value :: flat parts
  | .argument =>
    -- a parameter has a type, the argument of a directive has nothing below it
    if l.typeName.isSome then flat parts ++ [l.value]
    else if parts.isEmpty then [spelling .text l.value]
    else flat parts
  | .record =>
    if l.path.isSome then "[" :: "struct" :: "]" :: l.value :: "begin" :: (flat parts ++ ["end"])
    else if l.value = "" then "declare" :: "anon" :: (flat parts ++ ["end"])
    else declaring l parts
  | .procedure => declaring l parts
  | .call => "call" :: l.value :: "(" :: (separated "," (parts.map Part.words) ++ [")"])
  | .typeExpr => typeWords l.value l.size l.pointer
  | .modifier => [l.value]
  | .field =>
    -- a segment of a path has a path, a field of a record has its type in front
    if l.path.isSome then "::" :: l.value :: (offsetWords l.offset ++ flat parts)
    else flat parts ++ [l.value]
  | .assignment => separated ":" (parts.map Part.words)
  | .declaration => declaring l parts
  | .reference =>
    match l.typeName with
    | some type => typeWords type l.size l.pointer ++ [l.value]
    | none => starWords l.pointer ++ l.value :: flat parts
  | .allocation => "init" :: typeWords (l.typeName.getD "") l.size l.pointer
  | .scalar => if l.typeName = some "string" then [spelling .text l.value] else [l.value]
  | .dynamicOffset => "(" :: l.value :: (flat parts ++ [")"])
  | .print => "print" :: flat parts
  | .ret => "ret" :: flat parts

mutual

/-- The words of a tree. -/
def Node.words : Node → List String
  | ⟨label, children⟩ => layout label (Node.parts children)

/-- The children of a node as it writes them. -/
def Node.parts : List Node → List Part
  | [] => []
  | n :: rest => ⟨n.label.kind, n.words⟩ :: Node.parts rest

end

/-- The source of a tree: its words with one blank between neighbours. -/
def Node.source (n : Node) : String := spaced n.words

/-! ## 2. The words by production -/

/-- A node as its parent writes it. -/
def Node.part (n : Node) : Part := ⟨n.kind, n.words⟩

theorem Node.parts_eq_map : ∀ ns : List Node, Node.parts ns = ns.map Node.part
  | [] => by
    rw [Node.parts]
    rfl
  | n :: rest => by
    rw [Node.parts, Node.parts_eq_map rest]
    rfl

theorem Node.words_mk (label : Label) (children : List Node) :
    Node.words ⟨label, children⟩ = layout label (children.map Node.part) := by
  rw [Node.words, Node.parts_eq_map]

@[simp] theorem flat_map_part (ns : List Node) : flat (ns.map Node.part) = ns.flatMap Node.words :=
  List.flatMap_map ..

@[simp] theorem map_words_map_part (ns : List Node) :
    (ns.map Node.part).map Part.words = ns.map Node.words := by
  rw [List.map_map]
  rfl

/-- The parts of some kinds are those of the nodes of these kinds. -/
theorem filter_map_part (p : NodeKind → Bool) (ns : List Node) :
    (ns.map Node.part).filter (fun q => p q.kind) = (ns.filter fun n => p n.kind).map Node.part :=
  List.filter_map

/-- The base of a path and the segments below it. -/
def pathWords (n : Node) : List String := n.value :: n.children.flatMap Node.words

theorem Node.words_reference (name : String) (segments : List Node) :
    Node.words ⟨{ kind := .reference, value := name }, segments⟩ =
      pathWords ⟨{ kind := .reference, value := name }, segments⟩ := by
  rw [Node.words_mk]
  show name :: flat _ = _
  rw [flat_map_part]
  rfl

theorem Node.words_dynamicOffset (name : String) (segments : List Node) :
    Node.words ⟨{ kind := .dynamicOffset, value := name }, segments⟩ =
      "(" :: (pathWords ⟨{ kind := .dynamicOffset, value := name }, segments⟩ ++ [")"]) := by
  rw [Node.words_mk]
  show "(" :: name :: (flat _ ++ [")"]) = _
  rw [flat_map_part]
  rfl

theorem Node.words_segment (name path : String) (offset : UInt64) (below : List Node) :
    Node.words ⟨{ kind := .field, value := name, path := some path, offset }, below⟩ =
      "::" :: name :: (offsetWords offset ++ below.flatMap Node.words) := by
  rw [Node.words_mk]
  show "::" :: name :: (offsetWords offset ++ flat _) = _
  rw [flat_map_part]

theorem Node.words_field (name : String) (types : List Node) :
    Node.words ⟨{ kind := .field, value := name }, types⟩ =
      types.flatMap Node.words ++ [name] := by
  rw [Node.words_mk]
  show flat _ ++ [name] = _
  rw [flat_map_part]

theorem Node.words_assignment (target value : Node) :
    Node.words ⟨{ kind := .assignment }, [target, value]⟩ =
      target.words ++ ":" :: value.words := by
  rw [Node.words_mk]
  show target.words ++ (":" :: value.words ++ []) = _
  rw [List.append_nil]

theorem Node.words_anon (members : List Node) :
    Node.words ⟨{ kind := .record }, members⟩ =
      "declare" :: "anon" :: (members.flatMap Node.words ++ ["end"]) := by
  rw [Node.words_mk]
  show "declare" :: "anon" :: (flat _ ++ ["end"]) = _
  rw [flat_map_part]

theorem Node.words_nested (name path : String) (fields : List Node) :
    Node.words ⟨{ kind := .record, value := name, path := some path }, fields⟩ =
      "[" :: "struct" :: "]" :: name :: "begin" :: (fields.flatMap Node.words ++ ["end"]) := by
  rw [Node.words_mk]
  show "[" :: "struct" :: "]" :: name :: "begin" :: (flat _ ++ ["end"]) = _
  rw [flat_map_part]

theorem Node.words_call (name : String) (values : List Node) :
    Node.words ⟨{ kind := .call, value := name },
        values.map fun n => ⟨{ kind := .argument }, [n]⟩⟩ =
      "call" :: name :: "(" :: (separated "," (values.map Node.words) ++ [")"]) := by
  have harg : ∀ n : Node, Node.words ⟨{ kind := .argument }, [n]⟩ = n.words := by
    intro n
    rw [Node.words_mk]
    show n.words ++ [] = _
    rw [List.append_nil]
  rw [Node.words_mk]
  show "call" :: name :: "(" :: (separated "," (List.map Part.words _) ++ [")"]) = _
  rw [map_words_map_part, List.map_map]
  simp only [Function.comp_def, harg]

/-- A declaration with modifiers behind its other children. -/
theorem Node.words_declaring {n : Node} {mods : List Node}
    (hl : ∀ parts, layout n.label parts = declaring n.label parts)
    (hc : ∀ m ∈ n.children, m.kind ≠ .modifier) (hm : ∀ m ∈ mods, m.kind = .modifier) :
    Node.words ⟨n.label, n.children ++ mods⟩ =
      "declare" :: (mods.flatMap Node.words ++
        declaredWords n.label (n.children.map Node.part)) := by
  have hmods : ((n.children ++ mods).filter fun m => m.kind == .modifier) = mods := by
    rw [List.filter_append, List.filter_eq_nil_iff.mpr, List.filter_eq_self.mpr, List.nil_append]
    · exact fun m h => beq_iff_eq.mpr (hm m h)
    · exact fun m h => fun e => hc m h (beq_iff_eq.mp e)
  have hrest : ((n.children ++ mods).filter fun m => m.kind != .modifier) = n.children := by
    rw [List.filter_append, List.filter_eq_self.mpr, List.filter_eq_nil_iff.mpr, List.append_nil]
    · exact fun m h => by simp [hm m h]
    · exact fun m h => bne_iff_ne.mpr (hc m h)
  rw [Node.words_mk, hl, declaring, filter_map_part (· == .modifier),
    filter_map_part (· != .modifier), hmods, hrest, flat_map_part]

theorem declaredWords_procedure (name : String) {type : Node} {params body : List Node}
    (ht : type.kind = .typeExpr) (hp : ∀ p ∈ params, p.kind = .argument)
    (hb : ∀ s ∈ body, s.kind ≠ .typeExpr ∧ s.kind ≠ .argument) :
    declaredWords { kind := .procedure, value := name }
        ((type :: (params ++ body)).map Node.part) =
      type.words ++ "::" :: name :: "(" :: (separated "," (params.map Node.words) ++ ")" ::
        (body.flatMap Node.words ++ ["end"])) := by
  have htypes : ((type :: (params ++ body)).filter fun m => m.kind == .typeExpr) = [type] := by
    rw [List.filter_cons_of_pos (by simp [ht]), List.filter_eq_nil_iff.mpr]
    intro m hm e
    rcases List.mem_append.mp hm with hm | hm
    · rw [hp m hm] at e
      cases e
    · exact (hb m hm).1 (beq_iff_eq.mp e)
  have hparams : ((type :: (params ++ body)).filter fun m => m.kind == .argument) = params := by
    rw [List.filter_cons_of_neg (by simp [ht]), List.filter_append, List.filter_eq_self.mpr,
      List.filter_eq_nil_iff.mpr, List.append_nil]
    · exact fun m hm e => (hb m hm).2 (beq_iff_eq.mp e)
    · exact fun m hm => beq_iff_eq.mpr (hp m hm)
  have hbody : ((type :: (params ++ body)).filter fun m =>
      m.kind != .typeExpr && m.kind != .argument) = body := by
    rw [List.filter_cons_of_neg (by simp [ht]), List.filter_append, List.filter_eq_nil_iff.mpr,
      List.filter_eq_self.mpr, List.nil_append]
    · exact fun m hm => by simp [hb m hm]
    · exact fun m hm => by simp [hp m hm]
  show flat _ ++ "::" :: name :: "(" :: (separated "," (List.map Part.words _) ++ ")" ::
    (flat _ ++ ["end"])) = _
  rw [filter_map_part (· == .typeExpr), filter_map_part (· == .argument),
    filter_map_part fun k => k != .typeExpr && k != .argument, htypes, hparams, hbody,
    flat_map_part, flat_map_part, map_words_map_part, List.flatMap_singleton]

end Osclan
