/-
  File:      Osclan/Proofs/SizeErasure.lean
  Subject:   Sizes do not decide what is accepted.

  Two trees that are the same but for the sizes in their labels are accepted together and refused
  together, as long as no size leaves the word. The two runs go alike in the sense of `Likeness`,
  with every name standing for itself and sizes not counting; what is alike in this sense is the
  same once its sizes are taken off.

  * `Node.unsized`, `Ty.unsized`, `Scope.unsized` -- trees, types and scopes without their sizes;
  * `Likeness.sizeless` -- the comparison that leaves sizes out;
  * `Fault.Resized` -- refusals that differ at most in a printed size;
  * `analyze_unsized` -- the main result.
-/
import Osclan.Proofs.LikeRuns

namespace Osclan

/-! ## 1. Taking off sizes -/

/-- The label without a size. -/
def Label.unsized (l : Label) : Label := { l with size := none }

mutual

/-- The tree without the sizes in its labels. -/
def Node.unsized : Node → Node
  | ⟨l, children⟩ => ⟨l.unsized, Node.unsizedAll children⟩

/-- Some trees without sizes. -/
def Node.unsizedAll : List Node → List Node
  | [] => []
  | n :: rest => n.unsized :: Node.unsizedAll rest

end

mutual

/-- The type with no bound declared for it or for a part of it. -/
def Ty.unsized : Ty → Ty
  | ⟨name, _, fields⟩ => ⟨name, 0, Ty.unsizedFields fields⟩

/-- The fields of a type without bounds. -/
def Ty.unsizedFields : List (String × Ty) → List (String × Ty)
  | [] => []
  | (key, type) :: rest => (key, type.unsized) :: Ty.unsizedFields rest

end

/-- The variable without a bound, and so without a size. -/
def Variable.unsized (v : Variable) : Variable := ⟨v.name, v.type.unsized, v.pointer, 0⟩

/-- The procedure with no bound in its result or its parameters. -/
def Procedure.unsized (p : Procedure) : Procedure :=
  ⟨p.name, p.returns.map Ty.unsized, p.params.map Variable.unsized⟩

/-- The table with every value changed. -/
def Table.mapValues {α : Type} (f : α → α) (t : Table α) : Table α :=
  t.map fun entry => (entry.1, f entry.2)

/-- The scope with the same declarations and no sizes. -/
def Scope.unsized (sc : Scope) : Scope :=
  { depth := sc.depth
    vars := sc.vars.mapValues Variable.unsized
    types := sc.types.mapValues Ty.unsized
    procs := sc.procs.mapValues Procedure.unsized }

/-! ## 2. The comparison without sizes -/

/-- Every name stands for itself, and sizes do not count. -/
def Likeness.sizeless : Likeness where
  names := Eq
  paths := Eq
  sized := False
  key hx hy := by rw [hx, hy]
  empty hx := by rw [hx]
  void hx := by rw [hx]
  structWord hx := by rw [hx]
  builtin hx _ := by rw [hx]
  builtin_self _ := rfl
  segments hp := by rw [hp]

theorem option_rel_of_eq {α : Type} {a b : Option α} (h : b = a) : Option.Rel Eq a b := by
  rw [h]
  cases a with
  | none => exact .none
  | some x => exact .some rfl

theorem eq_of_option_rel {α : Type} {a b : Option α} (h : Option.Rel Eq a b) : b = a := by
  cases h with
  | none => rfl
  | some hx => rw [hx]

theorem Label.like_of_unsized {l l' : Label} (h : l'.unsized = l.unsized) :
    l.Like .sizeless l' := by
  rcases l with ⟨kind, value, typeName, size, pointer, path, offset⟩
  rcases l' with ⟨kind', value', typeName', size', pointer', path', offset'⟩
  obtain ⟨rfl, rfl, rfl, -, rfl, rfl, rfl⟩ := Label.mk.inj h
  exact ⟨rfl, fun _ => rfl, fun _ => rfl, option_rel_of_eq rfl, False.elim, rfl,
    option_rel_of_eq rfl, rfl⟩

theorem Label.Like.unsized {l l' : Label} (h : l.Like .sizeless l') : l'.unsized = l.unsized := by
  have hvalue : l'.value = l.value := by
    rcases h.value with hv | hv
    · exact hv.symm
    · exact hv
  have htype : l'.typeName = l.typeName := eq_of_option_rel h.typeName
  have hpath : l'.path = l.path := eq_of_option_rel h.path
  unfold Label.unsized
  rw [h.kind, hvalue, htype, h.pointer, hpath, h.offset]

mutual

/-- Trees that differ in sizes only are alike, -/
theorem Node.like_of_unsized : ∀ {n n' : Node}, n'.unsized = n.unsized → n.Like .sizeless n'
  | ⟨l, ns⟩, ⟨l', ns'⟩, h => by
    rw [Node.unsized, Node.unsized, Node.mk.injEq] at h
    exact .mk (Label.like_of_unsized h.1) (Node.likeAll_of_unsized h.2)

theorem Node.likeAll_of_unsized : ∀ {ns ns' : List Node},
    Node.unsizedAll ns' = Node.unsizedAll ns → List.Forall₂ (Node.Like .sizeless) ns ns'
  | [], [], _ => .nil
  | [], n' :: rest', h => by
    rw [Node.unsizedAll, Node.unsizedAll] at h
    cases h
  | n :: rest, [], h => by
    rw [Node.unsizedAll, Node.unsizedAll] at h
    cases h
  | n :: rest, n' :: rest', h => by
    rw [Node.unsizedAll, Node.unsizedAll, List.cons.injEq] at h
    exact .cons (Node.like_of_unsized h.1) (Node.likeAll_of_unsized h.2)

end

mutual

/-- and trees that are alike differ in sizes only. -/
theorem Node.Like.unsized : ∀ {n n' : Node}, n.Like .sizeless n' → n'.unsized = n.unsized
  | ⟨l, ns⟩, _, h => by
    cases h with
    | mk hl hns => rw [Node.unsized, Node.unsized, hl.unsized, Node.like_unsizedAll hns]

theorem Node.like_unsizedAll : ∀ {ns ns' : List Node},
    List.Forall₂ (Node.Like .sizeless) ns ns' → Node.unsizedAll ns' = Node.unsizedAll ns
  | [], _, h => by
    cases h
    rfl
  | n :: rest, _, h => by
    cases h with
    | cons hn hrest =>
      rw [Node.unsizedAll, Node.unsizedAll, hn.unsized, Node.like_unsizedAll hrest]

end

mutual

theorem Ty.Like.unsized : ∀ {t t' : Ty}, t.Like .sizeless t' → t'.unsized = t.unsized
  | ⟨name, size, fields⟩, _, h => by
    cases h with
    | mk hx _ hf => rw [Ty.unsized, Ty.unsized, ← hx, Ty.like_unsizedFields hf]

theorem Ty.like_unsizedFields : ∀ {fs fs' : List (String × Ty)},
    List.Forall₂ (LikeEntry .sizeless (Ty.Like .sizeless)) fs fs' →
    Ty.unsizedFields fs' = Ty.unsizedFields fs
  | [], _, h => by
    cases h
    rfl
  | (key, t) :: rest, _, h => by
    cases h with
    | cons he hrest =>
      cases he with
      | mk hx ht =>
        rw [Ty.unsizedFields, Ty.unsizedFields, ← hx, ht.unsized, Ty.like_unsizedFields hrest]

end

theorem Variable.Like.unsized {v v' : Variable} (h : v.Like .sizeless v') :
    v'.unsized = v.unsized := by
  unfold Variable.unsized
  rw [← h.name, h.type.unsized, h.pointer]

/-- Lists of like things are the same once the sizes are off. -/
theorem like_map {α β : Type} {R : α → α → Prop} {f : α → β} (hf : ∀ a b, R a b → f b = f a)
    {as bs : List α} (h : List.Forall₂ R as bs) : bs.map f = as.map f := by
  induction h with
  | nil => rfl
  | cons hr _ ih => rw [List.map_cons, List.map_cons, hf _ _ hr, ih]

theorem Procedure.Like.unsized {p p' : Procedure} (h : p.Like .sizeless p') :
    p'.unsized = p.unsized := by
  have hreturns : p'.returns.map Ty.unsized = p.returns.map Ty.unsized := by
    rcases option_rel_cases h.returns with ⟨e, e'⟩ | ⟨t, t', e, e', ht⟩
    · rw [e, e']
    · rw [e, e', Option.map_some, Option.map_some, ht.unsized]
  unfold Procedure.unsized
  rw [← h.name, hreturns, like_map (fun _ _ hv => hv.unsized) h.params]

theorem Table.like_mapValues {α : Type} {R : α → α → Prop} {f : α → α}
    (hf : ∀ a b, R a b → f b = f a) {t t' : Table α}
    (h : List.Forall₂ (LikeEntry .sizeless R) t t') : t'.mapValues f = t.mapValues f := by
  refine like_map (fun e e' he => ?_) h
  cases he with
  | mk hx hr => rw [← hx, hf _ _ hr]

theorem Scope.Like.unsized {sc sc' : Scope} (h : sc.Like .sizeless sc') :
    sc'.unsized = sc.unsized := by
  unfold Scope.unsized
  rw [h.depth, Table.like_mapValues (fun _ _ hv => hv.unsized) h.vars,
    Table.like_mapValues (fun _ _ ht => ht.unsized) h.types,
    Table.like_mapValues (fun _ _ hp => hp.unsized) h.procs]

/-! ## 3. Runs -/

/-- The refusals are the same but for the size of the place in an illegal store. -/
inductive Fault.Resized : Fault → Fault → Prop where
  | refl (f : Fault) : Fault.Resized f f
  | store (type : Ty) (size size' : UInt64) (source : String) :
      Fault.Resized (.illegalAssignment (type.textAs size) source)
        (.illegalAssignment (type.textAs size') source)

theorem Fault.Like.resized {f f' : Fault} (h : f.Like .sizeless f') : f.Resized f' := by
  have hself : ∀ {x x' : String}, Likeness.sizeless.names x x' ∨ x' = x → x' = x :=
    fun hx => hx.elim Eq.symm id
  cases h with
  | unresolvedVariable hx | unresolvedType hx | unresolvedProcedure hx | argumentCount hx
  | unreachableCode hx | unexpectedReturnValue hx | missingReturnValue hx =>
    rw [← hx]
    exact .refl _
  | unresolvedPath hp =>
    have hp' := hp.elim id id
    rw [← hp']
    exact .refl _
  | @redeclared w w' hw =>
    have e : w' = w := by
      rcases w with ⟨entity, name⟩
      rcases w' with ⟨entity', name'⟩
      obtain rfl : entity' = entity := hw.entity
      obtain rfl : name = name' := hw.name
      rfl
    rw [e]
    exact .refl _
  | @illegalAssignment t t' source ht =>
    have hname : t.name = t'.name := ht.name
    have htext : t'.textAs t'.size = t.textAs t'.size := by rw [Ty.textAs, Ty.textAs, hname]
    rw [htext]
    exact .store t t.size t'.size source
  | malformedParameter hx | untyped hx =>
    rw [hself hx]
    exact .refl _
  | malformedNode => exact .refl _

/-- **Sizes do not decide what is accepted.** Of two trees that differ in sizes only, neither of
    which has a size that leaves the word, both are accepted or both are refused. If they are
    accepted, the trees and the scopes handed over differ in sizes only; if they are refused, then
    for one reason and of one name. -/
theorem analyze_unsized {tree tree' : Node} (h : tree'.unsized = tree.unsized)
    (hfits : (Check.analyze tree).outcome .fresh ≠ .error .sizeOverflow)
    (hfits' : (Check.analyze tree').outcome .fresh ≠ .error .sizeOverflow) :
    (∃ a a', (Check.analyze tree).outcome .fresh = .ok a ∧
      (Check.analyze tree').outcome .fresh = .ok a' ∧ a'.tree.unsized = a.tree.unsized ∧
      a'.scopes.map Scope.unsized = a.scopes.map Scope.unsized ∧
      a'.globals.unsized = a.globals.unsized) ∨
    (∃ f f', (Check.analyze tree).outcome .fresh = .error (.fault f) ∧
      (Check.analyze tree').outcome .fresh = .error (.fault f') ∧ f.Resized f') := by
  have hends := analyze_alike (Node.like_of_unsized h) (.inl fun _ => rfl) _ _
    (Analyzer.like_fresh (L := .sizeless))
  unfold Check.outcome at hfits hfits' ⊢
  generalize Check.analyze tree .fresh = r at hends hfits ⊢
  generalize Check.analyze tree' .fresh = r' at hends hfits' ⊢
  cases hends with
  | ok ha hs =>
    have hscopes := like_map (fun _ _ hsc => hsc.unsized) ha.scopes
    exact .inl ⟨_, _, rfl, rfl, ha.tree.unsized, hscopes, ha.globals.unsized⟩
  | fault hf => exact .inr ⟨_, _, rfl, rfl, hf.resized⟩
  | overflow => exact absurd rfl hfits
  | left => exact absurd rfl hfits
  | right => exact absurd rfl hfits'

/-- The program `declare [int(size)] b : 300`, the size left out if there is none. -/
def boundedProgram (size : Option UInt64) : Program :=
  ⟨[.declaration [] (.global ⟨"int", size, false⟩ "b" (.number "300"))]⟩

set_option maxRecDepth 20000 in
theorem analyze_unsized_of_bounds : ∃ a a',
    (Check.analyze (boundedProgram (some 1)).toNode).outcome .fresh = .ok a ∧
    (Check.analyze (boundedProgram none).toNode).outcome .fresh = .ok a' ∧
    a'.tree.unsized = a.tree.unsized ∧
    a'.scopes.map Scope.unsized = a.scopes.map Scope.unsized ∧
    a'.globals.unsized = a.globals.unsized ∧
    a.warnings = [⟨"int(1)", "int(3)"⟩] ∧ a'.warnings = [] := by
  have hw : ((Check.analyze (boundedProgram (some 1)).toNode).outcome .fresh).toOption.map
      Analysis.warnings = some [⟨"int(1)", "int(3)"⟩] := by cbv
  have hw' : ((Check.analyze (boundedProgram none).toNode).outcome .fresh).toOption.map
      Analysis.warnings = some [] := by cbv
  obtain ⟨a, ha, hwarn⟩ := Option.map_eq_some_iff.mp hw
  obtain ⟨a', ha', hwarn'⟩ := Option.map_eq_some_iff.mp hw'
  have hok := ok_of_toOption ha
  have hok' := ok_of_toOption ha'
  have hunsized : (boundedProgram none).toNode.unsized = (boundedProgram (some 1)).toNode.unsized :=
    rfl
  have hfits : ∀ {r : Except Abort Analysis} {b : Analysis}, r = .ok b →
      r ≠ .error .sizeOverflow := by
    intro r b hr he
    rw [hr] at he
    cases he
  rcases analyze_unsized hunsized (hfits hok) (hfits hok') with
    ⟨b, b', hb, hb', ht, hs, hg⟩ | ⟨f, f', hf, _⟩
  · obtain rfl := Except.ok.inj (hok.symm.trans hb)
    obtain rfl := Except.ok.inj (hok'.symm.trans hb')
    exact ⟨a, a', hok, hok', ht, hs, hg, hwarn, hwarn'⟩
  · rw [hok] at hf
    cases hf

end Osclan
