/-
  File:      Osclan/Proofs/Hygiene.lean
  Subject:   The check does not look at names.

  A source whose names are renamed is checked as the source is: the outcome is the outcome of the
  source, renamed. The two runs go alike in the sense of `Likeness`, with each name standing for the
  renamed one and sizes counting, and what is alike in this sense is what renaming gives.

  * `Likeness.ofRenaming` -- the comparison of a program with the renamed one;
  * `Node.Named.like_rename` -- a tree with names of a source is like its renaming;
  * `Node.Like.eq_rename`, `Scope.Like.eq_rename`, … -- what is like something is its renaming;
  * `analyze_rename` -- the main result.
-/
import Osclan.Proofs.LikeRuns
import Osclan.Proofs.Renaming
import Osclan.Proofs.Resolution
import Osclan.Proofs.StageContract

namespace Osclan

variable {r : String → String}

/-! ## 1. A program and the renamed one -/

/-- The second text is the first one renamed, which is a name or none. -/
def Name.Renamed (r : String → String) (x x' : String) : Prop :=
  (x = "" ∨ Name.InSource x) ∧ x' = Name.rename r x

/-- What is no identifier is kept; an identifier becomes an identifier. -/
theorem Name.Renamed.cases (hr : Renaming r) {x x' : String} (h : Name.Renamed r x x') :
    (x' = x ∧ ¬ Name.IsIdent x) ∨ (Name.IsIdent x ∧ Name.IsIdent x' ∧ x' = r x) := by
  obtain ⟨hx, rfl⟩ := h
  rcases hx with rfl | hx
  · exact .inl ⟨rfl, by decide⟩
  · rw [Name.rename_of_inSource hx]
    rcases hx with rfl | hx
    · exact .inl ⟨hr.word (.inr (by decide)), by decide⟩
    · exact .inr ⟨hx, hr.ident hx, rfl⟩

/-- A property that only kept names have holds of a name exactly if it holds of the renamed one. -/
theorem Name.Renamed.iff_of_kept (hr : Renaming r) {q : String → Prop}
    (hq : ∀ {x : String}, q x → r x = x) {x x' : String} (h : Name.Renamed r x x') :
    q x ↔ q x' := by
  rcases h.cases hr with ⟨rfl, _⟩ | ⟨hx, hx', rfl⟩
  · exact Iff.rfl
  · constructor
    · intro h
      rw [hq h]
      exact h
    · intro h
      rw [← hr.inj hx' hx (hq h)]
      exact h

theorem Name.Renamed.plain (hr : Renaming r) {x x' : String} (h : Name.Renamed r x x') :
    Name.Plain x ∧ Name.Plain x' := by
  obtain ⟨hx, rfl⟩ := h
  rcases hx with rfl | hx
  · have hempty : Name.Plain "" := by decide
    rw [Name.rename, if_pos rfl]
    exact ⟨hempty, hempty⟩
  · exact ⟨hx.plain, (hx.rename hr).plain⟩

/-- **Renaming tells names apart.** -/
theorem Name.Renamed.eq_iff (hr : Renaming r) {x x' y y' : String} (hx : Name.Renamed r x x')
    (hy : Name.Renamed r y y') : x = y ↔ x' = y' := by
  constructor
  · intro e
    rw [hx.2, hy.2, e]
  · intro e
    rcases hx.cases hr with ⟨ex, hnx⟩ | ⟨hix, hix', ex⟩
    · rcases hy.cases hr with ⟨ey, _⟩ | ⟨_, hiy', _⟩
      · rw [← ex, e, ey]
      · rw [← ex, e] at hnx
        exact absurd hiy' hnx
    · rcases hy.cases hr with ⟨ey, hny⟩ | ⟨hiy, _, ey⟩
      · rw [← ey, ← e] at hny
        exact absurd hix' hny
      · exact hr.inj hix hiy (by rw [← ex, ← ey, e])

theorem Name.Renamed.mangle_iff (hr : Renaming r) {x x' y y' : String}
    (hx : Name.Renamed r x x') (hy : Name.Renamed r y y') :
    Name.mangle x = Name.mangle y ↔ Name.mangle x' = Name.mangle y' := by
  constructor
  · intro e
    have hxy := (hx.plain hr).1.mangle_inj (hy.plain hr).1 e
    rw [(hx.eq_iff hr hy).mp hxy]
  · intro e
    have hxy := (hx.plain hr).2.mangle_inj (hy.plain hr).2 e
    rw [(hx.eq_iff hr hy).mpr hxy]

theorem hasSegments_of_not_mem {cs : List Char} (h : ':' ∉ cs) : hasSegments cs = false := by
  induction cs with
  | nil => rfl
  | cons c cs ih =>
    obtain ⟨hc, hcs⟩ := not_or.mp fun hm => h (List.mem_cons.mpr hm)
    rw [hasSegments, ih hcs, Bool.or_false, beq_eq_false_iff_ne.mpr (Ne.symm hc), Bool.false_and]

/-- A path has as many segments as the renamed one, so it has one or more. -/
theorem hasSegments_renamePath (hr : Renaming r) {path : String}
    (h : Name.IsPath Name.InSource path) :
    hasSegments path.toList = hasSegments (Name.renamePath r path).toList := by
  cases h with
  | base hx =>
    have hsingle : ∀ {x : String}, Name.InSource x → hasSegments x.toList = false :=
      fun hx => hasSegments_of_not_mem (hx.not_mem (.inr (.inl rfl)))
    rw [Name.renamePath_of_inSource hx, hsingle hx, hsingle (hx.rename hr)]
  | join _ hx => rw [Name.renamePath_joinPath _ hx, hasSegments_joinPath, hasSegments_joinPath]

theorem bool_eq_of_iff {a b : Bool} (h : a = true ↔ b = true) : a = b := Bool.eq_iff_iff.mpr h

/-- **Names stand for the renamed ones**, and sizes count. -/
def Likeness.ofRenaming (hr : Renaming r) : Likeness where
  names := Name.Renamed r
  paths p p' := Name.IsPath Name.InSource p ∧ p' = Name.renamePath r p
  sized := True
  key hx hy := hx.mangle_iff hr hy
  empty hx := hx.eq_iff hr ⟨.inl rfl, rfl⟩
  void hx := bool_eq_of_iff (hx.iff_of_kept hr fun h => hr.word (.inl h))
  structWord hx := bool_eq_of_iff (hx.iff_of_kept hr fun h => hr.word (.inr h))
  builtin {_ _ w} hx hw := by
    refine hx.iff_of_kept hr (q := fun x => x = w) fun e => ?_
    rw [e, hr.builtin hw]
  builtin_self hw := by
    have hs : Name.InSource _ := .inr (Name.isIdent_builtin hw)
    exact ⟨.inr hs, by rw [Name.rename_of_inSource hs, hr.builtin hw]⟩
  segments hp := by
    rw [hp.2]
    exact hasSegments_renamePath hr hp.1

/-- **A tree with names of a source is like its renaming.** -/
theorem Label.Named.like_rename (hr : Renaming r) {l : Label} (h : l.Named Name.InSource) :
    l.Like (.ofRenaming hr) (l.rename r) := by
  constructor
  · rfl
  · intro hn
    exact ⟨h.value hn, if_pos hn⟩
  · intro hn
    exact if_neg (ne_true_of_eq_false hn)
  · show Option.Rel _ l.typeName (l.typeName.map (Name.rename r))
    have ht := h.typeName
    cases e : l.typeName with
    | none => exact .none
    | some x => exact .some ⟨.inr (ht x e), rfl⟩
  · exact fun _ => rfl
  · rfl
  · show Option.Rel _ l.path (l.path.map (Name.renamePath r))
    have hp := h.path
    cases e : l.path with
    | none => exact .none
    | some p => exact .some ⟨hp p e, rfl⟩
  · rfl

mutual

theorem Node.Named.like_rename (hr : Renaming r) : ∀ {n : Node}, n.Named Name.InSource →
    n.Like (.ofRenaming hr) (n.rename r)
  | ⟨l, ns⟩, h => by
    rw [Node.rename]
    exact .mk (h.label.like_rename hr) (Node.like_renameAll hr h.children)

theorem Node.like_renameAll (hr : Renaming r) : ∀ {ns : List Node},
    (∀ n ∈ ns, n.Named Name.InSource) →
    List.Forall₂ (Node.Like (.ofRenaming hr)) ns (Node.renameAll r ns)
  | [], _ => by
    rw [Node.renameAll]
    exact .nil
  | n :: rest, h => by
    obtain ⟨hn, hrest⟩ := List.forall_mem_cons.mp h
    rw [Node.renameAll]
    exact .cons (hn.like_rename hr) (Node.like_renameAll hr hrest)

end

/-! ## 2. What is like something is its renaming -/

section Equations

variable {hr : Renaming r}

theorem Label.Like.eq_rename {l l' : Label} (h : l.Like (.ofRenaming hr) l') :
    l' = l.rename r := by
  have hvalue : l'.value = if l.naming then Name.rename r l.value else l.value := by
    by_cases hn : l.naming = true
    · rw [if_pos hn, (h.name hn).2]
    · rw [if_neg hn, h.text (eq_false_of_ne_true hn)]
  have htype : l'.typeName = l.typeName.map (Name.rename r) := by
    rcases option_rel_cases h.typeName with ⟨e, e'⟩ | ⟨x, x', e, e', hx⟩
    · rw [e, e', Option.map_none]
    · rw [e, e', Option.map_some, hx.2]
  have hpath : l'.path = l.path.map (Name.renamePath r) := by
    rcases option_rel_cases h.path with ⟨e, e'⟩ | ⟨p, p', e, e', hp⟩
    · rw [e, e', Option.map_none]
    · rw [e, e', Option.map_some, hp.2]
  rcases l' with ⟨kind', value', typeName', size', pointer', path', offset'⟩
  unfold Label.rename
  rw [← show kind' = l.kind from h.kind, ← hvalue, ← htype,
    ← show size' = l.size from h.size trivial, ← show pointer' = l.pointer from h.pointer,
    ← hpath, ← show offset' = l.offset from h.offset]

mutual

theorem Node.Like.eq_rename : ∀ {n n' : Node}, n.Like (.ofRenaming hr) n' → n' = n.rename r
  | ⟨l, ns⟩, _, h => by
    cases h with
    | mk hl hns => rw [Node.rename, hl.eq_rename, Node.like_eq_renameAll hns]

theorem Node.like_eq_renameAll : ∀ {ns ns' : List Node},
    List.Forall₂ (Node.Like (.ofRenaming hr)) ns ns' → ns' = Node.renameAll r ns
  | [], _, h => by
    cases h
    rfl
  | n :: rest, _, h => by
    cases h with
    | cons hn hrest => rw [Node.renameAll, hn.eq_rename, Node.like_eq_renameAll hrest]

end

theorem Name.Renamed.eq_renameKey {x x' : String} (h : Name.Renamed r x x') :
    Name.mangle x' = Name.renameKey r (Name.mangle x) := by
  rw [h.2, Name.renameKey_mangle h.1]

mutual

theorem Ty.Like.eq_rename : ∀ {t t' : Ty}, t.Like (.ofRenaming hr) t' → t' = t.rename r
  | ⟨name, size, fields⟩, _, h => by
    cases h with
    | mk hx hs hf => rw [Ty.rename, hx.2, hs trivial, Ty.like_eq_renameFields hf]

theorem Ty.like_eq_renameFields : ∀ {fs fs' : List (String × Ty)},
    List.Forall₂ (LikeEntry (.ofRenaming hr) (Ty.Like (.ofRenaming hr))) fs fs' →
    fs' = Ty.renameFields r fs
  | [], _, h => by
    cases h
    rfl
  | (key, t) :: rest, _, h => by
    cases h with
    | cons he hrest =>
      cases he with
      | mk hx ht =>
        rw [Ty.renameFields, ← hx.eq_renameKey, ht.eq_rename, Ty.like_eq_renameFields hrest]

end

theorem Variable.Like.eq_rename {v v' : Variable} (h : v.Like (.ofRenaming hr) v') :
    v' = v.rename r := by
  rcases v' with ⟨name', type', pointer', size'⟩
  unfold Variable.rename
  rw [← show name' = _ from h.name.2, ← show type' = _ from h.type.eq_rename,
    ← show pointer' = v.pointer from h.pointer, ← show size' = v.size from h.size trivial]

/-- Lists of like things are renamed thing by thing. -/
theorem like_eq_map {α : Type} {R : α → α → Prop} {f : α → α} (hf : ∀ a b, R a b → b = f a)
    {as bs : List α} (h : List.Forall₂ R as bs) : bs = as.map f := by
  induction h with
  | nil => rfl
  | cons hr _ ih => rw [List.map_cons, ← hf _ _ hr, ← ih]

theorem Procedure.Like.eq_rename {p p' : Procedure} (h : p.Like (.ofRenaming hr) p') :
    p' = p.rename r := by
  have hreturns : p'.returns = p.returns.map (Ty.rename r) := by
    rcases option_rel_cases h.returns with ⟨e, e'⟩ | ⟨t, t', e, e', ht⟩
    · rw [e, e', Option.map_none]
    · rw [e, e', Option.map_some, ht.eq_rename]
  rcases p' with ⟨name', returns', params'⟩
  unfold Procedure.rename
  rw [← show name' = _ from h.name.2, ← hreturns,
    ← show params' = _ from like_eq_map (fun _ _ hv => hv.eq_rename) h.params]

theorem Table.like_eq_rename {α : Type} {R : α → α → Prop} {f : α → α}
    (hf : ∀ a b, R a b → b = f a) {t t' : Table α}
    (h : List.Forall₂ (LikeEntry (.ofRenaming hr) R) t t') : t' = t.rename r f := by
  refine like_eq_map (fun e e' he => ?_) h
  cases he with
  | mk hx hr => rw [hx.eq_renameKey, hf _ _ hr]

theorem Scope.Like.eq_rename {sc sc' : Scope} (h : sc.Like (.ofRenaming hr) sc') :
    sc' = sc.rename r := by
  rcases sc' with ⟨depth', vars', types', procs'⟩
  unfold Scope.rename
  rw [← show depth' = sc.depth from h.depth,
    ← show vars' = _ from Table.like_eq_rename (fun _ _ hv => hv.eq_rename) h.vars,
    ← show types' = _ from Table.like_eq_rename (fun _ _ ht => ht.eq_rename) h.types,
    ← show procs' = _ from Table.like_eq_rename (fun _ _ hp => hp.eq_rename) h.procs]

/-- The text of the renamed type is the renamed text. -/
theorem Ty.Like.eq_renameText {t t' : Ty} (h : t.Like (.ofRenaming hr) t') :
    t'.textAs t'.size = Name.renameText r (t.textAs t.size) := by
  have hparen : '(' ∉ t.name.toList := by
    rcases h.name.1 with e | hx
    · rw [e]
      decide
    · exact hx.not_mem (.inr (.inr rfl))
  rw [Name.renameText_textAs hparen, Ty.textAs, Ty.textAs, h.name.2, h.size trivial]

theorem Warning.Like.eq_rename {w w' : Warning} (h : w.Like (.ofRenaming hr) w') :
    w' = w.rename r := by
  obtain ⟨t, t', ht, hdest, hdest'⟩ := h.dest
  rcases w' with ⟨dest', source'⟩
  have hd : dest' = Name.renameText r w.dest := by
    rw [hdest, ← ht.eq_renameText]
    exact hdest'
  unfold Warning.rename
  rw [← hd, ← show source' = w.source from h.source]

theorem Name.Renamed.eq_renamePath {x x' : String} (h : Name.Renamed r x x') :
    x' = Name.renamePath r x := by
  rcases h.1 with rfl | hx
  · exact h.2
  · rw [h.2, Name.renamePath_of_inSource hx]

/-- A fault of what a program says is the renamed fault. -/
theorem Fault.Like.eq_rename {f f' : Fault} (h : f.Like (.ofRenaming hr) f')
    (hs : f.isSemantic = true) : f' = f.rename r := by
  cases h with
  | unresolvedVariable hx | unresolvedType hx | unresolvedProcedure hx | argumentCount hx
  | unreachableCode hx | unexpectedReturnValue hx | missingReturnValue hx =>
    rw [Fault.rename, hx.2]
  | unresolvedPath hp =>
    rw [Fault.rename]
    rcases hp with hp | hx
    · rw [hp.2]
    · rw [← hx.eq_renamePath]
  | @redeclared w w' hw =>
    rcases w' with ⟨entity', name'⟩
    rw [Fault.rename, Redeclared.rename, ← show entity' = w.entity from hw.entity,
      ← show name' = _ from hw.name.2]
  | illegalAssignment ht => rw [Fault.rename, ht.eq_renameText]
  | malformedParameter | untyped | malformedNode => cases hs

theorem Analysis.Like.eq_rename {a a' : Analysis} (h : a.Like (.ofRenaming hr) a') :
    a' = a.rename r := by
  rcases a' with ⟨tree', warnings', scopes', globals'⟩
  unfold Analysis.rename
  rw [← show tree' = _ from h.tree.eq_rename,
    ← show warnings' = _ from like_eq_map (fun _ _ hw => hw.eq_rename) (h.warnings trivial),
    ← show scopes' = _ from like_eq_map (fun _ _ hs => hs.eq_rename) h.scopes,
    ← show globals' = _ from h.globals.eq_rename]

end Equations

/-! ## 3. Runs -/

/-- **The check does not look at names.** A renamed source is checked as the source is: it is
    accepted exactly if the source is, and then with the renamed tree, warnings and scopes; else it
    is refused for the same reason, of the renamed name. -/
theorem analyze_rename (hr : Renaming r) {file source : String} {ts : List Token} {p : Program}
    (ht : tokenize file source = .ok ts) (hp : Program.ofTokens ts = .ok p) :
    (Check.analyze (p.toNode.rename r)).outcome .fresh =
      (((Check.analyze p.toNode).outcome .fresh).map (Analysis.rename r)).mapError
        (Abort.rename r) := by
  have hnamed : p.toNode.Named Name.InSource :=
    ofTokens_named ht hp (.inr (by decide)) (.inr (by decide)) fun _ hs => hs.inSource
  have hends := analyze_alike (hnamed.like_rename hr) (.inr p.aimed_toNode) _ _
    (Analyzer.like_fresh (L := .ofRenaming hr))
  have hsemantic : ∀ f s, Check.analyze p.toNode .fresh = .error (.fault f) s →
      f.isSemantic = true := fun f _ h => (p.analyze_semantic .fresh).stop h f rfl
  unfold Check.outcome
  generalize Check.analyze p.toNode .fresh = x at hends hsemantic ⊢
  generalize Check.analyze (p.toNode.rename r) .fresh = x' at hends ⊢
  cases hends with
  | ok ha _ =>
    rw [ha.eq_rename]
    rfl
  | fault hf =>
    rw [hf.eq_rename (hsemantic _ _ rfl)]
    rfl
  | overflow => rfl
  | left hn => exact absurd trivial hn
  | right hn => exact absurd trivial hn

/-- Two identifiers that are not known by their spelling may be exchanged. -/
theorem Renaming.swap {a b : String} (ha : Name.IsIdent a) (hb : Name.IsIdent b)
    (hfree : ∀ x, x = a ∨ x = b → x ∉ Ty.builtins.map Ty.name ∧ isVoid x = false ∧
      Text.isAsciiWord "struct" x = false) : Renaming (Equiv.swap a b) := by
  have hkept : ∀ {x : String}, ¬ (x = a ∨ x = b) → Equiv.swap a b x = x :=
    fun h => Equiv.swap_apply_of_ne_of_ne (fun e => h (.inl e)) (fun e => h (.inr e))
  constructor
  · intro x hx
    by_cases h : x = a ∨ x = b
    · rcases h with rfl | rfl
      · rw [Equiv.swap_apply_left]
        exact hb
      · rw [Equiv.swap_apply_right]
        exact ha
    · rw [hkept h]
      exact hx
  · exact fun _ _ e => (Equiv.swap a b).injective e
  · exact fun hx => hkept fun h => (hfree _ h).1 hx
  · intro x hx
    refine hkept fun h => ?_
    obtain ⟨_, hvoid, hstruct⟩ := hfree x h
    rw [hvoid, hstruct] at hx
    simp at hx

set_option maxRecDepth 20000 in
/-- The names of the variables and of the procedure are exchanged, and the procedure has a parameter
    of the name that it had itself. -/
theorem analyze_rename_of_shadowing : ∃ a,
    Renaming (Equiv.swap "a-b" "f") ∧
    Accepted "sample" "declare [int] a-b : 1 declare [void] :: f([string] a-b) print a-b end"
      shadowingSample a ∧
    (Check.analyze (shadowingSample.toNode.rename (Equiv.swap "a-b" "f"))).outcome .fresh =
      .ok (a.rename (Equiv.swap "a-b" "f")) := by
  have hr : Renaming (Equiv.swap "a-b" "f") := by
    refine .swap (by decide +kernel) (by decide +kernel) fun x hx => ?_
    rcases hx with rfl | rfl <;> decide
  have ht : (tokenize "sample"
      "declare [int] a-b : 1 declare [void] :: f([string] a-b) print a-b end").toOption =
      some shadowingTokens := by decide +kernel
  have hp : Program.ofTokens shadowingTokens = .ok shadowingSample := by cbv
  obtain ⟨a, h⟩ := accepted_of_stages ht hp (by cbv)
  obtain ⟨ts, s, htokens, hprogram, ha⟩ := id h
  refine ⟨a, hr, h, ?_⟩
  rw [analyze_rename hr htokens hprogram, Check.outcome, ha]
  rfl

end Osclan
