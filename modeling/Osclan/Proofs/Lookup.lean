/-
  File:      Osclan/Proofs/Lookup.lean
  Subject:   Scopes answer as the declarations before a place do.

  The check keeps its declarations in a stack of scopes, under keys that do not tell a hyphen from
  an underscore. No name of a source has an underscore, so for these names looking up a key is
  looking up the name. `Sees` says that a stack answers for such names as an environment does, and
  the lemmas here say what keeps it so: opening a scope, closing one, and each kind of declaration.

  * `Name.Plain`, `lookup_related` -- names without underscores are told apart by their keys;
  * `Depicts` -- a type of the check has the name and the fields of a shape;
  * `Sees` -- a stack and an environment agree on types and variables;
  * `Sees.declareVariable`, `Sees.declareType` -- what a declaration adds on both sides;
  * `recordFields_depicts`, `recordType_depicts` -- the type of a record has the fields it writes.
-/
import Mathlib.Data.List.Forall2
import Osclan.Analysis
import Osclan.Proofs.LexicalScope
import Osclan.Proofs.Name
import Osclan.Proofs.ScopeFrame
import Osclan.Proofs.Spelling

namespace Osclan

/-! ## 1. Plain names -/

/-- The name has no underscore. -/
def Name.Plain (name : String) : Prop := '_' ∉ name.toList

instance (name : String) : Decidable (Name.Plain name) := inferInstanceAs (Decidable (¬ _))

/-- Where there was no underscore, every underscore was a hyphen. -/
theorem replaceChar_replaceChar {cs : List Char} (h : '_' ∉ cs) :
    Name.replaceChar '_' '-' (Name.replaceChar '-' '_' cs) = cs := by
  rw [Name.replaceChar_swap, Name.replaceChar_of_not_mem h]

/-- **Plain names are told apart by their keys.** -/
theorem Name.Plain.mangle_inj {a b : String} (ha : Name.Plain a) (hb : Name.Plain b)
    (h : Name.mangle a = Name.mangle b) : a = b := by
  have hr := congrArg (Name.replaceChar '_' '-') (Name.mangle_eq_mangle_iff.mp h)
  rw [replaceChar_replaceChar ha, replaceChar_replaceChar hb] at hr
  exact String.toList_inj.mp hr

/-- A name at the head of a text is plain, and so is the word `struct`. -/
theorem plain_of_head {c : Char} {cs : List Char} {kind : TokenKind} {value : String} {more : Nat}
    (h : head c cs = .token kind value more) (hk : kind = .ident ∨ kind = .struct) :
    Name.Plain value := by
  have hi := head_is c cs
  rw [h] at hi
  cases hi with
  | text => exact absurd hk (by decide)
  | reserved ho hr =>
    have hall : ∀ r ∈ reservedWords, r.kind = .ident ∨ r.kind = .struct →
        Name.Plain r.value := by decide
    exact hall _ (reserved?_eq_some hr).1 hk
  | ident ho hr ha hrun =>
    have hfirst : Text.isAlphabetic '_' = false := by decide +kernel
    have hrest : isIdentChar '_' = false := by decide +kernel
    unfold Name.Plain
    rw [String.toList_ofList]
    intro hm
    rcases List.mem_cons.mp hm with rfl | hm
    · rw [hfirst] at ha
      cases ha
    · have hall := hrun.all _ hm
      rw [hrest] at hall
      cases hall
  | number => exact absurd hk (by decide)
  | symbol ho hr ha hd hs =>
    have hall : ∀ r ∈ symbols, ¬ (r.2 = .ident ∨ r.2 = .struct) := by decide
    exact absurd hk (hall _ (mem_symbols_of_symbolKind? hs))

/-- The token is no name with an underscore. -/
def Token.Plain (t : Token) : Prop := t.kind = .ident ∨ t.kind = .struct → Name.Plain t.value

theorem Token.Spelled.plain {t : Token} (h : t.Spelled) : t.Plain := by
  intro hk
  have hr : ReadsAs (spelling t.kind t.value) t.kind t.value := h
  obtain ⟨c, cs, _, hh⟩ := readsAs_iff.mp hr
  exact plain_of_head hh hk

/-! ## 2. Tables and types -/

/-- An entry under a plain name, and the same under its key. -/
inductive Keyed {α β : Type} (R : α → β → Prop) : String × α → String × β → Prop where
  | mk {name : String} {a : α} {b : β} : Name.Plain name → R a b →
      Keyed R (name, a) (Name.mangle name, b)

/-- **Looking up a key is looking up the name.** -/
theorem lookup_related {α β : Type} {R : α → β → Prop} {l : List (String × α)} {t : Table β}
    (h : List.Forall₂ (Keyed R) l t) {name : String} (hn : Name.Plain name) :
    Option.Rel R (l.lookup name) (t.find? (Name.mangle name)) := by
  induction h with
  | nil => exact .none
  | @cons a b l t he _ ih =>
    cases he with
    | @mk key a b hk hr =>
      rw [Table.find?_cons, List.lookup_cons]
      by_cases hkey : name = key
      · rw [hkey, beq_self_eq_true, if_pos rfl]
        exact .some hr
      · have hm : ¬ Name.mangle name = Name.mangle key := fun e => hkey (hn.mangle_inj hk e)
        rw [beq_eq_false_iff_ne.mpr hkey, if_neg hm]
        exact ih

/-- The type has the name and the fields of the shape. -/
inductive Depicts : Shape → Ty → Prop where
  | mk {name : String} {size : UInt64} {fields : List (String × Shape)} {types : Table Ty} :
      List.Forall₂ (Keyed Depicts) fields types → Depicts ⟨name, fields⟩ ⟨name, size, types⟩

theorem Depicts.name {t : Shape} {ty : Ty} (h : Depicts t ty) : ty.name = t.name := by
  cases h
  rfl

/-- The size of a type is not part of its shape. -/
theorem Depicts.sized {t : Shape} {ty : Ty} (h : Depicts t ty) (size : UInt64) :
    Depicts t { ty with size } := by
  cases h with
  | mk hf => exact .mk hf

/-- **A type has the fields of its shape**, under plain names. -/
theorem Depicts.field {t : Shape} {ty : Ty} (h : Depicts t ty) {name : String}
    (hn : Name.Plain name) : Option.Rel Depicts (t.field? name) (ty.field? name) := by
  cases h with
  | mk hf => exact lookup_related hf hn

/-! ## 3. Stacks and environments -/

/-- **The stack answers as the environment does**, for plain names: a type it knows has the shape of
    the name, and it knows the variables of the environment and no others. -/
structure Sees (st : ScopeStack) (e : Env) : Prop where
  types : ∀ {name : String} {ty : Ty}, Name.Plain name → st.lookupType? name = some ty →
    Depicts (e.type name) ty
  vars : ∀ {name : String}, Name.Plain name →
    Option.Rel (fun t v => Depicts t v.type) (e.typeOf? name) (st.lookupVariable? name)

/-- Only the answers of a stack are seen. -/
theorem Sees.congr {st st' : ScopeStack} {e : Env} (h : Sees st e)
    (ht : ∀ name, st'.lookupType? name = st.lookupType? name)
    (hv : ∀ name, st'.lookupVariable? name = st.lookupVariable? name) : Sees st' e := by
  constructor
  · intro name ty hn hl
    rw [ht] at hl
    exact h.types hn hl
  · intro name hn
    rw [hv]
    exact h.vars hn

/-- An open scope without entries is not seen. -/
theorem Sees.push {st : ScopeStack} {e : Env} (h : Sees st e) : Sees st.push e :=
  ⟨fun hn hl => h.types hn hl, fun hn => h.vars hn⟩

theorem Sees.enter {st : ScopeStack} {e : Env} (h : Sees st e) (hl : e.locals = none) :
    Sees st e.enter := by
  have hv : ∀ name, e.enter.typeOf? name = e.typeOf? name := by
    intro name
    unfold Env.typeOf? Env.enter
    rw [hl]
    rfl
  refine ⟨fun hn hty => h.types hn hty, fun hn => ?_⟩
  rw [hv]
  exact h.vars hn

/-- An elementary type that is found under a plain name has that name. -/
theorem find?_elementary {name : String} (hn : Name.Plain name) {ty : Ty} : ∀ {names : List String},
    (∀ x ∈ names, Name.Plain x) →
    Table.find? (names.map fun x => (Name.mangle x, Ty.elementary x 0)) (Name.mangle name) =
      some ty → ty = .elementary name 0
  | [], _, h => by cases h
  | x :: rest, hx, h => by
    obtain ⟨hp, hrest⟩ := List.forall_mem_cons.mp hx
    rw [List.map_cons, Table.find?_cons] at h
    split at h
    · rename_i hk
      rw [← Option.some.inj h, hn.mangle_inj hp hk]
    · exact find?_elementary hn hrest h

/-- **A fresh stack knows elementary types only**, and these without a size. -/
theorem lookupType?_fresh {name : String} (hn : Name.Plain name) {ty : Ty}
    (h : ScopeStack.fresh.lookupType? name = some ty) : ty = .elementary name 0 := by
  have hplain : ∀ x ∈ ["int", "uint", "string"], Name.Plain x := by decide
  rw [ScopeStack.lookupType?, ScopeStack.scopes, ScopeStack.fresh, List.nil_append,
    List.findSome?_singleton] at h
  exact find?_elementary hn hplain h

theorem Sees.fresh : Sees ScopeStack.fresh Env.fresh := by
  refine ⟨fun hn hl => ?_, fun _ => .none⟩
  rw [lookupType?_fresh hn hl]
  exact .mk .nil

theorem Table.find?_insert {α : Type} (key k : String) (v : α) : ∀ t : Table α,
    Table.find? (t.insert k v) key = if key = k then some v else t.find? key
  | [] => Table.find?_cons k key v []
  | (k', v') :: rest => by
    rw [Table.insert]
    by_cases h : k' = k
    · rw [if_pos h, Table.find?_cons, Table.find?_cons, h]
      by_cases hk : key = k
      · rw [if_pos hk, if_pos hk]
      · rw [if_neg hk, if_neg hk, if_neg hk]
    · rw [if_neg h, Table.find?_cons, Table.find?_cons, Table.find?_insert key k v rest]
      by_cases hk : key = k'
      · have hne : ¬ key = k := fun e => h (hk.symm.trans e)
        rw [if_pos hk, if_neg hne, if_pos hk]
      · rw [if_neg hk, if_neg hk]

theorem lookupVariable?_declareVariable {st st' : ScopeStack} {v : Variable}
    (h : st.declareVariable v = .ok st') (name : String) :
    st'.lookupVariable? name =
      if Name.mangle name = v.mangled then some v else st.lookupVariable? name := by
  obtain ⟨_, rfl⟩ := ScopeStack.declareVariable_ok.mp h
  rcases st with ⟨root, inner⟩
  have hfirst : ∀ (sc : Scope) (rest : List Scope),
      (({ sc with vars := sc.vars.insert v.mangled v } : Scope) :: rest).findSome?
        (fun s => s.vars.find? (Name.mangle name)) =
      if Name.mangle name = v.mangled then some v
      else (sc :: rest).findSome? fun s => s.vars.find? (Name.mangle name) := by
    intro sc rest
    rw [List.findSome?_cons, List.findSome?_cons, Table.find?_insert]
    by_cases hk : Name.mangle name = v.mangled
    · rw [if_pos hk, if_pos hk]
    · rw [if_neg hk, if_neg hk]
  cases inner with
  | nil => exact hfirst root []
  | cons sc rest => exact hfirst sc (rest ++ [root])

theorem lookupType?_declareVariable {st st' : ScopeStack} {v : Variable}
    (h : st.declareVariable v = .ok st') (name : String) :
    st'.lookupType? name = st.lookupType? name := by
  obtain ⟨_, rfl⟩ := ScopeStack.declareVariable_ok.mp h
  rcases st with ⟨root, inner⟩
  cases inner with
  | nil => rfl
  | cons sc rest => rfl

theorem Env.type_declare (e : Env) (name type other : String) :
    (e.declare name type).type other = e.type other := by
  unfold Env.declare
  cases e.locals with
  | none => rfl
  | some vars => rfl

theorem Env.typeOf?_declare (e : Env) (name type other : String) :
    (e.declare name type).typeOf? other =
      if other = name then some (e.type type) else e.typeOf? other := by
  unfold Env.declare Env.typeOf?
  by_cases h : other = name
  · cases e.locals with
    | none =>
      simp only [Option.getD_none, List.lookup_nil, List.lookup_cons, h, beq_self_eq_true, if_true]
    | some vars => simp only [Option.getD_some, List.lookup_cons, h, beq_self_eq_true, if_true]
  · have hb : (other == name) = false := beq_eq_false_iff_ne.mpr h
    cases e.locals with
    | none => simp only [Option.getD_none, List.lookup_nil, List.lookup_cons, hb, if_neg h]
    | some vars => simp only [Option.getD_some, List.lookup_cons, hb, if_neg h]

/-- **A variable declared on both sides**: it hides what the name stood for, and nothing else
    changes. -/
theorem Sees.declareVariable {st st' : ScopeStack} {e : Env} {v : Variable} {type : String}
    (h : Sees st e) (hd : st.declareVariable v = .ok st') (hv : Name.Plain v.name)
    (ht : Depicts (e.type type) v.type) : Sees st' (e.declare v.name type) := by
  constructor
  · intro name ty hn hl
    rw [lookupType?_declareVariable hd] at hl
    rw [Env.type_declare]
    exact h.types hn hl
  · intro name hn
    rw [lookupVariable?_declareVariable hd, Env.typeOf?_declare]
    by_cases hname : name = v.name
    · rw [if_pos hname, if_pos (by rw [hname]; rfl)]
      exact .some ht
    · have hm : ¬ Name.mangle name = v.mangled := fun e => hname (hn.mangle_inj hv e)
      rw [if_neg hname, if_neg hm]
      exact h.vars hn

/-- No scope is open, and the root is the root of a program. -/
structure ScopeStack.AtTop (st : ScopeStack) : Prop where
  inner : st.inner = []
  depth : st.root.depth = 0

theorem ScopeStack.AtTop.push_depth {st : ScopeStack} (h : st.AtTop) : st.push.depth = 1 := by
  simp only [ScopeStack.push, ScopeStack.depth, ScopeStack.innermost, h.inner, List.headD_nil,
    List.headD_cons, h.depth]

/-- **A type declared in the first open scope belongs to the root.** -/
theorem ScopeStack.AtTop.lookup_declareType {st st' : ScopeStack} {ty : Ty} (h : st.AtTop)
    (hd : st.push.declareType ty = .ok st') :
    ∃ outer : ScopeStack, outer.AtTop ∧ st' = outer.push ∧
      (∀ name, outer.lookupType? name =
        if Name.mangle name = Name.mangle ty.name then some ty else st.lookupType? name) ∧
      (∀ name, outer.lookupVariable? name = st.lookupVariable? name) ∧
      ∀ name, outer.lookupProcedure? name = st.lookupProcedure? name := by
  obtain ⟨_, rfl⟩ := ScopeStack.declareType_ok.mp hd
  rw [ScopeStack.modifyHost, if_pos h.push_depth]
  rcases st with ⟨root, inner⟩
  obtain rfl : inner = [] := h.inner
  refine ⟨⟨{ root with types := root.types.insert (Name.mangle ty.name) ty }, []⟩, ⟨rfl, h.depth⟩,
    rfl, fun name => ?_, fun _ => rfl, fun _ => rfl⟩
  simp only [ScopeStack.lookupType?, ScopeStack.scopes, List.nil_append, List.findSome?_singleton,
    Table.find?_insert]

/-- **So does a procedure.** -/
theorem ScopeStack.AtTop.lookup_declareProcedure {st st' : ScopeStack} {p : Procedure} (h : st.AtTop)
    (hd : st.push.declareProcedure p = .ok st') :
    ∃ outer : ScopeStack, outer.AtTop ∧ st' = outer.push ∧
      (∀ name, outer.lookupProcedure? name =
        if Name.mangle name = p.mangled then some p else st.lookupProcedure? name) ∧
      (∀ name, outer.lookupVariable? name = st.lookupVariable? name) ∧
      ∀ name, outer.lookupType? name = st.lookupType? name := by
  obtain ⟨_, rfl⟩ := ScopeStack.declareProcedure_ok.mp hd
  rw [ScopeStack.modifyHost, if_pos h.push_depth]
  rcases st with ⟨root, inner⟩
  obtain rfl : inner = [] := h.inner
  refine ⟨⟨{ root with procs := root.procs.insert p.mangled p }, []⟩, ⟨rfl, h.depth⟩,
    rfl, fun name => ?_, fun _ => rfl, fun _ => rfl⟩
  simp only [ScopeStack.lookupProcedure?, ScopeStack.scopes, List.nil_append,
    List.findSome?_singleton, Table.find?_insert]

theorem Env.type_record (e : Env) (name : String) (fields : List (String × Shape))
    (other : String) :
    ({ e with records := (name, fields) :: e.records } : Env).type other =
      if other = name then ⟨name, fields⟩ else e.type other := by
  unfold Env.type
  by_cases h : other = name
  · simp only [List.lookup_cons, h, beq_self_eq_true, Option.getD_some, if_true]
  · simp only [List.lookup_cons, beq_eq_false_iff_ne.mpr h, if_neg h]

/-- **A record declared on both sides.** The check declares it from the scope of the record, which
    is closed right after. -/
theorem Sees.declareType {st st' : ScopeStack} {e : Env} {name : String}
    {fields : List (String × Shape)} {ty : Ty} (h : Sees st e) (htop : st.AtTop)
    (hd : st.push.declareType ty = .ok st') (hn : Name.Plain name)
    (hty : Depicts ⟨name, fields⟩ ty) :
    st'.inner ≠ [] ∧ st'.pop.2.AtTop ∧
      Sees st'.pop.2 { e with records := (name, fields) :: e.records } := by
  obtain ⟨outer, houter, rfl, htypes, hvars, _⟩ := htop.lookup_declareType hd
  refine ⟨List.cons_ne_nil _ _, houter, ?_, fun {other} hother => ?_⟩
  · intro other t hother hl
    have hfind : outer.lookupType? other = some t := hl
    rw [htypes, hty.name] at hfind
    rw [Env.type_record]
    by_cases hname : other = name
    · rw [if_pos (by rw [hname])] at hfind
      rw [if_pos hname, ← Option.some.inj hfind]
      exact hty
    · have hm : ¬ Name.mangle other = Name.mangle name := fun e => hname (hother.mangle_inj hn e)
      rw [if_neg hm] at hfind
      rw [if_neg hname]
      exact h.types hother hfind
  · show Option.Rel _ _ (outer.lookupVariable? other)
    rw [hvars]
    exact h.vars hother

/-! ## 4. Written types -/

theorem resolveType_depicts {st : ScopeStack} {e : Env} (h : Sees st e) {name : String}
    (hn : Name.Plain name) {size : Option UInt64} {ty : Ty}
    (hr : resolveType st name size = .ok ty) : Depicts (e.type name) ty := by
  unfold resolveType at hr
  cases hl : st.lookupType? name with
  | none =>
    rw [hl] at hr
    cases hr
  | some t =>
    have ht := h.types hn hl
    rw [hl] at hr
    cases size with
    | none =>
      cases hr
      exact ht
    | some size =>
      cases hr
      exact ht.sized size

/-- The node is a field: it writes one field, and the check adds one of that shape. -/
structure FieldOf (st : ScopeStack) (e : Env) (n : Node) (t : Shape) : Prop where
  plain : Name.Plain n.value
  written : e.field? n = some (n.value, t)
  added : ∀ {fields out : Table Ty} {rest : List Node},
    recordFields st fields (n :: rest) = .ok out →
    ∃ ty, Depicts t ty ∧ recordFields st (fields ++ [(Name.mangle n.value, ty)]) rest = .ok out

/-- The node is no field. -/
def Node.noField (n : Node) : Prop := n.kind ≠ .field ∧ n.kind ≠ .record

theorem Env.fields_cons_of_noField (e : Env) {n : Node} (h : n.noField) (rest : List Node) :
    e.fields (n :: rest) = e.fields rest := by
  rcases n with ⟨l, children⟩
  have hnone : e.field? ⟨l, children⟩ = none := by
    rw [Env.field?]
    split
    · rename_i hk
      exact absurd hk h.2
    · rename_i hk
      exact absurd hk h.1
    · rfl
  rw [Env.fields, hnone]
  rfl

theorem recordFields_cons_of_noField (st : ScopeStack) (fields : Table Ty) {n : Node}
    (h : n.noField) (rest : List Node) :
    recordFields st fields (n :: rest) = recordFields st fields rest := by
  rcases n with ⟨l, children⟩
  rw [recordFields]
  split
  · rename_i hk
    exact absurd hk h.1
  · rename_i hk
    exact absurd hk h.2
  · rfl

/-- **The type of a record has the fields it writes.** -/
theorem recordFields_depicts {st : ScopeStack} {e : Env} : ∀ {ns : List Node},
    (∀ n ∈ ns, n.noField ∨ ∃ t, FieldOf st e n t) →
    ∀ {before : List (String × Shape)} {fields out : Table Ty},
    List.Forall₂ (Keyed Depicts) before fields → recordFields st fields ns = .ok out →
    List.Forall₂ (Keyed Depicts) (before ++ e.fields ns) out
  | [], _, before, fields, out, hf, h => by
    unfold recordFields at h
    rw [Env.fields, List.append_nil, ← Except.ok.inj h]
    exact hf
  | n :: rest, hns, before, fields, out, hf, h => by
    obtain ⟨hn, hrest⟩ := List.forall_mem_cons.mp hns
    rcases hn with hn | ⟨t, hn⟩
    · rw [recordFields_cons_of_noField st fields hn] at h
      rw [e.fields_cons_of_noField hn]
      exact recordFields_depicts hrest hf h
    · obtain ⟨ty, hty, h⟩ := hn.added h
      have hone : List.Forall₂ (Keyed Depicts) (before ++ [(n.value, t)])
          (fields ++ [(Name.mangle n.value, ty)]) :=
        List.rel_append hf (.cons (.mk hn.plain hty) .nil)
      have ih := recordFields_depicts hrest hone h
      rw [List.append_assoc] at ih
      rw [Env.fields, hn.written]
      exact ih

theorem addField_ok {fields out : Table Ty} {name : String} {ty : Ty}
    (h : addField fields name ty = .ok out) : out = fields ++ [(Name.mangle name, ty)] := by
  simp only [addField] at h
  split at h
  · cases h
  · rename_i hc
    rw [← Except.ok.inj h, Table.insert_of_not_contains _ _ _ (eq_false_of_ne_true hc)]

theorem except_bind_ok {α β : Type} {r : Except Fault α} {f : α → Except Fault β} {b : β}
    (h : (r >>= f) = .ok b) : ∃ a, r = .ok a ∧ f a = .ok b := by
  cases r with
  | error e => cases h
  | ok a => exact ⟨a, rfl, h⟩

theorem FieldOf.plainField {st : ScopeStack} {e : Env} (h : Sees st e) {name : String}
    {ty : Label} (hn : Name.Plain name) (hk : ty.kind = .typeExpr) (ht : Name.Plain ty.value) :
    FieldOf st e ⟨{ kind := .field, value := name }, [⟨ty, []⟩]⟩ (e.type ty.value) := by
  have hfind : [Node.mk ty []].find? (·.kind == .typeExpr) = some ⟨ty, []⟩ :=
    List.find?_cons_of_pos (by simp [Node.kind, hk])
  constructor
  · exact hn
  · rw [Env.field?]
    simp only [hfind]
    rfl
  · intro fields out rest hr
    unfold recordFields at hr
    obtain ⟨type, hty, hr⟩ := except_bind_ok hr
    obtain ⟨fields', hadd, hr⟩ := except_bind_ok hr
    rw [fieldType, hfind] at hty
    rw [addField_ok hadd] at hr
    exact ⟨type, resolveType_depicts h ht hty, hr⟩

theorem recordType_depicts {st : ScopeStack} {e : Env} {l : Label} {ns : List Node} {ty : Ty}
    (h : ∀ n ∈ ns, n.noField ∨ ∃ t, FieldOf st e n t) (hr : recordType st ⟨l, ns⟩ = .ok ty) :
    Depicts ⟨l.value, e.fields ns⟩ ty := by
  rw [recordType] at hr
  obtain ⟨fields, hf, hr⟩ := except_bind_ok hr
  cases hr
  exact .mk (recordFields_depicts h .nil hf)

theorem FieldOf.nested {st : ScopeStack} {e : Env} {name path : String} {ns : List Node}
    (hn : Name.Plain name) (hns : ∀ n ∈ ns, n.noField ∨ ∃ t, FieldOf st e n t) :
    FieldOf st e ⟨{ kind := .record, value := name, path := some path }, ns⟩
      ⟨name, e.fields ns⟩ := by
  constructor
  · exact hn
  · rw [Env.field?]
    rfl
  · intro fields out rest hr
    unfold recordFields at hr
    obtain ⟨type, hty, hr⟩ := except_bind_ok hr
    obtain ⟨fields', hadd, hr⟩ := except_bind_ok hr
    rw [addField_ok hadd] at hr
    exact ⟨type, recordType_depicts hns hty, hr⟩

end Osclan
