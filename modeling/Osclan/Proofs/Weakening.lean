/-
  File:      Osclan/Proofs/Weakening.lean
  Subject:   A walk runs alike on a state that knows more.

  Two states are compared. The second has what the first has and foreign things besides: entries in
  the tables of the root, put in behind what both states began with, and earlier warnings and closed
  scopes. A step agrees with itself on two such states if a good run on the first is a good run on
  the second, with the same result, and leaves two such states again. The foreign keys must stay out
  of the root of the first state; this is asked of the state that the run ends in, since the tables
  only grow.

  Without foreign entries the two states have the same scopes, and then a run that stops on the
  first stops on the second with the same cause.

  * `Table.Spliced`, `Table.Avoids` -- foreign entries in a table, and keys they keep clear of;
  * `Foreign`, `ScopeStack.Beside`, `Analyzer.Beside` -- what stands besides, and the two states;
  * `Joins` and its lemmas -- what is found in the scopes of the first is found in the second;
  * `Check.Agrees` -- steps that run alike, and their rules;
  * `visit_agrees`, `visitAll_agrees` -- the walk.
-/
import Osclan.Proofs.Lookup
import Osclan.Proofs.ProcedureTable

namespace Osclan

/-! ## 1. Tables -/

namespace Table

variable {α : Type} {base foreign t t' : Table α} {key : String}

/-- `t'` is `t` with the foreign entries behind those of `base`. -/
def Spliced (base foreign t t' : Table α) : Prop :=
  ∃ own, t = base ++ own ∧ t' = base ++ foreign ++ own

/-- The keys of `foreign` are none of `t`. -/
def Avoids (foreign t : Table α) : Prop :=
  ∀ key, foreign.contains key = true → t.contains key = false

theorem find?_append (a b : Table α) (key : String) :
    Table.find? (a ++ b) key = (a.find? key).or (b.find? key) :=
  List.lookup_append

theorem contains_append (a b : Table α) (key : String) :
    Table.contains (a ++ b) key = (a.contains key || b.contains key) := by
  rw [contains, find?_append, Option.isSome_or]
  rfl

theorem Avoids.of_prefix {u : Table α} (h : foreign.Avoids u) (hp : t <+: u) :
    foreign.Avoids t := by
  intro key hk
  obtain ⟨more, rfl⟩ := hp
  have hu := h key hk
  rw [contains_append, Bool.or_eq_false_iff] at hu
  exact hu.1

theorem Spliced.eq (h : Spliced base [] t t') : t' = t := by
  obtain ⟨own, rfl, rfl⟩ := h
  rw [List.append_nil]

/-- What is found stays found: the foreign entries have other keys. -/
theorem Spliced.find? (h : Spliced base foreign t t') (ha : foreign.Avoids t) {value : α}
    (hf : t.find? key = some value) : t'.find? key = some value := by
  -- a key that is found is none of the foreign ones, so it does not matter where they stand
  have hnone : foreign.find? key = none := by
    have hc : t.contains key = true := by
      rw [contains, hf]
      rfl
    by_contra hne
    have hk : foreign.contains key = true := Option.isSome_iff_ne_none.mpr hne
    rw [ha key hk] at hc
    cases hc
  obtain ⟨own, rfl, rfl⟩ := h
  rwa [find?_append, find?_append, hnone, Option.or_none, ← find?_append]

/-- A new entry is new on both sides, if it is no foreign one. -/
theorem Spliced.insert (h : Spliced base foreign t t') {value : α} (hn : t.contains key = false)
    (ha : foreign.Avoids (t.insert key value)) :
    t'.contains key = false ∧ Spliced base foreign (t.insert key value) (t'.insert key value) := by
  have hins := insert_of_not_contains key value t hn
  have hforeign : foreign.contains key = false := by
    by_contra hk
    have hnot := ha key (eq_true_of_ne_false hk)
    have hself : Table.contains [(key, value)] key = true := by
      rw [contains, find?_cons, if_pos rfl]
      rfl
    rw [hins, contains_append, hself, Bool.or_true] at hnot
    cases hnot
  obtain ⟨own, rfl, rfl⟩ := h
  rw [contains_append, Bool.or_eq_false_iff] at hn
  have hn' : Table.contains (base ++ foreign ++ own) key = false := by
    rw [contains_append, contains_append, hn.1, hn.2, hforeign]
    rfl
  refine ⟨hn', own ++ [(key, value)], ?_, ?_⟩
  · rw [hins, List.append_assoc]
  · rw [insert_of_not_contains key value _ hn', List.append_assoc]

end Table

/-! ## 2. Foreign things -/

/-- What a state has besides: entries behind those of `base`, and earlier warnings and scopes. -/
structure Foreign where
  base : Scope
  entries : Scope
  warnings : List Warning
  archive : List Scope

/-- No entries, so that the scopes are the same. -/
structure Foreign.NoEntries (o : Foreign) : Prop where
  vars : o.entries.vars = []
  types : o.entries.types = []
  procs : o.entries.procs = []

/-- Earlier warnings and closed scopes, and no entries. -/
def Foreign.earlier (warnings : List Warning) (archive : List Scope) : Foreign :=
  ⟨{ depth := 0 }, { depth := 0 }, warnings, archive⟩

theorem Foreign.noEntries_earlier (warnings : List Warning) (archive : List Scope) :
    (Foreign.earlier warnings archive).NoEntries :=
  ⟨rfl, rfl, rfl⟩

/-- The keys of the one scope are none of the other, in each table. -/
structure Scope.Avoids (foreign sc : Scope) : Prop where
  vars : foreign.vars.Avoids sc.vars
  types : foreign.types.Avoids sc.types
  procs : foreign.procs.Avoids sc.procs

theorem Scope.Avoids.of_grows {foreign sc sc' : Scope} (h : foreign.Avoids sc')
    (hg : sc.Grows sc') : foreign.Avoids sc :=
  ⟨h.vars.of_prefix hg.vars, h.types.of_prefix hg.types, h.procs.of_prefix hg.procs⟩

theorem Foreign.NoEntries.avoids {o : Foreign} (h : o.NoEntries) (sc : Scope) :
    o.entries.Avoids sc := by
  constructor
  · rw [h.vars]
    exact fun key hk => absurd hk Bool.false_ne_true
  · rw [h.types]
    exact fun key hk => absurd hk Bool.false_ne_true
  · rw [h.procs]
    exact fun key hk => absurd hk Bool.false_ne_true

/-- The root with the foreign entries put in. -/
structure Scope.Spliced (o : Foreign) (sc sc' : Scope) : Prop where
  depth : sc'.depth = sc.depth
  vars : Table.Spliced o.base.vars o.entries.vars sc.vars sc'.vars
  types : Table.Spliced o.base.types o.entries.types sc.types sc'.types
  procs : Table.Spliced o.base.procs o.entries.procs sc.procs sc'.procs

/-- The scopes beside the foreign ones: the root has their entries, the open scopes are the same. -/
structure ScopeStack.Beside (o : Foreign) (st st' : ScopeStack) : Prop where
  root : st.root.Spliced o st'.root
  inner : st'.inner = st.inner

/-- The state beside the foreign things. -/
structure Analyzer.Beside (o : Foreign) (s s' : Analyzer) : Prop where
  scopes : s.scopes.Beside o s'.scopes
  warnings : s'.warnings = o.warnings ++ s.warnings
  archive : s'.archive = o.archive ++ s.archive
  procedure : s'.procedure = s.procedure

namespace ScopeStack

variable {o : Foreign} {st st' u : ScopeStack}

theorem Beside.eq (h : st.Beside o st') (hn : o.NoEntries) : st' = st := by
  obtain ⟨⟨hd, hv, ht, hp⟩, hi⟩ := h
  rw [hn.vars] at hv
  rw [hn.types] at ht
  rw [hn.procs] at hp
  have hroot : st'.root = st.root := by
    rcases hr : st'.root with ⟨depth, vars, types, procs⟩
    rcases hr₀ : st.root with ⟨depth₀, vars₀, types₀, procs₀⟩
    rw [hr, hr₀] at hd hv ht hp
    rw [show depth = depth₀ from hd, show vars = vars₀ from hv.eq, show types = types₀ from ht.eq,
      show procs = procs₀ from hp.eq]
  rcases st with ⟨root, inner⟩
  rcases st' with ⟨root', inner'⟩
  rw [show root' = root from hroot, show inner' = inner from hi]

theorem Beside.depth (h : st.Beside o st') : st'.depth = st.depth := by
  rw [ScopeStack.depth, ScopeStack.depth, innermost, innermost, h.inner]
  cases st.inner with
  | nil => exact h.root.depth
  | cons sc rest => rfl

theorem Beside.push (h : st.Beside o st') : st.push.Beside o st'.push := by
  refine ⟨h.root, ?_⟩
  rw [ScopeStack.push, ScopeStack.push, h.depth, h.inner]

/-! ## 3. Declarations -/

/-- A variable goes to an open scope, which is the same on both sides, or to the root. -/
theorem Beside.declareVariable (h : st.Beside o st') {v : Variable}
    (hd : st.declareVariable v = .ok u) (ha : o.entries.Avoids u.root) :
    ∃ u', st'.declareVariable v = .ok u' ∧ u.Beside o u' := by
  obtain ⟨hnew, rfl⟩ := declareVariable_ok.mp hd
  rcases st with ⟨root, inner⟩
  rcases st' with ⟨root', inner'⟩
  obtain rfl : inner' = inner := h.inner
  cases inner' with
  | nil =>
    obtain ⟨hnew', hspliced⟩ := h.root.vars.insert hnew ha.vars
    exact ⟨_, declareVariable_ok.mpr ⟨hnew', rfl⟩,
      ⟨h.root.depth, hspliced, h.root.types, h.root.procs⟩, rfl⟩
  | cons sc rest => exact ⟨_, declareVariable_ok.mpr ⟨hnew, rfl⟩, h.root, rfl⟩

/-- Types and procedures go to the same host on both sides, the root or the innermost scope. -/
theorem Beside.modifyHost (h : st.Beside o st') {f : Scope → Scope} (new : Scope → Prop)
    (hnew : new st.host) (ha : o.entries.Avoids (st.modifyHost f).root)
    (hroot : new st.root → o.entries.Avoids (f st.root) →
      new st'.root ∧ (f st.root).Spliced o (f st'.root)) :
    new st'.host ∧ (st.modifyHost f).Beside o (st'.modifyHost f) := by
  rcases st with ⟨root, inner⟩
  rcases st' with ⟨root', inner'⟩
  obtain rfl : inner' = inner := h.inner
  by_cases hd : (⟨root, inner'⟩ : ScopeStack).depth = 1
  · have hd' := h.depth.trans hd
    rw [host, if_pos hd] at hnew
    rw [ScopeStack.modifyHost, if_pos hd] at ha ⊢
    rw [ScopeStack.modifyHost, host, if_pos hd', if_pos hd']
    obtain ⟨hnew', hspliced⟩ := hroot hnew ha
    exact ⟨hnew', hspliced, rfl⟩
  · have hd' : ¬ (⟨root', inner'⟩ : ScopeStack).depth = 1 := fun e => hd (h.depth.symm.trans e)
    rw [host, if_neg hd] at hnew
    rw [ScopeStack.modifyHost, if_neg hd] at ha ⊢
    rw [ScopeStack.modifyHost, host, if_neg hd', if_neg hd']
    -- the host is the innermost scope, which is the root if no scope is open
    cases inner' with
    | nil =>
      obtain ⟨hnew', hspliced⟩ := hroot hnew ha
      exact ⟨hnew', hspliced, rfl⟩
    | cons sc rest => exact ⟨hnew, h.root, rfl⟩

theorem Beside.declareType (h : st.Beside o st') {t : Ty} (hd : st.declareType t = .ok u)
    (ha : o.entries.Avoids u.root) : ∃ u', st'.declareType t = .ok u' ∧ u.Beside o u' := by
  obtain ⟨hnew, rfl⟩ := declareType_ok.mp hd
  obtain ⟨hnew', hbeside⟩ := h.modifyHost
    (fun sc => sc.types.contains (Name.mangle t.name) = false) hnew ha fun hn hroot =>
      have hs := h.root.types.insert hn hroot.types
      ⟨hs.1, h.root.depth, h.root.vars, hs.2, h.root.procs⟩
  exact ⟨_, declareType_ok.mpr ⟨hnew', rfl⟩, hbeside⟩

theorem Beside.declareProcedure (h : st.Beside o st') {p : Procedure}
    (hd : st.declareProcedure p = .ok u) (ha : o.entries.Avoids u.root) :
    ∃ u', st'.declareProcedure p = .ok u' ∧ u.Beside o u' := by
  obtain ⟨hnew, rfl⟩ := declareProcedure_ok.mp hd
  obtain ⟨hnew', hbeside⟩ := h.modifyHost
    (fun sc => sc.procs.contains p.mangled = false) hnew ha fun hn hroot =>
      have hs := h.root.procs.insert hn hroot.procs
      ⟨hs.1, h.root.depth, h.root.vars, h.root.types, hs.2⟩
  exact ⟨_, declareProcedure_ok.mpr ⟨hnew', rfl⟩, hbeside⟩

end ScopeStack

/-! ## 4. What is found -/

theorem except_bind_mono {α β : Type} {r r' : Except Fault α} {f f' : α → Except Fault β} {b : β}
    (hr : ∀ {a}, r = .ok a → r' = .ok a) (hf : ∀ {a}, f a = .ok b → f' a = .ok b)
    (h : (r >>= f) = .ok b) : (r' >>= f') = .ok b := by
  obtain ⟨a, ha, hb⟩ := except_bind_ok h
  rw [hr ha]
  exact hf hb

/-- Scopes beside foreign ones, whose entries keep clear of the root. -/
structure Joins (o : Foreign) (st st' : ScopeStack) : Prop where
  beside : st.Beside o st'
  avoids : o.entries.Avoids st.root

namespace Joins

variable {o : Foreign} {st st' : ScopeStack}

/-- Where no entry is foreign, scopes stand beside themselves. -/
theorem refl (st : ScopeStack) (warnings : List Warning) (archive : List Scope) :
    Joins (.earlier warnings archive) st st :=
  ⟨⟨⟨rfl, ⟨_, rfl, rfl⟩, ⟨_, rfl, rfl⟩, ⟨_, rfl, rfl⟩⟩, rfl⟩,
    (Foreign.noEntries_earlier warnings archive).avoids st.root⟩

theorem findSome? (h : Joins o st st') {β : Type} {f : Scope → Option β} {b : β}
    (hroot : f st.root = some b → f st'.root = some b) (hf : st.scopes.findSome? f = some b) :
    st'.scopes.findSome? f = some b := by
  rw [ScopeStack.scopes, List.findSome?_append] at hf ⊢
  rw [h.beside.inner]
  cases hi : st.inner.findSome? f with
  | some b₀ =>
    rw [hi] at hf
    exact hf
  | none =>
    rw [hi, Option.none_or, List.findSome?_singleton] at hf
    rw [Option.none_or, List.findSome?_singleton]
    exact hroot hf

theorem lookupVariable? (h : Joins o st st') {name : String} {v : Variable}
    (hf : st.lookupVariable? name = some v) : st'.lookupVariable? name = some v :=
  h.findSome? (h.beside.root.vars.find? h.avoids.vars) hf

theorem lookupType? (h : Joins o st st') {name : String} {t : Ty}
    (hf : st.lookupType? name = some t) : st'.lookupType? name = some t :=
  h.findSome? (h.beside.root.types.find? h.avoids.types) hf

theorem lookupProcedure? (h : Joins o st st') {name : String} {p : Procedure}
    (hf : st.lookupProcedure? name = some p) : st'.lookupProcedure? name = some p :=
  h.findSome? (h.beside.root.procs.find? h.avoids.procs) hf

theorem resolveType (h : Joins o st st') {name : String} {size : Option UInt64} {t : Ty}
    (hr : resolveType st name size = .ok t) : resolveType st' name size = .ok t := by
  unfold Osclan.resolveType at hr ⊢
  cases hf : st.lookupType? name with
  | none =>
    rw [hf] at hr
    cases hr
  | some found =>
    rw [hf] at hr
    rw [h.lookupType? hf]
    exact hr

theorem declaredType (h : Joins o st st') {l : Label} {t : Ty} (hr : declaredType st l = .ok t) :
    declaredType st' l = .ok t := by
  unfold Osclan.declaredType at hr ⊢
  cases hn : l.typeName with
  | none =>
    rw [hn] at hr
    cases hr
  | some name =>
    rw [hn] at hr
    exact h.resolveType hr

theorem fieldType (h : Joins o st st') {l : Label} {children : List Node} {t : Ty}
    (hr : fieldType st l children = .ok t) : fieldType st' l children = .ok t := by
  unfold Osclan.fieldType at hr ⊢
  cases hf : children.find? (·.kind == .typeExpr) with
  | none =>
    rw [hf] at hr
    cases hr
  | some type =>
    rw [hf] at hr
    exact h.resolveType hr

theorem resultType (h : Joins o st st') {l : Label} {children : List Node} {returns : Option Ty}
    (hr : resultType st l children = .ok returns) : resultType st' l children = .ok returns := by
  unfold Osclan.resultType at hr ⊢
  cases hf : children.head? with
  | none =>
    rw [hf] at hr
    cases hr
  | some type =>
    rw [hf] at hr
    simp only at hr ⊢
    by_cases hk : type.kind = .typeExpr
    · rw [if_pos hk] at hr ⊢
      by_cases hv : isVoid type.value = true
      · rw [if_pos hv] at hr ⊢
        exact hr
      · rw [if_neg hv] at hr ⊢
        cases ht : Osclan.resolveType st type.value type.label.size with
        | error fault =>
          rw [ht] at hr
          cases hr
        | ok t =>
          rw [ht] at hr
          rw [h.resolveType ht]
          exact hr
    · rw [if_neg hk] at hr
      cases hr

mutual

theorem recordType (h : Joins o st st') : ∀ {n : Node} {t : Ty}, recordType st n = .ok t →
    recordType st' n = .ok t
  | ⟨l, children⟩, t, hr => by
    rw [Osclan.recordType] at hr ⊢
    exact except_bind_mono (h.recordFields children) id hr

/-- The fields of a record have the types that are found for them. -/
theorem recordFields (h : Joins o st st') : ∀ (ns : List Node) {fields out : Table Ty},
    recordFields st fields ns = .ok out → recordFields st' fields ns = .ok out
  | [], fields, out, hr => by
    rw [Osclan.recordFields] at hr ⊢
    exact hr
  | ⟨l, children⟩ :: rest, fields, out, hr => by
    unfold Osclan.recordFields at hr ⊢
    cases hk : l.kind with
    | field =>
      simp only [hk] at hr ⊢
      exact except_bind_mono h.fieldType (except_bind_mono id (h.recordFields rest)) hr
    | record =>
      simp only [hk] at hr ⊢
      exact except_bind_mono h.recordType (except_bind_mono id (h.recordFields rest)) hr
    | _ =>
      simp only [hk] at hr ⊢
      exact h.recordFields rest hr

end

end Joins

/-! ## 5. Steps that run alike -/

theorem Analyzer.Beside.push {o : Foreign} {s s' : Analyzer} (h : s.Beside o s') :
    Analyzer.Beside o { s with scopes := s.scopes.push } { s' with scopes := s'.scopes.push } :=
  ⟨h.scopes.push, h.warnings, h.archive, h.procedure⟩

/-- Closing a scope closes the same scope on both sides. -/
theorem Analyzer.Beside.leave {o : Foreign} {s s' : Analyzer} (h : s.Beside o s') :
    (Check.leave s).Beside o (Check.leave s') := by
  rcases s with ⟨⟨root, inner⟩, archive, warnings, procedure⟩
  rcases s' with ⟨⟨root', inner'⟩, archive', warnings', procedure'⟩
  obtain rfl : inner' = inner := h.scopes.inner
  cases inner' with
  | nil => exact h
  | cons sc rest =>
    have harchive : archive' = o.archive ++ archive := h.archive
    refine ⟨⟨h.scopes.root, rfl⟩, h.warnings, ?_, h.procedure⟩
    show archive' ++ [sc] = o.archive ++ (archive ++ [sc])
    rw [harchive, List.append_assoc]

namespace Check

/-- **Steps that run alike** on a state and beside foreign things. A good run keeps its result if
    the foreign keys are none of the root it ends with; a run that stops keeps its cause if there
    are no foreign keys at all. -/
structure Agrees (o : Foreign) {α : Type} (x x' : Check α) : Prop where
  does : Does (fun _ => True) x
  ok : ∀ {s s' t : Analyzer} {a : α}, s.Beside o s' → x s = .ok a t →
    o.entries.Avoids t.scopes.root → ∃ t', x' s' = .ok a t' ∧ t.Beside o t'
  error : ∀ {s s' t : Analyzer} {e : Abort}, o.NoEntries → s.Beside o s' → x s = .error e t →
    ∃ t', x' s' = .error e t' ∧ t.Beside o t'

variable {o : Foreign} {α β : Type}

theorem Does.grows {x : Check α} (h : Does (fun _ => True) x) {s t : Analyzer} {a : α}
    (e : x s = .ok a t) : s.scopes.root.Grows t.scopes.root :=
  ((h s).ok e).frame.scopes.root

theorem Agrees.pure (a : α) : Agrees o (Pure.pure a) (Pure.pure a) := by
  refine ⟨.pure a, ?_, ?_⟩
  · intro s s' t b hs e ha
    cases e
    exact ⟨s', rfl, hs⟩
  · intro s s' t e hn hs h
    cases h

/-- A step that stops at once agrees with any step, unless the scopes are the same. -/
theorem Agrees.throw_of {e : Abort} {x' : Check α} (h : o.NoEntries → x' = throw e) :
    Agrees o (throw e) x' := by
  refine ⟨.throw e, ?_, ?_⟩
  · intro s s' t b hs he ha
    cases he
  · intro s s' t e hn hs he
    cases he
    rw [h hn]
    exact ⟨s', rfl, hs⟩

theorem Agrees.refuse_of {fault : Fault} {x' : Check α} (h : o.NoEntries → x' = refuse fault) :
    Agrees o (refuse fault) x' :=
  .throw_of h

theorem Agrees.refuse (fault : Fault) : Agrees o (refuse fault : Check α) (refuse fault) :=
  .refuse_of fun _ => rfl

/-- **Steps one after the other.** -/
theorem Agrees.bind {x x' : Check α} {f f' : α → Check β} (hx : Agrees o x x')
    (hf : ∀ a, Agrees o (f a) (f' a)) : Agrees o (x >>= f) (x' >>= f') := by
  refine ⟨.bind hx.does fun a => (hf a).does, ?_, ?_⟩
  · intro s s' t b hs e ha
    obtain ⟨a, u, hxu, hft⟩ := bind_ok.mp e
    -- what the foreign keys keep clear of at the end, they keep clear of in between
    have hmid := ha.of_grows ((hf a).does.grows hft)
    obtain ⟨u', hxu', hu⟩ := hx.ok hs hxu hmid
    obtain ⟨t', hft', ht⟩ := (hf a).ok hu hft ha
    exact ⟨t', bind_ok.mpr ⟨a, u', hxu', hft'⟩, ht⟩
  · intro s s' t e hn hs h
    rcases bind_error.mp h with hxe | ⟨a, u, hxu, hft⟩
    · obtain ⟨t', hxe', ht⟩ := hx.error hn hs hxe
      exact ⟨t', bind_error.mpr (.inl hxe'), ht⟩
    · obtain ⟨u', hxu', hu⟩ := hx.ok hs hxu (hn.avoids _)
      obtain ⟨t', hft', ht⟩ := (hf a).error hn hu hft
      exact ⟨t', bind_error.mpr (.inr ⟨a, u', hxu', hft'⟩), ht⟩

/-- What follows may look at the scopes, and then finds alike what it finds. -/
theorem Agrees.reading {f f' : ScopeStack → Check α}
    (hf : ∀ (o : Foreign) (st st' : ScopeStack), Joins o st st' → Agrees o (f st) (f' st')) :
    Agrees o (scopes >>= f) (scopes >>= f') := by
  -- what the step does to one state is read off its agreement beside nothing
  have hdoes : Does (fun _ => True) (scopes >>= f) :=
    .bind .scopes fun st => (hf _ st st (.refl st [] [])).does
  refine ⟨hdoes, ?_, ?_⟩
  · intro s s' t a hs e ha
    have hjoins : Joins o s.scopes s'.scopes := ⟨hs.scopes, ha.of_grows (hdoes.grows e)⟩
    obtain ⟨_, _, hst, hft⟩ := bind_ok.mp e
    obtain ⟨rfl, rfl⟩ := scopes_ok.mp hst
    obtain ⟨t', hft', ht⟩ := (hf o _ _ hjoins).ok hs hft ha
    exact ⟨t', bind_ok.mpr ⟨_, s', scopes_ok.mpr ⟨rfl, rfl⟩, hft'⟩, ht⟩
  · intro s s' t e hn hs h
    rcases bind_error.mp h with hst | ⟨_, _, hst, hft⟩
    · cases hst
    · obtain ⟨rfl, rfl⟩ := scopes_ok.mp hst
      obtain ⟨t', hft', ht⟩ := (hf o _ _ ⟨hs.scopes, hn.avoids _⟩).error hn hs hft
      exact ⟨t', bind_error.mpr (.inr ⟨_, s', scopes_ok.mpr ⟨rfl, rfl⟩, hft'⟩), ht⟩

/-- What follows may ask which procedure is being walked. -/
theorem Agrees.asking {f : Analyzer → Check α}
    (hf : ∀ s s', s'.procedure = s.procedure → Agrees o (f s) (f s')) :
    Agrees o (get >>= f) (get >>= f) := by
  refine ⟨.bind .get fun s => (hf s s rfl).does, ?_, ?_⟩
  · intro s s' t a hs e ha
    exact (hf s s' hs.procedure).ok hs e ha
  · intro s s' t e hn hs h
    exact (hf s s' hs.procedure).error hn hs h

/-- What the scopes give is given alike. -/
theorem Agrees.ofExcept {st st' : ScopeStack} (hj : Joins o st st')
    (g : ScopeStack → Except Fault α) (hg : ∀ {a}, g st = .ok a → g st' = .ok a) :
    Agrees o (ofExcept (g st)) (ofExcept (g st')) := by
  cases h : g st with
  | ok a =>
    rw [hg h]
    exact .pure a
  | error fault =>
    refine .refuse_of fun hn => ?_
    rw [hj.beside.eq hn, h]
    rfl

theorem Agrees.makeVariable (name : String) (type : Ty) (pointer : Bool) :
    Agrees o (makeVariable name type pointer) (makeVariable name type pointer) := by
  unfold Check.makeVariable
  cases Variable.make? name type pointer with
  | some v => exact .pure v
  | none => exact .throw_of fun _ => rfl

/-- A declaration that is taken beside the foreign entries as well. -/
theorem Agrees.declare {f : ScopeStack → Except Redeclared ScopeStack}
    (hd : Does (fun _ => True) (declare f))
    (hf : ∀ {st st' u}, st.Beside o st' → f st = .ok u → o.entries.Avoids u.root →
      ∃ u', f st' = .ok u' ∧ u.Beside o u') : Agrees o (declare f) (declare f) := by
  refine ⟨hd, ?_, ?_⟩
  · intro s s' t a hs e ha
    obtain ⟨u, hu, rfl⟩ := declare_ok.mp e
    obtain ⟨u', hu', hbeside⟩ := hf hs.scopes hu ha
    exact ⟨_, declare_ok.mpr ⟨u', hu', rfl⟩, hbeside, hs.warnings, hs.archive, hs.procedure⟩
  · intro s s' t e hn hs h
    obtain ⟨what, hwhat, rfl, rfl⟩ := declare_error.mp h
    refine ⟨s', declare_error.mpr ⟨what, ?_, rfl, rfl⟩, hs⟩
    rw [hs.scopes.eq hn]
    exact hwhat

theorem Agrees.inScope {x x' : Check α} (h : Agrees o x x') :
    Agrees o (inScope x) (inScope x') := by
  refine ⟨.inScope h.does, ?_, ?_⟩
  · intro s s' t a hs e ha
    obtain ⟨u, hu, rfl⟩ := inScope_ok.mp e
    rw [leave_root] at ha
    obtain ⟨u', hu', hbeside⟩ := h.ok hs.push hu ha
    exact ⟨_, inScope_ok.mpr ⟨u', hu', rfl⟩, hbeside.leave⟩
  · intro s s' t e hn hs he
    obtain ⟨u, hu, rfl⟩ := inScope_error.mp he
    obtain ⟨u', hu', hbeside⟩ := h.error hn hs.push hu
    exact ⟨_, inScope_error.mpr ⟨u', hu', rfl⟩, hbeside.leave⟩

theorem Agrees.inBodyOf (p : Procedure) {x x' : Check α} (h : Agrees o x x') :
    Agrees o (inBodyOf p x) (inBodyOf p x') := by
  have hstart : ∀ {s s' : Analyzer}, s.Beside o s' →
      Analyzer.Beside o { s with procedure := some p } { s' with procedure := some p } :=
    fun hs => ⟨hs.scopes, hs.warnings, hs.archive, rfl⟩
  refine ⟨.inBodyOf p h.does, ?_, ?_⟩
  · intro s s' t a hs e ha
    obtain ⟨u, hu, rfl⟩ := inBodyOf_ok.mp e
    obtain ⟨u', hu', hb⟩ := h.ok (hstart hs) hu ha
    exact ⟨_, inBodyOf_ok.mpr ⟨u', hu', rfl⟩, hb.scopes, hb.warnings, hb.archive, hs.procedure⟩
  · intro s s' t e hn hs he
    obtain ⟨u, hu, rfl⟩ := inBodyOf_error.mp he
    obtain ⟨u', hu', hb⟩ := h.error hn (hstart hs) hu
    exact ⟨_, inBodyOf_error.mpr ⟨u', hu', rfl⟩, hb.scopes, hb.warnings, hb.archive, hs.procedure⟩

theorem Agrees.assign (dest source : Ty) : Agrees o (assign dest source) (assign dest source) := by
  have hdoes : Does (fun _ => True) (Check.assign dest source) := .assign dest source
  cases hc : dest.accepts source with
  | fits =>
    rw [assign_of_fits hc]
    exact .pure ()
  | illegal =>
    rw [assign_of_refused hc]
    exact .refuse _
  | lossOfInformation =>
    rw [assign_of_loss hc] at hdoes ⊢
    refine ⟨hdoes, ?_, ?_⟩
    · intro s s' t a hs e ha
      cases e
      refine ⟨_, rfl, hs.scopes, ?_, hs.archive, hs.procedure⟩
      show s'.warnings ++ _ = o.warnings ++ (s.warnings ++ _)
      rw [hs.warnings, List.append_assoc]
    · intro s s' t e hn hs h
      cases h

theorem Agrees.assignLiteral (dest : Ty) (pointer : Bool) (literal : Option Ty) :
    Agrees o (assignLiteral dest pointer literal) (assignLiteral dest pointer literal) := by
  cases literal with
  | none => exact .pure ()
  | some source =>
    cases pointer with
    | true => exact .pure ()
    | false => exact .assign dest source

end Check

/-! ## 6. The parts of the walk -/

section Parts

variable {o : Foreign} {st st' : ScopeStack}

theorem declareVariable_agrees (v : Variable) :
    Check.Agrees o (Check.declare (·.declareVariable v)) (Check.declare (·.declareVariable v)) :=
  .declare (declareVariable_does v) fun h => h.declareVariable

theorem declareType_agrees (t : Ty) :
    Check.Agrees o (Check.declare (·.declareType t)) (Check.declare (·.declareType t)) :=
  .declare (declareType_does t) fun h => h.declareType

theorem declareProcedure_agrees (p : Procedure) :
    Check.Agrees o (Check.declare (·.declareProcedure p)) (Check.declare (·.declareProcedure p)) :=
  .declare (declareProcedure_does trivial) fun h => h.declareProcedure

theorem paramVariables_agrees (hj : Joins o st st') (ns : List Node) :
    Check.Agrees o (paramVariables st ns) (paramVariables st' ns) := by
  induction ns with
  | nil => exact .pure []
  | cons n rest ih =>
    refine .bind (.ofExcept hj (declaredType · n.label) hj.declaredType) fun type => ?_
    exact .bind (.makeVariable _ _ _) fun v => .bind ih fun _ => .pure _

theorem procedureOf_agrees (l : Label) (children : List Node) :
    Check.Agrees o (procedureOf l children) (procedureOf l children) := by
  refine .reading fun o st st' hj => ?_
  refine .bind (.ofExcept hj (resultType · l children) hj.resultType) fun returns => ?_
  refine .bind (paramVariables_agrees hj _) fun params => ?_
  by_cases h : hasUnreachable (statements children) = true
  · simp only [h, if_true]
    exact .bind (.refuse _) fun _ => .pure _
  · simp only [h]
    exact .pure _

theorem assignArguments_agrees : ∀ (params : List Variable) (args : List Node),
    Check.Agrees o (assignArguments params args) (assignArguments params args)
  | _ :: params, _ :: args =>
    .bind (.assignLiteral _ _ _) fun _ => assignArguments_agrees params args
  | [], _ => .pure ()
  | _ :: _, [] => .pure ()

theorem checkArguments_agrees (p : Procedure) (args : List Node) :
    Check.Agrees o (checkArguments p args) (checkArguments p args) := by
  unfold checkArguments
  split
  · exact .refuse _
  · exact assignArguments_agrees p.params args

theorem checkReturn_agrees (value : Option Node) :
    Check.Agrees o (checkReturn value) (checkReturn value) := by
  refine .asking fun s s' hp => ?_
  rw [hp]
  cases s.procedure with
  | none => exact .pure ()
  | some p =>
    rcases p with ⟨name, returns, params⟩
    cases returns <;> cases value
    · exact .pure ()
    · exact .refuse _
    · exact .refuse _
    · exact .assignLiteral _ _ _

theorem declareRecord_agrees (n : Node) :
    Check.Agrees o (declareRecord n) (declareRecord n) := by
  unfold declareRecord
  split
  · exact .pure ()
  · refine .reading fun o st st' hj => ?_
    exact .bind (.ofExcept hj (recordType · n) hj.recordType) fun t => declareType_agrees t

theorem declareTyped_agrees (l : Label) : Check.Agrees o (declareTyped l) (declareTyped l) := by
  refine .reading fun o st st' hj => ?_
  refine .bind (.ofExcept hj (declaredType · l) hj.declaredType) fun type => ?_
  exact .bind (.makeVariable _ _ _) fun v => declareVariable_agrees v

theorem declareWith_agrees (l : Label) (literal : Option Ty) :
    Check.Agrees o (declareWith l literal) (declareWith l literal) := by
  refine .reading fun o st st' hj => ?_
  refine .bind (.ofExcept hj (declaredType · l) hj.declaredType) fun type => ?_
  refine .bind (.assignLiteral _ _ _) fun _ => ?_
  exact .bind (.makeVariable _ _ _) fun v => declareVariable_agrees v

/-- A name resolves alike if its fields do. -/
theorem resolve_agrees {children : List Node}
    (h : ∀ o parent leaf, Check.Agrees o (resolveFields parent leaf children)
      (resolveFields parent leaf children)) (l : Label) :
    Check.Agrees o (resolve ⟨l, children⟩) (resolve ⟨l, children⟩) := by
  unfold resolve
  refine .reading fun o st st' hj => ?_
  cases hv : st.lookupVariable? l.value with
  | none => exact .refuse_of fun hn => by rw [hj.beside.eq hn, hv]
  | some v =>
    rw [hj.lookupVariable? hv]
    exact .bind (h o _ _) fun _ => .pure _

end Parts

/-! ## 7. The walk -/

mutual

/-- **A walk runs alike beside foreign things.** -/
theorem visit_agrees : ∀ (n : Node) (o : Foreign), Check.Agrees o (visit n) (visit n)
  | ⟨l, children⟩, o => by
    have hall := visitAll_agrees children
    unfold visit
    cases hk : l.kind with
    | root | directive | field | print => exact .bind (hall o) fun _ => .pure _
    | record =>
      refine .inScope (.bind (hall o) fun _ => ?_)
      exact .bind (declareRecord_agrees _) fun _ => .pure _
    | procedure =>
      refine .inScope (.bind (procedureOf_agrees l children) fun p => ?_)
      refine .bind (declareProcedure_agrees p) fun _ => ?_
      exact .bind (.inBodyOf p (hall o)) fun _ => .pure _
    | argument =>
      simp only
      split
      · exact .bind (hall o) fun _ => .pure _
      · exact .bind (declareTyped_agrees l) fun _ => .pure _
      · exact .refuse _
    | call =>
      refine .reading fun o st st' hj => ?_
      cases hp : st.lookupProcedure? l.value with
      | none => exact .refuse_of fun hn => by rw [hj.beside.eq hn, hp]
      | some p =>
        rw [hj.lookupProcedure? hp]
        exact .bind (hall o) fun _ => .bind (checkArguments_agrees p _) fun _ => .pure _
    | typeExpr =>
      simp only
      split
      · exact .pure _
      · refine .reading fun o st st' hj => ?_
        exact .bind (.ofExcept hj (resolveType · l.value l.size) hj.resolveType) fun _ => .pure _
    | modifier | scalar => exact .pure _
    | assignment =>
      match children with
      | [⟨lt, ct⟩, value] =>
        refine .bind (visit_agrees value o) fun value' => ?_
        split
        · exact .pure _
        · have ht := fun o p t => resolveFields_agrees p t ct o
          exact .bind (resolve_agrees ht lt) fun _ => .bind (.assignLiteral _ _ _) fun _ => .pure _
      | [] => exact .refuse _
      | [_] => exact .refuse _
      | _ :: _ :: _ :: _ => exact .refuse _
    | declaration =>
      simp only
      split
      · exact .bind (visitOperand_agrees 1 children o) fun _ =>
          .bind (declareWith_agrees _ _) fun _ => .pure _
      · exact .refuse _
    | reference | dynamicOffset =>
      have hf := fun o p t => resolveFields_agrees p t children o
      exact .bind (resolve_agrees hf l) fun _ => .pure _
    | allocation =>
      refine .reading fun o st st' hj => ?_
      exact .bind (.ofExcept hj (declaredType · l) hj.declaredType) fun _ => .pure _
    | ret => exact .bind (hall o) fun _ => .bind (checkReturn_agrees _) fun _ => .pure _

theorem visitAll_agrees : ∀ (ns : List Node) (o : Foreign),
    Check.Agrees o (visitAll ns) (visitAll ns)
  | [], o => by
    unfold visitAll
    exact .pure []
  | n :: rest, o => by
    unfold visitAll
    exact .bind (visit_agrees n o) fun _ => .bind (visitAll_agrees rest o) fun _ => .pure _

theorem visitOperand_agrees : ∀ (before : Nat) (ns : List Node) (o : Foreign),
    Check.Agrees o (visitOperand before ns) (visitOperand before ns)
  | _, [], o => by
    unfold visitOperand
    exact .pure []
  | before, n :: rest, o => by
    unfold visitOperand
    split
    · exact .bind (visitOperand_agrees before rest o) fun _ => .pure _
    · cases before with
      | zero => exact .bind (visit_agrees n o) fun _ => .pure _
      | succ before => exact .bind (visitOperand_agrees before rest o) fun _ => .pure _

theorem resolveFields_agrees : ∀ (parent leaf : Ty) (ns : List Node) (o : Foreign),
    Check.Agrees o (resolveFields parent leaf ns) (resolveFields parent leaf ns)
  | _, _, [], o => by
    unfold resolveFields
    exact .pure _
  | parent, leaf, ⟨l, children⟩ :: rest, o => by
    have hf := fun o p t => resolveFields_agrees p t children o
    have hvisit := visit_agrees ⟨l, children⟩ o
    have hrest := fun leaf => resolveFields_agrees parent leaf rest o
    unfold resolveFields
    cases l.kind with
    | field =>
      cases parent.field? l.value with
      | none => exact .refuse _
      | some type => exact .bind (hf o type type) fun r => .bind (hrest r.2) fun _ => .pure _
    | dynamicOffset =>
      exact .bind (resolve_agrees hf l) fun _ => .bind (hrest leaf) fun _ => .pure _
    | _ => exact .bind hvisit fun _ => .bind (hrest leaf) fun _ => .pure _

end

end Osclan
