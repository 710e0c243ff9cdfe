/-
  File:      Osclan/Proofs/ScopeRuns.lean
  Subject:   What holds of a stack of scopes after any run of operations.

  A stack is worked on by five operations: opening a scope, closing one, and declaring a variable, a
  type or a procedure. The three declarations differ in the table they write to and in the scope
  whose table it is; all else is the same, so they are treated as one operation on a `Declarable`.
  What it can do to a stack is said once, in `ScopeStack.Declares`, and the invariant is carried
  along a run operation by operation.

  * `Declarable`, `Scope.entries` -- what is declared, and the tables of a scope by its kind;
  * `ScopeStack.Declares`, `declares_of_ok` -- what a declaration does to a stack;
  * `ScopeOp`, `ScopeStack.run` -- operations and runs of them;
  * `ScopeStack.WellFormed`, `WellFormed.run` -- the invariant, and that runs keep it;
  * **`reachable_represents`** -- the form of every stack that a run leads to, and when a
    declaration is refused.
-/
import Osclan.Proofs.Lookup
import Osclan.Proofs.ProcedureTable

namespace Osclan

/-! ## 1. What is declared -/

/-- What can be declared in a scope. -/
inductive Declarable where
  | var (v : Variable)
  | type (t : Ty)
  | proc (p : Procedure)

namespace Declarable

/-- The sort of thing that is declared. -/
def entity : Declarable → Entity
  | .var _ => .var
  | .type _ => .type
  | .proc _ => .proc

/-- The name it is declared under. -/
def name : Declarable → String
  | .var v => v.name
  | .type t => t.name
  | .proc p => p.name

/-- The key in the table of its sort. -/
def key (d : Declarable) : String := Name.mangle d.name

/-- The table of those of the given kind, each under its key. -/
def table (e : Entity) (ds : List Declarable) : Table Declarable :=
  (ds.filter (·.entity = e)).map fun d => (d.key, d)

theorem table_append (e : Entity) (ds ds' : List Declarable) :
    table e (ds ++ ds') = table e ds ++ table e ds' := by
  rw [table, List.filter_append, List.map_append]
  rfl

theorem table_self (d : Declarable) : table d.entity [d] = [(d.key, d)] := by
  simp [table]

theorem table_of_ne {e : Entity} {d : Declarable} (h : d.entity ≠ e) : table e [d] = [] := by
  simp [table, h]

theorem mem_table {e : Entity} {ds : List Declarable} {entry : String × Declarable} :
    entry ∈ table e ds ↔ ∃ d ∈ ds, d.entity = e ∧ (d.key, d) = entry := by
  simp only [table, List.mem_map, List.mem_filter, decide_eq_true_eq, and_assoc]

end Declarable

namespace Scope

/-- The table of a scope for the given kind. -/
def entries (sc : Scope) : Entity → Table Declarable
  | .var => sc.vars.map fun entry => (entry.1, .var entry.2)
  | .type => sc.types.map fun entry => (entry.1, .type entry.2)
  | .proc => sc.procs.map fun entry => (entry.1, .proc entry.2)
  | .field => []

/-- The scope with one more entry. -/
def enter (sc : Scope) : Declarable → Scope
  | .var v => { sc with vars := sc.vars.insert v.mangled v }
  | .type t => { sc with types := sc.types.insert (Name.mangle t.name) t }
  | .proc p => { sc with procs := sc.procs.insert p.mangled p }

@[simp] theorem enter_depth (sc : Scope) (d : Declarable) : (sc.enter d).depth = sc.depth := by
  cases d <;> rfl

end Scope

theorem Table.find?_mapValues {α β : Type} (f : α → β) (key : String) : ∀ t : Table α,
    Table.find? (t.map fun entry => (entry.1, f entry.2)) key = (t.find? key).map f
  | [] => rfl
  | (k, v) :: rest => by
    rw [List.map_cons, Table.find?_cons, Table.find?_cons, Table.find?_mapValues f key rest]
    by_cases h : key = k
    · rw [if_pos h, if_pos h, Option.map_some]
    · rw [if_neg h, if_neg h]

theorem Table.contains_mapValues {α β : Type} (f : α → β) (key : String) (t : Table α) :
    Table.contains (t.map fun entry => (entry.1, f entry.2)) key = t.contains key := by
  rw [Table.contains, Table.contains, Table.find?_mapValues, Option.isSome_map]

/-- In a table without a key twice, every entry is found. -/
theorem Table.find?_of_mem {α : Type} {key : String} {value : α} : ∀ {t : Table α},
    (t.map (·.1)).Nodup → (key, value) ∈ t → t.find? key = some value
  | [], _, h => absurd h List.not_mem_nil
  | (k, v) :: rest, hn, h => by
    obtain ⟨hk, hn⟩ := List.nodup_cons.mp hn
    rw [Table.find?_cons]
    rcases List.mem_cons.mp h with h | h
    · cases h
      rw [if_pos rfl]
    · have hne : ¬ key = k := fun e => hk (List.mem_map.mpr ⟨_, h, e⟩)
      rw [if_neg hne]
      exact Table.find?_of_mem hn h

/-- A new entry goes to the end of the table of its kind, and the other tables stay. -/
theorem Scope.entries_enter {sc : Scope} {d : Declarable}
    (hnew : (sc.entries d.entity).contains d.key = false) (e : Entity) :
    (sc.enter d).entries e = sc.entries e ++ Declarable.table e [d] := by
  cases d with
  | var v =>
    have hv : sc.vars.contains v.mangled = false :=
      (Table.contains_mapValues _ _ _).symm.trans hnew
    cases e with
    | var =>
      show (sc.vars.insert v.mangled v).map _ = _
      rw [Table.insert_of_not_contains _ _ _ hv, List.map_append]
      rfl
    | _ => exact (List.append_nil _).symm
  | type t =>
    have ht : sc.types.contains (Name.mangle t.name) = false :=
      (Table.contains_mapValues _ _ _).symm.trans hnew
    cases e with
    | type =>
      show (sc.types.insert (Name.mangle t.name) t).map _ = _
      rw [Table.insert_of_not_contains _ _ _ ht, List.map_append]
      rfl
    | _ => exact (List.append_nil _).symm
  | proc p =>
    have hp : sc.procs.contains p.mangled = false :=
      (Table.contains_mapValues _ _ _).symm.trans hnew
    cases e with
    | proc =>
      show (sc.procs.insert p.mangled p).map _ = _
      rw [Table.insert_of_not_contains _ _ _ hp, List.map_append]
      rfl
    | _ => exact (List.append_nil _).symm

/-! ## 2. Declaring -/

/-- Declares a variable, a type or a procedure. -/
def ScopeStack.declare (st : ScopeStack) : Declarable → Except Redeclared ScopeStack
  | .var v => st.declareVariable v
  | .type t => st.declareType t
  | .proc p => st.declareProcedure p

/-- The scope that a declaration is for: the root for types and procedures at depth 1, else the
    innermost one. -/
def Declarable.home (d : Declarable) (st : ScopeStack) : Scope :=
  if d.entity ≠ .var ∧ st.depth = 1 then st.root else st.innermost

/-- The stack with the home of a declaration changed. -/
def ScopeStack.modifyHome (st : ScopeStack) (d : Declarable) (f : Scope → Scope) : ScopeStack :=
  if d.entity ≠ .var ∧ st.depth = 1 then { st with root := f st.root } else st.modifyInnermost f

/-- **A declaration is refused exactly if its home has the key**, and else entered there. -/
theorem ScopeStack.declare_eq (st : ScopeStack) (d : Declarable) :
    st.declare d = if ((d.home st).entries d.entity).contains d.key then
      .error ⟨d.entity, d.name⟩ else .ok (st.modifyHome d (·.enter d)) := by
  have hhost : ∀ f : Scope → Scope, st.modifyHost f =
      if st.depth = 1 then { st with root := f st.root } else st.modifyInnermost f := fun _ => rfl
  cases d with
  | var v =>
    simp only [declare, declareVariable, Declarable.home, modifyHome, Declarable.entity, ne_eq,
      not_true_eq_false, false_and, if_false, Scope.entries, Table.contains_mapValues]
    rfl
  | type t =>
    simp only [declare, declareType, Declarable.home, modifyHome, Declarable.entity, ne_eq,
      reduceCtorEq, not_false_eq_true, true_and, Scope.entries, Table.contains_mapValues, hhost]
    rfl
  | proc p =>
    simp only [declare, declareProcedure, Declarable.home, modifyHome, Declarable.entity, ne_eq,
      reduceCtorEq, not_false_eq_true, true_and, Scope.entries, Table.contains_mapValues, hhost]
    rfl

/-- **What a declaration does to a stack.** It enters a new key into the root, if no scope is open
    or a type or a procedure moves there from depth 1, or into the innermost open scope. -/
inductive ScopeStack.Declares (d : Declarable) : ScopeStack → ScopeStack → Prop where
  | root {root : Scope} {inner : List Scope} :
      (root.entries d.entity).contains d.key = false →
      (inner = [] ∨ d.entity ≠ .var ∧ (mk root inner).depth = 1) →
      Declares d ⟨root, inner⟩ ⟨root.enter d, inner⟩
  | inner {root sc : Scope} {rest : List Scope} :
      (sc.entries d.entity).contains d.key = false → (d.entity = .var ∨ sc.depth ≠ 1) →
      Declares d ⟨root, sc :: rest⟩ ⟨root, sc.enter d :: rest⟩

theorem ScopeStack.declares_of_ok {st st' : ScopeStack} {d : Declarable}
    (h : st.declare d = .ok st') : st.Declares d st' := by
  rw [declare_eq] at h
  split at h
  · cases h
  · rename_i hc
    have hnew := eq_false_of_ne_true hc
    obtain rfl := Except.ok.inj h
    unfold Declarable.home at hnew
    unfold modifyHome
    split at hnew
    · rename_i hroot
      rw [if_pos hroot]
      exact .root hnew (.inr hroot)
    · rename_i hinner
      rw [if_neg hinner]
      rcases st with ⟨root, inner⟩
      cases inner with
      | nil => exact .root hnew (.inl rfl)
      | cons sc rest =>
        refine .inner hnew ?_
        by_cases hv : d.entity = .var
        · exact .inl hv
        · exact .inr fun hd => hinner ⟨hv, hd⟩

/-! ## 3. Runs -/

/-- An operation on a stack. -/
inductive ScopeOp where
  | push
  | pop
  | declare (d : Declarable)

namespace ScopeStack

/-- The stack after an operation. Closing the root and a refused declaration change nothing. -/
def step (st : ScopeStack) : ScopeOp → ScopeStack
  | .push => st.push
  | .pop => st.pop.2
  | .declare d => (st.declare d).toOption.getD st

/-- The stack after a run of operations. -/
def run (st : ScopeStack) (ops : List ScopeOp) : ScopeStack := ops.foldl step st

/-- A run of operations leads from the fresh stack to this one. -/
def Reachable (st : ScopeStack) : Prop := ∃ ops, fresh.run ops = st

@[simp] theorem run_nil (st : ScopeStack) : st.run [] = st := rfl

@[simp] theorem run_cons (st : ScopeStack) (op : ScopeOp) (ops : List ScopeOp) :
    st.run (op :: ops) = (st.step op).run ops := rfl

@[simp] theorem run_append (st : ScopeStack) (ops ops' : List ScopeOp) :
    st.run (ops ++ ops') = (st.run ops).run ops' := List.foldl_append

theorem step_declare (st : ScopeStack) (d : Declarable) :
    (∃ what, st.declare d = .error what) ∧ st.step (.declare d) = st ∨
      st.declare d = .ok (st.step (.declare d)) ∧ st.Declares d (st.step (.declare d)) := by
  cases h : st.declare d with
  | error what =>
    refine .inl ⟨⟨what, rfl⟩, ?_⟩
    rw [step, h]
    rfl
  | ok st' =>
    have hstep : st.step (.declare d) = st' := by
      rw [step, h]
      rfl
    rw [hstep]
    exact .inr ⟨rfl, declares_of_ok h⟩

end ScopeStack

/-! ## 4. The invariant -/

/-- Every entry of the scope stands under the key of its name, and no key comes twice. -/
structure Scope.Sound (sc : Scope) : Prop where
  key : ∀ e, ∀ entry ∈ sc.entries e, entry.1 = entry.2.key
  nodup : ∀ e, ((sc.entries e).map (·.1)).Nodup

theorem Scope.Sound.empty (depth : Nat) : Scope.Sound { depth } := by
  constructor
  · intro e entry he
    cases e <;> exact absurd he List.not_mem_nil
  · intro e
    cases e <;> exact List.nodup_nil

theorem Scope.Sound.enter {sc : Scope} (h : sc.Sound) {d : Declarable}
    (hnew : (sc.entries d.entity).contains d.key = false) : (sc.enter d).Sound := by
  constructor
  · intro e entry he
    rw [entries_enter hnew] at he
    rcases List.mem_append.mp he with he | he
    · exact h.key e entry he
    · obtain ⟨d', _, _, rfl⟩ := Declarable.mem_table.mp he
      rfl
  · intro e
    rw [entries_enter hnew]
    by_cases hd : d.entity = e
    · subst hd
      rw [Declarable.table_self, List.map_append, List.nodup_append]
      refine ⟨h.nodup _, List.nodup_singleton _, fun a ha b hb hab => ?_⟩
      rw [hab, List.mem_singleton.mp hb] at ha
      exact Table.not_mem_keys hnew ha
    · rw [Declarable.table_of_ne hd, List.append_nil]
      exact h.nodup e

namespace ScopeStack

/-- **The invariant of a stack.** From the root inward the depths are 0, 1, 2 and so on; all scopes
    are sound; that of depth 1 has variables only; the root has the types every program knows. -/
structure WellFormed (st : ScopeStack) : Prop where
  depths : st.scopes.map Scope.depth = (List.range st.scopes.length).reverse
  sound : ∀ sc ∈ st.scopes, sc.Sound
  first : ∀ sc ∈ st.scopes, sc.depth = 1 → ∀ e, e ≠ .var → sc.entries e = []
  builtins : ∀ t ∈ Ty.builtins, (st.root.entries .type).find? (Name.mangle t.name) = some (.type t)

theorem scopes_cons (root sc : Scope) (rest : List Scope) :
    (mk root (sc :: rest)).scopes = sc :: (mk root rest).scopes := rfl

theorem root_mem_scopes (st : ScopeStack) : st.root ∈ st.scopes :=
  List.mem_append_right _ (List.mem_singleton_self _)

section

variable {st st' : ScopeStack}

/-- The scope at the `i`th place from the root has depth `i`. -/
theorem WellFormed.depth_at (h : st.WellFormed) {i : Nat} {sc : Scope}
    (hi : st.scopes.reverse[i]? = some sc) : sc.depth = i := by
  have hd := congrArg (fun l => l.reverse[i]?) h.depths
  simp only [← List.map_reverse, List.getElem?_map, hi, List.reverse_reverse, Option.map_some] at hd
  obtain ⟨_, he⟩ := List.getElem?_eq_some_iff.mp hd.symm
  rw [← he, List.getElem_range]

theorem WellFormed.root_depth (h : st.WellFormed) : st.root.depth = 0 := by
  refine h.depth_at ?_
  rw [scopes, List.reverse_append]
  rfl

/-- The depth counter is the number of open scopes. -/
theorem WellFormed.depth_eq (h : st.WellFormed) : st.depth = st.inner.length := by
  rcases st with ⟨root, inner⟩
  cases inner with
  | nil => exact h.root_depth
  | cons sc rest =>
    refine h.depth_at ?_
    rw [scopes, List.cons_append, List.reverse_cons, List.getElem?_append_right (by simp)]
    simp [innermost]

/-- The types every program knows stand under keys of their own. -/
theorem fresh_sound : ScopeStack.fresh.root.Sound := by
  constructor
  · intro e entry he
    cases e with
    | type =>
      obtain ⟨_, hentry, rfl⟩ := List.mem_map.mp he
      obtain ⟨t, _, rfl⟩ := List.mem_map.mp hentry
      rfl
    | _ => exact absurd he List.not_mem_nil
  · intro e
    cases e with
    | type =>
      have hkeys : (ScopeStack.fresh.root.entries .type).map (·.1) =
          ["_O3int", "_O4uint", "_O6string"] := by cbv
      rw [hkeys]
      decide
    | _ => exact List.nodup_nil

theorem WellFormed.fresh : ScopeStack.fresh.WellFormed := by
  constructor
  · rfl
  · exact List.forall_mem_singleton.mpr fresh_sound
  · refine List.forall_mem_singleton.mpr fun hd => ?_
    cases hd
  · intro t ht
    exact Table.find?_of_mem (fresh_sound.nodup .type)
      (List.mem_map.mpr ⟨_, List.mem_map_of_mem ht, rfl⟩)

theorem WellFormed.push (h : st.WellFormed) : st.push.WellFormed := by
  have hscopes : st.push.scopes = { depth := st.depth + 1 } :: st.scopes := rfl
  have hlen : st.scopes.length = st.inner.length + 1 := List.length_append
  constructor
  · rw [hscopes, List.map_cons, List.length_cons, List.range_succ, List.reverse_append, h.depths,
      h.depth_eq, hlen]
    rfl
  · rw [hscopes]
    exact List.forall_mem_cons.mpr ⟨.empty _, h.sound⟩
  · rw [hscopes]
    refine List.forall_mem_cons.mpr ⟨fun _ e _ => ?_, h.first⟩
    cases e <;> rfl
  · exact h.builtins

theorem WellFormed.pop (h : st.WellFormed) : st.pop.2.WellFormed := by
  rcases st with ⟨root, inner⟩
  cases inner with
  | nil => exact h
  | cons sc rest =>
    obtain ⟨hdepths, hsound, hfirst, hbuiltins⟩ := h
    rw [scopes_cons] at hdepths hsound hfirst
    rw [List.map_cons, List.length_cons, List.range_succ, List.reverse_append] at hdepths
    exact ⟨(List.cons.inj hdepths).2, (List.forall_mem_cons.mp hsound).2,
      (List.forall_mem_cons.mp hfirst).2, hbuiltins⟩

theorem WellFormed.declares (h : st.WellFormed) {d : Declarable} (hd : st.Declares d st') :
    st'.WellFormed := by
  cases hd with
  | @root root inner hnew hplace =>
    have hdepth : root.depth = 0 := h.root_depth
    obtain ⟨hdepths, hsound, hfirst, hbuiltins⟩ := h
    have hroot := (hsound root (root_mem_scopes _)).enter hnew
    rw [scopes, List.forall_mem_append] at hsound hfirst
    refine ⟨?_, ?_, ?_, ?_⟩
    · rw [scopes, List.map_append, List.length_append] at hdepths ⊢
      rw [List.map_singleton, Scope.enter_depth]
      exact hdepths
    · rw [scopes, List.forall_mem_append]
      exact ⟨hsound.1, List.forall_mem_singleton.mpr hroot⟩
    · rw [scopes, List.forall_mem_append]
      refine ⟨hfirst.1, List.forall_mem_singleton.mpr fun hone => ?_⟩
      rw [Scope.enter_depth, hdepth] at hone
      cases hone
    · intro t ht
      have hfound : List.lookup (Name.mangle t.name) (root.entries .type) = some (.type t) :=
        hbuiltins t ht
      show List.lookup _ ((root.enter d).entries .type) = _
      rw [Scope.entries_enter hnew, List.lookup_append, hfound]
      rfl
  | @inner root sc rest hnew hplace =>
    obtain ⟨hdepths, hsound, hfirst, hbuiltins⟩ := h
    rw [scopes_cons] at hdepths hsound hfirst
    obtain ⟨hsc, hsound⟩ := List.forall_mem_cons.mp hsound
    obtain ⟨hone, hfirst⟩ := List.forall_mem_cons.mp hfirst
    refine ⟨?_, ?_, ?_, hbuiltins⟩
    · rw [scopes_cons, List.map_cons, Scope.enter_depth]
      exact hdepths
    · rw [scopes_cons]
      exact List.forall_mem_cons.mpr ⟨hsc.enter hnew, hsound⟩
    · rw [scopes_cons]
      refine List.forall_mem_cons.mpr ⟨fun hd e he => ?_, hfirst⟩
      rw [Scope.enter_depth] at hd
      -- in the scope of depth 1 only variables are entered
      have hvar : d.entity = .var := hplace.resolve_right fun hne => hne hd
      rw [Scope.entries_enter hnew, hone hd e he, Declarable.table_of_ne (hvar ▸ he.symm)]
      rfl

/-- **Every operation keeps the invariant.** -/
theorem WellFormed.step (h : st.WellFormed) (op : ScopeOp) : (st.step op).WellFormed := by
  cases op with
  | push => exact h.push
  | pop => exact h.pop
  | declare d =>
    rcases st.step_declare d with ⟨_, hsame⟩ | ⟨_, hdeclares⟩
    · rw [hsame]
      exact h
    · exact h.declares hdeclares

/-- **So does every run.** -/
theorem WellFormed.run (h : st.WellFormed) : ∀ ops : List ScopeOp, (st.run ops).WellFormed := by
  intro ops
  induction ops generalizing st with
  | nil => exact h
  | cons op ops ih => exact ih (h.step op)

theorem Reachable.wellFormed (h : st.Reachable) : st.WellFormed := by
  obtain ⟨ops, rfl⟩ := h
  exact WellFormed.fresh.run ops

end

end ScopeStack

/-! ## 5. The main result -/

/-- **The form of every stack that a run leads to.** There is a scope; from the root inward the
    `i`th has depth `i`; every entry stands under the key of its name; the scope next to the root
    has neither types nor procedures; the root knows `int`, `uint` and `string` as elementary types
    of size 0. A declaration is refused exactly if its home has the key already: the root for types
    and procedures at depth 1, else the innermost scope. The refusal names what was to be declared,
    and leaves the stack, and a check that declares it, as they were. -/
theorem reachable_represents {st : ScopeStack} (h : st.Reachable) :
    st.scopes ≠ [] ∧
    (∀ (i : Nat) (sc : Scope), st.scopes.reverse[i]? = some sc → sc.depth = i) ∧
    (∀ sc ∈ st.scopes, (∀ entry ∈ sc.vars, entry.1 = Name.mangle entry.2.name) ∧
      (∀ entry ∈ sc.types, entry.1 = Name.mangle entry.2.name) ∧
      ∀ entry ∈ sc.procs, entry.1 = Name.mangle entry.2.name) ∧
    (∀ sc, st.scopes.reverse[1]? = some sc → sc.types = [] ∧ sc.procs = []) ∧
    (∀ name ∈ ["int", "uint", "string"],
      st.root.types.find? (Name.mangle name) = some (.elementary name 0)) ∧
    ∀ d : Declarable,
      ((∃ what, st.declare d = .error what) ↔
        ((d.home st).entries d.entity).contains d.key = true) ∧
      ∀ what, st.declare d = .error what →
        what = ⟨d.entity, d.name⟩ ∧ st.step (.declare d) = st ∧
        ∀ s : Analyzer, s.scopes = st →
          Check.declare (·.declare d) s = .error (.fault (.redeclared what)) s := by
  have hw := h.wellFormed
  refine ⟨List.append_ne_nil_of_right_ne_nil _ (List.cons_ne_nil _ _), fun i sc => hw.depth_at,
    fun sc hsc => ?_, fun sc hsc => ?_, fun name hname => ?_, fun d => ⟨?_, fun what hwhat => ?_⟩⟩
  · have hkey := (hw.sound sc hsc).key
    exact ⟨fun entry he => hkey .var _ (List.mem_map_of_mem he),
      fun entry he => hkey .type _ (List.mem_map_of_mem he),
      fun entry he => hkey .proc _ (List.mem_map_of_mem he)⟩
  · have hmem : sc ∈ st.scopes := List.mem_reverse.mp (List.mem_of_getElem? hsc)
    have hfirst := hw.first sc hmem (hw.depth_at hsc)
    exact ⟨List.map_eq_nil_iff.mp (hfirst .type (by decide)),
      List.map_eq_nil_iff.mp (hfirst .proc (by decide))⟩
  · have hmem : Ty.elementary name 0 ∈ Ty.builtins :=
      List.mem_map_of_mem (f := fun name => Ty.elementary name 0) hname
    have hfound := hw.builtins _ hmem
    rw [Scope.entries, Table.find?_mapValues, Option.map_eq_some_iff] at hfound
    obtain ⟨t, ht, e⟩ := hfound
    cases e
    exact ht
  · rw [st.declare_eq d]
    split
    · rename_i hc
      exact ⟨fun _ => hc, fun _ => ⟨_, rfl⟩⟩
    · rename_i hc
      refine ⟨?_, fun hc' => absurd hc' hc⟩
      rintro ⟨_, hok⟩
      cases hok
  · have hnamed : what = ⟨d.entity, d.name⟩ := by
      rw [st.declare_eq d] at hwhat
      split at hwhat
      · exact (Except.error.inj hwhat).symm
      · cases hwhat
    refine ⟨hnamed, ?_, fun s hs => ?_⟩
    · rw [ScopeStack.step, hwhat]
      rfl
    · rw [← hs] at hwhat
      exact Check.declare_error.mpr ⟨what, hwhat, rfl, rfl⟩

/-- A procedure that is declared in the first open scope goes to the root: there it is in the way of
    a second one, and the open scope has no procedures. -/
theorem reachable_represents_of_hoisted :
    ∃ st : ScopeStack, st.Reachable ∧ st.scopes.length = 2 ∧
      (∀ sc, st.scopes.reverse[1]? = some sc → sc.types = [] ∧ sc.procs = []) ∧
      st.declare (.proc ⟨"f", some (.elementary "int" 0), []⟩) = .error ⟨.proc, "f"⟩ := by
  let ops : List ScopeOp := [.push, .declare (.proc ⟨"f", none, []⟩)]
  have hreach : (ScopeStack.fresh.run ops).Reachable := ⟨ops, rfl⟩
  obtain ⟨_, _, _, hfirst, _, hdeclare⟩ := reachable_represents hreach
  obtain ⟨hrefused, hnamed⟩ := hdeclare (.proc ⟨"f", some (.elementary "int" 0), []⟩)
  obtain ⟨what, hwhat⟩ := hrefused.mpr (by cbv)
  obtain ⟨rfl, _⟩ := hnamed what hwhat
  exact ⟨_, hreach, by cbv, hfirst, hwhat⟩

end Osclan
