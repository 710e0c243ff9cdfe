/-
  File:      Osclan/Proofs/ScopeFrame.lean
  Subject:   Which scopes a declaration may change, and how.

  A declaration changes the innermost scope or the root, and changes it by one entry at the end of
  one table. `ScopeStack.Frame` is this as a relation that can be chained: the two scopes at the
  ends grow, what lies between them stays. Opening a scope, working in it and closing it is again
  within the frame of the stack before.

  * `Table.insert_of_not_contains` -- a new key goes last;
  * `Scope.Grows`, `ScopeStack.Frame` -- what may change of a scope and of a stack;
  * `declareVariable_ok`, `declareType_ok`, `declareProcedure_ok` -- when a declaration is taken;
  * `declareVariable_frame`, `declareType_frame`, `declareProcedure_frame` -- declarations;
  * `frame_of_push` -- work in a scope of its own.
-/
import Osclan.Scope

namespace Osclan

/-! ## 1. Tables -/

theorem Table.find?_cons {α : Type} (k key : String) (v : α) (t : Table α) :
    Table.find? ((k, v) :: t) key = if key = k then some v else t.find? key := by
  unfold Table.find?
  rw [List.lookup_cons]
  by_cases h : key = k
  · simp only [h, beq_self_eq_true, if_true]
  · simp only [beq_eq_false_iff_ne.mpr h, if_neg h]

theorem Table.insert_of_not_contains {α : Type} (key : String) (value : α) : ∀ t : Table α,
    t.contains key = false → t.insert key value = t ++ [(key, value)]
  | [], _ => rfl
  | (k, v) :: rest, h => by
    have hk : ¬ key = k := by
      intro e
      simp only [Table.contains, Table.find?_cons, if_pos e, Option.isSome_some,
        Bool.true_eq_false] at h
    have hr : Table.contains rest key = false := by
      simpa only [Table.contains, Table.find?_cons, if_neg hk] using h
    have ih := Table.insert_of_not_contains key value rest hr
    rw [Table.insert, if_neg (fun e => hk e.symm), ih]
    rfl

/-! ## 2. Frames -/

/-- The scope keeps what it has; its tables may get longer at the end. -/
structure Scope.Grows (sc sc' : Scope) : Prop where
  depth : sc'.depth = sc.depth
  vars : sc.vars <+: sc'.vars
  types : sc.types <+: sc'.types
  procs : sc.procs <+: sc'.procs

theorem Scope.Grows.refl (sc : Scope) : sc.Grows sc :=
  ⟨rfl, List.prefix_refl _, List.prefix_refl _, List.prefix_refl _⟩

theorem Scope.Grows.trans {a b c : Scope} (h : a.Grows b) (h' : b.Grows c) : a.Grows c :=
  ⟨h'.depth.trans h.depth, h.vars.trans h'.vars, h.types.trans h'.types, h.procs.trans h'.procs⟩

namespace ScopeStack

/-- The scopes strictly between the root and the innermost one. -/
def between (st : ScopeStack) : List Scope := st.inner.tail

/-- **The frame of a stack**: the root and the innermost scope may grow, the scopes between them
    and the number of scopes stay. -/
structure Frame (st st' : ScopeStack) : Prop where
  root : st.root.Grows st'.root
  innermost : st.innermost.Grows st'.innermost
  between : st'.between = st.between
  length : st'.inner.length = st.inner.length

theorem Frame.refl (st : ScopeStack) : st.Frame st := ⟨.refl _, .refl _, rfl, rfl⟩

theorem Frame.trans {a b c : ScopeStack} (h : a.Frame b) (h' : b.Frame c) : a.Frame c :=
  ⟨h.root.trans h'.root, h.innermost.trans h'.innermost, h'.between.trans h.between,
    h'.length.trans h.length⟩

theorem Frame.inner_eq_nil {st st' : ScopeStack} (h : st.Frame st') (e : st.inner = []) :
    st'.inner = [] := by
  have hl := h.length
  rw [e] at hl
  exact List.length_eq_zero_iff.mp hl

/-! ## 3. Declarations -/

theorem modifyInnermost_frame {st : ScopeStack} {f : Scope → Scope}
    (hf : st.innermost.Grows (f st.innermost)) : st.Frame (st.modifyInnermost f) := by
  rcases st with ⟨root, inner⟩
  cases inner with
  | nil => exact ⟨hf, hf, rfl, rfl⟩
  | cons sc rest => exact ⟨.refl root, hf, rfl, rfl⟩

theorem modifyHost_frame {st : ScopeStack} {f : Scope → Scope} (hf : st.host.Grows (f st.host)) :
    st.Frame (st.modifyHost f) := by
  unfold host at hf
  unfold modifyHost
  split at hf
  · rename_i hd
    rw [if_pos hd]
    rcases st with ⟨root, inner⟩
    cases inner with
    | nil => exact ⟨hf, hf, rfl, rfl⟩
    | cons sc rest => exact ⟨hf, .refl sc, rfl, rfl⟩
  · rename_i hd
    rw [if_neg hd]
    exact modifyInnermost_frame hf

/-- A new key goes last, so a table is the beginning of what it becomes. -/
theorem prefix_insert {α : Type} {t : Table α} {key : String} (value : α)
    (h : t.contains key = false) : t <+: t.insert key value := by
  rw [Table.insert_of_not_contains key value t h]
  exact List.prefix_append _ _

/-- A variable is declared exactly if its key is new in the innermost scope. -/
theorem declareVariable_ok {st st' : ScopeStack} {v : Variable} :
    st.declareVariable v = .ok st' ↔ st.innermost.vars.contains v.mangled = false ∧
      st' = st.modifyInnermost fun sc => { sc with vars := sc.vars.insert v.mangled v } := by
  unfold declareVariable
  cases st.innermost.vars.contains v.mangled with
  | true => simp only [if_true, reduceCtorEq, Bool.true_eq_false, false_and]
  | false =>
    simp only [Bool.false_eq_true, if_false, Except.ok.injEq, true_and]
    exact eq_comm

/-- A type is declared exactly if its key is new in its host. -/
theorem declareType_ok {st st' : ScopeStack} {t : Ty} :
    st.declareType t = .ok st' ↔ st.host.types.contains (Name.mangle t.name) = false ∧
      st' = st.modifyHost fun sc =>
        { sc with types := sc.types.insert (Name.mangle t.name) t } := by
  simp only [declareType]
  cases st.host.types.contains (Name.mangle t.name) with
  | true => simp only [if_true, reduceCtorEq, Bool.true_eq_false, false_and]
  | false =>
    simp only [Bool.false_eq_true, if_false, Except.ok.injEq, true_and]
    exact eq_comm

/-- A procedure is declared exactly if its key is new in its host. -/
theorem declareProcedure_ok {st st' : ScopeStack} {p : Procedure} :
    st.declareProcedure p = .ok st' ↔ st.host.procs.contains p.mangled = false ∧
      st' = st.modifyHost fun sc => { sc with procs := sc.procs.insert p.mangled p } := by
  unfold declareProcedure
  cases st.host.procs.contains p.mangled with
  | true => simp only [if_true, reduceCtorEq, Bool.true_eq_false, false_and]
  | false =>
    simp only [Bool.false_eq_true, if_false, Except.ok.injEq, true_and]
    exact eq_comm

theorem declareVariable_frame {st st' : ScopeStack} {v : Variable}
    (h : st.declareVariable v = .ok st') : st.Frame st' := by
  obtain ⟨hc, rfl⟩ := declareVariable_ok.mp h
  exact modifyInnermost_frame ⟨rfl, prefix_insert v hc, List.prefix_refl _, List.prefix_refl _⟩

theorem declareType_frame {st st' : ScopeStack} {t : Ty} (h : st.declareType t = .ok st') :
    st.Frame st' := by
  obtain ⟨hc, rfl⟩ := declareType_ok.mp h
  exact modifyHost_frame ⟨rfl, List.prefix_refl _, prefix_insert t hc, List.prefix_refl _⟩

theorem declareProcedure_frame {st st' : ScopeStack} {p : Procedure}
    (h : st.declareProcedure p = .ok st') : st.Frame st' := by
  obtain ⟨hc, rfl⟩ := declareProcedure_ok.mp h
  exact modifyHost_frame ⟨rfl, List.prefix_refl _, List.prefix_refl _, prefix_insert p hc⟩

/-! ## 4. Work in a scope of its own -/

/-- What is left after the scope of some work has been closed. -/
theorem pop_of_push_frame {st st' : ScopeStack} (h : st.push.Frame st') :
    ∃ closed, st'.pop = (some closed, { root := st'.root, inner := st.inner }) := by
  rcases st' with ⟨root, inner⟩
  cases inner with
  | nil =>
    have hl := h.length
    simp only [push, List.length_nil, List.length_cons] at hl
    omega
  | cons closed rest =>
    have hb : rest = st.inner := h.between
    exact ⟨closed, by rw [hb]; rfl⟩

/-- **Work in a scope of its own stays within the frame of the stack around it.** -/
theorem frame_of_push {st st' : ScopeStack} (h : st.push.Frame st') : st.Frame st'.pop.2 := by
  obtain ⟨closed, e⟩ := pop_of_push_frame h
  rw [e]
  refine ⟨h.root, ?_, rfl, rfl⟩
  -- the scope around the work is the root itself, or one that the work cannot see
  rcases st with ⟨root, inner⟩
  cases inner with
  | nil => exact h.root
  | cons sc rest => exact .refl sc

end ScopeStack

end Osclan
