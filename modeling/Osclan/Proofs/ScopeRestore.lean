/-
  File:      Osclan/Proofs/ScopeRestore.lean
  Subject:   Leaving a scope restores what names stand for.

  Between opening a scope and closing it again anything may be declared, in further scopes too. What
  goes into the scopes that are closed is gone with them. The scopes around them are not touched,
  with one exception: types and procedures of depth 1 have gone to the root. So a look-up after the
  scope has been closed is the look-up before it was opened, and where that finds nothing, a look-up
  among what has moved.

  * `ScopeStack.find?` -- look-ups of all three kinds in one;
  * `Balanced`, `ScopeStack.accepted` -- runs that close what they open, and what they declare;
  * `Balanced.frame`, `Balanced.root_entries` -- what such a run may change, and what it adds to the
    root;
  * `find?_block` -- look-ups after a scope has been closed;
  * **`leaving_restores`** -- the same for variables, types and procedures by name;
  * `namesake_not_restored` -- names are told apart by their keys only.
-/
import Osclan.Proofs.ScopeRuns

namespace Osclan

/-! ## 1. Look-ups -/

namespace ScopeStack

/-- What a key stands for as a declaration of the given kind. -/
def find? (st : ScopeStack) (e : Entity) (key : String) : Option Declarable :=
  st.scopes.findSome? fun sc => (sc.entries e).find? key

theorem find?_var (st : ScopeStack) (name : String) :
    st.find? .var (Name.mangle name) = (st.lookupVariable? name).map .var := by
  simp only [find?, lookupVariable?, Scope.entries, Table.find?_mapValues, List.map_findSome?]
  rfl

theorem find?_type (st : ScopeStack) (name : String) :
    st.find? .type (Name.mangle name) = (st.lookupType? name).map .type := by
  simp only [find?, lookupType?, Scope.entries, Table.find?_mapValues, List.map_findSome?]
  rfl

theorem find?_proc (st : ScopeStack) (name : String) :
    st.find? .proc (Name.mangle name) = (st.lookupProcedure? name).map .proc := by
  simp only [find?, lookupProcedure?, Scope.entries, Table.find?_mapValues, List.map_findSome?]
  rfl

/-- The open scopes are asked first, and then the root. -/
theorem find?_eq_or (root : Scope) (inner : List Scope) (e : Entity) (key : String) :
    (mk root inner).find? e key =
      (inner.findSome? fun sc => (sc.entries e).find? key).or ((root.entries e).find? key) := by
  rw [find?, scopes, List.findSome?_append, List.findSome?_singleton]

end ScopeStack

/-! ## 2. Balanced runs and what they declare -/

/-- The operations close every scope that they open, and no other. -/
inductive Balanced : List ScopeOp → Prop where
  | nil : Balanced []
  | declare (d : Declarable) {ops : List ScopeOp} : Balanced ops → Balanced (.declare d :: ops)
  | block {body ops : List ScopeOp} : Balanced body → Balanced ops →
      Balanced (.push :: (body ++ .pop :: ops))

namespace ScopeStack

/-- What an operation declares, with the depth at which it does. -/
def accepts (st : ScopeStack) : ScopeOp → List (Nat × Declarable)
  | .declare d => if (st.declare d).isOk then [(st.depth, d)] else []
  | _ => []

/-- What a run declares, in the order of the run. Refused declarations do not count. -/
def accepted (st : ScopeStack) : List ScopeOp → List (Nat × Declarable)
  | [] => []
  | op :: ops => st.accepts op ++ (st.step op).accepted ops

theorem accepted_append (st : ScopeStack) (ops ops' : List ScopeOp) :
    st.accepted (ops ++ ops') = st.accepted ops ++ (st.run ops).accepted ops' := by
  induction ops generalizing st with
  | nil => rfl
  | cons op ops ih =>
    rw [List.cons_append, accepted, accepted, ih, List.append_assoc]
    rfl

/-- What a run declares before, inside and behind a scope of its own. -/
theorem accepted_block (st : ScopeStack) (body ops : List ScopeOp) :
    st.accepted (.push :: (body ++ .pop :: ops)) =
      st.push.accepted body ++ (st.push.run body).pop.2.accepted ops := by
  show st.push.accepted (body ++ .pop :: ops) = _
  rw [accepted_append]
  rfl

theorem run_block (st : ScopeStack) (body ops : List ScopeOp) :
    st.run (.push :: (body ++ .pop :: ops)) = ((st.push.run body).pop.2).run ops := by
  rw [run_cons, run_append]
  rfl

/-- A declaration is refused and counts for nothing, or taken and counted. -/
theorem accepts_declare (st : ScopeStack) (d : Declarable) :
    st.accepts (.declare d) = [] ∧ st.step (.declare d) = st ∨
      st.accepts (.declare d) = [(st.depth, d)] ∧ st.Declares d (st.step (.declare d)) := by
  rcases st.step_declare d with ⟨⟨what, hwhat⟩, hsame⟩ | ⟨hok, hdeclares⟩
  · refine .inl ⟨?_, hsame⟩
    rw [accepts, hwhat]
    rfl
  · refine .inr ⟨?_, hdeclares⟩
    rw [accepts, hok]
    rfl

end ScopeStack

/-- What moves to the root: the types and procedures that are declared at depth 1. -/
def hoisted (declared : List (Nat × Declarable)) : List Declarable :=
  (declared.filter fun x => x.1 = 1 ∧ x.2.entity ≠ .var).map (·.2)

theorem hoisted_append (declared declared' : List (Nat × Declarable)) :
    hoisted (declared ++ declared') = hoisted declared ++ hoisted declared' := by
  rw [hoisted, List.filter_append, List.map_append]
  rfl

theorem mem_hoisted {declared : List (Nat × Declarable)} {d : Declarable} :
    d ∈ hoisted declared ↔ (1, d) ∈ declared ∧ d.entity ≠ .var := by
  simp only [hoisted, List.mem_map, List.mem_filter, decide_eq_true_eq]
  constructor
  · rintro ⟨⟨depth, d⟩, ⟨hm, rfl, hd⟩, rfl⟩
    exact ⟨hm, hd⟩
  · rintro ⟨hm, hd⟩
    exact ⟨(1, d), ⟨hm, rfl, hd⟩, rfl⟩

/-! ## 3. What a balanced run does -/

theorem ScopeStack.declare_frame {st st' : ScopeStack} {d : Declarable}
    (h : st.declare d = .ok st') : st.Frame st' := by
  cases d with
  | var v => exact declareVariable_frame h
  | type t => exact declareType_frame h
  | proc p => exact declareProcedure_frame h

theorem ScopeStack.step_declare_frame (st : ScopeStack) (d : Declarable) :
    st.Frame (st.step (.declare d)) := by
  rcases st.step_declare d with ⟨_, hsame⟩ | ⟨hok, _⟩
  · rw [hsame]
    exact .refl st
  · exact declare_frame hok

/-- What a declaration from an open scope adds to the root: itself, if it moves there. -/
theorem ScopeStack.Declares.root_entries {st st' : ScopeStack} {d : Declarable}
    (h : st.Declares d st') (hopen : st.inner ≠ []) (e : Entity) :
    st'.root.entries e =
      st.root.entries e ++ Declarable.table e (hoisted [(st.depth, d)]) := by
  cases h with
  | root hnew hplace =>
    obtain ⟨hkind, hdepth⟩ := hplace.resolve_left hopen
    have hmoves : hoisted [(1, d)] = [d] := by simp [hoisted, hkind]
    rw [hdepth, hmoves]
    exact Scope.entries_enter hnew e
  | @inner root sc rest hnew hplace =>
    have hstays : hoisted [(sc.depth, d)] = [] := by
      rcases hplace with hvar | hdepth
      · simp [hoisted, hvar]
      · simp [hoisted, hdepth]
    have hdepth : (mk root (sc :: rest)).depth = sc.depth := rfl
    rw [hdepth, hstays]
    exact (List.append_nil _).symm

theorem ScopeStack.Frame.inner_ne_nil {st st' : ScopeStack} (h : st.Frame st')
    (hopen : st.inner ≠ []) : st'.inner ≠ [] := by
  intro hnil
  refine hopen (List.length_eq_zero_iff.mp ?_)
  rw [← h.length, hnil]
  rfl

theorem ScopeStack.push_inner_ne_nil (st : ScopeStack) : st.push.inner ≠ [] := List.cons_ne_nil _ _

theorem ScopeStack.pop_root (st : ScopeStack) : st.pop.2.root = st.root := by
  rcases st with ⟨root, inner⟩
  cases inner <;> rfl

namespace Balanced

variable {ops : List ScopeOp}

/-- **A balanced run stays within the frame of the stack it begins on.** -/
theorem frame (h : Balanced ops) (st : ScopeStack) : st.Frame (st.run ops) := by
  induction h generalizing st with
  | nil => exact .refl st
  | declare d _ ih => exact (st.step_declare_frame d).trans (ih _)
  | block _ _ ihb ih =>
    rw [ScopeStack.run_block]
    exact (ScopeStack.frame_of_push (ihb st.push)).trans (ih _)

/-- **What the root has gained after a balanced run in an open scope** is what has moved there. -/
theorem root_entries (h : Balanced ops) {st : ScopeStack} (hopen : st.inner ≠ []) (e : Entity) :
    (st.run ops).root.entries e =
      st.root.entries e ++ Declarable.table e (hoisted (st.accepted ops)) := by
  induction h generalizing st with
  | nil => exact (List.append_nil _).symm
  | @declare d ops _ ih =>
    have hstep : (st.step (.declare d)).root.entries e =
        st.root.entries e ++ Declarable.table e (hoisted (st.accepts (.declare d))) := by
      rcases st.accepts_declare d with ⟨hnone, hsame⟩ | ⟨hone, hdeclares⟩
      · rw [hnone, hsame]
        exact (List.append_nil _).symm
      · rw [hone]
        exact hdeclares.root_entries hopen e
    rw [ScopeStack.run_cons, ih ((st.step_declare_frame d).inner_ne_nil hopen), hstep,
      ScopeStack.accepted, hoisted_append, Declarable.table_append, List.append_assoc]
  | @block body ops hb _ ihb ih =>
    have hframe := ScopeStack.frame_of_push (hb.frame st.push)
    rw [ScopeStack.run_block, ih (hframe.inner_ne_nil hopen), ScopeStack.pop_root,
      ihb st.push_inner_ne_nil, ScopeStack.accepted_block, hoisted_append,
      Declarable.table_append, List.append_assoc]
    rfl

/-- Nothing is declared at a smaller depth than that at which the run begins. -/
theorem depth_le (h : Balanced ops) (st : ScopeStack) :
    ∀ x ∈ st.accepted ops, st.depth ≤ x.1 := by
  induction h generalizing st with
  | nil => exact fun x hx => absurd hx List.not_mem_nil
  | @declare d ops _ ih =>
    intro x hx
    rcases List.mem_append.mp hx with hx | hx
    · rcases st.accepts_declare d with ⟨hnone, _⟩ | ⟨hone, _⟩
      · rw [hnone] at hx
        exact absurd hx List.not_mem_nil
      · rw [hone] at hx
        rw [List.mem_singleton.mp hx]
    · have hdepth : (st.step (.declare d)).depth = st.depth :=
        (st.step_declare_frame d).innermost.depth
      exact hdepth ▸ ih _ x hx
  | @block body ops hb _ ihb ih =>
    intro x hx
    rw [ScopeStack.accepted_block] at hx
    rcases List.mem_append.mp hx with hx | hx
    · exact Nat.le_of_succ_le (ihb st.push x hx)
    · have hdepth : (st.push.run body).pop.2.depth = st.depth :=
        (ScopeStack.frame_of_push (hb.frame st.push)).innermost.depth
      exact hdepth ▸ ih _ x hx

end Balanced

/-! ## 4. Look-ups after a scope and after a declaration -/

section

variable {st st' : ScopeStack} {body : List ScopeOp}

/-- **Look-ups after a scope has been closed** are those from before it was opened, and where these
    find nothing, look-ups among what has moved to the root. -/
theorem find?_block (st : ScopeStack) (hb : Balanced body) (e : Entity) (key : String) :
    (st.push.run body).pop.2.find? e key = (st.find? e key).or
      ((Declarable.table e (hoisted (st.push.accepted body))).find? key) := by
  obtain ⟨closed, hpop⟩ := ScopeStack.pop_of_push_frame (hb.frame st.push)
  have hroot := hb.root_entries st.push_inner_ne_nil e
  have hbefore := ScopeStack.find?_eq_or st.root st.inner e key
  rw [hpop, ScopeStack.find?_eq_or, hroot, Table.find?, List.lookup_append, ← Option.or_assoc]
  exact congrArg (Option.or · _) hbefore.symm

/-- What moves to the root comes from the first open scope, so that no scope was open before. -/
theorem inner_eq_nil_of_hoisted (hw : st.WellFormed) (hb : Balanced body) {d : Declarable}
    (hd : d ∈ hoisted (st.push.accepted body)) : st.inner = [] := by
  have hdepth : st.depth + 1 ≤ 1 := hb.depth_le st.push _ (mem_hoisted.mp hd).1
  rw [hw.depth_eq] at hdepth
  exact List.length_eq_zero_iff.mp (by omega)

/-- **What has moved to the root** was not there before, and is found afterwards. -/
theorem find?_of_hoisted (hw : st.WellFormed) (hb : Balanced body) {d : Declarable}
    (hd : d ∈ hoisted (st.push.accepted body)) :
    st.find? d.entity d.key = none ∧
      (st.push.run body).pop.2.find? d.entity d.key = some d := by
  have hmem : (d.key, d) ∈ Declarable.table d.entity (hoisted (st.push.accepted body)) :=
    Declarable.mem_table.mpr ⟨d, hd, rfl, rfl⟩
  -- the keys of the root after the run differ from each other, so the new ones from the old ones
  have hnodup := ((hw.push.run body).sound _ (ScopeStack.root_mem_scopes _)).nodup d.entity
  rw [hb.root_entries st.push_inner_ne_nil, List.map_append, List.nodup_append] at hnodup
  obtain ⟨_, hnew, hdisjoint⟩ := hnodup
  have hroot : (st.root.entries d.entity).find? d.key = none := by
    by_contra hfound
    obtain ⟨other, hother⟩ := Option.ne_none_iff_exists'.mp hfound
    have hold := List.mem_map_of_mem (f := Prod.fst) (Table.mem_of_find? hother)
    exact hdisjoint _ hold _ (List.mem_map_of_mem (f := Prod.fst) hmem) rfl
  have hbefore : st.find? d.entity d.key = none := by
    have hinner := inner_eq_nil_of_hoisted hw hb hd
    rcases st with ⟨root, inner⟩
    obtain rfl : inner = [] := hinner
    rw [ScopeStack.find?_eq_or, hroot]
    rfl
  refine ⟨hbefore, ?_⟩
  rw [find?_block st hb, hbefore, Option.none_or]
  exact Table.find?_of_mem hnew hmem

/-- A new entry is found in the scope it was entered into. -/
theorem Scope.find?_enter {sc : Scope} {d : Declarable}
    (hnew : (sc.entries d.entity).contains d.key = false) :
    ((sc.enter d).entries d.entity).find? d.key = some d := by
  have hnone : List.lookup d.key (sc.entries d.entity) = none :=
    Option.isNone_iff_eq_none.mp (Option.isSome_eq_false_iff.mp hnew)
  rw [Scope.entries_enter hnew, Declarable.table_self, Table.find?, List.lookup_append, hnone,
    Option.none_or]
  exact List.lookup_cons_self

/-- **What has just been declared is found.** -/
theorem find?_declare (hw : st.WellFormed) {d : Declarable} (h : st.declare d = .ok st') :
    st'.find? d.entity d.key = some d := by
  cases ScopeStack.declares_of_ok h with
  | @root root inner hnew hplace =>
    rw [ScopeStack.find?_eq_or, Scope.find?_enter hnew]
    rcases hplace with rfl | ⟨hkind, hdepth⟩
    · rfl
    · -- one scope is open, and it has no entry of this kind in front of the root
      have hlen := hw.depth_eq
      rw [hdepth] at hlen
      obtain ⟨sc, rfl⟩ := List.length_eq_one_iff.mp hlen.symm
      have hempty : sc.entries d.entity = [] := hw.first sc List.mem_cons_self hdepth _ hkind
      rw [List.findSome?_singleton, hempty]
      rfl
  | @inner root sc rest hnew hplace =>
    rw [ScopeStack.find?_eq_or, List.findSome?_cons, Scope.find?_enter hnew]
    rfl

/-- No variable moves to the root. -/
theorem table_var_hoisted (declared : List (Nat × Declarable)) :
    Declarable.table .var (hoisted declared) = [] := by
  rw [List.eq_nil_iff_forall_not_mem]
  intro entry he
  obtain ⟨d, hd, hvar, _⟩ := Declarable.mem_table.mp he
  exact (mem_hoisted.mp hd).2 hvar

end

/-! ## 5. The main result -/

/-- The look-ups `after` are those `before`, but for names that share their key with something that
    was declared: such a name had no entry, and now stands for what was declared. -/
structure RestoredBut {α : Type} (declared : α → Prop) (name : α → String)
    (before after : String → Option α) : Prop where
  new : ∀ a, declared a → ∀ n, Name.mangle n = Name.mangle (name a) →
    before n = none ∧ after n = some a
  other : ∀ n, (∀ a, declared a → Name.mangle n ≠ Name.mangle (name a)) → after n = before n

/-- Types and procedures are restored alike: what is needed of either is that its look-up is the
    look-up of its kind. -/
theorem restoredBut_of_find? {α : Type} {e : Entity} {make : α → Declarable} {name : α → String}
    {look : ScopeStack → String → Option α}
    (hlook : ∀ st n, st.find? e (Name.mangle n) = (look st n).map make)
    (hinj : Function.Injective make) (hname : ∀ a, (make a).name = name a)
    (hmake : ∀ d, d.entity = e ↔ ∃ a, make a = d) (hkind : e ≠ .var) {st : ScopeStack}
    {body : List ScopeOp} (hw : st.WellFormed) (hb : Balanced body) :
    RestoredBut (fun a => (1, make a) ∈ st.push.accepted body) name (look st)
      (look (st.push.run body).pop.2) := by
  constructor
  · intro a ha n hn
    have hentity : (make a).entity = e := (hmake _).mpr ⟨a, rfl⟩
    have hkey : (make a).key = Name.mangle n := by rw [Declarable.key, hname, hn]
    have hd : make a ∈ hoisted (st.push.accepted body) := mem_hoisted.mpr ⟨ha, hentity ▸ hkind⟩
    obtain ⟨hbefore, hafter⟩ := find?_of_hoisted hw hb hd
    rw [hentity, hkey, hlook] at hbefore hafter
    obtain ⟨a', hfound, hsame⟩ := Option.map_eq_some_iff.mp hafter
    exact ⟨Option.map_eq_none_iff.mp hbefore, hinj hsame ▸ hfound⟩
  · intro n hn
    have hnone : (Declarable.table e (hoisted (st.push.accepted body))).find? (Name.mangle n) =
        none := by
      by_contra hfound
      obtain ⟨d, hd⟩ := Option.ne_none_iff_exists'.mp hfound
      obtain ⟨d', hd', hentity, hentry⟩ := Declarable.mem_table.mp (Table.mem_of_find? hd)
      obtain ⟨a, rfl⟩ := (hmake d').mp hentity
      have hkey : (make a).key = Name.mangle n := congrArg Prod.fst hentry
      refine hn a (mem_hoisted.mp hd').1 ?_
      rw [← hkey, Declarable.key, hname]
    apply Option.map_injective hinj
    rw [← hlook, ← hlook, find?_block st hb, hnone, Option.or_none]

/-- **Leaving a scope restores look-ups.** Whatever balanced run is made between opening a scope on
    a reachable stack and closing it again, variables are found afterwards as before. So are types
    and procedures, but for names with the key of one that the run has declared at depth 1: these
    had no entry before, and now stand for what was declared. And right after a declaration, at any
    depth, the name stands for what was declared. -/
theorem leaving_restores {st : ScopeStack} (h : st.Reachable) :
    (∀ (body : List ScopeOp) (after : ScopeStack), Balanced body →
      st.run (.push :: (body ++ [.pop])) = after →
      (∀ name, after.lookupVariable? name = st.lookupVariable? name) ∧
      RestoredBut (fun t => (1, .type t) ∈ st.push.accepted body) Ty.name
        st.lookupType? after.lookupType? ∧
      RestoredBut (fun p => (1, .proc p) ∈ st.push.accepted body) Procedure.name
        st.lookupProcedure? after.lookupProcedure?) ∧
    ∀ after : ScopeStack,
      (∀ v, st.declareVariable v = .ok after → after.lookupVariable? v.name = some v) ∧
      (∀ t, st.declareType t = .ok after → after.lookupType? t.name = some t) ∧
      ∀ p, st.declareProcedure p = .ok after → after.lookupProcedure? p.name = some p := by
  have hw := h.wellFormed
  refine ⟨fun body after hb hrun => ?_, fun after =>
    ⟨fun v hv => ?_, fun t ht => ?_, fun p hp => ?_⟩⟩
  · rw [ScopeStack.run_block, ScopeStack.run_nil] at hrun
    subst hrun
    refine ⟨fun name => ?_, ?_, ?_⟩
    · apply Option.map_injective (f := Declarable.var) fun _ _ => Declarable.var.inj
      rw [← ScopeStack.find?_var, ← ScopeStack.find?_var, find?_block st hb, table_var_hoisted]
      exact Option.or_none
    · refine restoredBut_of_find? ScopeStack.find?_type (fun _ _ => Declarable.type.inj)
        (fun _ => rfl) (fun d => ?_) (by decide) hw hb
      cases d <;> simp [Declarable.entity]
    · refine restoredBut_of_find? ScopeStack.find?_proc (fun _ _ => Declarable.proc.inj)
        (fun _ => rfl) (fun d => ?_) (by decide) hw hb
      cases d <;> simp [Declarable.entity]
  · apply Option.map_injective (f := Declarable.var) fun _ _ => Declarable.var.inj
    exact (after.find?_var v.name).symm.trans (find?_declare (d := .var v) hw hv)
  · apply Option.map_injective (f := Declarable.type) fun _ _ => Declarable.type.inj
    exact (after.find?_type t.name).symm.trans (find?_declare (d := .type t) hw ht)
  · apply Option.map_injective (f := Declarable.proc) fun _ _ => Declarable.proc.inj
    exact (after.find?_proc p.name).symm.trans (find?_declare (d := .proc p) hw hp)

/-- A scope that declares a procedure, and in a scope of its own a variable: the variable `x` from
    before is found as before, and the procedure is new. -/
theorem leaving_restores_of_shadowing :
    ∃ st after : ScopeStack, st.Reachable ∧
      st.run [.push, .declare (.proc ⟨"f", none, []⟩), .push,
        .declare (.var ⟨"x", .elementary "string" 2, false, 2⟩), .pop, .pop] = after ∧
      after.lookupVariable? "x" = st.lookupVariable? "x" ∧
      st.lookupVariable? "x" = some ⟨"x", .elementary "int" 4, false, 4⟩ ∧
      st.lookupProcedure? "f" = none ∧ after.lookupProcedure? "f" = some ⟨"f", none, []⟩ := by
  let x : Variable := ⟨"x", .elementary "int" 4, false, 4⟩
  let f : Procedure := ⟨"f", none, []⟩
  let body : List ScopeOp := [.declare (.proc f), .push,
    .declare (.var ⟨"x", .elementary "string" 2, false, 2⟩), .pop]
  have hbody : Balanced body := .declare _ (.block (.declare _ .nil) .nil)
  have hx : ScopeStack.fresh.declareVariable x = .ok (ScopeStack.fresh.step (.declare (.var x))) :=
    rfl
  have hreach : (ScopeStack.fresh.step (.declare (.var x))).Reachable := ⟨[.declare (.var x)], rfl⟩
  have hf : (1, .proc f) ∈ (ScopeStack.fresh.step (.declare (.var x))).push.accepted body :=
    List.mem_append_left _ (by cbv; exact List.mem_singleton_self _)
  obtain ⟨hvars, _, hprocs⟩ := (leaving_restores hreach).1 body _ hbody rfl
  obtain ⟨hnone, hsome⟩ := hprocs.new f hf "f" rfl
  exact ⟨_, _, hreach, rfl, hvars "x",
    ((leaving_restores ⟨[], rfl⟩).2 _).1 x hx, hnone, hsome⟩

/-- Names are told apart by their keys only: after a scope in which a procedure `a_b` has been
    declared, and nothing else, the name `a-b` stands for it, which had no entry before. -/
theorem namesake_not_restored :
    Balanced [.declare (.proc ⟨"a_b", none, []⟩)] ∧
    (∀ x ∈ ScopeStack.fresh.push.accepted [.declare (.proc ⟨"a_b", none, []⟩)], x.2.name ≠ "a-b") ∧
    ScopeStack.fresh.lookupProcedure? "a-b" = none ∧
    (ScopeStack.fresh.run [.push, .declare (.proc ⟨"a_b", none, []⟩), .pop]).lookupProcedure?
      "a-b" = some ⟨"a_b", none, []⟩ := by
  refine ⟨.declare _ .nil, ?_, rfl, by cbv⟩
  intro x hx
  rcases ScopeStack.fresh.push.accepts_declare (.proc ⟨"a_b", none, []⟩) with ⟨h, _⟩ | ⟨h, _⟩
  · rw [ScopeStack.accepted, h] at hx
    exact absurd hx List.not_mem_nil
  · rw [ScopeStack.accepted, h] at hx
    rw [List.mem_singleton.mp hx]
    decide

end Osclan
