/-
  File:      Osclan/Proofs/ProcedureTable.lean
  Subject:   What a walk does to the tables of procedures.

  A walk enters procedures into tables only at procedures of the tree, and at the top of a tree it
  enters them into the root. So after a good walk over a tree whose procedures all stand at the top,
  the table of the root has their keys in source order and none of them twice.

  * `ScopeStack.ProcsIn`, `Effect.procsIn` -- all keys of procedures belong to a set;
  * `Effect.procs_eq` -- where no procedure may be declared, the tables stay;
  * `visit_procedure_top` -- a procedure at the top goes to the end of the root's table;
  * `Node.ProcsAtTop` -- trees whose procedures are all at the top;
  * `visitAll_procs_keys` -- the keys of the root after a good walk.
-/
import Osclan.Proofs.ScopeBalance

namespace Osclan

/-! ## 1. Scopes after a change -/

namespace ScopeStack

/-- A scope of a changed stack is a scope from before, or a changed one. -/
theorem mem_modifyInnermost {st : ScopeStack} {f : Scope → Scope} {sc : Scope}
    (h : sc ∈ (st.modifyInnermost f).scopes) : sc ∈ st.scopes ∨ ∃ old ∈ st.scopes, sc = f old := by
  rcases st with ⟨root, inner⟩
  cases inner with
  | nil =>
    simp only [modifyInnermost, scopes, List.nil_append, List.mem_singleton] at h ⊢
    exact .inr ⟨root, rfl, h⟩
  | cons top rest =>
    simp only [modifyInnermost, scopes, List.cons_append, List.mem_cons, List.mem_append] at h ⊢
    rcases h with h | h
    · exact .inr ⟨top, .inl rfl, h⟩
    · exact .inl (.inr h)

theorem mem_modifyHost {st : ScopeStack} {f : Scope → Scope} {sc : Scope}
    (h : sc ∈ (st.modifyHost f).scopes) : sc ∈ st.scopes ∨ ∃ old ∈ st.scopes, sc = f old := by
  unfold modifyHost at h
  split at h
  · simp only [scopes, List.mem_append, List.mem_singleton] at h ⊢
    rcases h with h | h
    · exact .inl (.inl h)
    · exact .inr ⟨st.root, .inr rfl, h⟩
  · exact mem_modifyInnermost h

theorem mem_scopes_pop {st : ScopeStack} {sc : Scope} (h : sc ∈ st.pop.2.scopes) :
    sc ∈ st.scopes := by
  rcases st with ⟨root, inner⟩
  cases inner with
  | nil => exact h
  | cons top rest => exact List.mem_cons_of_mem _ h

/-! ## 2. Keys of procedures that belong to a set -/

/-- The procedures of all scopes have keys of `K`. -/
def ProcsIn (K : String → Prop) (st : ScopeStack) : Prop :=
  ∀ sc ∈ st.scopes, ∀ entry ∈ sc.procs, K entry.1

theorem ProcsIn.push {K : String → Prop} {st : ScopeStack} (h : st.ProcsIn K) :
    st.push.ProcsIn K := by
  intro sc hsc entry he
  rcases List.mem_cons.mp hsc with rfl | hsc
  · exact absurd he List.not_mem_nil
  · exact h sc hsc entry he

end ScopeStack

theorem Table.mem_of_mem_insert {α : Type} {key : String} {value : α} {entry : String × α} :
    ∀ {t : Table α}, entry ∈ t.insert key value → entry ∈ t ∨ entry = (key, value)
  | [], h => .inr (List.mem_singleton.mp h)
  | (k, v) :: rest, h => by
    rw [Table.insert] at h
    split at h
    · rcases List.mem_cons.mp h with h | h
      · exact .inr h
      · exact .inl (List.mem_cons_of_mem _ h)
    · rcases List.mem_cons.mp h with h | h
      · exact .inl (List.mem_cons.mpr (.inl h))
      · exact (Table.mem_of_mem_insert h).imp (List.mem_cons_of_mem _) id

theorem Table.mem_of_find? {α : Type} {key : String} {value : α} : ∀ {t : Table α},
    t.find? key = some value → (key, value) ∈ t
  | [], h => by cases h
  | (k, v) :: rest, h => by
    rw [Table.find?_cons] at h
    split at h
    · rename_i e
      rw [e, Option.some.inj h]
      exact List.mem_cons_self
    · exact List.mem_cons_of_mem _ (Table.mem_of_find? h)

/-- A procedure that is found has a key of the set. -/
theorem ScopeStack.ProcsIn.of_lookup {K : String → Prop} {st : ScopeStack} (h : st.ProcsIn K)
    {name : String} {p : Procedure} (hp : st.lookupProcedure? name = some p) :
    K (Name.mangle name) := by
  obtain ⟨sc, hsc, hf⟩ := List.exists_of_findSome?_eq_some hp
  exact h sc hsc _ (Table.mem_of_find? hf)

/-- **Keys stay in a set that holds the keys of all procedures that may be declared.** -/
theorem Effect.procsIn {K : String → Prop} {s s' : Analyzer}
    (h : Effect (fun name => K (Name.mangle name)) s s') :
    s.scopes.ProcsIn K → s'.scopes.ProcsIn K := by
  induction h with
  | refl s => exact id
  | trans _ _ ih ih' => exact fun hs => ih' (ih hs)
  | declareVariable v h =>
    intro hs sc hsc
    obtain ⟨_, rfl⟩ := ScopeStack.declareVariable_ok.mp h
    rcases ScopeStack.mem_modifyInnermost hsc with hsc | ⟨old, hold, rfl⟩
    · exact hs sc hsc
    · exact hs old hold
  | declareType t h =>
    intro hs sc hsc
    obtain ⟨_, rfl⟩ := ScopeStack.declareType_ok.mp h
    rcases ScopeStack.mem_modifyHost hsc with hsc | ⟨old, hold, rfl⟩
    · exact hs sc hsc
    · exact hs old hold
  | declareProcedure p hp h =>
    intro hs sc hsc entry he
    obtain ⟨_, rfl⟩ := ScopeStack.declareProcedure_ok.mp h
    rcases ScopeStack.mem_modifyHost hsc with hsc | ⟨old, hold, rfl⟩
    · exact hs sc hsc entry he
    · rcases Table.mem_of_mem_insert he with he | rfl
      · exact hs old hold entry he
      · exact hp
  | warn s w => exact id
  | scope _ ih =>
    intro hs sc hsc
    rw [Check.leave_scopes] at hsc
    exact ih hs.push sc (ScopeStack.mem_scopes_pop hsc)
  | body p _ ih => exact ih

/-! ## 3. Where no procedure may be declared -/

namespace ScopeStack

/-- The tables of procedures, of the root and of the scopes inside it. -/
def procTables (st : ScopeStack) : Table Procedure × List (Table Procedure) :=
  (st.root.procs, st.inner.map (·.procs))

theorem procTables_modifyInnermost {st : ScopeStack} {f : Scope → Scope}
    (hf : ∀ sc : Scope, (f sc).procs = sc.procs) :
    (st.modifyInnermost f).procTables = st.procTables := by
  rcases st with ⟨root, inner⟩
  cases inner <;> simp only [modifyInnermost, procTables, List.map_nil, List.map_cons, hf]

theorem procTables_modifyHost {st : ScopeStack} {f : Scope → Scope}
    (hf : ∀ sc : Scope, (f sc).procs = sc.procs) :
    (st.modifyHost f).procTables = st.procTables := by
  unfold modifyHost
  split
  · simp only [procTables, hf]
  · exact procTables_modifyInnermost hf

theorem procTables_pop {st st' : ScopeStack} (h : st'.procTables = st.push.procTables) :
    st'.pop.2.procTables = st.procTables := by
  rcases st' with ⟨root, inner⟩
  simp only [procTables, push, List.map_cons, Prod.mk.injEq] at h
  cases inner with
  | nil =>
    have hl := congrArg List.length h.2
    simp only [List.map_nil, List.length_nil, List.length_cons] at hl
    omega
  | cons top rest =>
    simp only [List.map_cons, List.cons.injEq] at h
    simp only [pop, procTables, h.1, h.2.2]

end ScopeStack

/-- **Where no procedure may be declared, all tables of procedures stay.** -/
theorem Effect.procs_eq {s s' : Analyzer} (h : Effect (fun _ => False) s s') :
    s'.scopes.procTables = s.scopes.procTables := by
  induction h with
  | refl s => rfl
  | trans _ _ ih ih' => exact ih'.trans ih
  | declareVariable v h =>
    obtain ⟨_, rfl⟩ := ScopeStack.declareVariable_ok.mp h
    exact ScopeStack.procTables_modifyInnermost fun _ => rfl
  | declareType t h =>
    obtain ⟨_, rfl⟩ := ScopeStack.declareType_ok.mp h
    exact ScopeStack.procTables_modifyHost fun _ => rfl
  | declareProcedure p hp h => exact hp.elim
  | warn s w => rfl
  | scope _ ih =>
    rw [Check.leave_scopes]
    exact ScopeStack.procTables_pop ih
  | body p _ ih => exact ih

/-! ## 4. Procedures at the top -/

theorem paramVariables_state (st : ScopeStack) : ∀ {ns : List Node} {vs : List Variable}
    {s s' : Analyzer}, paramVariables st ns s = .ok vs s' → s' = s
  | [], vs, s, s', h => (Check.pure_ok.mp h).2.symm
  | n :: rest, vs, s, s', h => by
    simp only [paramVariables, Check.bind_ok, Check.ofExcept_ok, Check.makeVariable_ok,
      Check.pure_ok] at h
    obtain ⟨_, _, ⟨_, rfl⟩, _, _, ⟨_, rfl⟩, _, _, hr, _, rfl⟩ := h
    exact paramVariables_state st hr

/-- Making the procedure of a node leaves the state as it is. -/
theorem procedureOf_state {l : Label} {children : List Node} {s s' : Analyzer} {p : Procedure}
    (h : procedureOf l children s = .ok p s') : s' = s := by
  simp only [procedureOf, Check.bind_ok, Check.scopes_ok, Check.ofExcept_ok] at h
  obtain ⟨_, _, ⟨_, rfl⟩, _, _, ⟨_, rfl⟩, _, _, hp, h⟩ := h
  rw [← paramVariables_state _ hp]
  split at h
  · obtain ⟨_, _, hr, _⟩ := Check.bind_ok.mp h
    exact absurd hr Check.refuse_ok
  · exact (Check.pure_ok.mp h).2.symm

theorem Table.not_mem_keys {α : Type} {t : Table α} {key : String} (h : t.contains key = false) :
    key ∉ t.map (·.1) := by
  intro hm
  obtain ⟨⟨k, v⟩, hkv, rfl⟩ := List.mem_map.mp hm
  unfold Table.contains Table.find? at h
  rw [Option.isSome_eq_false_iff, Option.isNone_iff_eq_none, List.lookup_eq_none_iff] at h
  exact absurd (h (k, v) hkv) (by simp)

theorem leave_root (s : Analyzer) : (Check.leave s).scopes.root = s.scopes.root := by
  rw [Check.leave_scopes]
  rcases s with ⟨⟨root, inner⟩, _, _, _⟩
  cases inner <;> rfl

/-- **A procedure at the top of a tree** has a key that is new in the root, and goes to the end of
    the root's table. -/
theorem visit_procedure_top {l : Label} {children : List Node} {n' : Node} {s s' : Analyzer}
    (hk : l.kind = .procedure) (hi : s.scopes.inner = []) (hd : s.scopes.root.depth = 0)
    (hc : Node.valuesOfAll .procedure children = [])
    (h : visit ⟨l, children⟩ s = .ok n' s') :
    Name.mangle l.value ∉ s.scopes.root.procs.map (·.1) ∧
      s'.scopes.root.procs.map (·.1) =
        s.scopes.root.procs.map (·.1) ++ [Name.mangle l.value] := by
  unfold visit at h
  simp only [hk, Check.inScope_ok, Check.bind_ok, Check.declare_ok, Check.inBodyOf_ok,
    Check.pure_ok] at h
  obtain ⟨_, ⟨p, _, hp, _, _, ⟨st, hst, rfl⟩, _, _, ⟨t, hv, rfl⟩, _, rfl⟩, rfl⟩ := h
  obtain rfl := procedureOf_state hp
  obtain ⟨hnew, rfl⟩ := ScopeStack.declareProcedure_ok.mp hst
  -- the scope of the procedure has depth 1, so its host is the root
  have hdepth : s.scopes.push.depth = 1 := by
    simp only [ScopeStack.push, ScopeStack.depth, ScopeStack.innermost, hi, List.headD_nil,
      List.headD_cons, hd]
  have hm : p.mangled = Name.mangle l.value := by
    rw [Procedure.mangled, procedureOf_name hp]
  simp only [ScopeStack.host, hdepth, if_true, hm] at hnew
  have hnew' : s.scopes.root.procs.contains (Name.mangle l.value) = false := hnew
  have he : Effect (fun _ => False) _ t := (visitAll_does _ (by rw [hc]; simp) _).ok hv
  have hprocs := congrArg Prod.fst he.procs_eq
  simp only [ScopeStack.procTables, ScopeStack.modifyHost, hdepth, if_true, hm] at hprocs
  refine ⟨Table.not_mem_keys hnew', ?_⟩
  have hroot : s.scopes.push.root = s.scopes.root := rfl
  rw [leave_root, hprocs, hroot, Table.insert_of_not_contains _ _ _ hnew', List.map_append]
  rfl

/-- A tree declares no procedure, or is one that declares no other. -/
def Node.ProcsAtTop (n : Node) : Prop :=
  n.valuesOf .procedure = [] ∨
    (n.kind = .procedure ∧ Node.valuesOfAll .procedure n.children = [])

/-- The procedures of such trees are those among the trees themselves. -/
theorem valuesOfAll_of_procsAtTop : ∀ {ns : List Node}, (∀ n ∈ ns, n.ProcsAtTop) →
    Node.valuesOfAll .procedure ns = (ns.filter (·.kind == .procedure)).map Node.value
  | [], _ => rfl
  | ⟨l, children⟩ :: rest, h => by
    have ih := valuesOfAll_of_procsAtTop fun m hm => h m (List.mem_cons_of_mem _ hm)
    rw [Node.valuesOfAll, ih]
    by_cases hk : l.kind = .procedure
    · have hc : Node.valuesOfAll .procedure children = [] := by
        rcases h _ List.mem_cons_self with he | ⟨_, hc⟩
        · rw [valuesOf_of_eq children hk] at he
          exact (List.append_eq_nil_iff.mp he).1
        · exact hc
      have hp : ((⟨l, children⟩ : Node).kind == .procedure) = true := beq_iff_eq.mpr hk
      rw [valuesOf_of_eq children hk, hc, List.filter_cons, if_pos hp]
      rfl
    · have he : Node.valuesOf .procedure ⟨l, children⟩ = [] := by
        rcases h _ List.mem_cons_self with he | ⟨hp, _⟩
        · exact he
        · exact absurd hp hk
      have hp : ¬ ((⟨l, children⟩ : Node).kind == .procedure) = true :=
        fun e => hk (beq_iff_eq.mp e)
      rw [he, List.filter_cons, if_neg hp]
      rfl

/-- **The keys of the root after a good walk** over trees with procedures at the top only: those
    from before, and those of the trees in source order, none of them twice. -/
theorem visitAll_procs_keys : ∀ {ns ns' : List Node} {s s' : Analyzer},
    s.scopes.inner = [] → s.scopes.root.depth = 0 → (∀ n ∈ ns, n.ProcsAtTop) →
    visitAll ns s = .ok ns' s' →
    s'.scopes.root.procs.map (·.1) =
      s.scopes.root.procs.map (·.1) ++ (Node.valuesOfAll .procedure ns).map Name.mangle ∧
    ((s.scopes.root.procs.map (·.1)).Nodup → (s'.scopes.root.procs.map (·.1)).Nodup)
  | [], ns', s, s', _, _, _, h => by
    unfold visitAll at h
    obtain ⟨_, rfl⟩ := Check.pure_ok.mp h
    exact ⟨(List.append_nil _).symm, id⟩
  | n :: rest, ns', s, s', hi, hd, ht, h => by
    unfold visitAll at h
    simp only [Check.bind_ok, Check.pure_ok] at h
    obtain ⟨n', t, hn, rest', _, hr, _, rfl⟩ := h
    have hf : s.Frame t := ((@visit_does (fun _ => True) _ (fun _ _ => trivial) s).ok hn).frame
    obtain ⟨ih, ihn⟩ := visitAll_procs_keys (hf.scopes.inner_eq_nil hi)
      (hf.scopes.root.depth.trans hd) (fun m hm => ht m (List.mem_cons_of_mem _ hm)) hr
    rw [Node.valuesOfAll, List.map_append]
    rcases ht n List.mem_cons_self with he | ⟨hk, hc⟩
    · have hp : Effect (fun _ => False) s t := (visit_does _ (by rw [he]; simp) s).ok hn
      have hroot := congrArg Prod.fst hp.procs_eq
      simp only [ScopeStack.procTables] at hroot
      rw [hroot] at ih ihn
      rw [he]
      exact ⟨ih, ihn⟩
    · rcases n with ⟨l, children⟩
      obtain ⟨hnew, hkeys⟩ := visit_procedure_top hk hi hd hc hn
      have hc' : Node.valuesOfAll .procedure children = [] := hc
      rw [valuesOf_of_eq children hk, hc', ih, hkeys]
      refine ⟨by simp only [List.nil_append, List.map_cons, List.map_nil, List.append_assoc], ?_⟩
      intro hnd
      have hnd' : (t.scopes.root.procs.map (·.1)).Nodup := by
        rw [hkeys]
        refine List.nodup_append.mpr ⟨hnd, by simp, ?_⟩
        intro a ha b hb
        rw [List.mem_singleton.mp hb]
        exact fun e => hnew (e ▸ ha)
      have hall := ihn hnd'
      rwa [ih, hkeys] at hall

end Osclan
