/-
  File:      Osclan/Proofs/GlobalTable.lean
  Subject:   What a program enters into the root.

  An item enters at most one thing into the root: a variable, a type or a procedure, under the key
  of the name that it declares. What is declared inside a record or a procedure stays there, and
  what is walked without declaring anything leaves the scopes as they are. So after a good walk over
  the items of a program the keys of each table are those from before and then those of the names
  declared, in source order and none of them twice.

  * `Item.declares?`, `Program.declared` -- the names a program declares at the top;
  * `Scope.Enters` -- a scope with one more entry;
  * `IsItem.enters` -- what an item enters;
  * `visitAll_enters` -- the keys after a good walk over items.
-/
import Osclan.Proofs.ProcedureTable
import Osclan.Proofs.Resolution

namespace Osclan

/-! ## 1. Names declared at the top -/

/-- What an item declares, and under which name. -/
def Item.declares? : Item → Option (Entity × String)
  | .directive _ _ => none
  | .declaration _ (.record name _) => some (.type, name)
  | .declaration _ (.procedure _ name _ _) => some (.proc, name)
  | .declaration _ (.global _ name _) => some (.var, name)

/-- What a program declares at the top, in source order. -/
def Program.declared (p : Program) : List (Entity × String) := p.items.filterMap Item.declares?

/-- The same of the node of an item. A record without a name declares nothing. -/
def Node.declares? : Node → Option (Entity × String)
  | ⟨l, children⟩ =>
    match l.kind with
    | .declaration => children.head?.map fun target => (.var, target.value)
    | .record => if l.value = "" then none else some (.type, l.value)
    | .procedure => some (.proc, l.value)
    | _ => none

theorem Item.declares?_of_toNode {item : Item} {d : Entity × String}
    (h : item.toNode.declares? = some d) : item.declares? = some d := by
  cases item with
  | directive name argument => cases h
  | declaration mods declared =>
    cases declared with
    | record name fields =>
      have h' : (if name = "" then none else some (Entity.type, name)) = some d := h
      split at h'
      · cases h'
      · exact h'
    | procedure returns name params body => exact h
    | «global» type name value => exact h

theorem Program.mem_declared {p : Program} {d : Entity × String}
    (h : d ∈ (p.items.map Item.toNode).filterMap Node.declares?) : d ∈ p.declared := by
  obtain ⟨n, hn, hd⟩ := List.mem_filterMap.mp h
  obtain ⟨item, hi, rfl⟩ := List.mem_map.mp hn
  exact List.mem_filterMap.mpr ⟨item, hi, Item.declares?_of_toNode hd⟩

/-- A name that an item declares is plain. -/
theorem IsItem.plain {n : Node} (h : IsItem n) {d : Entity × String} (hd : n.declares? = some d) :
    Name.Plain d.2 := by
  cases h with
  | @directive n hk hw =>
    rcases n with ⟨l, children⟩
    have hl : l.kind = .directive := hk
    simp only [Node.declares?, hl, reduceCtorEq] at hd
  | binding hb =>
    obtain ⟨_, hname, _, _, _, _, _⟩ := hb
    cases hd
    exact hname
  | @record name ns hname hstill hfields =>
    simp only [Node.declares?] at hd
    split at hd
    · cases hd
    · cases hd
      exact hname
  | procedure hname hbody =>
    cases hd
    exact hname

/-! ## 2. One more entry -/

/-- **The scope with one more entry**, under a key that is new in it; or the scope as it is. -/
inductive Scope.Enters : Option (Entity × String) → Scope → Scope → Prop where
  | nothing (sc : Scope) : Enters none sc sc
  | var {sc : Scope} (v : Variable) : sc.vars.contains v.mangled = false →
      Enters (some (.var, v.name)) sc { sc with vars := sc.vars.insert v.mangled v }
  | type {sc : Scope} (t : Ty) : sc.types.contains (Name.mangle t.name) = false →
      Enters (some (.type, t.name)) sc { sc with types := sc.types.insert (Name.mangle t.name) t }
  | proc {sc : Scope} (p : Procedure) : sc.procs.contains p.mangled = false →
      Enters (some (.proc, p.name)) sc { sc with procs := sc.procs.insert p.mangled p }

/-- The keys of a table of the scope. -/
def Scope.keys (sc : Scope) : Entity → List String
  | .var => sc.vars.map (·.1)
  | .type => sc.types.map (·.1)
  | .proc => sc.procs.map (·.1)
  | .field => []

/-- The keys of the names that are declared as the given thing. -/
def keysOf (e : Entity) (ds : List (Entity × String)) : List String :=
  (ds.filter (·.1 = e)).map fun d => Name.mangle d.2

theorem mem_keysOf {e : Entity} {ds : List (Entity × String)} {key : String} :
    key ∈ keysOf e ds ↔ ∃ name, (e, name) ∈ ds ∧ Name.mangle name = key := by
  simp only [keysOf, List.mem_map, List.mem_filter, decide_eq_true_eq]
  constructor
  · intro h
    obtain ⟨⟨_, name⟩, ⟨hd, rfl⟩, hk⟩ := h
    exact ⟨name, hd, hk⟩
  · intro h
    obtain ⟨name, hd, hk⟩ := h
    exact ⟨(e, name), ⟨hd, rfl⟩, hk⟩

/-- The keys go on with more, and none comes twice if none did before. -/
structure KeysGo (keys more keys' : List String) : Prop where
  eq : keys' = keys ++ more
  nodup : keys.Nodup → keys'.Nodup

theorem KeysGo.refl (keys : List String) : KeysGo keys [] keys :=
  ⟨(List.append_nil keys).symm, id⟩

theorem KeysGo.trans {keys keys' keys'' more more' : List String} (h : KeysGo keys more keys')
    (h' : KeysGo keys' more' keys'') : KeysGo keys (more ++ more') keys'' := by
  refine ⟨?_, fun hn => h'.nodup (h.nodup hn)⟩
  rw [h'.eq, h.eq, List.append_assoc]

theorem Table.insert_keysGo {α : Type} {t : Table α} {key : String} (value : α)
    (h : t.contains key = false) :
    KeysGo (t.map (·.1)) [key] ((t.insert key value).map (·.1)) := by
  have hkeys : (t.insert key value).map (·.1) = t.map (·.1) ++ [key] := by
    rw [Table.insert_of_not_contains key value t h, List.map_append]
    rfl
  refine ⟨hkeys, fun hn => ?_⟩
  rw [hkeys, List.nodup_append]
  refine ⟨hn, List.nodup_singleton key, fun a ha b hb e => ?_⟩
  rw [List.mem_singleton.mp hb] at e
  exact Table.not_mem_keys h (e ▸ ha)

/-- The key of what is entered goes to the end of its table. -/
theorem Scope.Enters.keys {d : Option (Entity × String)} {sc sc' : Scope} (h : sc.Enters d sc')
    (e : Entity) : KeysGo (sc.keys e) (keysOf e d.toList) (sc'.keys e) := by
  cases h with
  | nothing => exact .refl _
  | var v hnew =>
    cases e with
    | var => exact Table.insert_keysGo v hnew
    | _ => exact .refl _
  | type t hnew =>
    cases e with
    | type => exact Table.insert_keysGo t hnew
    | _ => exact .refl _
  | proc p hnew =>
    cases e with
    | proc => exact Table.insert_keysGo p hnew
    | _ => exact .refl _

/-! ## 3. What an item enters -/

theorem declareWith_declares {l : Label} {literal : Option Ty} {u : Unit} {s t : Analyzer}
    (h : declareWith l literal s = .ok u t) :
    ∃ v, v.name = l.value ∧ s.scopes.declareVariable v = .ok t.scopes := by
  simp only [declareWith, Check.bind_ok, Check.scopes_ok, Check.ofExcept_ok, Check.makeVariable_ok,
    Check.declare_ok] at h
  obtain ⟨_, _, ⟨rfl, rfl⟩, _, _, ⟨_, rfl⟩, _, w, hassign, v, _, ⟨hv, rfl⟩, st, hst, rfl⟩ := h
  have hw : w.scopes = s.scopes := ((Check.Silent.assignLiteral _ _ _ s).ok hassign).2
  rw [hw] at hst
  exact ⟨v, (Check.fields_of_make? hv).1, hst⟩

theorem ScopeStack.AtTop.declareVariable {st st' : ScopeStack} {v : Variable} (h : st.AtTop)
    (hd : st.declareVariable v = .ok st') : st.root.Enters (some (.var, v.name)) st'.root := by
  obtain ⟨hnew, rfl⟩ := ScopeStack.declareVariable_ok.mp hd
  rw [ScopeStack.innermost, h.inner] at hnew
  rw [ScopeStack.modifyInnermost, h.inner]
  exact .var v hnew

/-- What a record declares goes to the root, from the scope of the record. -/
theorem ScopeStack.AtTop.declareType {st st' : ScopeStack} {t : Ty} (h : st.AtTop)
    (hd : st.push.declareType t = .ok st') : st.root.Enters (some (.type, t.name)) st'.root := by
  obtain ⟨hnew, rfl⟩ := ScopeStack.declareType_ok.mp hd
  rw [ScopeStack.host, if_pos h.push_depth] at hnew
  rw [ScopeStack.modifyHost, if_pos h.push_depth]
  exact .type t hnew

theorem ScopeStack.AtTop.declareProcedure {st st' : ScopeStack} {p : Procedure} (h : st.AtTop)
    (hd : st.push.declareProcedure p = .ok st') :
    st.root.Enters (some (.proc, p.name)) st'.root := by
  obtain ⟨hnew, rfl⟩ := ScopeStack.declareProcedure_ok.mp hd
  rw [ScopeStack.host, if_pos h.push_depth] at hnew
  rw [ScopeStack.modifyHost, if_pos h.push_depth]
  exact .proc p hnew

section

variable {n n' : Node} {s t : Analyzer} {e : Env}

/-- A variable at the top is entered, and its value enters nothing. -/
theorem IsBinding.enters (h : IsBinding n) (hs : TopLevel s.scopes e)
    (hv : visit n s = .ok n' t) : s.scopes.root.Enters n.declares? t.scopes.root := by
  obtain @⟨target, type, value, mods, hkind, hname, hl, ht, hw, hk, hm⟩ := h
  have htarget : (Node.mk target []).kind ≠ .modifier := by
    rw [Node.kind, hkind]
    decide
  unfold visit at hv
  simp only [operandsOf_pair htarget hk hm, Check.bind_ok, Check.pure_ok] at hv
  obtain ⟨_, u, hoperand, _, w, hdeclare, _, rfl⟩ := hv
  obtain ⟨_, _, _, hu, _⟩ := (visitOperand_tracks hs.sees htarget hk hw).ok hoperand
  obtain ⟨v, hname, hst⟩ := declareWith_declares hdeclare
  rw [hu] at hst
  have henters := hs.top.declareVariable hst
  rw [hname] at henters
  exact henters

/-- A record is entered under its own name, if it has one. -/
theorem record_enters {name : String} {ns : List Node} (hstill : ∀ n ∈ ns, Still n)
    (hs : TopLevel s.scopes e)
    (hv : visit ⟨{ kind := .record, value := name }, ns⟩ s = .ok n' t) :
    s.scopes.root.Enters (Node.declares? ⟨{ kind := .record, value := name }, ns⟩)
      t.scopes.root := by
  unfold visit at hv
  simp only [Check.inScope_ok, Check.bind_ok, Check.pure_ok] at hv
  obtain ⟨_, ⟨_, u, hall, _, w, hrecord, _, rfl⟩, rfl⟩ := hv
  obtain ⟨rfl, hu⟩ := ((Still.all hstill _).ok hall).2
  have hpush : u.scopes = s.scopes.push := hu
  by_cases hempty : name = ""
  · rw [declareRecord, if_pos (by simp [Node.value, hempty])] at hrecord
    obtain ⟨_, rfl⟩ := Check.pure_ok.mp hrecord
    rw [Check.leave_push hpush]
    simp only [Node.declares?, hempty, if_true]
    exact .nothing _
  · rw [declareRecord, if_neg (by simp [Node.value, hempty])] at hrecord
    simp only [Check.bind_ok, Check.scopes_ok, Check.ofExcept_ok, Check.declare_ok] at hrecord
    obtain ⟨_, _, ⟨rfl, rfl⟩, ty, _, ⟨hty, rfl⟩, st, hst, rfl⟩ := hrecord
    have hname : ty.name = name := by
      rw [recordType] at hty
      obtain ⟨fields, _, hty⟩ := except_bind_ok hty
      cases hty
      rfl
    rw [hpush] at hst
    have henters := hs.top.declareType hst
    rw [hname] at henters
    rw [leave_root]
    simp only [Node.declares?, if_neg hempty]
    exact henters

/-- A procedure is entered, and its body enters nothing. -/
theorem procedure_enters {name : String} {ns : List Node}
    (hbody : ∀ outer, ∀ n ∈ ns, Advances (InBody outer) n) (hs : TopLevel s.scopes e)
    (hv : visit ⟨{ kind := .procedure, value := name }, ns⟩ s = .ok n' t) :
    s.scopes.root.Enters (some (.proc, name)) t.scopes.root := by
  unfold visit at hv
  simp only [Check.inScope_ok, Check.bind_ok, Check.declare_ok, Check.inBodyOf_ok,
    Check.pure_ok] at hv
  obtain ⟨_, ⟨p, _, hp, _, _, ⟨st, hst, rfl⟩, _, _, ⟨w, hall, rfl⟩, _, rfl⟩, rfl⟩ := hv
  obtain rfl := procedureOf_state hp
  have henters := hs.top.declareProcedure hst
  -- the walk over the body changes the scope of the procedure and nothing outside of it
  obtain ⟨outer, _, hstart⟩ := hs.declareProcedure hst
  obtain ⟨sc, hsc⟩ := hstart.inner
  obtain ⟨_, ⟨_, hend⟩, _⟩ := (Advances.all (hbody outer) hstart).ok hall
  obtain ⟨sc', hsc'⟩ := hend.inner
  have hroot : w.scopes.root = st.root := by rw [hsc', hsc]
  rw [leave_root, hroot]
  rw [procedureOf_name hp] at henters
  exact henters

/-- **An item enters what it declares**, and nothing else. -/
theorem IsItem.enters (h : IsItem n) (hs : TopLevel s.scopes e) (hv : visit n s = .ok n' t) :
    s.scopes.root.Enters n.declares? t.scopes.root := by
  cases h with
  | directive hk hw =>
    rcases n with ⟨l, children⟩
    have hl : l.kind = .directive := hk
    have hst := ((hw s e hs.sees).ok hv).2.1
    simp only [Node.declares?, hl]
    rw [hst]
    exact .nothing _
  | binding hb => exact hb.enters hs hv
  | record _ hstill _ => exact record_enters hstill hs hv
  | procedure _ hbody => exact procedure_enters hbody hs hv

end

/-! ## 4. Programs -/

theorem keysOf_cons (e : Entity) (n : Node) (ns : List Node) :
    keysOf e ((n :: ns).filterMap Node.declares?) =
      keysOf e n.declares?.toList ++ keysOf e (ns.filterMap Node.declares?) := by
  rw [List.filterMap_cons]
  cases n.declares? with
  | none => rfl
  | some d => simp only [keysOf, Option.toList_some, ← List.map_append, ← List.filter_append,
      List.singleton_append]

/-- **The keys of the root after a good walk over items**: those from before, and those of the names
    that the items declare, in source order. -/
theorem visitAll_enters (e : Entity) : ∀ {ns ns' : List Node} {s t : Analyzer} {env : Env},
    (∀ n ∈ ns, IsItem n) → TopLevel s.scopes env → visitAll ns s = .ok ns' t →
    KeysGo (s.scopes.root.keys e) (keysOf e (ns.filterMap Node.declares?)) (t.scopes.root.keys e)
  | [], ns', s, t, env, _, _, h => by
    unfold visitAll at h
    obtain ⟨_, rfl⟩ := Check.pure_ok.mp h
    exact .refl _
  | n :: rest, ns', s, t, env, hitems, hs, h => by
    unfold visitAll at h
    simp only [Check.bind_ok, Check.pure_ok] at h
    obtain ⟨n', u, hn, rest', _, hrest, _, rfl⟩ := h
    obtain ⟨hitem, hmore⟩ := List.forall_mem_cons.mp hitems
    have hu := ((hitem.advances s env hs).ok hn).2.2.1
    rw [keysOf_cons]
    exact ((hitem.enters hs hn).keys e).trans (visitAll_enters e hmore hu hrest)

end Osclan
