/-
  File:      Osclan/Proofs/ReaderSound.lean
  Subject:   What the readers of the grammar take is what the productions allow.

  One lemma for each reader, by the rules of `Yields`. Readers build programs, productions prescribe
  trees; they meet at the tree of the program that was read. A reader that takes another one as an
  argument is sound if that one is, so the recursive readers are settled by the number of tokens.

  * `typeExpr_yields`, `path_yields`, `value_yields`, `statement_yields`, … -- the parts;
  * `item_yields` -- the items of a program.
-/
import Osclan.Proofs.Reading

namespace Osclan

open Grammar Tokens

variable {ts : List Token}

/-! ## 1. Types and paths -/

theorem typeSize_yields : Yields ts (fun size pre _ => FormsSize pre size) (typeSize ts) := by
  unfold typeSize
  split
  · refine Yields.take (by decide) fun l us _ hl => ?_
    refine Yields.number fun t vs _ ht => ?_
    refine Yields.take (by decide) fun r ws _ hr => Yields.pure ?_
    exact .some hl ht hr
  · exact Yields.pure .none

theorem typeStar_yields : Yields ts (fun star pre _ => FormsStar pre star) (typeStar ts) := by
  unfold typeStar
  split
  · refine Yields.take (by decide) fun t us _ ht => Yields.pure ?_
    exact .some ht
  · exact Yields.pure .none

theorem typeExpr_yields : Yields ts (fun a pre _ => FormsType pre a.label) (typeExpr ts) := by
  unfold typeExpr
  refine Yields.take (by decide) fun l us _ hl => ?_
  refine Yields.expect (by decide) fun name vs _ hname => ?_
  refine typeSize_yields.bind fun n ws _ size _ hsize => ?_
  refine typeStar_yields.bind fun pointer xs _ star _ hstar => ?_
  refine Yields.take (by decide) fun r ys _ hr => Yields.pure ?_
  have hname' : name.kind = .ident ∨ name.kind = .struct := by
    simpa only [List.mem_cons, List.not_mem_nil, or_false] using hname
  exact .mk hl hname' hsize hstar hr

/-- What follows the name of a segment, where the paths inside are sound. -/
theorem segmentOffset_yields {c name : Token} (hc : c.kind = .doubleColon)
    (hname : name.kind = .ident)
    {inner : (us : List Token) → us.length < ts.length → Reads Path us}
    (hi : ∀ us hu, Yields us (fun p pre _ => ∀ kind, FormsPath kind pre (p.toNode kind))
      (inner us hu)) :
    Yields ts (fun seg pre _ => FormsSegment (FormsPath .dynamicOffset) (c :: name :: pre) seg.step)
      (segmentOffset name.value ts inner) := by
  unfold segmentOffset
  split
  · refine Yields.take (by decide) fun l us hu hl => ?_
    dsimp only
    split
    · refine Yields.number fun t vs _ ht => ?_
      refine Yields.take (by decide) fun r ws _ hr => Yields.pure ?_
      exact .fixed hc hname hl ht hr
    · split
      · refine (hi us hu).bind fun offset vs _ pre _ hp => ?_
        refine Yields.take (by decide) fun r ws _ hr => Yields.pure ?_
        exact .dynamic hc hname hl (hp .dynamicOffset) hr
      · split
        · exact Yields.error
        · exact Yields.error
  · exact Yields.pure (.plain hc hname)

/-- **A path that is read is a path.** -/
theorem path_yields (ts : List Token) :
    Yields ts (fun p pre _ => ∀ kind, FormsPath kind pre (p.toNode kind)) (path ts) := by
  rw [path]
  refine Yields.ident fun base us _ hbase => ?_
  refine Yields.bind (repeatWhile_many (P := FormsSegment (FormsPath .dynamicOffset))
    (f := Segment.step) ?_ us _) fun segments vs _ pre _ hp => Yields.pure fun kind => ?_
  · intro vs hv
    refine Yields.take (by decide) fun c ws _ hc => ?_
    refine Yields.ident fun name xs _ hname => ?_
    have hseg := @segmentOffset_yields xs c name hc hname
      (fun zs _ => path zs) fun zs _ => path_yields zs
    refine hseg.bind fun segment ys _ pre _ hp => Yields.pure ?_
    rw [List.append_nil]
    exact hp
  · rw [List.append_nil, Path.toNode, Segment.toNodes_eq_chain]
    exact .mk hbase hp
termination_by ts.length
decreasing_by omega

/-! ## 2. Values -/

section

variable {value : (us : List Token) → us.length < ts.length → Reads Value us}
  (hv : ∀ us hu, Yields us (fun v pre _ => FormsValue pre v.toNode) (value us hu))

include hv

theorem call_yields : Yields ts (fun c pre _ =>
    FormsCall FormsValue pre (Value.call c.1 c.2).toNode) (call ts value) := by
  unfold call
  refine Yields.take (by decide) fun c us _ hc => ?_
  refine Yields.ident fun name vs _ hname => ?_
  refine Yields.take (by decide) fun l ws _ hl => ?_
  refine (commaList_yields hv ws _).bind fun args xs _ pre _ hargs => ?_
  refine Yields.take (by decide) fun r ys _ hr => Yields.pure ?_
  rw [Value.toNode, Value.argNodes_eq_map]
  exact .mk hc hname hl hargs hr

theorem member_yields :
    Yields ts (fun m pre _ => FormsMember FormsValue pre m.toNode) (member ts value) := by
  unfold member
  split
  · refine Yields.ident fun x us _ hx => ?_
    refine Yields.take (by decide) fun c vs _ hc => ?_
    refine (hv vs _).bind fun v ws _ pre _ hp => Yields.pure ?_
    rw [List.append_nil]
    exact .named hx hc hp
  · refine Yields.ident fun x us _ hx => Yields.pure ?_
    rw [Member.toNode, Value.toNode, Path.toNode, Segment.toNodes]
    exact .short hx

theorem anon_yields : Yields ts (fun members pre _ =>
    FormsValue pre (Value.anon members).toNode) (anon ts value) := by
  unfold anon
  refine Yields.take (by decide) fun d us _ hd => ?_
  refine Yields.take (by decide) fun a vs _ ha => ?_
  refine Yields.bind (repeatWhile_many (P := FormsMember FormsValue) (f := Member.toNode) ?_ vs _)
    fun members ws _ pre _ hm => ?_
  · intro us hu
    exact member_yields fun vs _ => hv vs _
  · refine Yields.take (by decide) fun e xs _ he => Yields.pure ?_
    rw [Value.toNode, Member.toNodes_eq_map]
    exact .anon hd ha hm he

end

/-- **A value that is read is a value.** -/
theorem value_yields : ∀ ts : List Token,
    Yields ts (fun v pre _ => FormsValue pre v.toNode) (value ts)
  | [] => by
    rw [value]
    exact Yields.error
  | t :: us => by
    rw [value]
    split
    · rename_i ht
      refine Yields.token ht (by decide) ?_
      refine typeExpr_yields.bind fun type vs _ pre _ hp => Yields.pure ?_
      rw [List.append_nil, Value.toNode]
      exact .allocate ht hp
    · rename_i ht
      intro v rest h e
      rw [numberOf_eq ht] at e
      split at e
      · cases e
      · rename_i hr
        cases e
        refine ⟨[t], rfl, .number ht, ?_⟩
        intro u hu
        rw [List.mem_singleton.mp hu, ht]
        exact ⟨eq_false_of_ne_true hr, TokenKind.noConfusion⟩
    · rename_i ht
      refine Yields.token ht (by decide) ?_
      refine Yields.pure ?_
      rw [Value.toNode]
      exact .text ht
    · refine (path_yields (t :: us)).bind fun p vs _ pre _ hp => Yields.pure ?_
      rw [List.append_nil, Value.toNode]
      exact .path (hp .reference)
    · rename_i ht
      refine Yields.token ht (by decide) ?_
      refine Yields.ident fun name vs _ hname => Yields.pure ?_
      rw [Value.toNode]
      exact .pointer ht hname
    · have ha := @anon_yields (t :: us) (fun ws _ => value ws) fun ws _ => value_yields ws
      refine ha.bind fun members vs _ pre _ hp => Yields.pure ?_
      rw [List.append_nil]
      exact hp
    · have hc := @call_yields (t :: us) (fun ws _ => value ws) fun ws _ => value_yields ws
      refine hc.bind fun c vs _ pre _ hp => Yields.pure ?_
      rw [List.append_nil]
      exact .call hp
    · exact Yields.error
termination_by ts => ts.length
decreasing_by all_goals assumption

theorem binding_yields : Yields ts (fun x pre _ =>
    FormsBinding pre (declarationNode x.1 x.2.1 x.2.2)) (binding ts) := by
  unfold binding
  refine typeExpr_yields.bind fun type us _ pre _ hp => ?_
  refine Yields.ident fun name vs _ hname => ?_
  refine Yields.take (by decide) fun c ws _ hc => ?_
  refine (value_yields ws).bind fun v xs _ post _ hv => Yields.pure ?_
  rw [List.append_nil]
  exact .mk hp hname hc hv

/-! ## 3. Statements -/

/-- A statement that is read is a statement, or a return without a value before the end of the
    body. -/
theorem statement_yields : Yields ts (fun st pre rest => FormsStatement pre st.toNode ∨
    ∃ r : Token, r.kind = .ret ∧ st = .ret none ∧ pre = [r] ∧ check [.endBlock] rest = true)
    (statement ts) := by
  cases ts with
  | nil => exact Yields.error
  | cons t us =>
    unfold statement
    dsimp only
    split
    · rename_i ht
      refine Yields.token ht (by decide) ?_
      refine binding_yields.bind fun x vs _ pre _ hp => Yields.pure (.inl ?_)
      rw [List.append_nil]
      exact .declare ht hp
    · refine (path_yields (t :: us)).bind fun target vs _ pre _ hp => ?_
      refine Yields.take (by decide) fun c ws _ hc => ?_
      refine (value_yields ws).bind fun v xs _ post _ hv => Yields.pure (.inl ?_)
      rw [List.append_nil]
      exact .assign (hp .reference) hc hv
    · rename_i ht
      refine Yields.token ht (by decide) ?_
      split
      · rename_i he
        exact Yields.pure (.inr ⟨t, ht, rfl, rfl, he⟩)
      · refine (value_yields us).bind fun v vs _ pre _ hp => Yields.pure (.inl ?_)
        rw [List.append_nil]
        exact .ret ht hp
    · rename_i ht
      refine Yields.token ht (by decide) ?_
      refine (value_yields us).bind fun v vs _ pre _ hp => Yields.pure (.inl ?_)
      rw [List.append_nil]
      exact .print ht hp
    · have hc := @call_yields (t :: us) (fun ws _ => value ws) fun ws _ => value_yields ws
      refine hc.bind fun c vs _ pre _ hp => Yields.pure (.inl ?_)
      rw [List.append_nil]
      exact .call hp
    · exact Yields.error

theorem body_yields {more : List Token → Bool} {bound : Nat} (h : ts.length < bound) :
    Yields ts (fun body pre _ => FormsBody pre (body.map Statement.toNode))
      (repeatWhile more bound (fun us _ => statement us) ts h) := by
  refine repeatWhile_yields (fun us _ => statement_yields) (fun _ _ => .plain .nil) ?_ ts h
  rintro st body pre post rest (hs | ⟨r, hr, rfl, rfl, he⟩) hb
  · exact .cons hs hb
  -- nothing of the body can follow a return that stands before its end
  · rcases hb.nil_or_starts with ⟨rfl, hns⟩ | hstart
    · rw [List.map_cons, hns]
      exact .bareRet .nil hr
    · rw [(hstart.append rest).not_check (by decide)] at he
      cases he

/-! ## 4. Declarations -/

/-- **A field that is read is a field.** -/
theorem field_yields (ts : List Token) :
    Yields ts (fun d pre _ => FormsField pre d.node) (field ts) := by
  rw [field]
  refine typeExpr_yields.bind fun type us _ pre _ ht => ?_
  refine Yields.ident fun name vs _ hname => ?_
  dsimp only
  split
  · rename_i hw
    refine Yields.take (by decide) fun b ws _ hb => ?_
    refine (repeatWhile_many (fun us _ => field_yields us) ws _).bind
      fun fields xs _ post _ hf => ?_
    refine Yields.take (by decide) fun e ys _ he => Yields.pure ?_
    rw [Field.node_nested]
    exact .nested ht hw hname hb hf he
  · rename_i hw
    refine Yields.pure ?_
    rw [Field.node_plain]
    exact .plain ht (eq_false_of_ne_true hw) hname
termination_by ts.length
decreasing_by omega

theorem record_yields : Yields ts (fun d pre _ => FormsDeclared pre d.toNode) (record ts) := by
  unfold record
  refine Yields.take (by decide) fun s us _ hs => ?_
  refine Yields.ident fun name vs _ hname => ?_
  refine (repeatWhile_many (fun us _ => field_yields us) vs _).bind
    fun fields ws _ pre _ hf => ?_
  refine Yields.take (by decide) fun e xs _ he => Yields.pure ?_
  rw [Declared.toNode, Field.toNodes_eq_node]
  exact .record hs hname hf he

theorem param_yields : Yields ts (fun p pre _ => FormsParam pre p.toNode) (param ts) := by
  unfold param
  refine typeExpr_yields.bind fun type us _ pre _ ht => ?_
  refine Yields.ident fun name vs _ hname => Yields.pure ?_
  exact .mk ht hname

/-- What follows the type of a procedure's result. -/
theorem procedure_yields {returns : TypeExpr} {pre : List Token}
    (ht : FormsType pre returns.label) :
    Yields ts (fun d post _ => FormsDeclared (pre ++ post) d.toNode) (procedure returns ts) := by
  unfold procedure
  refine Yields.take (by decide) fun c us _ hc => ?_
  refine Yields.ident fun name vs _ hname => ?_
  refine Yields.take (by decide) fun l ws _ hl => ?_
  refine (commaList_yields (fun us _ => param_yields) ws _).bind fun params xs _ ps _ hp => ?_
  refine Yields.take (by decide) fun r ys _ hr => ?_
  refine (body_yields _).bind fun body zs _ bs _ hb => ?_
  refine Yields.take (by decide) fun e rest _ he => Yields.pure ?_
  exact .procedure ht hc hname hl hp
    hr hb he

/-- What follows the type of a variable. -/
theorem global_yields {type : TypeExpr} {pre : List Token} (ht : FormsType pre type.label) :
    Yields ts (fun d post _ => FormsDeclared (pre ++ post) d.toNode) (global type ts) := by
  unfold «global»
  refine Yields.ident fun name us _ hname => ?_
  refine Yields.take (by decide) fun c vs _ hc => ?_
  refine (value_yields vs).bind fun v ws _ post _ hv => Yields.pure ?_
  rw [List.append_nil]
  exact .global (.mk ht hname hc hv)

theorem modifier_yields :
    Yields ts (fun m pre _ => FormsModifier pre (modifierNode m)) (modifier ts) := by
  unfold modifier
  refine Yields.take (by decide) fun t us _ ht => Yields.pure ?_
  exact .mk ht

theorem declared_yields : Yields ts (fun d pre _ => FormsDeclared pre d.toNode) (declared ts) := by
  cases ts with
  | nil => exact Yields.error
  | cons t us =>
    unfold declared
    dsimp only
    split
    · exact record_yields
    · refine typeExpr_yields.bind fun type vs _ pre _ ht => ?_
      dsimp only
      split
      · refine (procedure_yields ht).bind fun d ws _ post _ hd => Yields.pure ?_
        rw [List.append_nil]
        exact hd
      · refine (global_yields ht).bind fun d ws _ post _ hd => Yields.pure ?_
        rw [List.append_nil]
        exact hd
    · exact Yields.error

theorem declaration_yields :
    Yields ts (fun i pre _ => FormsItem pre i.toNode) (declaration ts) := by
  unfold declaration
  refine Yields.take (by decide) fun d us hu hd => ?_
  refine (repeatWhile_many (fun us _ => modifier_yields) us _).bind
    fun modifiers vs _ ms _ hm => ?_
  refine declared_yields.bind fun declared ws _ pre _ hp => Yields.pure ?_
  rw [List.append_nil]
  exact .declaration hd hm hp

theorem directive_yields : Yields ts (fun i pre _ => FormsItem pre i.toNode) (directive ts) := by
  unfold directive
  refine Yields.take (by decide) fun d us _ hd => ?_
  refine Yields.take (by decide) fun name vs _ hname => ?_
  dsimp only
  split
  · rename_i hw
    refine Yields.take (by decide) fun a ws _ ha => Yields.pure ?_
    exact .directive hd hname
      (Bool.or_eq_true_iff.mp hw) ha
  · exact Yields.error

/-- **An item that is read is an item.** -/
theorem item_yields : Yields ts (fun i pre _ => FormsItem pre i.toNode) (item ts) := by
  cases ts with
  | nil => exact Yields.error
  | cons t us =>
    unfold item
    dsimp only
    split
    · exact directive_yields
    · exact declaration_yields
    · exact Yields.error

end Osclan
