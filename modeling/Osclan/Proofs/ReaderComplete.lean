/-
  File:      Osclan/Proofs/ReaderComplete.lean
  Subject:   The readers of the grammar get past all that the productions allow.

  One lemma for each production, by the rules of `Passes`. A reader decides by the next token, so
  each lemma says what may come after the tokens of its production: after a path neither `::` nor
  `(`, after a member in short form no `:` either. Wherever a production uses another one, the first
  tokens of what follows (`StartsIn`) see to that.

  * `FormsType.passes`, `FormsPath.passes`, `FormsValue.passes`, … -- the parts;
  * `FormsItem.passes` -- the items of a program.
-/
import Osclan.Proofs.Reading

namespace Osclan

open Grammar Tokens

variable {ts pre rest : List Token}

/-! ## 1. Types -/

theorem FormsSize.passes {n : Option UInt64} (h : FormsSize pre n)
    (hr : check [.lparen] rest = false) (hts : ts = pre ++ rest) :
    Passes pre rest (· = n) (typeSize ts) := by
  subst hts
  unfold typeSize
  cases h with
  | none => exact Passes.ite_false hr (Passes.pure rfl)
  | @some l t r hl ht hr' =>
    have hc : check [.lparen] ([l, t, r] ++ rest) = true := by simp [check, hl]
    refine Passes.ite_true hc ?_
    refine Passes.take hl (by decide) fun _ => ?_
    refine Passes.number ht fun _ => ?_
    refine Passes.take hr' (by decide) fun _ => ?_
    exact Passes.pure rfl

theorem FormsStar.passes {star : Bool} (h : FormsStar pre star)
    (hr : check [.asterisk] rest = false) (hts : ts = pre ++ rest) :
    Passes pre rest (· = star) (typeStar ts) := by
  subst hts
  unfold typeStar
  cases h with
  | none => exact Passes.ite_false hr (Passes.pure rfl)
  | @some t ht =>
    have hc : check [.asterisk] ([t] ++ rest) = true := by simp [check, ht]
    refine Passes.ite_true hc ?_
    refine Passes.take ht (by decide) fun _ => ?_
    exact Passes.pure rfl

theorem FormsType.passes {ty : Label} (h : FormsType pre ty) (hts : ts = pre ++ rest) :
    Passes pre rest (fun a => a.label = ty) (typeExpr ts) := by
  subst hts
  unfold typeExpr
  cases h with
  | @mk l name r size star n pointer hl hname hsize hstar hr =>
    have hname' : name.kind ∈ [TokenKind.ident, .struct] := by
      simpa only [List.mem_cons, List.not_mem_nil, or_false] using hname
    have hparen : check [.lparen] ((star ++ [r]) ++ rest) = false := by
      cases hstar with
      | none => simp [check, hr]
      | some ht => simp [check, ht]
    have hasterisk : check [.asterisk] ([r] ++ rest) = false := by simp [check, hr]
    refine Passes.take hl (by decide) fun _ => ?_
    refine Passes.expect (by decide) hname' fun _ => ?_
    refine (hsize.passes hparen (List.append_assoc _ _ _)).bind fun n' _ hn => ?_
    refine (hstar.passes hasterisk (List.append_assoc _ _ _)).bind fun pointer' _ hp => ?_
    refine Passes.take hr (by decide) fun _ => Passes.pure ?_
    rw [hn, hp]
    rfl

/-! ## 2. Paths -/

/-- What may follow a path. -/
def PathEnds (rest : List Token) : Prop := check [.doubleColon, .lparen] rest = false

theorem pathEnds_iff :
    PathEnds rest ↔ check [.doubleColon] rest = false ∧ check [.lparen] rest = false := by
  cases rest with
  | nil => exact ⟨fun _ => ⟨rfl, rfl⟩, fun _ => rfl⟩
  | cons t us => simp [PathEnds, check]

/-- An offset that is read as a path. -/
def OffsetPasses (pre : List Token) (n : Node) : Prop :=
  StartsIn [.ident] pre ∧ ∀ ts rest, PathEnds rest → ts = pre ++ rest →
    Passes pre rest (fun p => p.toNode .dynamicOffset = n) (path ts)

theorem segmentOffset_passes {c name : Token} {step : PathStep}
    (h : FormsSegment OffsetPasses (c :: name :: pre) step) (hr : check [.lparen] rest = false)
    (hts : ts = pre ++ rest) :
    Passes pre rest (fun seg => seg.step = step)
      (segmentOffset name.value ts fun us _ => path us) := by
  subst hts
  unfold segmentOffset
  cases h with
  | plain => exact Passes.ite_false hr (Passes.pure rfl)
  | @fixed _ _ l t r _ _ hl ht hr' =>
    have hc : check [.lparen] ([l, t, r] ++ rest) = true := by simp [check, hl]
    have hn : check [.number] ([t, r] ++ rest) = true := by simp [check, ht]
    refine Passes.ite_true hc ?_
    refine Passes.take hl (by decide) fun _ => ?_
    refine Passes.ite_true hn ?_
    refine Passes.number ht fun _ => ?_
    refine Passes.take hr' (by decide) fun _ => ?_
    exact Passes.pure rfl
  | @dynamic _ _ l r q offset _ _ hl hq hr' =>
    obtain ⟨hstart, hpass⟩ := hq
    have hc : check [.lparen] ((l :: (q ++ [r])) ++ rest) = true := by simp [check, hl]
    have hstart' : StartsIn [.ident] ((q ++ [r]) ++ rest) := (hstart.append _).append _
    have hends : PathEnds ([r] ++ rest) := by simp [PathEnds, check, hr']
    refine Passes.ite_true hc ?_
    refine Passes.take hl (by decide) fun _ => ?_
    refine Passes.ite_false (hstart'.not_check (by decide)) ?_
    refine Passes.ite_true (hstart'.check (by decide)) ?_
    refine (hpass _ _ hends (List.append_assoc _ _ _)).bind fun p _ hp => ?_
    refine Passes.take hr' (by decide) fun _ => Passes.pure ?_
    rw [Segment.step, hp]

theorem FormsSegment.head {P : List Token → Node → Prop} {step : PathStep}
    (h : FormsSegment P pre step) :
    ∃ c name post, pre = c :: name :: post ∧ c.kind = .doubleColon ∧ name.kind = .ident := by
  cases h with
  | plain hc hname => exact ⟨_, _, _, rfl, hc, hname⟩
  | fixed hc hname => exact ⟨_, _, _, rfl, hc, hname⟩
  | dynamic hc hname => exact ⟨_, _, _, rfl, hc, hname⟩

/-- **A path is read as one.** -/
theorem FormsPath.passes : ∀ {kind : NodeKind} {pre : List Token} {n : Node},
    FormsPath kind pre n → ∀ {ts rest : List Token}, PathEnds rest → ts = pre ++ rest →
    Passes pre rest (fun p => p.toNode kind = n) (path ts)
  | kind, _, _, @FormsPath.mk _ base pre steps hb hs, ts, rest, hr, hts => by
    have hs' : Many (FormsSegment OffsetPasses) pre steps := by
      refine hs.imp fun p step hp h => h.imp fun q m hq hm => ⟨hm.starts, fun us vs hv hus => ?_⟩
      exact FormsPath.passes hm hv hus
    obtain ⟨hcolon, hparen⟩ := pathEnds_iff.mp hr
    subst hts
    rw [path]
    refine Passes.ident hb fun hlt => ?_
    refine Passes.last (repeatWhile_passes (f := Segment.step)
      (F := fun rest => check [.lparen] rest = false) ?_ ?_ hparen hcolon hs' _ _ rfl)
      fun segments _ e => Passes.pure ?_
    · intro p step h us hu rest hus hr
      obtain ⟨c, name, post, rfl, hc, hname⟩ := h.head
      subst hus
      refine Passes.take hc (by decide) fun _ => ?_
      refine Passes.ident hname fun _ => ?_
      exact (segmentOffset_passes h hr rfl).last fun seg _ e => Passes.pure e
    · intro p step h rest
      obtain ⟨c, name, post, rfl, hc, _⟩ := h.head
      exact ⟨by simp [check, hc], by simp [check, hc]⟩
    · rw [Path.toNode, Segment.toNodes_eq_chain, e]
termination_by _ pre => pre.length
decreasing_by
  simp only [List.length_cons]
  omega

/-! ## 3. Values -/

/-- Tokens that form a value and are read as one. -/
def ValuePasses (pre : List Token) (n : Node) : Prop :=
  FormsValue pre n ∧ ∀ ts rest, PathEnds rest → ts = pre ++ rest →
    Passes pre rest (fun v => v.toNode = n) (value ts)

theorem call_passes {n : Node} (h : FormsCall ValuePasses pre n) (hts : ts = pre ++ rest) :
    Passes pre rest (fun c => (Value.call c.1 c.2).toNode = n)
      (call ts fun us _ => value us) := by
  cases h with
  | @mk c name l r args ns hc hname hl ha hr =>
    subst hts
    unfold call
    refine Passes.take hc (by decide) fun _ => ?_
    refine Passes.ident hname fun _ => ?_
    refine Passes.take hl (by decide) fun _ => ?_
    refine Passes.bind (commaList_passes (f := Value.toNode) (F := PathEnds) ?_ ?_ ?_ hr ha _ _
      (List.append_assoc _ _ _)) fun args' _ e => ?_
    · intro p b hb us _ vs hus hv
      exact hb.2 us vs hv hus
    · intro p b hb vs
      exact (hb.1.starts.append vs).not_check (by decide)
    · rintro t us (ht | ht)
      · simp [PathEnds, check, ht]
      · simp [PathEnds, check, ht]
    · refine Passes.take hr (by decide) fun _ => Passes.pure ?_
      rw [Value.toNode, Value.argNodes_eq_map, e]

/-- What may follow a member. -/
def MemberEnds (rest : List Token) : Prop := PathEnds rest ∧ check [.colon] rest = false

theorem member_passes {n : Node} (h : FormsMember ValuePasses pre n) (hr : MemberEnds rest)
    (hts : ts = pre ++ rest) :
    Passes pre rest (fun m => m.toNode = n) (member ts fun us _ => value us) := by
  subst hts
  unfold member
  cases h with
  | @named x c pre n hx hc hv =>
    have hs : atSequence [.ident, .colon] ((x :: c :: pre) ++ rest) = true := by
      simp [atSequence, hx, hc]
    refine Passes.ite_true hs ?_
    refine Passes.ident hx fun _ => ?_
    refine Passes.take hc (by decide) fun _ => ?_
    refine (hv.2 _ _ hr.1 rfl).last fun v _ e => Passes.pure ?_
    rw [Member.toNode, e]
  | @short x hx =>
    have hs : atSequence [.ident, .colon] ([x] ++ rest) = false := by
      cases rest with
      | nil => simp [atSequence]
      | cons t us =>
        have ht : t.kind ≠ .colon := by simpa [check] using hr.2
        simp [atSequence, ht]
    refine Passes.ite_false hs ?_
    refine Passes.ident hx fun _ => Passes.pure ?_
    rw [Member.toNode, Value.toNode, Path.toNode, Segment.toNodes]

theorem anon_passes {d a e : Token} {ns : List Node} (hd : d.kind = .declare)
    (ha : a.kind = .anon) (hm : Many (FormsMember ValuePasses) pre ns) (he : e.kind = .endBlock)
    (hts : ts = (d :: a :: (pre ++ [e])) ++ rest) :
    Passes (d :: a :: (pre ++ [e])) rest
      (fun members => (Value.anon members).toNode = ⟨{ kind := .record }, ns⟩)
      (anon ts fun us _ => value us) := by
  have hends : MemberEnds ([e] ++ rest) :=
    ⟨by simp [PathEnds, check, he], by simp [check, he]⟩
  have hstop : (!check [.endBlock, .eof] ([e] ++ rest)) = false := by simp [check, he]
  subst hts
  unfold anon
  refine Passes.take hd (by decide) fun _ => ?_
  refine Passes.take ha (by decide) fun _ => ?_
  refine Passes.bind (repeatWhile_passes (f := Member.toNode) (F := MemberEnds) ?_ ?_ hends hstop
    hm _ _ (List.append_assoc _ _ _)) fun members _ em => ?_
  · intro p n h us _ vs hus hv
    exact member_passes h hv hus
  · intro p n h vs
    have hstart := h.starts.append vs
    exact ⟨hstart.not_check' (by decide), hstart.not_check (by decide),
      hstart.not_check (by decide)⟩
  · refine Passes.take he (by decide) fun _ => Passes.pure ?_
    rw [Value.toNode, Member.toNodes_eq_map, em]

/-- **A value is read as one.** -/
theorem FormsValue.passes : ∀ {pre : List Token} {n : Node}, FormsValue pre n →
    ∀ {ts rest : List Token}, PathEnds rest → ts = pre ++ rest →
    Passes pre rest (fun v => v.toNode = n) (value ts)
  | _, _, @FormsValue.allocate t pre ty ht hty, ts, rest, hr, hts => by
    subst hts
    rw [List.cons_append, value]
    simp only [ht]
    refine Passes.token ht (by decide) ?_
    refine (hty.passes rfl).last fun a _ e => Passes.pure ?_
    rw [Value.toNode, e]
  | _, _, @FormsValue.number t ht, ts, rest, hr, hts => by
    subst hts
    rw [List.cons_append, value]
    simp only [ht, numberOf_eq ht]
    unfold Passes
    rw [List.find?_singleton]
    cases t.unreadable with
    | true => rfl
    | false =>
      refine ⟨.number t.value, _, rfl, ?_⟩
      show (Value.number t.value).toNode = _
      rw [Value.toNode]
  | _, _, @FormsValue.text t ht, ts, rest, hr, hts => by
    subst hts
    rw [List.cons_append, value]
    simp only [ht]
    refine Passes.token ht (by decide) (Passes.pure ?_)
    rw [Value.toNode]
  | _, _, @FormsValue.path pre n hp, ts, rest, hr, hts => by
    obtain ⟨t, us, rfl, ht⟩ := hp.starts
    subst hts
    rw [List.cons_append, value]
    simp only [List.mem_singleton.mp ht]
    refine (hp.passes hr rfl).last fun p _ e => Passes.pure ?_
    rw [Value.toNode, e]
  | _, _, @FormsValue.pointer s name hs hname, ts, rest, hr, hts => by
    subst hts
    rw [List.cons_append, value]
    simp only [hs]
    refine Passes.token hs (by decide) ?_
    refine Passes.ident hname fun _ => Passes.pure ?_
    rw [Value.toNode]
  | _, _, @FormsValue.anon d a e pre ns hd ha hm he, ts, rest, hr, hts => by
    have hm' : Many (FormsMember ValuePasses) pre ns := by
      refine hm.imp fun p m hp h => h.imp fun q v hq hv => ⟨hv, fun us vs hv' hus => ?_⟩
      exact FormsValue.passes hv hv' hus
    subst hts
    rw [List.cons_append, value]
    simp only [hd]
    exact (anon_passes hd ha hm' he rfl).last fun members _ em => Passes.pure em
  | _, _, @FormsValue.call pre n hc, ts, rest, hr, hts => by
    have hc' : FormsCall ValuePasses pre n := by
      refine hc.imp fun q v hq hv => ⟨hv, fun us vs hv' hus => ?_⟩
      exact FormsValue.passes hv hv' hus
    obtain ⟨t, us, rfl, ht⟩ := hc.starts
    subst hts
    rw [List.cons_append, value]
    simp only [List.mem_singleton.mp ht]
    exact (call_passes hc' rfl).last fun c _ e => Passes.pure e
termination_by pre => pre.length
decreasing_by
  · simp only [List.length_cons, List.length_append]
    omega
  · omega

theorem FormsBinding.passes {n : Node} (h : FormsBinding pre n) (hr : PathEnds rest)
    (hts : ts = pre ++ rest) :
    Passes pre rest (fun x => declarationNode x.1 x.2.1 x.2.2 = n) (binding ts) := by
  cases h with
  | @mk pre post ty name c n hty hname hc hv =>
    unfold binding
    rw [List.append_assoc] at hts
    refine (hty.passes hts).bind fun a _ ea => ?_
    refine Passes.ident hname fun _ => ?_
    refine Passes.take hc (by decide) fun _ => ?_
    refine (hv.passes hr rfl).last fun v _ ev => Passes.pure ?_
    rw [declarationNode, ea, ev]

/-! ## 4. Statements -/

theorem FormsCall.valuePasses {n : Node} (h : FormsCall FormsValue pre n) :
    FormsCall ValuePasses pre n :=
  h.imp fun _ _ _ hv => ⟨hv, fun _ _ hr hts => hv.passes hr hts⟩

/-- **A statement is read as one.** -/
theorem FormsStatement.passes {n : Node} (h : FormsStatement pre n) (hr : PathEnds rest)
    (hts : ts = pre ++ rest) :
    Passes pre rest (fun st => st.toNode = n) (statement ts) := by
  cases h with
  | declare hd hb =>
    subst hts
    simp only [List.cons_append, statement, hd]
    refine Passes.token hd (by decide) ?_
    exact (hb.passes hr rfl).last fun x _ e => Passes.pure e
  | @assign pre post c target n hp hc hv =>
    obtain ⟨t, us, rfl, ht⟩ := hp.starts
    have hends : PathEnds ((c :: post) ++ rest) := by simp [PathEnds, check, hc]
    subst hts
    simp only [List.cons_append, statement, List.mem_singleton.mp ht]
    refine Passes.bind (hp.passes hends (List.append_assoc _ _ _)) fun p _ ep => ?_
    refine Passes.take hc (by decide) fun _ => ?_
    refine (hv.passes hr rfl).last fun v _ ev => Passes.pure ?_
    rw [Statement.toNode, ep, ev]
  | ret ht hv =>
    subst hts
    simp only [List.cons_append, statement, ht]
    refine Passes.token ht (by decide) ?_
    refine Passes.ite_false ((hv.starts.append rest).not_check (by decide)) ?_
    refine (hv.passes hr rfl).last fun v _ ev => Passes.pure ?_
    rw [Statement.toNode, Option.map_some, Option.toList_some, ev]
  | print ht hv =>
    subst hts
    simp only [List.cons_append, statement, ht]
    refine Passes.token ht (by decide) ?_
    refine (hv.passes hr rfl).last fun v _ ev => Passes.pure ?_
    rw [Statement.toNode, ev]
  | call hc =>
    have hc' := hc.valuePasses
    obtain ⟨t, us, rfl, ht⟩ := hc.starts
    subst hts
    simp only [List.cons_append, statement, List.mem_singleton.mp ht]
    exact (call_passes hc' rfl).last fun c _ e => Passes.pure e

/-- A body is read up to its end. -/
theorem FormsBody.passes {ns : List Node} {e : Token} {bound : Nat} {h : ts.length < bound}
    (hb : FormsBody pre ns) (he : e.kind = .endBlock) (hts : ts = pre ++ e :: rest) :
    Passes pre (e :: rest) (fun body => body.map Statement.toNode = ns)
      (repeatWhile (fun us => !check [.endBlock, .eof] us) bound (fun us _ => statement us)
        ts h) := by
  have hends : PathEnds (e :: rest) := by simp [PathEnds, check, he]
  have hstop : (!check [.endBlock, .eof] (e :: rest)) = false := by simp [check, he]
  have hm : ∀ {p n}, FormsStatement p n → ∀ us,
      (!check [.endBlock, .eof] (p ++ us)) = true ∧ PathEnds (p ++ us) := by
    intro p n hs us
    have hstart := hs.starts.append us
    exact ⟨hstart.not_check' (by decide), hstart.not_check (by decide)⟩
  cases hb with
  | plain hs =>
    exact repeatWhile_passes (fun hp us _ vs hus hv => hp.passes hv hus) hm hends hstop hs ts h hts
  | @bareRet pre ns r hs hr =>
    have hrends : PathEnds ([r] ++ e :: rest) := by simp [PathEnds, check, hr]
    refine repeatWhile_passes_append (fun hp us _ vs hus hv => hp.passes hv hus) hm hrends ?_ hs
      ts h hts
    rintro _ h rfl
    have hmore : (!check [.endBlock, .eof] ([r] ++ e :: rest)) = true := by simp [check, hr]
    have hcheck : check [.endBlock] (e :: rest) = true := by simp [check, he]
    have hret : Passes [r] (e :: rest) (· = .ret none) (statement ([r] ++ e :: rest)) := by
      simp only [List.cons_append, List.nil_append, statement, hr]
      exact Passes.token hr (by decide) (Passes.ite_true hcheck (Passes.pure rfl))
    rw [repeatWhile]
    refine Passes.ite_true hmore (hret.last ?_)
    rintro _ _ rfl
    have hdone : Passes [] (e :: rest) (· = []) (repeatWhile
        (fun us => !check [.endBlock, .eof] us) bound (fun us _ => statement us) (e :: rest)
        (by simp only [List.length_append, List.length_cons] at h ⊢; omega)) := by
      rw [repeatWhile]
      exact Passes.ite_false hstop (Passes.pure rfl)
    refine hdone.last ?_
    rintro _ _ rfl
    exact Passes.pure rfl

/-! ## 5. Declarations -/

/-- Fields are read up to the end of their record. -/
def FieldPasses (pre : List Token) (f : String → Node) : Prop :=
  FormsField pre f ∧ ∀ ts rest, ts = pre ++ rest →
    Passes pre rest (fun d => d.node = f) (field ts)

theorem fields_passes {fs : List (String → Node)} {e : Token} {bound : Nat}
    {h : ts.length < bound} (hf : Many FieldPasses pre fs) (he : e.kind = .endBlock)
    (hts : ts = pre ++ e :: rest) :
    Passes pre (e :: rest) (fun fields => fields.map Field.node = fs)
      (repeatWhile (fun us => !check [.endBlock, .eof] us) bound (fun us _ => field us) ts h) := by
  have hstop : (!check [.endBlock, .eof] (e :: rest)) = false := by simp [check, he]
  refine repeatWhile_passes (F := fun _ => True) ?_ ?_ trivial hstop hf ts h hts
  · intro p f hp us _ vs hus _
    exact hp.2 us vs hus
  · intro p f hp us
    exact ⟨(hp.1.starts.append us).not_check' (by decide), trivial⟩

/-- **A field is read as one.** -/
theorem FormsField.passes : ∀ {pre : List Token} {f : String → Node}, FormsField pre f →
    ∀ {ts rest : List Token}, ts = pre ++ rest → Passes pre rest (fun d => d.node = f) (field ts)
  | _, _, @FormsField.plain pre ty name hty hw hname, ts, rest, hts => by
    rw [field]
    rw [List.append_assoc] at hts
    refine (hty.passes hts).bind fun a _ ea => ?_
    refine Passes.ident hname fun _ => ?_
    have hw' : Text.isAsciiWord "struct" a.name = false := by
      rw [← ea] at hw
      exact hw
    refine Passes.ite_false hw' (Passes.pure ?_)
    rw [Field.node_plain, ea]
  | _, _, @FormsField.nested pre fields ty name b e fs hty hw hname hb hf he, ts, rest, hts => by
    have hf' : Many FieldPasses fields fs := by
      refine hf.imp fun p g hp hg => ⟨hg, fun us vs hus => ?_⟩
      exact FormsField.passes hg hus
    rw [field]
    rw [List.append_assoc] at hts
    refine (hty.passes hts).bind fun a _ ea => ?_
    refine Passes.ident hname fun _ => ?_
    have hw' : Text.isAsciiWord "struct" a.name = true := by
      rw [← ea] at hw
      exact hw
    refine Passes.ite_true hw' ?_
    refine Passes.take hb (by decide) fun _ => ?_
    refine Passes.bind (fields_passes hf' he (List.append_assoc _ _ _)) fun ds _ ed => ?_
    refine Passes.take he (by decide) fun _ => Passes.pure ?_
    rw [Field.node_nested, ed]
termination_by pre => pre.length
decreasing_by
  simp only [List.length_cons, List.length_append]
  omega

theorem FormsParam.passes {n : Node} (h : FormsParam pre n) (hts : ts = pre ++ rest) :
    Passes pre rest (fun p => p.toNode = n) (param ts) := by
  cases h with
  | @mk pre ty name hty hname =>
    unfold param
    rw [List.append_assoc] at hts
    refine (hty.passes hts).bind fun a _ ea => ?_
    refine Passes.ident hname fun _ => Passes.pure ?_
    rw [Param.toNode, TypeExpr.toNode, ea]

theorem record_passes {s name e : Token} {fields : List Token}
    {fs : List (String → Node)} (hs : s.kind = .struct) (hname : name.kind = .ident)
    (hf : Many FormsField fields fs) (he : e.kind = .endBlock)
    (hts : ts = (s :: name :: (fields ++ [e])) ++ rest) :
    Passes (s :: name :: (fields ++ [e])) rest (fun d => d.toNode =
      ⟨{ kind := .record, value := name.value }, fs.map (· name.value)⟩) (record ts) := by
  have hf' : Many FieldPasses fields fs :=
    hf.imp fun _ _ _ hg => ⟨hg, fun _ _ hus => hg.passes hus⟩
  subst hts
  unfold record
  refine Passes.take hs (by decide) fun _ => ?_
  refine Passes.ident hname fun _ => ?_
  refine Passes.bind (fields_passes hf' he (List.append_assoc _ _ _)) fun ds _ ed => ?_
  refine Passes.take he (by decide) fun _ => Passes.pure ?_
  rw [Declared.toNode, Field.toNodes_eq_node, ed]

/-- What follows the type of a procedure's result. -/
theorem procedure_passes {returns : TypeExpr} {params body : List Token} {c name l r e : Token}
    {ps ns : List Node} (hc : c.kind = .doubleColon) (hname : name.kind = .ident)
    (hl : l.kind = .lparen) (hp : Listed FormsParam params ps) (hr : r.kind = .rparen)
    (hb : FormsBody body ns) (he : e.kind = .endBlock)
    (hts : ts = (c :: name :: l :: (params ++ r :: (body ++ [e]))) ++ rest) :
    Passes (c :: name :: l :: (params ++ r :: (body ++ [e]))) rest
      (fun d => d.toNode = ⟨{ kind := .procedure, value := name.value },
        ⟨returns.label, []⟩ :: (ps ++ ns)⟩) (procedure returns ts) := by
  subst hts
  unfold procedure
  refine Passes.take hc (by decide) fun _ => ?_
  refine Passes.ident hname fun _ => ?_
  refine Passes.take hl (by decide) fun _ => ?_
  refine Passes.bind (commaList_passes (f := Param.toNode) (F := fun _ => True) ?_ ?_ ?_ hr hp _ _
    (List.append_assoc _ _ _)) fun params' _ ep => ?_
  · intro p n h us _ vs hus _
    exact h.passes hus
  · intro p n h us
    exact (h.starts.append us).not_check (by decide)
  · exact fun _ _ _ => trivial
  refine Passes.take hr (by decide) fun _ => ?_
  refine Passes.bind (hb.passes he (List.append_assoc _ _ _)) fun body' _ eb => ?_
  refine Passes.take he (by decide) fun _ => Passes.pure ?_
  rw [Declared.toNode, ep, eb]
  rfl

/-- What follows the type of a variable. -/
theorem global_passes {type : TypeExpr} {post : List Token} {name c : Token} {n : Node}
    (hname : name.kind = .ident) (hc : c.kind = .colon) (hv : FormsValue post n)
    (hr : PathEnds rest) (hts : ts = (name :: c :: post) ++ rest) :
    Passes (name :: c :: post) rest (fun d => d.toNode = ⟨{ kind := .declaration },
      [⟨({ kind := .reference, value := name.value } : Label).typedAs type.label, []⟩, n]⟩)
      (global type ts) := by
  subst hts
  unfold «global»
  refine Passes.ident hname fun _ => ?_
  refine Passes.take hc (by decide) fun _ => ?_
  refine (hv.passes hr rfl).last fun v _ ev => Passes.pure ?_
  rw [Declared.toNode, declarationNode, ev]

theorem FormsDeclared.passes {n : Node} (h : FormsDeclared pre n) (hr : PathEnds rest)
    (hts : ts = pre ++ rest) : Passes pre rest (fun d => d.toNode = n) (declared ts) := by
  subst hts
  cases h with
  | record hs hname hf he =>
    simp only [List.cons_append, declared, hs]
    exact record_passes hs hname hf he rfl
  | @procedure pre params body ty c name l r e ps ns hty hc hname hl hp hr' hb he =>
    obtain ⟨t, us, rfl, ht⟩ := hty.starts
    have hcheck : check [.doubleColon]
        ((c :: name :: l :: (params ++ r :: (body ++ [e]))) ++ rest) = true := by
      simp [check, hc]
    simp only [List.cons_append, declared, List.mem_singleton.mp ht]
    refine Passes.bind (hty.passes (List.append_assoc _ _ _)) fun a _ ea => ?_
    refine Passes.ite_true hcheck ?_
    rw [← ea]
    exact (procedure_passes hc hname hl hp hr' hb he rfl).last fun d _ ed => Passes.pure ed
  | «global» hb =>
    cases hb with
    | @mk pre post ty name c n hty hname hc hv =>
      obtain ⟨t, us, rfl, ht⟩ := hty.starts
      have hcheck : check [.doubleColon] ((name :: c :: post) ++ rest) = false := by
        simp [check, hname]
      simp only [List.cons_append, declared, List.mem_singleton.mp ht]
      refine Passes.bind (hty.passes (List.append_assoc _ _ _)) fun a _ ea => ?_
      refine Passes.ite_false hcheck ?_
      rw [← ea]
      exact (global_passes hname hc hv hr rfl).last fun d _ ed => Passes.pure ed

/-- **An item is read as one.** -/
theorem FormsItem.passes {n : Node} (h : FormsItem pre n) (hr : PathEnds rest)
    (hts : ts = pre ++ rest) : Passes pre rest (fun i => i.toNode = n) (item ts) := by
  subst hts
  cases h with
  | @directive d name a hd hname hw ha =>
    have hw' : (Text.isWord "module" name.value || Text.isWord "import" name.value) = true :=
      Bool.or_eq_true_iff.mpr hw
    simp only [List.cons_append, item, hd]
    unfold Grammar.directive
    refine Passes.take hd (by decide) fun _ => ?_
    refine Passes.take hname (by decide) fun _ => ?_
    refine Passes.ite_true hw' ?_
    refine Passes.take ha (by decide) fun _ => Passes.pure ?_
    rfl
  | @declaration d ms pre mods n hd hm hp =>
    have hstop : (!check [.struct, .lbracket, .eof] (pre ++ rest)) = false := by
      rw [(hp.starts.append rest).check (by decide)]
      rfl
    simp only [List.cons_append, item, hd]
    unfold Grammar.declaration
    refine Passes.take hd (by decide) fun _ => ?_
    refine Passes.bind (repeatWhile_passes (f := modifierNode) (F := fun _ => True) ?_ ?_ trivial
      hstop hm _ _ (List.append_assoc _ _ _)) fun modifiers _ em => ?_
    · intro p n h us _ vs hus _
      cases h with
      | mk ht =>
        subst hus
        refine Passes.take ht (by decide) fun _ => Passes.pure ?_
        rfl
    · intro p n h us
      cases h with
      | mk ht => exact ⟨by simp [check, ht], trivial⟩
    · refine (hp.passes hr rfl).last fun d _ ed => Passes.pure ?_
      rw [Item.toNode, ed, em]

end Osclan
