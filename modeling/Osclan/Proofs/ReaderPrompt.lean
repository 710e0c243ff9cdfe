/-
  File:      Osclan/Proofs/ReaderPrompt.lean
  Subject:   The readers of the grammar stop at the first token that cannot be right.

  One lemma for each reader, by the rules of `Prompt`. At each step it says how the tokens taken so
  far can be continued to what the production allows: the kinds of the tokens that are missing. The
  continuation need not be the shortest, but it has to exist at every place where a reader may stop.

  * `typeExpr_prompt`, `path_prompt`, `value_prompt`, `statement_prompt`, … -- the parts;
  * `item_prompt` -- the items of a program.
-/
import Osclan.Proofs.Promptness
import Osclan.Proofs.ReaderSound

namespace Osclan

open Grammar Tokens

variable {ts : List Token}

/-! ## 1. Types and paths -/

theorem typeSize_prompt : Prompt (Formed FormsSize) typeSize ts := by
  unfold typeSize
  refine Prompt.ite check_congr (fun _ => ?_) fun _ => Prompt.pure
  refine Prompt.take (by decide) (.fill [.lparen, .number, .rparen] ⟨_, .some rfl rfl rfl⟩
    (by decide)) fun l us hl _ => ?_
  refine Prompt.number (.fill [.number, .rparen] ⟨_, .some hl rfl rfl⟩ (by decide))
    fun t vs ht _ => ?_
  exact Prompt.take (by decide) (.fill [.rparen] ⟨_, .some hl ht rfl⟩ (by decide))
    fun r ws _ _ => Prompt.pure

theorem typeStar_prompt : Prompt (Formed FormsStar) typeStar ts := by
  unfold typeStar
  refine Prompt.ite check_congr (fun _ => ?_) fun _ => Prompt.pure
  exact Prompt.take (by decide) (.fill [.asterisk] ⟨_, .some rfl⟩ (by decide))
    fun t us _ _ => Prompt.pure

theorem typeExpr_prompt : Prompt (Formed FormsType) typeExpr ts := by
  unfold typeExpr
  refine Prompt.take (by decide) (.fill [.lbracket, .ident, .rbracket]
    ⟨_, .mk rfl (.inl rfl) .none .none rfl⟩ (by decide)) fun l us hl _ => ?_
  refine Prompt.expect (by decide) (.fill [.ident, .rbracket]
    ⟨_, .mk hl (.inl rfl) .none .none rfl⟩ (by decide)) fun name vs hname _ => ?_
  have hname' : name.kind = .ident ∨ name.kind = .struct := by
    simpa only [List.mem_cons, List.not_mem_nil, or_false] using hname
  refine Prompt.bindMay typeSize_prompt typeSize_yields ?_ fun n size ws _ _ hsize => ?_
  · rintro q ⟨n, hn⟩
    exact .fill [.rbracket] ⟨_, .mk hl hname' hn .none rfl⟩ (by decide)
  refine Prompt.bindMay typeStar_prompt typeStar_yields ?_ fun pointer star xs _ _ hstar => ?_
  · rintro q ⟨pointer, hp⟩
    exact .fill [.rbracket] ⟨_, .mk hl hname' hsize hp rfl⟩ (by decide)
  exact Prompt.take (by decide) (.fill [.rbracket] ⟨_, .mk hl hname' hsize hstar rfl⟩ (by decide))
    fun r ys _ _ => Prompt.pure

/-- What follows the name of a segment, where the paths inside are prompt. -/
theorem segmentOffset_prompt {c name : Token} (hc : c.kind = .doubleColon)
    (hname : name.kind = .ident)
    (hp : ∀ us : List Token, us.length < ts.length →
      Prompt (Formed (FormsPath .dynamicOffset)) path us) :
    Prompt (fun q => Formed (FormsSegment (FormsPath .dynamicOffset)) (c :: name :: q))
      (fun us => segmentOffset name.value us fun zs _ => path zs) ts := by
  unfold segmentOffset
  refine Prompt.ite check_congr (fun _ => ?_) fun _ => Prompt.pure
  refine Prompt.take (by decide) (.fill [.lparen, .number, .rparen]
    ⟨_, .fixed hc hname rfl rfl rfl⟩ (by decide)) fun l us hl hts => ?_
  refine Prompt.ite check_congr (fun _ => ?_) fun _ => Prompt.ite check_congr (fun _ => ?_) fun _ => ?_
  · refine Prompt.number (.fill [.number, .rparen] ⟨_, .fixed hc hname hl rfl rfl⟩ (by decide))
      fun t vs ht _ => ?_
    exact Prompt.take (by decide) (.fill [.rparen] ⟨_, .fixed hc hname hl ht rfl⟩ (by decide))
      fun r ws _ _ => Prompt.pure
  · refine Prompt.bind (hp us (hts ▸ Nat.lt_succ_self _)) (path_yields us) ?_
      fun offset pre vs _ _ hpre => ?_
    · rintro q ⟨n, hn⟩
      exact .fill [.rparen] ⟨_, .dynamic hc hname hl hn rfl⟩ (by decide)
    · exact Prompt.take (by decide) (.fill [.rparen]
        ⟨_, .dynamic hc hname hl (hpre .dynamicOffset) rfl⟩ (by decide)) fun r ws _ _ => Prompt.pure
  · have hv : Viable (fun q => Formed (FormsSegment (FormsPath .dynamicOffset))
        (c :: name :: l :: q)) [] :=
      .fill [.number, .rparen] ⟨_, .fixed hc hname hl rfl rfl⟩ (by decide)
    cases us with
    | nil => exact Prompt.nil rfl hv
    | cons t vs => exact Prompt.unexpected [.number, .ident] (fun _ => rfl) hv

/-- segment = "::" ident offset -/
def segment (ts : List Token) : Reads Segment ts :=
  expect [.doubleColon] ts >>= fun c => ident c.rest >>= fun x =>
    segmentOffset x.value x.rest (fun us _ => path us) >>= fun s =>
      Pure.pure ⟨s.value, s.rest, by have := c.shorter; have := x.shorter; have := s.shorter; omega⟩

theorem segment_yields (ts : List Token) : Yields ts
    (fun s pre _ => FormsSegment (FormsPath .dynamicOffset) pre s.step) (segment ts) := by
  refine Yields.take (by decide) fun c us _ hc => ?_
  refine Yields.ident fun name vs _ hname => ?_
  refine (segmentOffset_yields hc hname fun us _ => path_yields us).bind
    fun s ws _ pre _ hs => Yields.pure ?_
  rw [List.append_nil]
  exact hs

theorem segment_prompt (hp : ∀ us : List Token, us.length < ts.length →
      Prompt (Formed (FormsPath .dynamicOffset)) path us) :
    Prompt (Formed (FormsSegment (FormsPath .dynamicOffset))) segment ts := by
  refine Prompt.take (by decide) (.fill [.doubleColon, .ident] ⟨_, .plain rfl rfl⟩ (by decide))
    fun c us hc hts => ?_
  refine Prompt.ident (.fill [.ident] ⟨_, .plain hc rfl⟩ (by decide)) fun name vs hname hus => ?_
  refine Prompt.map (g := id) (fun _ _ _ _ => ⟨_, rfl⟩) (segmentOffset_prompt hc hname ?_)
  intro ws hws
  refine hp ws ?_
  rw [hts, hus, List.length_cons, List.length_cons]
  omega

/-- **A path is read promptly.** -/
theorem path_prompt (kind : NodeKind) (ts : List Token) :
    Prompt (Formed (FormsPath kind)) path ts := by
  refine Prompt.congr (fun us _ => by rw [path]) ?_
  refine Prompt.ident (.fill [.ident] ⟨_, .mk rfl .nil⟩ (by decide)) fun base us hbase hts => ?_
  refine Prompt.map (g := Path.mk base.value) (fun _ _ _ _ => ⟨_, rfl⟩) ?_
  refine Prompt.mono (C := Formed (Many (FormsSegment (FormsPath .dynamicOffset)))) ?_ ?_
  · rintro q ⟨steps, hsteps⟩
    exact ⟨_, .mk hbase hsteps⟩
  · refine repeatWhile_prompt_many (E := segment) _ (fun _ _ _ => rfl) check_congr segment_yields ?_
    intro vs hvs
    refine segment_prompt fun ws hws => ?_
    have hlen : ws.length < ts.length := by
      rw [hts, List.length_cons]
      omega
    exact path_prompt .dynamicOffset ws
termination_by ts.length

/-! ## 2. Values -/

/-- An identifier is a value. -/
theorem formed_ident_value : Formed FormsValue (fillers [.ident]) := ⟨_, .path (.mk rfl .nil)⟩

/-- The colon behind a name may be looked at after the name has been taken. -/
theorem member_eq (ts : List Token) : member ts (fun us _ => value us) =
    ident ts >>= fun x =>
      if check [.colon] x.rest then
        expect [.colon] x.rest >>= fun c => value c.rest >>= fun v =>
          pure ⟨.mk x.value v.value, v.rest,
            Nat.lt_trans v.shorter (Nat.lt_trans c.shorter x.shorter)⟩
      else pure ⟨.mk x.value (.path (.mk x.value [])), x.rest, x.shorter⟩ := by
  unfold member
  cases ts with
  | nil => rfl
  | cons t us =>
    by_cases ht : t.kind = .ident
    · have hseq : atSequence [.ident, .colon] (t :: us) = check [.colon] us := by
        cases us with
        | nil => simp [atSequence, check]
        | cons u vs =>
          simp [atSequence, check, ht]
          rfl
      have hident : ident (t :: us) = .ok ⟨t.value, us, Nat.lt_succ_self _⟩ := by
        rw [ident, expect_of_mem us (List.mem_singleton.mpr ht)]
        rfl
      rw [hseq, hident]
      rfl
    · have hseq : atSequence [.ident, .colon] (t :: us) = false := by simp [atSequence, ht]
      have hident : ident (t :: us) = .error (.unexpectedToken (TokenKind.listText [.ident]) t) := by
        rw [ident, expect_of_not_mem us (mt List.mem_singleton.mp ht)]
        rfl
      rw [hseq, hident]
      rfl

section

variable (hp : ∀ us : List Token, us.length < ts.length → Prompt (Formed FormsValue) value us)

include hp

theorem call_prompt :
    Prompt (Formed (FormsCall FormsValue)) (fun us => call us fun ws _ => value ws) ts := by
  unfold call
  refine Prompt.take (by decide) (.fill [.call, .ident, .lparen, .rparen]
    ⟨_, .mk rfl rfl rfl .nil rfl⟩ (by decide)) fun c us hc hts => ?_
  refine Prompt.ident (.fill [.ident, .lparen, .rparen] ⟨_, .mk hc rfl rfl .nil rfl⟩ (by decide))
    fun name vs hname hus => ?_
  refine Prompt.take (by decide) (.fill [.lparen, .rparen] ⟨_, .mk hc hname rfl .nil rfl⟩
    (by decide)) fun l ws hl hvs => ?_
  refine Prompt.bindMay (commaList_prompt _ (fun _ _ _ => rfl) value_yields (fun xs hxs => ?_)
    (by decide) formed_ident_value) (commaList_yields (fun us _ => value_yields us) ws _) ?_
    fun args pre xs _ _ hargs => ?_
  · refine hp xs ?_
    rw [hts, hus, hvs]
    simp only [List.length_cons]
    omega
  · rintro q ⟨ns, hns⟩
    exact .fill [.rparen] ⟨_, .mk hc hname hl hns rfl⟩ (by decide)
  · exact Prompt.take (by decide) (.fill [.rparen] ⟨_, .mk hc hname hl hargs rfl⟩ (by decide))
      fun r ys _ _ => Prompt.pure

theorem member_prompt :
    Prompt (Formed (FormsMember FormsValue)) (fun us => member us fun ws _ => value ws) ts := by
  refine Prompt.congr (fun us _ => member_eq us) ?_
  refine Prompt.ident (.fill [.ident] ⟨_, .short rfl⟩ (by decide)) fun x us hx hts => ?_
  refine Prompt.ite check_congr (fun _ => ?_) fun _ =>
    Prompt.pure (v := Member.mk x.value (.path (.mk x.value [])))
  refine Prompt.take (by decide) (.fill [.colon, .ident]
    ⟨_, .named hx rfl (.path (.mk rfl .nil))⟩ (by decide)) fun c vs hc hus => ?_
  refine Prompt.map (g := Member.mk x.value) (fun _ _ _ _ => ⟨_, rfl⟩) ((hp vs ?_).mono ?_)
  · rw [hts, hus]
    simp only [List.length_cons]
    omega
  · rintro q ⟨n, hn⟩
    exact ⟨_, .named hx hc hn⟩

theorem anon_prompt :
    Prompt (Formed FormsValue) (fun us => anon us fun ws _ => value ws) ts := by
  unfold anon
  refine Prompt.take (by decide) (.fill [.declare, .anon, .endBlock]
    ⟨_, .anon rfl rfl .nil rfl⟩ (by decide)) fun d us hd hts => ?_
  refine Prompt.take (by decide) (.fill [.anon, .endBlock] ⟨_, .anon hd rfl .nil rfl⟩ (by decide))
    fun a vs ha hus => ?_
  refine Prompt.bindMay (repeatWhile_prompt_many (E := fun us => member us fun ws _ => value ws) _
    (fun _ _ _ => rfl) not_check_congr (fun us => member_yields fun ws _ => value_yields ws)
    (fun ws hws => member_prompt fun xs hxs => ?_))
    (repeatWhile_many (fun us _ => member_yields fun ws _ => value_yields ws) vs _) ?_
    fun members pre ws _ _ hm => ?_
  · refine hp xs ?_
    rw [hts, hus]
    simp only [List.length_cons]
    omega
  · rintro q ⟨ns, hns⟩
    exact .fill [.endBlock] ⟨_, .anon hd ha hns rfl⟩ (by decide)
  · exact Prompt.take (by decide) (.fill [.endBlock] ⟨_, .anon hd ha hm rfl⟩ (by decide))
      fun e xs _ _ => Prompt.pure

end

/-- **A value is read promptly.** -/
theorem value_prompt : ∀ ts : List Token, Prompt (Formed FormsValue) value ts
  | [] => Prompt.nil (by rw [value]) (.fill [.ident] formed_ident_value (by decide))
  | t :: us => by
    cases ht : t.kind with
    | init =>
      refine Prompt.token ht (by decide) (fun us' => by rw [value]) ?_
      simp only [ht]
      refine Prompt.map (g := Value.allocate) (fun _ _ _ _ => ⟨_, rfl⟩) (typeExpr_prompt.mono ?_)
      rintro q ⟨ty, hty⟩
      exact ⟨_, .allocate ht hty⟩
    | number =>
      refine Prompt.numeral ht (fun us' => ?_)
        (Prompt.pure (v := Value.number t.value) (h := fun _ => Nat.lt_succ_self _))
      rw [value]
      simp only [ht, numberOf_eq ht]
      split <;> rfl
    | text =>
      refine Prompt.token ht (by decide) (fun us' => by rw [value]) ?_
      simp only [ht]
      exact Prompt.pure
    | ident =>
      refine Prompt.congr_cons (g := fun us => path us >>= fun p =>
        pure ⟨.path p.value, p.rest, p.shorter⟩) (fun us' => ?_) ?_
      · rw [value]
        simp only [ht]
      · refine Prompt.map (g := Value.path) (fun _ _ _ _ => ⟨_, rfl⟩)
          ((path_prompt .reference _).mono ?_)
        rintro q ⟨n, hn⟩
        exact ⟨_, .path hn⟩
    | asterisk =>
      refine Prompt.token ht (by decide) (fun us' => by rw [value]) ?_
      simp only [ht]
      exact Prompt.ident (.fill [.ident] ⟨_, .pointer ht rfl⟩ (by decide))
        fun name _ _ _ => Prompt.pure (v := Value.pointer name.value)
    | declare =>
      refine Prompt.congr_cons (g := fun us => anon us (fun ws _ => value ws) >>= fun p =>
        pure ⟨.anon p.value, p.rest, p.shorter⟩) (fun us' => ?_) ?_
      · rw [value]
        simp only [ht]
      · refine Prompt.map (g := Value.anon) (fun _ _ _ _ => ⟨_, rfl⟩) (anon_prompt ?_)
        exact fun ws hws => value_prompt ws
    | call =>
      refine Prompt.congr_cons (g := fun us => call us (fun ws _ => value ws) >>= fun p =>
        pure ⟨.call p.value.1 p.value.2, p.rest, p.shorter⟩) (fun us' => ?_) ?_
      · rw [value]
        simp only [ht]
      · refine Prompt.map (g := fun p => Value.call p.1 p.2) (fun _ _ _ _ => ⟨_, rfl⟩)
          ((call_prompt ?_).mono ?_)
        · exact fun ws hws => value_prompt ws
        · rintro q ⟨n, hn⟩
          exact ⟨_, .call hn⟩
    | _ =>
      refine Prompt.unexpected Grammar.valueKinds (fun us' => ?_)
        (.fill [.ident] formed_ident_value (by decide))
      rw [value]
      simp only [ht]
termination_by ts => ts.length
decreasing_by all_goals assumption

theorem binding_prompt : Prompt (Formed FormsBinding) binding ts := by
  unfold binding
  refine Prompt.bind typeExpr_prompt typeExpr_yields ?_ fun type pre us _ _ hty => ?_
  · rintro q ⟨ty, hty⟩
    exact .fill [.ident, .colon, .ident] ⟨_, .mk hty rfl rfl (.path (.mk rfl .nil))⟩ (by decide)
  refine Prompt.ident (.fill [.ident, .colon, .ident]
    ⟨_, .mk hty rfl rfl (.path (.mk rfl .nil))⟩ (by decide)) fun name vs hname _ => ?_
  refine Prompt.take (by decide) (.fill [.colon, .ident]
    ⟨_, .mk hty hname rfl (.path (.mk rfl .nil))⟩ (by decide)) fun c ws hc _ => ?_
  refine Prompt.map (g := fun v => (type, name.value, v)) (fun _ _ _ _ => ⟨_, rfl⟩)
    ((value_prompt ws).mono ?_)
  rintro q ⟨n, hn⟩
  exact ⟨_, .mk hty hname hc hn⟩

/-! ## 3. Statements -/

/-- A statement is read promptly: a return without a value, too, has the beginning of one with a
    value. -/
theorem statement_prompt : Prompt (Formed FormsStatement) statement ts := by
  have hv : Viable (Formed FormsStatement) [] :=
    .fill [.ret, .ident] ⟨_, .ret rfl (.path (.mk rfl .nil))⟩ (by decide)
  cases ts with
  | nil => exact Prompt.nil rfl hv
  | cons t us =>
    unfold statement
    cases ht : t.kind with
    | declare =>
      refine Prompt.token ht (by decide) (fun us' => rfl) ?_
      simp only [ht]
      refine Prompt.map (g := fun x => Statement.declare x.1 x.2.1 x.2.2)
        (fun _ _ _ _ => ⟨_, rfl⟩) (binding_prompt.mono ?_)
      rintro q ⟨n, hn⟩
      exact ⟨_, .declare ht hn⟩
    | ident =>
      refine Prompt.congr_cons (g := fun us => path us >>= fun p => expect [.colon] p.rest >>= fun c =>
        value c.rest >>= fun v => pure ⟨.assign p.value v.value, v.rest,
          Nat.lt_trans v.shorter (Nat.lt_trans c.shorter p.shorter)⟩) (fun us' => ?_) ?_
      · simp only [ht]
      · refine Prompt.bind (path_prompt .reference _) (path_yields _) ?_
          fun target pre vs _ _ htarget => ?_
        · rintro q ⟨n, hn⟩
          exact .fill [.colon, .ident] ⟨_, .assign hn rfl (.path (.mk rfl .nil))⟩ (by decide)
        refine Prompt.take (by decide) (.fill [.colon, .ident]
          ⟨_, .assign (htarget .reference) rfl (.path (.mk rfl .nil))⟩ (by decide)) fun c ws hc _ => ?_
        refine Prompt.map (g := Statement.assign target) (fun _ _ _ _ => ⟨_, rfl⟩)
          ((value_prompt ws).mono ?_)
        rintro q ⟨n, hn⟩
        exact ⟨_, .assign (htarget .reference) hc hn⟩
    | ret =>
      refine Prompt.token ht (by decide) (fun us' => rfl) ?_
      simp only [ht]
      refine Prompt.ite check_congr (fun _ => Prompt.pure) fun _ => ?_
      refine Prompt.map (g := fun v => Statement.ret (some v)) (fun _ _ _ _ => ⟨_, rfl⟩)
        ((value_prompt us).mono ?_)
      rintro q ⟨n, hn⟩
      exact ⟨_, .ret ht hn⟩
    | print =>
      refine Prompt.token ht (by decide) (fun us' => rfl) ?_
      simp only [ht]
      refine Prompt.map (g := Statement.print) (fun _ _ _ _ => ⟨_, rfl⟩) ((value_prompt us).mono ?_)
      rintro q ⟨n, hn⟩
      exact ⟨_, .print ht hn⟩
    | call =>
      refine Prompt.congr_cons (g := fun us => call us (fun ws _ => value ws) >>= fun p =>
        pure ⟨.call p.value.1 p.value.2, p.rest, p.shorter⟩) (fun us' => ?_) ?_
      · simp only [ht]
      · refine Prompt.map (g := fun p => Statement.call p.1 p.2) (fun _ _ _ _ => ⟨_, rfl⟩)
          ((call_prompt fun ws _ => value_prompt ws).mono ?_)
        rintro q ⟨n, hn⟩
        exact ⟨_, .call hn⟩
    | _ =>
      refine Prompt.unexpected [.declare, .ident, .ret, .print, .call] (fun us' => ?_) hv
      simp only [ht]

/-- The statements of a body. No statement follows a return without a value. -/
theorem body_prompt {bound : List Token → Nat} (h : ∀ us, us.length < bound us) :
    Prompt (Formed (Many FormsStatement)) (fun us =>
      repeatWhile (fun us => !check [.endBlock, .eof] us) (bound us) (fun us _ => statement us) us
        (h us)) ts := by
  refine repeatWhile_prompt h (fun _ _ _ => rfl) not_check_congr (fun us => statement_yields)
    (fun us _ => statement_prompt) (fun _ hq => hq.many) ?_
  rintro st pre mid q (hs | ⟨r, _, _, _, hend⟩) hmore ⟨ns, hns⟩
  · exact ⟨_, .cons hs hns⟩
  · exfalso
    cases mid with
    | nil => cases hend
    | cons t us => simp_all [check]

/-! ## 4. Declarations -/

/-- A type can be continued to a field. The name of the type decides how. -/
theorem FormsType.field_viable {pre : List Token} {ty : Label} (h : FormsType pre ty) :
    Viable (fun q => Formed FormsField (pre ++ q)) [] := by
  cases hw : Text.isAsciiWord "struct" ty.value with
  | true => exact .fill [.ident, .beginBlock, .endBlock] ⟨_, .nested h hw rfl rfl .nil rfl⟩ (by decide)
  | false => exact .fill [.ident] ⟨_, .plain h hw rfl⟩ (by decide)

/-- **A field is read promptly.** -/
theorem field_prompt (ts : List Token) : Prompt (Formed FormsField) field ts := by
  refine Prompt.congr (fun us _ => by rw [field]) ?_
  refine Prompt.bind typeExpr_prompt typeExpr_yields ?_ fun type pre us hlt hcut hty => ?_
  · rintro q ⟨ty, hty⟩
    exact hty.field_viable
  refine Prompt.ident hty.field_viable fun name vs hname hus => ?_
  refine Prompt.ite (fun _ _ _ => rfl) (fun hw => ?_) fun hw =>
    Prompt.pure (v := Field.plain type name.value)
  refine Prompt.take (by decide) (.fill [.beginBlock, .endBlock]
    ⟨_, .nested hty hw hname rfl .nil rfl⟩ (by decide)) fun b ws hb hvs => ?_
  refine Prompt.bindMay (repeatWhile_prompt_many (E := field) _ (fun _ _ _ => rfl) not_check_congr
    field_yields fun xs hxs => ?_) (repeatWhile_many (fun us _ => field_yields us) ws _) ?_
    fun fields post xs _ _ hf => ?_
  · have hlen : xs.length < ts.length := by
      rw [hcut, hus, hvs]
      simp only [List.length_append, List.length_cons]
      omega
    exact field_prompt xs
  · rintro q ⟨fs, hfs⟩
    exact .fill [.endBlock] ⟨_, .nested hty hw hname hb hfs rfl⟩ (by decide)
  · exact Prompt.take (by decide) (.fill [.endBlock] ⟨_, .nested hty hw hname hb hf rfl⟩ (by decide))
      fun e ys _ _ => Prompt.pure (v := Field.nested name.value fields)
termination_by ts.length

theorem record_prompt : Prompt (Formed FormsDeclared) record ts := by
  unfold record
  refine Prompt.take (by decide) (.fill [.struct, .ident, .endBlock]
    ⟨_, .record rfl rfl .nil rfl⟩ (by decide)) fun s us hs _ => ?_
  refine Prompt.ident (.fill [.ident, .endBlock] ⟨_, .record hs rfl .nil rfl⟩ (by decide))
    fun name vs hname _ => ?_
  refine Prompt.bindMay (repeatWhile_prompt_many (E := field) _ (fun _ _ _ => rfl) not_check_congr
    field_yields fun xs _ => field_prompt xs) (repeatWhile_many (fun us _ => field_yields us) vs _)
    ?_ fun fields pre ws _ _ hf => ?_
  · rintro q ⟨fs, hfs⟩
    exact .fill [.endBlock] ⟨_, .record hs hname hfs rfl⟩ (by decide)
  · exact Prompt.take (by decide) (.fill [.endBlock] ⟨_, .record hs hname hf rfl⟩ (by decide))
      fun e xs _ _ => Prompt.pure (v := Declared.record name.value fields)

theorem param_prompt : Prompt (Formed FormsParam) param ts := by
  unfold param
  refine Prompt.bind typeExpr_prompt typeExpr_yields ?_ fun type pre us _ _ hty => ?_
  · rintro q ⟨ty, hty⟩
    exact .fill [.ident] ⟨_, .mk hty rfl⟩ (by decide)
  · exact Prompt.ident (.fill [.ident] ⟨_, .mk hty rfl⟩ (by decide))
      fun name vs _ _ => Prompt.pure (v := Param.mk type name.value)

/-- What follows the type of a procedure's result. -/
theorem procedure_prompt {returns : TypeExpr} {pre : List Token}
    (hty : FormsType pre returns.label) :
    Prompt (fun q => Formed FormsDeclared (pre ++ q)) (procedure returns) ts := by
  have hparam : Formed FormsParam (fillers [.lbracket, .ident, .rbracket, .ident]) :=
    ⟨_, .mk (.mk rfl (.inl rfl) .none .none rfl) rfl⟩
  unfold procedure
  refine Prompt.take (by decide) (.fill [.doubleColon, .ident, .lparen, .rparen, .endBlock]
    ⟨_, .procedure hty rfl rfl rfl .nil rfl (.plain .nil) rfl⟩ (by decide)) fun c us hc _ => ?_
  refine Prompt.ident (.fill [.ident, .lparen, .rparen, .endBlock]
    ⟨_, .procedure hty hc rfl rfl .nil rfl (.plain .nil) rfl⟩ (by decide)) fun name vs hname _ => ?_
  refine Prompt.take (by decide) (.fill [.lparen, .rparen, .endBlock]
    ⟨_, .procedure hty hc hname rfl .nil rfl (.plain .nil) rfl⟩ (by decide)) fun l ws hl _ => ?_
  refine Prompt.bindMay (commaList_prompt _ (fun _ _ _ => rfl) (fun us => param_yields)
    (fun us _ => param_prompt) (by decide) hparam) (commaList_yields (fun us _ => param_yields) ws _)
    ?_ fun params ps xs _ _ hps => ?_
  · rintro q ⟨ns, hns⟩
    exact .fill [.rparen, .endBlock]
      ⟨_, .procedure hty hc hname hl hns rfl (.plain .nil) rfl⟩ (by decide)
  refine Prompt.take (by decide) (.fill [.rparen, .endBlock]
    ⟨_, .procedure hty hc hname hl hps rfl (.plain .nil) rfl⟩ (by decide)) fun r ys hr _ => ?_
  refine Prompt.bindMay (body_prompt _) (body_yields _) ?_ fun body bs zs _ _ hbs => ?_
  · rintro q ⟨ns, hns⟩
    exact .fill [.endBlock] ⟨_, .procedure hty hc hname hl hps hr (.plain hns) rfl⟩ (by decide)
  · exact Prompt.take (by decide) (.fill [.endBlock]
      ⟨_, .procedure hty hc hname hl hps hr hbs rfl⟩ (by decide))
      fun e rest _ _ => Prompt.pure (v := Declared.procedure returns name.value params body)

/-- What follows the type of a variable. -/
theorem global_prompt {type : TypeExpr} {pre : List Token} (hty : FormsType pre type.label) :
    Prompt (fun q => Formed FormsDeclared (pre ++ q)) («global» type) ts := by
  unfold «global»
  refine Prompt.ident (.fill [.ident, .colon, .ident]
    ⟨_, .global (.mk hty rfl rfl (.path (.mk rfl .nil)))⟩ (by decide)) fun name us hname _ => ?_
  refine Prompt.take (by decide) (.fill [.colon, .ident]
    ⟨_, .global (.mk hty hname rfl (.path (.mk rfl .nil)))⟩ (by decide)) fun c vs hc _ => ?_
  refine Prompt.map (g := Declared.global type name.value) (fun _ _ _ _ => ⟨_, rfl⟩)
    ((value_prompt vs).mono ?_)
  rintro q ⟨n, hn⟩
  exact ⟨_, .global (.mk hty hname hc hn)⟩

theorem modifier_prompt : Prompt (Formed FormsModifier) modifier ts := by
  unfold modifier
  exact Prompt.take (by decide) (.fill [.modifier] ⟨_, .mk rfl⟩ (by decide))
    fun m us _ _ => Prompt.pure (v := m.value)

theorem declared_prompt : Prompt (Formed FormsDeclared) declared ts := by
  have hv : Viable (Formed FormsDeclared) [] :=
    .fill [.struct, .ident, .endBlock] ⟨_, .record rfl rfl .nil rfl⟩ (by decide)
  cases ts with
  | nil => exact Prompt.nil rfl hv
  | cons t us =>
    unfold declared
    cases ht : t.kind with
    | struct =>
      refine Prompt.congr_cons (g := record) (fun us' => ?_) record_prompt
      simp only [ht]
    | lbracket =>
      refine Prompt.congr_cons (g := fun us => typeExpr us >>= fun p =>
        if check [.doubleColon] p.rest then procedure p.value p.rest >>= fun d =>
          pure ⟨d.value, d.rest, Nat.lt_trans d.shorter p.shorter⟩
        else «global» p.value p.rest >>= fun d =>
          pure ⟨d.value, d.rest, Nat.lt_trans d.shorter p.shorter⟩) (fun us' => ?_) ?_
      · simp only [ht]
      · refine Prompt.bind typeExpr_prompt typeExpr_yields ?_ fun type pre vs _ _ hty => ?_
        · rintro q ⟨ty, hty⟩
          exact .fill [.ident, .colon, .ident]
            ⟨_, .global (.mk hty rfl rfl (.path (.mk rfl .nil)))⟩ (by decide)
        refine Prompt.ite check_congr (fun _ => ?_) fun _ => ?_
        · exact Prompt.map (g := id) (fun _ _ _ _ => ⟨_, rfl⟩) (procedure_prompt hty)
        · exact Prompt.map (g := id) (fun _ _ _ _ => ⟨_, rfl⟩) (global_prompt hty)
    | _ =>
      refine Prompt.unexpected [.struct, .lbracket] (fun us' => ?_) hv
      simp only [ht]

theorem declaration_prompt : Prompt (Formed FormsItem) declaration ts := by
  unfold declaration
  refine Prompt.take (by decide) (.fill [.declare, .struct, .ident, .endBlock]
    ⟨_, .declaration rfl .nil (.record rfl rfl .nil rfl)⟩ (by decide)) fun d us hd _ => ?_
  refine Prompt.bindMay (repeatWhile_prompt_many (E := modifier) _ (fun _ _ _ => rfl) not_check_congr
    (fun us => modifier_yields) fun xs _ => modifier_prompt)
    (repeatWhile_many (fun us _ => modifier_yields) us _) ?_ fun modifiers ms vs _ _ hms => ?_
  · rintro q ⟨ns, hns⟩
    exact .fill [.struct, .ident, .endBlock]
      ⟨_, .declaration hd hns (.record rfl rfl .nil rfl)⟩ (by decide)
  · refine Prompt.map (g := Item.declaration modifiers) (fun _ _ _ _ => ⟨_, rfl⟩)
      (declared_prompt.mono ?_)
    rintro q ⟨n, hn⟩
    exact ⟨_, .declaration hd hms hn⟩

/-- A directive is read promptly. After the dot only a known name leads on, and a name that is not
    known is at fault itself. -/
theorem directive_prompt : Prompt (Formed FormsItem) directive ts := by
  unfold directive
  refine Prompt.take (by decide) (.fill [.declare, .struct, .ident, .endBlock]
    ⟨_, .declaration rfl .nil (.record rfl rfl .nil rfl)⟩ (by decide)) fun d us hd _ => ?_
  have hv : Viable (fun q => Formed FormsItem (d :: q)) [] := by
    refine ⟨[⟨.ident, "module", .start ""⟩, filler .text],
      ⟨_, .directive hd rfl (.inl (by decide +kernel)) rfl⟩, ?_⟩
    simp [filler, Token.unreadable]
  refine Prompt.takeIf
    (c := fun name => Text.isWord "module" name.value || Text.isWord "import" name.value)
    (e := fun name => .invalidDirective name.value name.pos)
    (k := fun us name => expect [.text] name.rest >>= fun a =>
      pure ⟨Item.directive name.value.value a.value.value, a.rest,
        Nat.lt_succ_of_lt (Nat.lt_trans a.shorter name.shorter)⟩)
    (by decide) hv (fun _ => ParseError.noConfusion) (fun _ _ _ => ParseError.noConfusion)
    fun name vs hname hw _ => ?_
  exact Prompt.take (by decide)
    (.fill [.text] ⟨_, .directive hd hname (Bool.or_eq_true_iff.mp hw) rfl⟩ (by decide))
    fun a ws _ _ => Prompt.pure (v := Item.directive name.value a.value)

/-- **An item is read promptly.** -/
theorem item_prompt : Prompt (Formed FormsItem) item ts := by
  have hv : Viable (Formed FormsItem) [] := .fill [.declare, .struct, .ident, .endBlock]
    ⟨_, .declaration rfl .nil (.record rfl rfl .nil rfl)⟩ (by decide)
  cases ts with
  | nil => exact Prompt.nil rfl hv
  | cons t us =>
    unfold item
    cases ht : t.kind with
    | dot =>
      refine Prompt.congr_cons (g := directive) (fun us' => ?_) directive_prompt
      simp only [ht]
    | declare =>
      refine Prompt.congr_cons (g := declaration) (fun us' => ?_) declaration_prompt
      simp only [ht]
    | _ =>
      refine Prompt.unexpected [.dot, .declare, .eof] (fun us' => ?_) hv
      simp only [ht]

end Osclan
