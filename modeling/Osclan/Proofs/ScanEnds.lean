/-
  File:      Osclan/Proofs/ScanEnds.lean
  Subject:   Scans of the grammar come to the end that the readers come to.

  A scan and a reader of the same production are put together in the same way, so the judgement
  that the one follows the other has one rule for each way of putting together. The rounds are used
  in two places only: a loop has a round less for what its element leaves, and a production that is
  entered from inside itself has a round less there. Both stand behind tokens that have been taken,
  so with more rounds than tokens left at the beginning there are always more rounds than tokens.

  * `Follows` -- a scan comes out as a reader does, with the cursor behind what the reader takes;
  * `Follows.bind`, `Follows.take`, `Follows.branch`, `Follows.peek`, … -- the rules;
  * `rounds_follow`, `listed_follows` -- the repetitions;
  * `path_follows`, `value_follows`, `statement_follows`, `field_follows`, … -- the productions;
  * `item_follows` -- the items of a program.
-/
import Osclan.Proofs.CursorScan
import Osclan.Proofs.Reading

namespace Osclan

open Tokens

variable {α γ : Type} {b b' : Nat}

/-! ## 1. Scans that follow a reader -/

namespace Scan

variable {scan : Scan α} {next : α → Scan γ} {c c' : Cursor}

theorem bind_done {v : α} (h : scan c = .done v c') : (scan >>= next) c = next v c' := by
  show (scan c).andThen next = _
  rw [h]
  rfl

theorem bind_refused {e : ParseError} (h : scan c = .refused e) :
    (scan >>= next) c = .refused e := by
  show (scan c).andThen next = _
  rw [h]
  rfl

theorem take_of_mem {taken : Nat} {t : Token} {us : List Token} {kinds : List TokenKind}
    (h : t.kind ∈ kinds) : take kinds ⟨taken, t :: us⟩ = .done t ⟨taken + 1, us⟩ := by
  unfold take Cursor.expectAs
  rw [Tokens.expectAs, if_pos (List.contains_iff_mem.mpr h)]
  rfl

theorem take_of_not_mem {taken : Nat} {t : Token} {us : List Token} {kinds : List TokenKind}
    (h : t.kind ∉ kinds) :
    take kinds ⟨taken, t :: us⟩ = .refused (.unexpectedToken (TokenKind.listText kinds) t) := by
  have hc : ¬ kinds.contains t.kind = true := fun hc => h (List.contains_iff_mem.mp hc)
  unfold take Cursor.expectAs
  rw [Tokens.expectAs, if_neg hc]
  rfl

end Scan

/-- The scan from the cursor comes out as the reader of the tokens left there does, and its cursor
    goes over the tokens that the reader takes. -/
inductive Follows (scan : Scan α) (c : Cursor) : Except ParseError (Parsed α b) → Prop where
  | refused {e : ParseError} : scan c = .refused e → Follows scan c (.error e)
  | done {v : α} {pre rest : List Token} {h : rest.length < b} : c.rest = pre ++ rest →
      scan c = .done v ⟨c.taken + pre.length, rest⟩ → Follows scan c (.ok ⟨v, rest, h⟩)

namespace Follows

variable {scan : Scan α} {next : α → Scan γ} {c : Cursor}

theorem pure {v : α} {h : c.rest.length < b} :
    Follows (Pure.pure v) c (Pure.pure ⟨v, c.rest, h⟩ : Except ParseError (Parsed α b)) :=
  @done _ _ _ _ v [] c.rest h rfl rfl

/-- **Two scans in a row follow two readers in a row.** -/
theorem bind {r : Except ParseError (Parsed α b)}
    {k : Parsed α b → Except ParseError (Parsed γ b')} (hr : Follows scan c r)
    (hk : ∀ v (c' : Cursor) h, Follows (next v) c' (k ⟨v, c'.rest, h⟩)) :
    Follows (scan >>= next) c (r >>= k) := by
  cases hr with
  | refused e => exact .refused (Scan.bind_refused e)
  | @done v pre mid h hcut hs =>
    show Follows (scan >>= next) c (k ⟨v, mid, h⟩)
    have hn : Follows (next v) ⟨c.taken + pre.length, mid⟩ (k ⟨v, mid, h⟩) := hk v ⟨_, mid⟩ h
    generalize k ⟨v, mid, h⟩ = r' at hn
    cases hn with
    | refused e => exact .refused ((Scan.bind_done hs).trans e)
    | @done w post rest h' hcut' hs' =>
      refine @done _ _ _ _ w (pre ++ post) rest h' ?_ ?_
      · rw [hcut, List.append_assoc]
        exact congrArg (pre ++ ·) hcut'
      · rw [Scan.bind_done hs, hs', List.length_append, Nat.add_assoc]

/-- Only what the scan does from this cursor matters. -/
theorem of_eq {scan' : Scan α} {r : Except ParseError (Parsed α b)} (e : scan c = scan' c)
    (h : Follows scan' c r) : Follows scan c r := by
  cases h with
  | refused hs => exact .refused (e.trans hs)
  | done hcut hs => exact .done hcut (e.trans hs)

/-- A reader whose result is handed on with another bound. -/
theorem rebound {r : Except ParseError (Parsed α b)}
    {k : Parsed α b → Except ParseError (Parsed α b')} (hr : Follows scan c r)
    (hk : ∀ v rest h, ∃ h', k ⟨v, rest, h⟩ = .ok ⟨v, rest, h'⟩) : Follows scan c (r >>= k) := by
  cases hr with
  | refused e => exact .refused e
  | @done v pre rest h hcut hs =>
    obtain ⟨h', e⟩ := hk v rest h
    show Follows scan c (k ⟨v, rest, h⟩)
    rw [e]
    exact .done hcut hs

/-- A check that takes no token. -/
theorem lift {x : Except ParseError α} {k : α → Except ParseError (Parsed γ b')}
    (hk : ∀ v, Follows (next v) c (k v)) : Follows (Scan.ofExcept x >>= next) c (x >>= k) := by
  cases x with
  | error e => exact .refused rfl
  | ok v => exact hk v

theorem branch {test : List Token → Bool} {yes no : Scan α}
    {r r' : Except ParseError (Parsed α b)} (hy : test c.rest = true → Follows yes c r)
    (hn : test c.rest = false → Follows no c r') :
    Follows (Scan.branch test yes no) c (if test c.rest then r else r') := by
  by_cases ht : test c.rest = true
  · rw [if_pos ht]
    exact (hy ht).of_eq (if_pos ht)
  · rw [if_neg ht]
    exact (hn (eq_false_of_ne_true ht)).of_eq (if_neg ht)

/-- A token that the reader has seen already. -/
theorem token {taken : Nat} {t : Token} {us : List Token} {kinds : List TokenKind}
    {next : Token → Scan γ} {r : Except ParseError (Parsed γ b')} (ht : t.kind ∈ kinds)
    (hr : Follows (next t) ⟨taken + 1, us⟩ r) :
    Follows (Scan.take kinds >>= next) ⟨taken, t :: us⟩ r := by
  have hs : (Scan.take kinds >>= next) ⟨taken, t :: us⟩ = next t ⟨taken + 1, us⟩ :=
    Scan.bind_done (Scan.take_of_mem ht)
  cases hr with
  | refused e => exact .refused (hs.trans e)
  | @done w pre rest h hcut hs' =>
    refine @done _ _ _ _ w (t :: pre) rest h ?_ ?_
    · exact congrArg (t :: ·) hcut
    · rw [hs, hs', List.length_cons, Nat.add_assoc, Nat.add_comm 1]

/-- A token is taken by both or refused by both. -/
theorem take {kinds : List TokenKind} {next : Token → Scan γ}
    {k : Parsed Token c.rest.length → Except ParseError (Parsed γ b')}
    (hk : ∀ t (c' : Cursor) h, Follows (next t) c' (k ⟨t, c'.rest, h⟩)) :
    Follows (Scan.take kinds >>= next) c (Tokens.expect kinds c.rest >>= k) := by
  obtain ⟨taken, ts⟩ := c
  cases ts with
  | nil => exact .refused rfl
  | cons t us =>
    show Follows _ _ (Tokens.expect kinds (t :: us) >>= k)
    by_cases ht : t.kind ∈ kinds
    · rw [expect_of_mem us ht]
      exact token ht (hk t ⟨_, us⟩ _)
    · rw [expect_of_not_mem us ht]
      exact .refused (Scan.bind_refused (Scan.take_of_not_mem ht))

/-- A look at the next token, where the reader goes by what is left. -/
theorem peek {next : Token → Scan γ} {r : (ts : List Token) → Reads γ ts}
    (hnil : r [] = .error .unexpectedEnd)
    (hcons : ∀ taken t us, c = ⟨taken, t :: us⟩ → Follows (next t) ⟨taken, t :: us⟩ (r (t :: us))) :
    Follows (Scan.peek >>= next) c (r c.rest) := by
  obtain ⟨taken, ts⟩ := c
  cases ts with
  | nil =>
    show Follows _ _ (r [])
    rw [hnil]
    exact .refused rfl
  | cons t us => exact (hcons taken t us rfl).of_eq (Scan.bind_done rfl)

theorem ident {next : String → Scan γ}
    {k : Parsed String c.rest.length → Except ParseError (Parsed γ b')}
    (hk : ∀ v (c' : Cursor) h, Follows (next v) c' (k ⟨v, c'.rest, h⟩)) :
    Follows (Scan.ident >>= next) c (Grammar.ident c.rest >>= k) := by
  refine bind ?_ hk
  exact take fun t c₁ h => pure

theorem number {next : UInt64 → Scan γ}
    {k : Parsed UInt64 c.rest.length → Except ParseError (Parsed γ b')}
    (hk : ∀ v (c' : Cursor) h, Follows (next v) c' (k ⟨v, c'.rest, h⟩)) :
    Follows (Scan.number >>= next) c (Grammar.number c.rest >>= k) := by
  refine bind ?_ hk
  refine take fun t c₁ h => ?_
  show Follows (Scan.ofExcept (Grammar.numberOf t)) c₁ (Grammar.numberOf t >>= fun n => _)
  cases Grammar.numberOf t with
  | error e => exact .refused rfl
  | ok n => exact pure

/-- The two give the same answer, whatever is made of the result. -/
theorem answer {r : Except ParseError (Parsed α b)} {f : α → γ} (h : Follows scan c r) :
    ((scan >>= fun v => Pure.pure (f v)) c).answer? = some (r.map fun p => f p.value) := by
  cases h with
  | refused hs =>
    rw [Scan.bind_refused hs]
    rfl
  | done _ hs =>
    rw [Scan.bind_done hs]
    rfl

end Follows

/-! ## 2. Repetition -/

section

variable {more : List Token → Bool} {bound : Nat}
  {element : (us : List Token) → us.length < bound → Reads α us} {scan : Scan α}
  (he : ∀ (c : Cursor) h, Follows scan c (element c.rest h))

include he

/-- **A loop comes to its end** with more rounds than there are tokens left. -/
theorem rounds_follow {n : Nat} {c : Cursor} (h : c.rest.length < bound) (hn : c.rest.length < n) :
    Follows (Scan.rounds more scan n) c (Grammar.repeatWhile more bound element c.rest h) := by
  induction n generalizing c with
  | zero => exact absurd hn (Nat.not_lt_zero _)
  | succ n ih =>
    rw [Scan.rounds, Grammar.repeatWhile]
    refine Follows.branch (fun _ => ?_) fun _ => Follows.pure
    -- the element has taken a token, so a round less is still more than there are tokens
    refine (he c h).bind fun v c₁ h₁ => ?_
    have hn₁ : c₁.rest.length < n := by omega
    exact (ih (Nat.lt_trans h₁ h) hn₁).bind fun vs c₂ h₂ => Follows.pure

theorem listed_follows {n : Nat} {c : Cursor} (h : c.rest.length < bound)
    (hn : c.rest.length ≤ n) :
    Follows (Scan.listed scan n) c (Grammar.commaList bound element c.rest h) := by
  unfold Scan.listed Grammar.commaList
  refine Follows.branch (fun _ => Follows.pure) fun _ => ?_
  refine (he c h).bind fun v c₁ h₁ => ?_
  refine Follows.bind (rounds_follow (fun c₂ h₂ => ?_) _ (by omega)) fun vs c₂ h₂ => Follows.pure
  refine Follows.take fun t c₃ h₃ => ?_
  exact (he c₃ _).rebound fun _ _ _ => ⟨_, rfl⟩

end

/-! ## 3. Types and paths -/

theorem typeSize_follows (c : Cursor) : Follows Scan.typeSize c (Grammar.typeSize c.rest) := by
  unfold Scan.typeSize Grammar.typeSize
  refine Follows.branch (fun _ => ?_) fun _ => Follows.pure
  refine Follows.take fun l c₁ h₁ => ?_
  refine Follows.number fun size c₂ h₂ => ?_
  exact Follows.take fun r c₃ h₃ => Follows.pure

theorem typeStar_follows (c : Cursor) : Follows Scan.typeStar c (Grammar.typeStar c.rest) := by
  unfold Scan.typeStar Grammar.typeStar
  refine Follows.branch (fun _ => ?_) fun _ => Follows.pure
  exact Follows.take fun t c₁ h₁ => Follows.pure

theorem typeExpr_follows (c : Cursor) : Follows Scan.typeExpr c (Grammar.typeExpr c.rest) := by
  unfold Scan.typeExpr Grammar.typeExpr
  refine Follows.take fun l c₁ h₁ => ?_
  refine Follows.take fun name c₂ h₂ => ?_
  refine (typeSize_follows c₂).bind fun size c₃ h₃ => ?_
  refine (typeStar_follows c₃).bind fun pointer c₄ h₄ => ?_
  exact Follows.take fun r c₅ h₅ => Follows.pure

theorem segmentOffset_follows {c : Cursor} {name : String} {scan : Scan Path}
    {inner : (us : List Token) → us.length < c.rest.length → Reads Path us}
    (hi : ∀ (c' : Cursor) h, Follows scan c' (inner c'.rest h)) :
    Follows (Scan.segmentOffset name scan) c (Grammar.segmentOffset name c.rest inner) := by
  unfold Scan.segmentOffset Grammar.segmentOffset
  refine Follows.branch (fun _ => ?_) fun _ => Follows.pure
  refine Follows.take fun l c₁ h₁ => ?_
  refine Follows.branch (fun _ => ?_) fun _ => Follows.branch (fun _ => ?_) fun _ => ?_
  · refine Follows.number fun offset c₂ h₂ => ?_
    exact Follows.take fun r c₃ h₃ => Follows.pure
  · refine (hi c₁ h₁).bind fun offset c₂ h₂ => ?_
    exact Follows.take fun r c₃ h₃ => Follows.pure
  · obtain ⟨taken, us⟩ := c₁
    cases us with
    | nil => exact .refused rfl
    | cons t us => exact .refused rfl

/-- **A path comes to its end** with more rounds than there are tokens left. -/
theorem path_follows {n : Nat} {c : Cursor} (hn : c.rest.length < n) :
    Follows (Scan.path n) c (Grammar.path c.rest) := by
  induction n generalizing c with
  | zero => exact absurd hn (Nat.not_lt_zero _)
  | succ n ih =>
    rw [Scan.path, Grammar.path]
    refine Follows.ident fun base c₁ h₁ => ?_
    refine Follows.bind (rounds_follow (fun c₂ h₂ => ?_) h₁ (by omega)) fun _ _ _ => Follows.pure
    refine Follows.take fun t c₃ h₃ => ?_
    refine Follows.ident fun name c₄ h₄ => ?_
    -- a path in an offset stands behind the name that the whole path begins with
    have hseg := @segmentOffset_follows c₄ name (Scan.path n) (fun zs _ => Grammar.path zs)
      fun c₅ h₅ => ih (by omega)
    exact hseg.rebound fun _ _ _ => ⟨_, rfl⟩

/-! ## 4. Values -/

section

variable {c : Cursor} {scan : Scan Value} {n : Nat}
  {value : (us : List Token) → us.length < c.rest.length → Reads Value us}
  (hv : ∀ (c' : Cursor) h, Follows scan c' (value c'.rest h))

include hv

theorem call_follows (hn : c.rest.length ≤ n) :
    Follows (Scan.call scan n) c (Grammar.call c.rest value) := by
  unfold Scan.call Grammar.call
  refine Follows.take fun t c₁ h₁ => ?_
  refine Follows.ident fun name c₂ h₂ => ?_
  refine Follows.take fun l c₃ h₃ => ?_
  refine (listed_follows hv _ (by omega)).bind fun args c₄ h₄ => ?_
  exact Follows.take fun r c₅ h₅ => Follows.pure

theorem member_follows : Follows (Scan.member scan) c (Grammar.member c.rest value) := by
  unfold Scan.member Grammar.member
  refine Follows.branch (fun _ => ?_) fun _ => ?_
  · refine Follows.ident fun name c₁ h₁ => ?_
    refine Follows.take fun t c₂ h₂ => ?_
    exact (hv c₂ _).bind fun v c₃ h₃ => Follows.pure
  · exact Follows.ident fun name c₁ h₁ => Follows.pure

theorem anon_follows (hn : c.rest.length ≤ n) :
    Follows (Scan.anon scan n) c (Grammar.anon c.rest value) := by
  unfold Scan.anon Grammar.anon
  refine Follows.take fun d c₁ h₁ => ?_
  refine Follows.take fun a c₂ h₂ => ?_
  refine Follows.bind (rounds_follow (fun c₃ h₃ => ?_) _ (by omega)) fun members c₃ h₃ => ?_
  · exact member_follows fun c₄ h₄ => hv c₄ _
  · exact Follows.take fun e c₄ h₄ => Follows.pure

end

/-- **A value comes to its end** with more rounds than there are tokens left. -/
theorem value_follows {n : Nat} {c : Cursor} (hn : c.rest.length < n) :
    Follows (Scan.value n) c (Grammar.value c.rest) := by
  induction n generalizing c with
  | zero => exact absurd hn (Nat.not_lt_zero _)
  | succ n ih =>
    refine Follows.peek (by rw [Grammar.value]) fun taken t us hc => ?_
    subst hc
    have hle : (t :: us).length ≤ n := Nat.le_of_lt_succ hn
    -- a path is entered where the value begins, a value only behind tokens of this one
    have hv : ∀ (c' : Cursor) (_ : c'.rest.length < (t :: us).length),
        Follows (Scan.value n) c' (Grammar.value c'.rest) := fun c' h =>
      ih (Nat.lt_of_lt_of_le h hle)
    rw [Grammar.value]
    cases hk : t.kind with
    | init =>
      refine Follows.token (List.mem_singleton.mpr hk) ?_
      exact (typeExpr_follows ⟨taken + 1, us⟩).bind fun type c₁ h₁ => Follows.pure
    | number =>
      refine Follows.token (List.mem_singleton.mpr hk) ?_
      exact Follows.lift fun _ => Follows.pure
    | text =>
      refine Follows.token (List.mem_singleton.mpr hk) ?_
      exact Follows.pure
    | ident => exact (path_follows hn).bind fun p c₁ h₁ => Follows.pure
    | asterisk =>
      refine Follows.token (List.mem_singleton.mpr hk) ?_
      exact Follows.ident fun name c₁ h₁ => Follows.pure
    | declare =>
      exact (@anon_follows ⟨taken, t :: us⟩ _ _ _ hv hle).bind fun members c₁ h₁ => Follows.pure
    | call =>
      exact (@call_follows ⟨taken, t :: us⟩ _ _ _ hv hle).bind fun x c₁ h₁ => Follows.pure
    | _ => exact .refused rfl

/-- A call of values has rounds enough for them, since they stand behind its first token. -/
theorem valueCall_follows {n : Nat} {c : Cursor} (hn : c.rest.length < n) :
    Follows (Scan.call (Scan.value n) n) c (Grammar.call c.rest fun us _ => Grammar.value us) :=
  call_follows (fun _ h => value_follows (Nat.lt_trans h hn)) (Nat.le_of_lt hn)

/-! ## 5. Statements and declarations -/

section

variable {c : Cursor} {n : Nat} (hn : c.rest.length < n)

include hn

theorem binding_follows : Follows (Scan.binding n) c (Grammar.binding c.rest) := by
  unfold Scan.binding Grammar.binding
  refine (typeExpr_follows c).bind fun type c₁ h₁ => ?_
  refine Follows.ident fun name c₂ h₂ => ?_
  refine Follows.take fun t c₃ h₃ => ?_
  exact (value_follows (by omega)).bind fun v c₄ h₄ => Follows.pure

theorem statement_follows : Follows (Scan.statement n) c (Grammar.statement c.rest) := by
  unfold Scan.statement
  refine Follows.peek rfl fun taken t us hc => ?_
  subst hc
  have hus : us.length < n := Nat.lt_of_succ_lt hn
  unfold Grammar.statement
  dsimp only
  cases hk : t.kind with
  | declare =>
    refine Follows.token (List.mem_singleton.mpr hk) ?_
    exact (binding_follows hus).bind fun x c₁ h₁ => Follows.pure
  | ident =>
    refine (path_follows hn).bind fun target c₁ h₁ => ?_
    refine Follows.take fun colon c₂ h₂ => ?_
    have hn₂ : c₂.rest.length < n := Nat.lt_trans h₂ (Nat.lt_trans h₁ hn)
    exact (value_follows hn₂).bind fun v c₃ h₃ => Follows.pure
  | ret =>
    refine Follows.token (List.mem_singleton.mpr hk) ?_
    refine Follows.branch (fun _ => ?_) fun _ => ?_
    · exact Follows.pure
    · exact (value_follows hus).bind fun v c₁ h₁ => Follows.pure
  | print =>
    refine Follows.token (List.mem_singleton.mpr hk) ?_
    exact (value_follows hus).bind fun v c₁ h₁ => Follows.pure
  | call => exact (valueCall_follows hn).bind fun x c₁ h₁ => Follows.pure
  | _ => exact .refused rfl

end

/-- **A field comes to its end** with more rounds than there are tokens left. -/
theorem field_follows {n : Nat} {c : Cursor} (hn : c.rest.length < n) :
    Follows (Scan.field n) c (Grammar.field c.rest) := by
  induction n generalizing c with
  | zero => exact absurd hn (Nat.not_lt_zero _)
  | succ n ih =>
    rw [Scan.field, Grammar.field]
    refine (typeExpr_follows c).bind fun type c₁ h₁ => ?_
    refine Follows.ident fun name c₂ h₂ => ?_
    dsimp only
    split
    · refine Follows.take fun t c₃ h₃ => ?_
      refine Follows.bind (rounds_follow (fun c₄ h₄ => ih (by omega)) _ (by omega))
        fun fields c₄ h₄ => ?_
      exact Follows.take fun e c₅ h₅ => Follows.pure
    · exact Follows.pure

theorem param_follows (c : Cursor) : Follows Scan.param c (Grammar.param c.rest) := by
  unfold Scan.param Grammar.param
  refine (typeExpr_follows c).bind fun type c₁ h₁ => ?_
  exact Follows.ident fun name c₂ h₂ => Follows.pure

theorem modifier_follows (c : Cursor) : Follows Scan.modifier c (Grammar.modifier c.rest) := by
  unfold Scan.modifier Grammar.modifier
  exact Follows.take fun t c₁ h₁ => Follows.pure

theorem directive_follows (c : Cursor) : Follows Scan.directive c (Grammar.directive c.rest) := by
  unfold Scan.directive Grammar.directive
  refine Follows.take fun t c₁ h₁ => ?_
  refine Follows.take fun name c₂ h₂ => ?_
  dsimp only
  split
  · exact Follows.take fun argument c₃ h₃ => Follows.pure
  · exact .refused rfl

section

variable {c : Cursor} {n : Nat} (hn : c.rest.length < n)

include hn

theorem record_follows : Follows (Scan.record n) c (Grammar.record c.rest) := by
  unfold Scan.record Grammar.record
  refine Follows.take fun t c₁ h₁ => ?_
  refine Follows.ident fun name c₂ h₂ => ?_
  refine Follows.bind (rounds_follow (fun c₃ h₃ => field_follows (by omega)) _ (by omega))
    fun fields c₃ h₃ => ?_
  exact Follows.take fun e c₄ h₄ => Follows.pure

theorem procedure_follows (returns : TypeExpr) :
    Follows (Scan.procedure returns n) c (Grammar.procedure returns c.rest) := by
  unfold Scan.procedure Grammar.procedure
  refine Follows.take fun t c₁ h₁ => ?_
  refine Follows.ident fun name c₂ h₂ => ?_
  refine Follows.take fun l c₃ h₃ => ?_
  refine (listed_follows (fun c₄ _ => param_follows c₄) _ (by omega)).bind fun params c₄ h₄ => ?_
  refine Follows.take fun r c₅ h₅ => ?_
  refine Follows.bind (rounds_follow (fun c₆ h₆ => statement_follows (by omega)) _ (by omega))
    fun body c₆ h₆ => ?_
  exact Follows.take fun e c₇ h₇ => Follows.pure

theorem global_follows (type : TypeExpr) :
    Follows (Scan.global type n) c (Grammar.global type c.rest) := by
  unfold Scan.global Grammar.global
  refine Follows.ident fun name c₁ h₁ => ?_
  refine Follows.take fun t c₂ h₂ => ?_
  exact (value_follows (by omega)).bind fun v c₃ h₃ => Follows.pure

theorem declared_follows : Follows (Scan.declared n) c (Grammar.declared c.rest) := by
  unfold Scan.declared
  refine Follows.peek rfl fun taken t us hc => ?_
  subst hc
  unfold Grammar.declared
  dsimp only
  cases hk : t.kind with
  | struct => exact record_follows hn
  | lbracket =>
    refine (typeExpr_follows ⟨taken, t :: us⟩).bind fun type c₁ h₁ => ?_
    have hn₁ : c₁.rest.length < n := Nat.lt_trans h₁ hn
    refine Follows.branch (fun _ => ?_) fun _ => ?_
    · exact (procedure_follows hn₁ type).rebound fun _ _ _ => ⟨_, rfl⟩
    · exact (global_follows hn₁ type).rebound fun _ _ _ => ⟨_, rfl⟩
  | _ => exact .refused rfl

theorem declaration_follows : Follows (Scan.declaration n) c (Grammar.declaration c.rest) := by
  unfold Scan.declaration Grammar.declaration
  refine Follows.take fun t c₁ h₁ => ?_
  refine Follows.bind (rounds_follow (fun c₂ _ => modifier_follows c₂) h₁ (by omega))
    fun modifiers c₂ h₂ => ?_
  exact (declared_follows (by omega)).bind fun d c₃ h₃ => Follows.pure

/-- **An item comes to its end** with more rounds than there are tokens left. -/
theorem item_follows : Follows (Scan.item n) c (Grammar.item c.rest) := by
  unfold Scan.item
  refine Follows.peek rfl fun taken t us hc => ?_
  subst hc
  unfold Grammar.item
  dsimp only
  cases hk : t.kind with
  | dot => exact directive_follows ⟨taken, t :: us⟩
  | declare => exact declaration_follows hn
  | _ => exact .refused rfl

end

end Osclan
