/-
  File:      Osclan/Proofs/Promptness.lean
  Subject:   Readers that stop at the first token that cannot be right.

  A reader of tokens decides by the next token. So what it has taken can always be continued to
  something that it would accept, and the token it stops at is the first for which that fails: no
  tokens behind it change the answer. The judgement `Prompt` says both of a reader on given tokens,
  and its rules follow the way readers are put together, as those of `Yields` and `Passes` do.

  The reader stands in the judgement as a function of the tokens, since it is compared with itself on
  other tokens that begin alike.

  * `Viable` -- tokens that can be continued, by tokens that can be taken;
  * `Prompt` -- the judgement: what a reader takes, refuses and lacks;
  * `Prompt.bind`, `Prompt.take`, `Prompt.ite`, … -- the rules;
  * `repeatWhile_prompt`, `commaList_prompt` -- the repetitions.
-/
import Osclan.Proofs.Reading

namespace Osclan

variable {α β γ : Type}

/-! ## 1. Tokens that can be continued -/

/-- Some part of the given sort is made of the tokens. -/
def Formed (P : List Token → β → Prop) (ts : List Token) : Prop := ∃ b, P ts b

/-- The tokens can be continued so that `C` holds of them all. None of them ends the file, and the
    numbers among them denote words. -/
def Viable (C : List Token → Prop) (pre : List Token) : Prop :=
  ∃ more, C (pre ++ more) ∧ ∀ t ∈ pre ++ more, t.unreadable = false ∧ t.kind ≠ .eof

/-- A token of the given kind. Its value is a name or a number, as its kind may need. -/
def filler (kind : TokenKind) : Token := ⟨kind, "0", .start ""⟩

/-- A token of each of the kinds. -/
def fillers (kinds : List TokenKind) : List Token := kinds.map filler

theorem fillers_good {kinds : List TokenKind} (h : .eof ∉ kinds) :
    ∀ t ∈ fillers kinds, t.unreadable = false ∧ t.kind ≠ .eof := by
  intro t ht
  obtain ⟨kind, hk, rfl⟩ := List.mem_map.mp ht
  have hword : (Text.readWord? "0").isNone = false := by decide +kernel
  refine ⟨?_, fun e => h (e ▸ hk)⟩
  rw [Token.unreadable, filler, hword, Bool.and_false]

theorem good_of_kind {t : Token} (h : t.kind ≠ .number ∧ t.kind ≠ .eof) :
    t.unreadable = false ∧ t.kind ≠ .eof := by
  rw [Token.unreadable, beq_false_of_ne h.1, Bool.false_and]
  exact ⟨rfl, h.2⟩

namespace Viable

variable {C C' : List Token → Prop} {pre : List Token}

/-- What the kinds complete can be continued. -/
theorem fill (kinds : List TokenKind) (h : C (fillers kinds)) (hk : .eof ∉ kinds) : Viable C [] :=
  ⟨fillers kinds, h, fillers_good hk⟩

/-- Nothing is missing. -/
theorem done (h : C pre) : Viable (fun more => C (pre ++ more)) [] := by
  refine fill [] ?_ List.not_mem_nil
  rwa [fillers, List.map_nil, List.append_nil]

/-- What is still missing after a part can be put behind its continuation. -/
theorem extend (hc : ∀ q, C q → Viable (fun more => C' (q ++ more)) []) (h : Viable C pre) :
    Viable C' pre := by
  obtain ⟨more, hm, hgood⟩ := h
  obtain ⟨others, ho, hothers⟩ := hc _ hm
  rw [List.nil_append, List.append_assoc] at ho
  refine ⟨more ++ others, ho, ?_⟩
  rw [← List.append_assoc]
  exact List.forall_mem_append.mpr ⟨hgood, hothers⟩

theorem mono (hc : ∀ q, C q → C' q) (h : Viable C pre) : Viable C' pre := by
  obtain ⟨more, hm, hgood⟩ := h
  exact ⟨more, hc _ hm, hgood⟩

/-- Tokens that have been taken stand in front. -/
theorem append {front : List Token} (hf : ∀ t ∈ front, t.unreadable = false ∧ t.kind ≠ .eof)
    (h : Viable (fun q => C (front ++ q)) pre) : Viable C (front ++ pre) := by
  obtain ⟨more, hm, hgood⟩ := h
  refine ⟨more, ?_, ?_⟩
  · rw [List.append_assoc]
    exact hm
  · rw [List.append_assoc]
    exact List.forall_mem_append.mpr ⟨hf, hgood⟩

end Viable

/-! ## 2. The judgement -/

/-- **The reader is prompt on the tokens.** What it gives depends on the tokens it takes and on the
    next one alone. Where it refuses, some token is at fault: all tokens that begin alike up to that
    one are refused alike, and if it is an unexpected token, those before it can be continued to
    tokens with `C`. Where tokens are lacking, all of them can be continued in this way. -/
structure Prompt {b : List Token → Nat} (C : List Token → Prop)
    (f : (us : List Token) → Except ParseError (Parsed α (b us))) (ts : List Token) : Prop where
  taken : ∀ v rest h, f ts = .ok ⟨v, rest, h⟩ → ∃ pre, ts = pre ++ rest ∧
    ∀ rest', rest'.head? = rest.head? → ∃ h', f (pre ++ rest') = .ok ⟨v, rest', h'⟩
  refused : ∀ e, f ts = .error e → e ≠ .unexpectedEnd → ∃ pre t post, ts = pre ++ t :: post ∧
    (∀ u ∈ pre, u.kind ≠ .eof) ∧ (∀ post', f (pre ++ t :: post') = .error e) ∧
    ∀ expected found, e = .unexpectedToken expected found → found = t ∧ Viable C pre
  ended : f ts = .error .unexpectedEnd → (∀ t ∈ ts, t.kind ≠ .eof) ∧ Viable C ts

theorem head?_append_of_head? {pre rest rest' : List Token} (h : rest'.head? = rest.head?) :
    (pre ++ rest').head? = (pre ++ rest).head? := by
  rw [List.head?_append, List.head?_append, h]

theorem head?_append_cons (pre : List Token) (t : Token) (post post' : List Token) :
    (pre ++ t :: post').head? = (pre ++ t :: post).head? :=
  head?_append_of_head? rfl

namespace Prompt

section

variable {b : List Token → Nat} {C C' : List Token → Prop} {ts : List Token}
  {f g : (us : List Token) → Except ParseError (Parsed α (b us))}

theorem mono (hc : ∀ q, C q → C' q) (h : Prompt C f ts) : Prompt C' f ts := by
  refine ⟨h.taken, fun e he hne => ?_, fun he => ?_⟩
  · obtain ⟨pre, t, post, hcut, hpre, hsame, hfound⟩ := h.refused e he hne
    refine ⟨pre, t, post, hcut, hpre, hsame, fun expected found e => ?_⟩
    obtain ⟨hf, hv⟩ := hfound expected found e
    exact ⟨hf, hv.mono hc⟩
  · obtain ⟨hend, hv⟩ := h.ended he
    exact ⟨hend, hv.mono hc⟩

/-- Only tokens that begin alike count. -/
theorem congr (hfg : ∀ us, us.head? = ts.head? → f us = g us) (h : Prompt C g ts) :
    Prompt C f ts := by
  have hts : f ts = g ts := hfg ts rfl
  refine ⟨fun v rest hlt e => ?_, fun e he hne => ?_, fun he => ?_⟩
  · obtain ⟨pre, rfl, hsame⟩ := h.taken v rest hlt (hts ▸ e)
    refine ⟨pre, rfl, fun rest' hr => ?_⟩
    rw [hfg _ (head?_append_of_head? hr)]
    exact hsame rest' hr
  · obtain ⟨pre, t, post, rfl, hpre, hsame, hfound⟩ := h.refused e (hts ▸ he) hne
    refine ⟨pre, t, post, rfl, hpre, fun post' => ?_, hfound⟩
    rw [hfg _ (head?_append_cons pre t post post')]
    exact hsame post'
  · exact h.ended (hts ▸ he)

theorem pure {v : α} {h : ∀ us : List Token, us.length < b us} :
    Prompt C (fun us => (Pure.pure ⟨v, us, h us⟩ : Except ParseError (Parsed α (b us)))) ts := by
  refine ⟨fun w rest hlt e => ?_, fun e he => ?_, fun he => ?_⟩
  · cases e
    exact ⟨[], rfl, fun rest' _ => ⟨h rest', rfl⟩⟩
  · cases he
  · cases he

/-- No token is left. -/
theorem nil (hf : f [] = .error .unexpectedEnd) (hv : Viable C []) : Prompt C f [] := by
  refine ⟨fun v rest hlt e => ?_, fun e he hne => ?_, fun _ => ?_⟩
  · rw [hf] at e
    cases e
  · rw [hf] at he
    exact absurd (Except.error.inj he).symm hne
  · exact ⟨fun t ht => absurd ht List.not_mem_nil, hv⟩

/-- The first token is at fault. -/
theorem fault {t : Token} {us : List Token} {e : ParseError} (hne : e ≠ .unexpectedEnd)
    (hf : ∀ us', f (t :: us') = .error e)
    (hfound : ∀ expected found, e = .unexpectedToken expected found → found = t ∧ Viable C []) :
    Prompt C f (t :: us) := by
  refine ⟨fun v rest hlt e' => ?_, fun e' he' _ => ?_, fun he' => ?_⟩
  · rw [hf] at e'
    cases e'
  · rw [hf] at he'
    obtain rfl := Except.error.inj he'
    exact ⟨[], t, us, rfl, fun u hu => absurd hu List.not_mem_nil, hf, hfound⟩
  · rw [hf] at he'
    exact absurd (Except.error.inj he') hne

theorem unexpected {t : Token} {us : List Token} (kinds : List TokenKind)
    (hf : ∀ us', f (t :: us') = Grammar.unexpected kinds t) (hv : Viable C []) :
    Prompt C f (t :: us) := by
  refine fault ParseError.noConfusion hf fun expected found e => ?_
  cases e
  exact ⟨rfl, hv⟩

/-- The first token is taken, and the reader goes on behind it. -/
theorem cons {t : Token} {us : List Token} (ht : t.unreadable = false ∧ t.kind ≠ .eof)
    (h : Prompt (fun q => C (t :: q)) (fun us => f (t :: us)) us) : Prompt C f (t :: us) := by
  have ht' : ∀ u ∈ [t], u.unreadable = false ∧ u.kind ≠ .eof := List.forall_mem_singleton.mpr ht
  refine ⟨fun v rest hlt e => ?_, fun e he hne => ?_, fun he => ?_⟩
  · obtain ⟨pre, rfl, hsame⟩ := h.taken v rest hlt e
    exact ⟨t :: pre, rfl, hsame⟩
  · obtain ⟨pre, u, post, rfl, hpre, hsame, hfound⟩ := h.refused e he hne
    refine ⟨t :: pre, u, post, rfl, List.forall_mem_cons.mpr ⟨ht.2, hpre⟩, hsame, ?_⟩
    intro expected found e
    obtain ⟨hf, hv⟩ := hfound expected found e
    exact ⟨hf, @Viable.append C pre [t] ht' hv⟩
  · obtain ⟨hend, hv⟩ := h.ended he
    exact ⟨List.forall_mem_cons.mpr ⟨ht.2, hend⟩, @Viable.append C us [t] ht' hv⟩

/-- Tokens that begin with the same one are read alike. -/
theorem congr_cons {t : Token} {us : List Token} (hfg : ∀ us', f (t :: us') = g (t :: us'))
    (h : Prompt C g (t :: us)) : Prompt C f (t :: us) := by
  refine h.congr fun us' hu => ?_
  cases us' with
  | nil => cases hu
  | cons t' us' =>
    obtain rfl : t' = t := Option.some.inj hu
    exact hfg us'

/-- The first token, of a kind that is neither a number nor the end, is taken. -/
theorem token {t : Token} {us : List Token} {kind : TokenKind}
    {g : (us : List Token) → Except ParseError (Parsed α (b (t :: us)))} (ht : t.kind = kind)
    (hn : kind ≠ .number ∧ kind ≠ .eof) (hf : ∀ us', f (t :: us') = g us')
    (h : Prompt (fun q => C (t :: q)) g us) : Prompt C f (t :: us) :=
  cons (good_of_kind (ht ▸ hn)) (h.congr fun us' _ => hf us')

/-- The first token is a number. It is taken if it denotes a word, and is at fault if not. -/
theorem numeral {t : Token} {us : List Token}
    {g : (us : List Token) → Except ParseError (Parsed α (b (t :: us)))} (ht : t.kind = .number)
    (hf : ∀ us', f (t :: us') =
      if t.unreadable then .error (.invalidNumber t.value t.pos) else g us')
    (h : Prompt (fun q => C (t :: q)) g us) : Prompt C f (t :: us) := by
  cases hu : t.unreadable with
  | true =>
    refine fault (e := .invalidNumber t.value t.pos) ParseError.noConfusion (fun us' => ?_)
      fun _ _ e => ParseError.noConfusion e
    rw [hf, if_pos hu]
  | false =>
    have hgood : t.unreadable = false ∧ t.kind ≠ .eof := ⟨hu, ht ▸ TokenKind.noConfusion⟩
    refine cons hgood (h.congr fun us' _ => ?_)
    rw [hf, if_neg (ne_true_of_eq_false hu)]

/-- The next token decides between two readers. -/
theorem ite {c : List Token → Bool}
    (hc : ∀ us us' : List Token, us.head? = us'.head? → c us = c us')
    (ht : c ts = true → Prompt C f ts) (hf : c ts = false → Prompt C g ts) :
    Prompt C (fun us => if c us then f us else g us) ts := by
  cases h : c ts with
  | true => exact (ht h).congr fun us hu => if_pos ((hc us ts hu).trans h)
  | false => exact (hf h).congr fun us hu => if_neg (ne_true_of_eq_false ((hc us ts hu).trans h))

end

/-! ## 3. Readers in a row -/

section

variable {b b₁ : List Token → Nat} {C C₁ : List Token → Prop} {ts pre mid : List Token}
  {P : α → List Token → List Token → Prop}

/-- The first of two readers fails. -/
theorem bind_of_error {R : (us : List Token) → Except ParseError (Parsed α (b₁ us))}
    {k : (us : List Token) → Parsed α (b₁ us) → Except ParseError (Parsed γ (b us))}
    {e : ParseError} (hr : Prompt C₁ R ts) (hrun : R ts = .error e)
    (hv : ∀ pre, Viable C₁ pre → Viable C pre) : Prompt C (fun us => R us >>= k us) ts := by
  have hstop : ∀ us e', R us = .error e' → (R us >>= k us) = .error e' := by
    intro us e' h
    rw [h]
    rfl
  have hfail := hstop ts e hrun
  refine ⟨fun v rest hlt e' => ?_, fun e' he' hne => ?_, fun he' => ?_⟩
  · rw [hfail] at e'
    cases e'
  · rw [hfail] at he'
    obtain rfl := Except.error.inj he'
    obtain ⟨pre, t, post, hcut, hpre, hsame, hfound⟩ := hr.refused e hrun hne
    refine ⟨pre, t, post, hcut, hpre, fun post' => hstop _ e (hsame post'), ?_⟩
    intro expected found e'
    obtain ⟨hf, hviable⟩ := hfound expected found e'
    exact ⟨hf, hv pre hviable⟩
  · rw [hfail] at he'
    rw [Except.error.inj he'] at hrun
    obtain ⟨hend, hviable⟩ := hr.ended hrun
    exact ⟨hend, hv ts hviable⟩

/-- The first of two readers takes `pre`, and takes it before all that begins like `mid`. -/
theorem bind_of_ok {R : (us : List Token) → Except ParseError (Parsed α (b₁ us))}
    {k : (us : List Token) → Parsed α (b₁ us) → Except ParseError (Parsed γ (b us))}
    {g : (us : List Token) → Except ParseError (Parsed γ (b (pre ++ us)))}
    (hgood : ∀ t ∈ pre, t.unreadable = false ∧ t.kind ≠ .eof)
    (hrest : ∀ us : List Token, us.head? = mid.head? → (R (pre ++ us) >>= k (pre ++ us)) = g us)
    (hg : Prompt (fun q => C (pre ++ q)) g mid) :
    Prompt C (fun us => R us >>= k us) (pre ++ mid) := by
  have hnoEof : ∀ t ∈ pre, t.kind ≠ .eof := fun t ht => (hgood t ht).2
  refine ⟨fun w rest hlt e => ?_, fun e he hne => ?_, fun he => ?_⟩
  · rw [hrest mid rfl] at e
    obtain ⟨post, rfl, hsame⟩ := hg.taken w rest hlt e
    refine ⟨pre ++ post, (List.append_assoc _ _ _).symm, fun rest' hr => ?_⟩
    rw [List.append_assoc]
    show ∃ h', (R _ >>= k _) = _
    rw [hrest _ (head?_append_of_head? hr)]
    exact hsame rest' hr
  · rw [hrest mid rfl] at he
    obtain ⟨post, t, more, rfl, hpost, hsame, hfound⟩ := hg.refused e he hne
    refine ⟨pre ++ post, t, more, (List.append_assoc _ _ _).symm,
      List.forall_mem_append.mpr ⟨hnoEof, hpost⟩, fun more' => ?_, fun expected found e' => ?_⟩
    · rw [List.append_assoc]
      show (R _ >>= k _) = _
      rw [hrest _ (head?_append_cons post t more more')]
      exact hsame more'
    · obtain ⟨hf, hv⟩ := hfound expected found e'
      exact ⟨hf, hv.append hgood⟩
  · rw [hrest mid rfl] at he
    obtain ⟨hend, hv⟩ := hg.ended he
    exact ⟨List.forall_mem_append.mpr ⟨hnoEof, hend⟩, hv.append hgood⟩

/-- **Two readers in a row,** where what the first can be continued to can itself be continued. -/
theorem bindAt {R : (us : List Token) → Except ParseError (Parsed α (b₁ us))}
    {k : (us : List Token) → Parsed α (b₁ us) → Except ParseError (Parsed γ (b us))}
    (hb : ∀ pre mid : List Token, mid.length < b₁ (pre ++ mid) →
      ∀ us : List Token, us.length < b₁ (pre ++ us))
    (hr : Prompt C₁ R ts) (hy : Yields ts P (R ts))
    (hfin : ∀ q, C₁ q → Viable (fun more => C (q ++ more)) [])
    (hk : ∀ v pre mid (hlt : ∀ us : List Token, us.length < b₁ (pre ++ us)), ts = pre ++ mid →
      P v pre mid → Prompt (fun q => C (pre ++ q))
        (fun us => k (pre ++ us) ⟨v, us, hlt us⟩) mid) :
    Prompt C (fun us => R us >>= k us) ts := by
  cases hrun : R ts with
  | error e => exact bind_of_error hr hrun fun pre hv => hv.extend hfin
  | ok p =>
    obtain ⟨v, mid, hmid⟩ := p
    obtain ⟨pre, hcut, hp, hgood⟩ := hy v mid hmid hrun
    obtain ⟨pre', hcut', hsame⟩ := hr.taken v mid hmid hrun
    obtain rfl : pre' = pre := List.append_cancel_right (hcut'.symm.trans hcut)
    have hlt : ∀ us : List Token, us.length < b₁ (pre' ++ us) := hb pre' mid (hcut ▸ hmid)
    have hgo := hk v pre' mid hlt hcut hp
    subst hcut
    refine bind_of_ok hgood (fun us hu => ?_) hgo
    obtain ⟨_, h'⟩ := hsame us hu
    rw [h']
    rfl

/-- After a reader that takes a token at least. -/
theorem bind {R : (us : List Token) → Reads α us}
    {k : (us : List Token) → Parsed α us.length → Except ParseError (Parsed γ (b us))}
    (hr : Prompt C₁ R ts) (hy : Yields ts P (R ts))
    (hfin : ∀ q, C₁ q → Viable (fun more => C (q ++ more)) [])
    (hk : ∀ v pre mid (hlt : ∀ us : List Token, us.length < (pre ++ us).length), ts = pre ++ mid →
      P v pre mid → Prompt (fun q => C (pre ++ q))
        (fun us => k (pre ++ us) ⟨v, us, hlt us⟩) mid) :
    Prompt C (fun us => R us >>= k us) ts := by
  refine bindAt (fun pre mid h us => ?_) hr hy hfin hk
  simp only [List.length_append] at h ⊢
  omega

/-- After a reader that may take no token. -/
theorem bindMay {R : (us : List Token) → MayRead α us}
    {k : (us : List Token) → Parsed α (us.length + 1) → Except ParseError (Parsed γ (b us))}
    (hr : Prompt C₁ R ts) (hy : Yields ts P (R ts))
    (hfin : ∀ q, C₁ q → Viable (fun more => C (q ++ more)) [])
    (hk : ∀ v pre mid (hlt : ∀ us : List Token, us.length < (pre ++ us).length + 1),
      ts = pre ++ mid → P v pre mid → Prompt (fun q => C (pre ++ q))
        (fun us => k (pre ++ us) ⟨v, us, hlt us⟩) mid) :
    Prompt C (fun us => R us >>= k us) ts := by
  refine bindAt (fun pre mid h us => ?_) hr hy hfin hk
  simp only [List.length_append]
  omega

/-- What a reader gives is turned into something else. -/
theorem map {R : (us : List Token) → Except ParseError (Parsed α (b₁ us))}
    {k : (us : List Token) → Parsed α (b₁ us) → Except ParseError (Parsed γ (b us))} {g : α → γ}
    (hk : ∀ us v mid h, ∃ h', k us ⟨v, mid, h⟩ = Pure.pure ⟨g v, mid, h'⟩)
    (hr : Prompt C R ts) : Prompt C (fun us => R us >>= k us) ts := by
  cases hrun : R ts with
  | error e => exact bind_of_error hr hrun fun _ hv => hv
  | ok p =>
    obtain ⟨v, mid, hmid⟩ := p
    have hgo : ∀ us mid h, R us = .ok ⟨v, mid, h⟩ →
        ∃ h', (R us >>= k us) = .ok ⟨g v, mid, h'⟩ := by
      intro us mid h e
      obtain ⟨h', ek⟩ := hk us v mid h
      refine ⟨h', ?_⟩
      rw [e]
      exact ek
    obtain ⟨h', hgo'⟩ := hgo ts mid hmid hrun
    refine ⟨fun w rest hlt e => ?_, fun e he => ?_, fun he => ?_⟩
    · rw [hgo'] at e
      cases e
      obtain ⟨pre, hcut, hsame⟩ := hr.taken v mid hmid hrun
      refine ⟨pre, hcut, fun rest' hrest => ?_⟩
      obtain ⟨h'', e''⟩ := hsame rest' hrest
      exact hgo _ _ h'' e''
    · rw [hgo'] at he
      cases he
    · rw [hgo'] at he
      cases he

/-! ## 4. Single tokens -/

/-- A wanted token is taken, any other is at fault. -/
theorem expect {kinds : List TokenKind}
    {k : (us : List Token) → Parsed Token us.length → Except ParseError (Parsed γ (b us))}
    (hn : .number ∉ kinds ∧ .eof ∉ kinds) (hv : Viable C [])
    (hk : ∀ t us, t.kind ∈ kinds → ts = t :: us → Prompt (fun q => C (t :: q))
      (fun us => k (t :: us) ⟨t, us, Nat.lt_succ_self _⟩) us) :
    Prompt C (fun us => Tokens.expect kinds us >>= k us) ts := by
  cases ts with
  | nil => exact nil rfl hv
  | cons t us =>
    by_cases ht : t.kind ∈ kinds
    · have hgood := @good_of_kind t ⟨fun e => hn.1 (e ▸ ht), fun e => hn.2 (e ▸ ht)⟩
      refine cons hgood ((hk t us ht rfl).congr fun us' _ => ?_)
      rw [expect_of_mem us' ht]
      rfl
    · refine unexpected kinds (fun us' => ?_) hv
      rw [expect_of_not_mem us' ht]
      rfl

theorem take {kind : TokenKind}
    {k : (us : List Token) → Parsed Token us.length → Except ParseError (Parsed γ (b us))}
    (hn : kind ≠ .number ∧ kind ≠ .eof) (hv : Viable C [])
    (hk : ∀ t us, t.kind = kind → ts = t :: us → Prompt (fun q => C (t :: q))
      (fun us => k (t :: us) ⟨t, us, Nat.lt_succ_self _⟩) us) :
    Prompt C (fun us => Tokens.expect [kind] us >>= k us) ts := by
  refine expect ⟨?_, ?_⟩ hv fun t us ht => hk t us (List.mem_singleton.mp ht)
  · exact fun h => hn.1 (List.mem_singleton.mp h).symm
  · exact fun h => hn.2 (List.mem_singleton.mp h).symm

/-- A wanted token is taken if it passes a further test, and is at fault itself if not. -/
theorem takeIf {kind : TokenKind} {c : Token → Bool} {e : Token → ParseError}
    {k : (us : List Token) → Parsed Token us.length → Except ParseError (Parsed γ (b us))}
    (hn : kind ≠ .number ∧ kind ≠ .eof) (hv : Viable C []) (hend : ∀ t, e t ≠ .unexpectedEnd)
    (hfound : ∀ t expected found, e t ≠ .unexpectedToken expected found)
    (hk : ∀ t us, t.kind = kind → c t = true → ts = t :: us → Prompt (fun q => C (t :: q))
      (fun us => k (t :: us) ⟨t, us, Nat.lt_succ_self _⟩) us) :
    Prompt C (fun us => Tokens.expect [kind] us >>= fun p =>
      if c p.value then k us p else .error (e p.value)) ts := by
  cases ts with
  | nil => exact nil rfl hv
  | cons t us =>
    have hopen : ∀ us', t.kind = kind → Tokens.expect [kind] (t :: us') =
        .ok ⟨t, us', Nat.lt_succ_self _⟩ :=
      fun us' ht => expect_of_mem us' (List.mem_singleton.mpr ht)
    by_cases ht : t.kind = kind ∧ c t = false
    · refine fault (e := e t) (hend t) (fun us' => ?_) fun _ _ h => absurd h (hfound t _ _)
      rw [hopen us' ht.1]
      exact if_neg (ne_true_of_eq_false ht.2)
    · refine (take hn hv fun t' us' ht' hts => ?_ :
        Prompt C (fun us => Tokens.expect [kind] us >>= k us) (t :: us)).congr_cons fun us' => ?_
      · obtain ⟨rfl, rfl⟩ := List.cons.inj hts
        exact hk t us ht' (eq_true_of_ne_false fun hc => ht ⟨ht', hc⟩) rfl
      · by_cases hkind : t.kind = kind
        · rw [hopen us' hkind]
          exact if_pos (eq_true_of_ne_false fun hc => ht ⟨hkind, hc⟩)
        · rw [expect_of_not_mem us' (mt List.mem_singleton.mp hkind)]
          rfl

theorem ident {k : (us : List Token) → Parsed String us.length → Except ParseError (Parsed γ (b us))}
    (hv : Viable C [])
    (hk : ∀ t us, t.kind = .ident → ts = t :: us → Prompt (fun q => C (t :: q))
      (fun us => k (t :: us) ⟨t.value, us, Nat.lt_succ_self _⟩) us) :
    Prompt C (fun us => Grammar.ident us >>= k us) ts := by
  have h := @take γ b C ts .ident (fun us p => k us ⟨p.value.value, p.rest, p.shorter⟩) (by decide)
    hv hk
  refine h.congr fun us _ => ?_
  unfold Grammar.ident
  cases Tokens.expect [.ident] us <;> rfl

theorem number {k : (us : List Token) → Parsed UInt64 us.length → Except ParseError (Parsed γ (b us))}
    (hv : Viable C [])
    (hk : ∀ t us, t.kind = .number → ts = t :: us → Prompt (fun q => C (t :: q))
      (fun us => k (t :: us) ⟨t.word, us, Nat.lt_succ_self _⟩) us) :
    Prompt C (fun us => Grammar.number us >>= k us) ts := by
  cases ts with
  | nil => exact nil rfl hv
  | cons t us =>
    by_cases ht : t.kind = .number
    · refine numeral ht (fun us' => ?_) (hk t us ht rfl)
      rw [number_of_kind us' ht]
      split <;> rfl
    · refine unexpected [.number] (fun us' => ?_) hv
      rw [Grammar.number, expect_of_not_mem us' (mt List.mem_singleton.mp ht)]
      rfl

end

end Prompt

theorem check_congr {kinds : List TokenKind} (us us' : List Token) (h : us.head? = us'.head?) :
    Tokens.check kinds us = Tokens.check kinds us' := by
  rw [Tokens.check, Tokens.check, h]

theorem not_check_congr {kinds : List TokenKind} (us us' : List Token) (h : us.head? = us'.head?) :
    (!Tokens.check kinds us) = !Tokens.check kinds us' := by
  rw [check_congr us us' h]

/-! ## 5. Repetition -/

section

variable {more : List Token → Bool} {E : (us : List Token) → Reads α us}
  {P : α → List Token → List Token → Prop} {C D : List Token → Prop}

/-- Where the test fails, a repetition takes nothing. -/
theorem repeatWhile_prompt_stop {ts : List Token} {bound : List Token → Nat}
    {element : (ts us : List Token) → us.length < bound ts → Reads α us}
    (h : ∀ us, us.length < bound us)
    (hm : ∀ us us' : List Token, us.head? = us'.head? → more us = more us')
    (hstop : more ts = false) :
    Prompt D (fun us => Grammar.repeatWhile more (bound us) (element us) us (h us)) ts := by
  refine Prompt.congr (fun us hu => ?_)
    (Prompt.pure (v := []) (h := fun us : List Token => Nat.lt_succ_self us.length))
  rw [Grammar.repeatWhile, if_neg (ne_true_of_eq_false ((hm us ts hu).trans hstop))]

/-- **A repetition is prompt if its elements are,** and its test looks at the next token alone. `D`
    holds of what an element can be continued to, and of that behind other elements. -/
theorem repeatWhile_prompt {ts : List Token} {bound : List Token → Nat}
    {element : (ts us : List Token) → us.length < bound ts → Reads α us}
    (h : ∀ us, us.length < bound us)
    (he : ∀ ts us hu, element ts us hu = E us)
    (hm : ∀ us us' : List Token, us.head? = us'.head? → more us = more us')
    (hy : ∀ us, Yields us P (E us))
    (hp : ∀ us : List Token, us.length ≤ ts.length → Prompt C E us) (hC : ∀ q, C q → D q)
    (hD : ∀ v pre mid q, P v pre mid → more mid = true → D q → D (pre ++ q)) :
    Prompt D (fun us => Grammar.repeatWhile more (bound us) (element us) us (h us)) ts := by
  cases hmore : more ts with
  | false => exact repeatWhile_prompt_stop h hm hmore
  | true =>
    have hopen : ∀ us : List Token, us.head? = ts.head? →
        Grammar.repeatWhile more (bound us) (element us) us (h us) = E us >>= fun p =>
          Grammar.repeatWhile more (bound us) (element us) p.rest
              (Nat.lt_trans p.shorter (h us)) >>= fun q => Pure.pure ⟨p.value :: q.value, q.rest,
            Nat.lt_of_lt_of_le q.shorter (Nat.le_succ_of_le p.shorter)⟩ := by
      intro us hu
      rw [Grammar.repeatWhile, if_pos ((hm us ts hu).trans hmore), he]
    refine Prompt.congr hopen (Prompt.bind (hp ts (Nat.le_refl _)) (hy ts)
      (fun q hq => .done (hC q hq)) fun v pre mid hlt hcut hpre => ?_)
    refine Prompt.map (g := (v :: ·)) (fun _ _ _ _ => ⟨_, rfl⟩) ?_
    have hlen : mid.length < ts.length := hcut ▸ hlt mid
    cases hnext : more mid with
    | false => exact repeatWhile_prompt_stop _ hm hnext
    | true =>
      refine Prompt.mono (fun q hq => hD v pre mid q hpre hnext hq) ?_
      exact repeatWhile_prompt _ (fun us => he (pre ++ us)) hm hy (fun us hus => hp us (by omega))
        hC hD
termination_by ts.length

variable {Q : List Token → β → Prop} {f : α → β}

theorem Formed.many {q : List Token} (h : Formed Q q) : Formed (Many Q) q := by
  obtain ⟨b, hb⟩ := h
  have hq : Many Q (q ++ []) [b] := .cons hb .nil
  rw [List.append_nil] at hq
  exact ⟨_, hq⟩

/-- What is read again and again may be any number of parts. -/
theorem repeatWhile_prompt_many {ts : List Token} {bound : List Token → Nat}
    {element : (ts us : List Token) → us.length < bound ts → Reads α us}
    (h : ∀ us, us.length < bound us) (he : ∀ ts us hu, element ts us hu = E us)
    (hm : ∀ us us' : List Token, us.head? = us'.head? → more us = more us')
    (hy : ∀ us, Yields us (fun v pre _ => Q pre (f v)) (E us))
    (hp : ∀ us : List Token, us.length ≤ ts.length → Prompt (Formed Q) E us) :
    Prompt (Formed (Many Q))
      (fun us => Grammar.repeatWhile more (bound us) (element us) us (h us)) ts := by
  refine repeatWhile_prompt h he hm hy hp (fun _ hq => hq.many) ?_
  rintro v pre mid q hv - ⟨bs, hbs⟩
  exact ⟨_, .cons hv hbs⟩

/-- A comma, and a part. -/
def afterComma (E : (us : List Token) → Reads α us) (ts : List Token) : Reads α ts :=
  Tokens.expect [.comma] ts >>= fun p => E p.rest >>= fun q =>
    Pure.pure ⟨q.value, q.rest, Nat.lt_trans q.shorter p.shorter⟩

theorem afterComma_yields (hy : ∀ us, Yields us (fun v pre _ => Q pre (f v)) (E us))
    (ts : List Token) : Yields ts (fun v pre _ => AfterComma Q pre (f v)) (afterComma E ts) := by
  refine Yields.take (by decide) fun c us _ hc => (hy us).bind fun v vs _ pre _ hp => Yields.pure ?_
  rw [List.append_nil]
  exact .mk hc hp

theorem afterComma_prompt {ts : List Token} {kinds : List TokenKind} (hk : .eof ∉ kinds)
    (hq : Formed Q (fillers kinds))
    (hp : ∀ us : List Token, us.length ≤ ts.length → Prompt (Formed Q) E us) :
    Prompt (Formed (AfterComma Q)) (afterComma E) ts := by
  have hv : Viable (Formed (AfterComma Q)) [] := by
    obtain ⟨b, hb⟩ := hq
    refine .fill (.comma :: kinds) ⟨b, .mk rfl hb⟩ ?_
    exact List.not_mem_cons_of_ne_of_not_mem TokenKind.noConfusion hk
  refine Prompt.take (by decide) hv fun c us hc hts => ?_
  refine Prompt.map (g := id) (fun _ _ _ _ => ⟨_, rfl⟩) ?_
  refine (hp us ?_).mono ?_
  · rw [hts]
    exact Nat.le_succ _
  · rintro q ⟨b, hb⟩
    exact ⟨b, .mk hc hb⟩

/-- **A list between commas is prompt if its elements are.** `kinds` form one element. -/
theorem commaList_prompt {ts : List Token} {bound : List Token → Nat}
    {element : (ts us : List Token) → us.length < bound ts → Reads α us}
    (h : ∀ us, us.length < bound us) (he : ∀ ts us hu, element ts us hu = E us)
    (hy : ∀ us, Yields us (fun v pre _ => Q pre (f v)) (E us))
    (hp : ∀ us : List Token, us.length ≤ ts.length → Prompt (Formed Q) E us)
    {kinds : List TokenKind} (hk : .eof ∉ kinds) (hq : Formed Q (fillers kinds)) :
    Prompt (Formed (Listed Q))
      (fun us => Grammar.commaList (bound us) (element us) us (h us)) ts := by
  unfold Grammar.commaList
  refine Prompt.ite check_congr (fun _ => Prompt.pure) fun _ => ?_
  refine Prompt.congr (fun us _ => by rw [he]) ?_
  refine Prompt.bind (hp ts (Nat.le_refl _)) (hy ts) ?_ fun v pre mid hlt hcut hpre => ?_
  · rintro q ⟨b, hb⟩
    have hl : Listed Q (q ++ []) [b] := .cons hb .nil
    rw [List.append_nil] at hl
    exact .done ⟨_, hl⟩
  · refine Prompt.map (g := (v :: ·)) (fun _ _ _ _ => ⟨_, rfl⟩) ?_
    have hlen : mid.length < ts.length := hcut ▸ hlt mid
    refine Prompt.mono (C := Formed (Many (AfterComma Q))) (fun q hm => ?_) ?_
    · obtain ⟨bs, hbs⟩ := hm
      exact ⟨_, .cons hpre hbs⟩
    · refine repeatWhile_prompt_many (E := afterComma E) _ (fun us vs hv => ?_) check_congr
        (afterComma_yields hy) fun us hus => afterComma_prompt hk hq fun vs hvs => hp vs (by omega)
      simp only [he]
      rfl

end

end Osclan
