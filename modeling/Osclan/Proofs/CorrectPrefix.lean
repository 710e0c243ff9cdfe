/-
  File:      Osclan/Proofs/CorrectPrefix.lean
  Subject:   Where reading stops.

  A program is read item by item up to the end token, and every item is read promptly. So the token
  that is reported is the first one that no program has at this place: the tokens before it can be
  continued to a program, and nothing behind it could have helped. Tokens run out only where they
  can still be continued, so never behind an end token.

  * `ofTokens_refused` -- what a refusal rests on;
  * `ofTokens_ended_iff` -- when tokens run out;
  * `ofTokens_end_congr` -- what stands behind an end token does not matter;
  * `ofTokens_correct_prefix` -- the main result.
-/
import Mathlib
import Osclan.Proofs.Parsing
import Osclan.Proofs.ReaderPrompt

namespace Osclan

open Tokens

/-! ## 1. The items of a program -/

/-- The items up to the end token. -/
def items (ts : List Token) : MayRead (List Item) ts :=
  Grammar.repeatWhile (fun us => !check [.eof] us) (ts.length + 1) (fun us _ => Grammar.item us) ts
    (length_lt_succ ts)

theorem items_prompt {ts : List Token} : Prompt (Formed (Many FormsItem)) items ts :=
  repeatWhile_prompt_many length_lt_succ (fun _ _ _ => rfl) not_check_congr
    (fun _ => item_yields) fun _ _ => item_prompt

theorem items_yields {ts : List Token} :
    Yields ts (fun is pre _ => Many FormsItem pre (is.map Item.toNode)) (items ts) :=
  repeatWhile_many (fun _ _ => item_yields) ts (length_lt_succ ts)

theorem ofTokens_eq (ts : List Token) :
    Program.ofTokens ts = (items ts).map fun p => ⟨p.value⟩ := by
  show (items ts >>= fun p => pure (Program.mk p.value)) = _
  cases items ts <;> rfl

theorem ofTokens_error_iff {ts : List Token} {e : ParseError} :
    Program.ofTokens ts = .error e ↔ items ts = .error e := by
  rw [ofTokens_eq]
  cases items ts with
  | error e' => exact ⟨fun h => congrArg Except.error (Except.error.inj h), fun h => h ▸ rfl⟩
  | ok p =>
    constructor
    · intro h
      cases h
    · intro h
      cases h

theorem ofTokens_ok_iff {ts : List Token} {p : Program} :
    Program.ofTokens ts = .ok p ↔ ∃ rest h, items ts = .ok ⟨p.items, rest, h⟩ := by
  rw [ofTokens_eq]
  cases items ts with
  | error e =>
    constructor
    · intro h
      cases h
    · rintro ⟨rest, h, he⟩
      cases he
  | ok q =>
    constructor
    · intro h
      cases h
      exact ⟨q.rest, q.shorter, rfl⟩
    · rintro ⟨rest, h, hq⟩
      cases hq
      rfl

/-- What can be continued to items begins a program. -/
theorem Viable.accepted {pre : List Token} (h : Viable (Formed (Many FormsItem)) pre) :
    ∃ us p, pre <+: us ∧ Program.ofTokens us = .ok p := by
  obtain ⟨more, ⟨ns, hns⟩, hgood⟩ := h
  have hd : Derives (pre ++ more) ⟨{ kind := .root }, ns⟩ := ⟨.mk hns, fun t ht => (hgood t ht).1⟩
  have hread := @Derives.read _ [] (filler .eof) _ hd rfl
  cases hp : Program.ofTokens (pre ++ more ++ [filler .eof]) with
  | error e =>
    rw [hp] at hread
    cases hread
  | ok p => exact ⟨_, p, (List.prefix_append pre more).trans (List.prefix_append _ _), hp⟩

/-! ## 2. Refusals -/

/-- **A refusal rests on one token** and those before it, none of which ends the file. Where the
    token is reported as unexpected, those before it begin a program. -/
theorem ofTokens_refused {ts : List Token} {e : ParseError} (h : Program.ofTokens ts = .error e)
    (he : e ≠ .unexpectedEnd) : ∃ pre t post, ts = pre ++ t :: post ∧ (∀ u ∈ pre, u.kind ≠ .eof) ∧
      (∀ post', Program.ofTokens (pre ++ t :: post') = .error e) ∧
      ∀ expected found, e = .unexpectedToken expected found →
        found = t ∧ ∃ us p, pre <+: us ∧ Program.ofTokens us = .ok p := by
  obtain ⟨pre, t, post, hcut, hpre, hsame, hfound⟩ :=
    items_prompt.refused e (ofTokens_error_iff.mp h) he
  refine ⟨pre, t, post, hcut, hpre, fun post' => ofTokens_error_iff.mpr (hsame post'), ?_⟩
  intro expected found e
  obtain ⟨hf, hv⟩ := hfound expected found e
  exact ⟨hf, hv.accepted⟩

/-- A program has an end token. -/
theorem exists_eof_of_ofTokens {ts : List Token} {p : Program} (h : Program.ofTokens ts = .ok p) :
    ∃ t ∈ ts, t.kind = .eof := by
  obtain ⟨pre, e, rest, rfl, he, _⟩ := ofTokens_sound h
  exact ⟨e, List.mem_append_right _ List.mem_cons_self, he⟩

/-- **Tokens run out exactly where they begin a program** and do not end it. -/
theorem ofTokens_ended_iff {ts : List Token} : Program.ofTokens ts = .error .unexpectedEnd ↔
    (∀ t ∈ ts, t.kind ≠ .eof) ∧ ∃ us p, ts <+: us ∧ Program.ofTokens us = .ok p := by
  constructor
  · intro h
    obtain ⟨hend, hv⟩ := items_prompt.ended (ofTokens_error_iff.mp h)
    exact ⟨hend, hv.accepted⟩
  · rintro ⟨hend, us, p, ⟨more, rfl⟩, hp⟩
    cases hr : Program.ofTokens ts with
    | ok q =>
      obtain ⟨t, ht, hk⟩ := exists_eof_of_ofTokens hr
      exact absurd hk (hend t ht)
    | error e =>
      by_cases he : e = .unexpectedEnd
      · rw [he]
      -- any other refusal would be one of the longer list too
      · obtain ⟨pre, t, post, rfl, _, hsame, _⟩ := ofTokens_refused hr he
        have hlong := hsame (post ++ more)
        rw [← List.cons_append, ← List.append_assoc, hp] at hlong
        cases hlong

/-! ## 3. The end token -/

/-- Tokens without an end token that begin a list stand before each end token of it. -/
theorem eq_append_of_noEof {pre front rest back : List Token} {e : Token} (he : e.kind = .eof)
    (hf : ∀ t ∈ front, t.kind ≠ .eof) (h : pre ++ e :: rest = front ++ back) :
    ∃ mid, pre = front ++ mid ∧ back = mid ++ e :: rest := by
  rcases List.append_eq_append_iff.mp h with ⟨mid, rfl, hmid⟩ | ⟨mid, rfl, hmid⟩
  · cases mid with
    | nil => exact ⟨[], by simp, hmid.symm⟩
    | cons t us =>
      obtain ⟨rfl, _⟩ := List.cons.inj hmid
      exact absurd he (hf e (List.mem_append_right _ List.mem_cons_self))
  · exact ⟨mid, rfl, hmid⟩

/-- **What stands behind an end token does not matter.** -/
theorem ofTokens_end_congr {pre rest : List Token} {e : Token} (he : e.kind = .eof)
    (rest' : List Token) :
    Program.ofTokens (pre ++ e :: rest') = Program.ofTokens (pre ++ e :: rest) := by
  cases hr : Program.ofTokens (pre ++ e :: rest) with
  | ok p =>
    obtain ⟨back, hlt, hitems⟩ := ofTokens_ok_iff.mp hr
    obtain ⟨front, hcut, _, hgood⟩ := items_yields p.items back hlt hitems
    obtain ⟨front', hcut', hsame⟩ := items_prompt.taken p.items back hlt hitems
    obtain rfl : front' = front := List.append_cancel_right (hcut'.symm.trans hcut)
    obtain ⟨mid, rfl, rfl⟩ := eq_append_of_noEof he (fun t ht => (hgood t ht).2) hcut
    obtain ⟨h', hread⟩ := hsame (mid ++ e :: rest') (head?_append_cons mid e rest rest')
    rw [List.append_assoc]
    exact ofTokens_ok_iff.mpr ⟨_, h', hread⟩
  | error err =>
    by_cases hend : err = .unexpectedEnd
    · subst hend
      have hno := (ofTokens_ended_iff.mp hr).1
      exact absurd he (hno e (List.mem_append_right _ List.mem_cons_self))
    · obtain ⟨front, t, post, hcut, hfront, hsame, _⟩ := ofTokens_refused hr hend
      obtain ⟨mid, rfl, hmid⟩ := eq_append_of_noEof he hfront hcut
      cases mid with
      | nil =>
        obtain ⟨rfl, _⟩ := List.cons.inj hmid
        rw [List.append_nil]
        exact hsame rest'
      | cons u us =>
        obtain ⟨rfl, _⟩ := List.cons.inj hmid
        rw [List.append_assoc]
        exact hsame (us ++ e :: rest')

/-! ## 4. The correct prefix -/

/-- **A refusal names the first token that no program has at its place.** If a token is reported as
    unexpected, none before it ends the file, those before it begin a program, and all tokens that
    begin alike up to it are refused alike. Tokens run out exactly if they begin a program and do
    not end the file; so never if there is an end token, and what stands behind that does not
    matter. -/
theorem ofTokens_correct_prefix :
    (∀ ts expected found, Program.ofTokens ts = .error (.unexpectedToken expected found) →
      ∃ i, ts[i]? = some found ∧ (∀ t ∈ ts.take i, t.kind ≠ .eof) ∧
        (∃ us p, ts.take i <+: us ∧ Program.ofTokens us = .ok p) ∧
        ∀ us, ts.take (i + 1) <+: us →
          Program.ofTokens us = .error (.unexpectedToken expected found)) ∧
    (∀ ts, Program.ofTokens ts = .error .unexpectedEnd ↔
      (∀ t ∈ ts, t.kind ≠ .eof) ∧ ∃ us p, ts <+: us ∧ Program.ofTokens us = .ok p) ∧
    (∀ pre e rest, e.kind = .eof → Program.ofTokens (pre ++ e :: rest) ≠ .error .unexpectedEnd ∧
      ∀ rest', Program.ofTokens (pre ++ e :: rest') = Program.ofTokens (pre ++ e :: rest)) := by
  refine ⟨fun ts expected found h => ?_, fun ts => ofTokens_ended_iff, fun pre e rest he => ?_⟩
  · obtain ⟨pre, t, post, rfl, hpre, hsame, hfound⟩ := ofTokens_refused h ParseError.noConfusion
    obtain ⟨rfl, hbegins⟩ := hfound expected found rfl
    refine ⟨pre.length, by simp, ?_, ?_, ?_⟩
    · rw [List.take_left]
      exact hpre
    · rw [List.take_left]
      exact hbegins
    · rintro us ⟨more, rfl⟩
      have htake : (pre ++ found :: post).take (pre.length + 1) = pre ++ [found] := by
        rw [List.take_length_add_append, List.take_succ_cons, List.take_zero]
      rw [htake, List.append_assoc]
      exact hsame more
  · refine ⟨fun hr => ?_, fun rest' => ofTokens_end_congr he rest'⟩
    exact absurd he ((ofTokens_ended_iff.mp hr).1 e (List.mem_append_right _ List.mem_cons_self))

/-- The variable `declare [point] p : declare anon x y :`, cut off where the value of its second
    member should stand. -/
def memberSample : List Token :=
  [tokenOf .declare "declare", tokenOf .lbracket "[", tokenOf .ident "point",
   tokenOf .rbracket "]", tokenOf .ident "p", tokenOf .colon ":", tokenOf .declare "declare",
   tokenOf .anon "anon", tokenOf .ident "x", tokenOf .ident "y", tokenOf .colon ":"]

/-- The sample begins a program, and runs out. Closed by `end` it is refused at that token, whatever
    follows; the tokens before it begin a program. Behind an end token anything may follow. -/
theorem correct_prefix_of_memberSample :
    (∃ i, (memberSample ++ [tokenOf .endBlock "end", tokenOf .eof ""])[i]? =
        some (tokenOf .endBlock "end") ∧
      (∃ us p, (memberSample ++ [tokenOf .endBlock "end", tokenOf .eof ""]).take i <+: us ∧
        Program.ofTokens us = .ok p) ∧
      ∀ us, (memberSample ++ [tokenOf .endBlock "end", tokenOf .eof ""]).take (i + 1) <+: us →
        Program.ofTokens us = .error (.unexpectedToken
          "Init | Number | Text | Ident | Asterisk | Declare | Call" (tokenOf .endBlock "end"))) ∧
    ((∀ t ∈ memberSample, t.kind ≠ .eof) ∧
      ∃ us p, memberSample <+: us ∧ Program.ofTokens us = .ok p) ∧
    ∀ rest, Program.ofTokens (memberSample ++ tokenOf .eof "" :: rest) =
      .error (.unexpectedToken "Init | Number | Text | Ident | Asterisk | Declare | Call"
        (tokenOf .eof "")) := by
  obtain ⟨hrefused, hended, hbehind⟩ := ofTokens_correct_prefix
  have hclosed : Program.ofTokens (memberSample ++ [tokenOf .endBlock "end", tokenOf .eof ""]) =
      .error (.unexpectedToken "Init | Number | Text | Ident | Asterisk | Declare | Call"
        (tokenOf .endBlock "end")) := by cbv
  have hcut : Program.ofTokens memberSample = .error .unexpectedEnd := by cbv
  have hshort : Program.ofTokens (memberSample ++ [tokenOf .eof ""]) =
      .error (.unexpectedToken "Init | Number | Text | Ident | Asterisk | Declare | Call"
        (tokenOf .eof "")) := by cbv
  obtain ⟨i, hi, _, hbegins, hsame⟩ := hrefused _ _ _ hclosed
  refine ⟨⟨i, hi, hbegins, hsame⟩, (hended memberSample).mp hcut, fun rest => ?_⟩
  exact ((hbehind memberSample (tokenOf .eof "") [] rfl).2 rest).trans hshort

end Osclan
