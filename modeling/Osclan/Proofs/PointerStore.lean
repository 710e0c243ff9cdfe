/-
  File:      Osclan/Proofs/PointerStore.lean
  Subject:   Literals that are stored in pointers.

  A literal gets into a variable, a parameter or a result in four ways. Where the destination is
  declared as a pointer, two of them are free of the rules for literals: a declaration looks at the
  type it is written with, and a call at the parameter. An assignment looks at the path that it goes
  to, which never carries the mark of a pointer, and a return does not look at all. So these two
  check a pointer as they check any other destination.

  * `Write.losses_eq_iff` -- when the warnings come from destinations that are no pointers;
  * `pointer_writes_checked` -- what is refused and warned of, and that pointers are free exactly if
    nothing is lost by an assignment or a return;
  * `pointer_writes_warned` -- a program that stores in pointers only, with warnings.
-/
import Osclan.Proofs.ItemWalk

namespace Osclan

/-! ## 1. Warnings -/

namespace Write

variable {ws : List Write}

/-- The warnings are those of the destinations that are no pointers exactly if nothing is lost in a
    pointer that is checked. -/
theorem losses_eq_iff :
    losses ws = ((ws.filter fun w => !w.pointer && w.store.loses).map fun w => w.store.warning) ↔
      ∀ w ∈ ws, w.pointer = true → w.isExempt = false → w.store.loses = false := by
  have hmono : ∀ w : Write, (!w.pointer && w.store.loses) = true →
      (!w.isExempt && w.store.loses) = true := by
    intro w h
    rw [Bool.and_eq_true, Bool.not_eq_true'] at h
    rw [isExempt, h.1, h.2]
    rfl
  constructor
  · intro h w hw hpointer hexempt
    by_contra hloses
    -- The destinations that are no pointers give a part of the warnings, and as many.
    have hsub := List.monotone_filter_right ws hmono
    have hlength : (ws.filter fun w => !w.pointer && w.store.loses).length =
        (ws.filter fun w => !w.isExempt && w.store.loses).length := by
      rw [← List.length_map (fun w : Write => w.store.warning), ← h, losses, List.length_map]
    have hmem : w ∈ ws.filter fun w => !w.isExempt && w.store.loses := by
      rw [List.mem_filter, hexempt, Bool.eq_true_of_not_eq_false hloses]
      exact ⟨hw, rfl⟩
    rw [← hsub.eq_of_length hlength, List.mem_filter, hpointer] at hmem
    cases hmem.2
  · intro h
    rw [losses]
    congr 1
    refine List.filter_congr fun w hw => Bool.eq_iff_iff.mpr ⟨fun hchecked => ?_, hmono w⟩
    rw [Bool.and_eq_true, Bool.not_eq_true'] at hchecked
    cases hpointer : w.pointer with
    | false => exact hchecked.2
    | true =>
      have hnone := h w hw hpointer hchecked.1
      rw [hchecked.2] at hnone
      cases hnone

end Write

/-! ## 2. The main result -/

/-- **Pointers and the rules for literals.** What a pointer is declared with and what is handed over
    for one is never refused and never warned of. Every other literal is checked, also one that is
    assigned to a pointer or returned as one: an accepted source has a warning for each of them that
    is longer than its destination, and a source refused for an illegal assignment is refused for
    the first of them that is illegal. So the warnings of an accepted source come from other
    destinations alone exactly if no assignment to a pointer and no return of one loses anything. -/
theorem pointer_writes_checked {file source : String} {ts : List Token} {p : Program}
    (ht : tokenize file source = .ok ts) (hp : Program.ofTokens ts = .ok p) :
    (∀ a s, Check.analyze p.toNode .fresh = .ok a s →
      (∀ w ∈ p.writes, w.isExempt = false → w.store.isIllegal = false) ∧
      (a.warnings =
        (p.writes.filter fun w => !w.isExempt && w.store.loses).map fun w => w.store.warning) ∧
      (a.warnings =
          ((p.writes.filter fun w => !w.pointer && w.store.loses).map fun w => w.store.warning) ↔
        ∀ w ∈ p.writes, w.pointer = true → w.form = .assigned ∨ w.form = .returned →
          w.store.loses = false)) ∧
    ∀ dest value s, Check.analyze p.toNode .fresh =
        .error (.fault (.illegalAssignment dest value)) s →
      ∃ w, p.writes.find? (fun w => !w.isExempt && w.store.isIllegal) = some w ∧
        w.store.destText = dest ∧ w.store.sourceText = value := by
  have hwalk := p.checked (ofTokens_named ht hp (by decide) (by decide) fun _ hs => hs.plain)
  constructor
  · intro a s ha
    obtain ⟨n, t, hn, hover⟩ := Check.bind_ok.mp ha
    cases hover
    obtain ⟨⟨hlegal, hwarnings⟩, _⟩ := hwalk.ok hn
    have hlosses : t.warnings = Write.losses p.writes := hwarnings
    refine ⟨fun w hw hexempt => (hlegal w hw hexempt).2, hlosses, ?_⟩
    rw [hlosses, Write.losses_eq_iff]
    refine forall₂_congr fun w _ => imp_congr_right fun hpointer => imp_congr_left ?_
    rw [Write.isExempt, hpointer]
    cases w.form <;> decide
  · intro dest value s hs
    rcases Check.bind_error.mp hs with hs | ⟨n, t, _, hover⟩
    · exact Check.Stores.stop hwalk hs
    · cases hover

/-- A pointer variable and a pointer parameter, each of which gets a number that is too long. -/
def sparedSample : Program :=
  ⟨[.declaration [] (.global ⟨"int", some 1, true⟩ "p" (.number "300")),
    .declaration [] (.procedure ⟨"void", none, false⟩ "f" [⟨⟨"int", some 1, true⟩, "a"⟩]
      [.call "f" [.number "300"]])]⟩

/-- Its tokens, in a source of one line. -/
def sparedTokens : List Token :=
  [sampleToken 0 .declare "declare", sampleToken 8 .lbracket "[", sampleToken 9 .ident "int",
    sampleToken 12 .lparen "(", sampleToken 13 .number "1", sampleToken 14 .rparen ")",
    sampleToken 15 .asterisk "*", sampleToken 16 .rbracket "]", sampleToken 18 .ident "p",
    sampleToken 20 .colon ":", sampleToken 22 .number "300", sampleToken 26 .declare "declare",
    sampleToken 34 .lbracket "[", sampleToken 35 .ident "void", sampleToken 39 .rbracket "]",
    sampleToken 41 .doubleColon "::", sampleToken 44 .ident "f", sampleToken 45 .lparen "(",
    sampleToken 46 .lbracket "[", sampleToken 47 .ident "int", sampleToken 50 .lparen "(",
    sampleToken 51 .number "1", sampleToken 52 .rparen ")", sampleToken 53 .asterisk "*",
    sampleToken 54 .rbracket "]", sampleToken 56 .ident "a", sampleToken 57 .rparen ")",
    sampleToken 59 .call "call", sampleToken 64 .ident "f", sampleToken 65 .lparen "(",
    sampleToken 66 .number "300", sampleToken 69 .rparen ")", sampleToken 71 .endBlock "end",
    sampleToken 74 .eof ""]

set_option maxRecDepth 20000 in
/-- Neither is warned of. -/
theorem pointer_writes_checked_of_spared :
    ∃ a, Accepted "sample"
        "declare [int(1)*] p : 300 declare [void] :: f([int(1)*] a) call f(300) end"
        sparedSample a ∧
      sparedSample.writes.map (fun w => (w.pointer, w.store.loses)) = [(true, true), (true, true)] ∧
      a.warnings = [] := by
  have ht : (tokenize "sample"
      "declare [int(1)*] p : 300 declare [void] :: f([int(1)*] a) call f(300) end").toOption =
      some sparedTokens := by decide +kernel
  obtain ⟨a, h⟩ := accepted_of_stages (p := sparedSample) ht (by cbv) (by cbv)
  obtain ⟨ts, s, htokens, hprogram, ha⟩ := id h
  refine ⟨a, h, by cbv, ?_⟩
  rw [((pointer_writes_checked htokens hprogram).1 a s ha).2.1]
  cbv

/-- A procedure that assigns the given value to a pointer, and returns it as a pointer. -/
def pointerSample (value : Value) : Program :=
  ⟨[.declaration [] (.procedure ⟨"int", some 1, true⟩ "f" []
    [.declare ⟨"int", none, true⟩ "p" (.number "1"), .assign (.mk "p" []) value,
      .ret (some value)])]⟩

/-- Its tokens, if the value is three characters long. -/
def pointerTokens (kind : TokenKind) (value : String) : List Token :=
  [sampleToken 0 .declare "declare", sampleToken 8 .lbracket "[", sampleToken 9 .ident "int",
    sampleToken 12 .lparen "(", sampleToken 13 .number "1", sampleToken 14 .rparen ")",
    sampleToken 15 .asterisk "*", sampleToken 16 .rbracket "]", sampleToken 18 .doubleColon "::",
    sampleToken 21 .ident "f", sampleToken 22 .lparen "(", sampleToken 23 .rparen ")",
    sampleToken 25 .declare "declare", sampleToken 33 .lbracket "[", sampleToken 34 .ident "int",
    sampleToken 37 .asterisk "*", sampleToken 38 .rbracket "]", sampleToken 40 .ident "p",
    sampleToken 42 .colon ":", sampleToken 44 .number "1", sampleToken 46 .ident "p",
    sampleToken 48 .colon ":", sampleToken 50 kind value, sampleToken 54 .ret "ret",
    sampleToken 58 kind value, sampleToken 62 .endBlock "end", sampleToken 65 .eof ""]

theorem pointerSample_type :
    resolveType Analyzer.fresh.scopes "int" (some 1) = .ok ⟨"int", 1, []⟩ := by
  cbv

set_option maxRecDepth 20000 in
/-- **Pointers are not free in an assignment and in a return**: where all literals go to pointers,
    numbers are warned of and a text is refused. -/
theorem pointer_writes_warned :
    (∃ a, Accepted "sample" "declare [int(1)*] :: f() declare [int*] p : 1 p : 300 ret 300 end"
        (pointerSample (.number "300")) a ∧
      (∀ w ∈ (pointerSample (.number "300")).writes, w.pointer = true) ∧
      a.warnings = [⟨"int(1)", "int(3)"⟩, ⟨"int(1)", "int(3)"⟩]) ∧
    ∃ ts s, tokenize "sample"
        "declare [int(1)*] :: f() declare [int*] p : 1 p : \"x\" ret \"x\" end" = .ok ts ∧
      Program.ofTokens ts = .ok (pointerSample (.text "x")) ∧
      (∀ w ∈ (pointerSample (.text "x")).writes, w.pointer = true) ∧
      Check.analyze (pointerSample (.text "x")).toNode .fresh =
        .error (.fault (.illegalAssignment "int(1)" "string(1)")) s := by
  constructor
  · have ht : tokenize "sample"
        "declare [int(1)*] :: f() declare [int*] p : 1 p : 300 ret 300 end" =
        .ok (pointerTokens .number "300") := ok_of_toOption (by decide +kernel)
    have hp : Program.ofTokens (pointerTokens .number "300") =
        .ok (pointerSample (.number "300")) := by cbv
    have hw : ((Check.analyze (pointerSample (.number "300")).toNode).outcome .fresh).map
        Analysis.warnings = .ok [⟨"int(1)", "int(3)"⟩, ⟨"int(1)", "int(3)"⟩] := by
      rw [Check.outcome, pointerSample, analyze_procedure pointerSample_type]
      cbv
    rw [Check.outcome] at hw
    cases ha : Check.analyze (pointerSample (.number "300")).toNode .fresh with
    | ok a s =>
      rw [ha] at hw
      exact ⟨a, ⟨_, s, ht, hp, ha⟩, List.all_eq_true.mp rfl, Except.ok.inj hw⟩
    | error e s =>
      rw [ha] at hw
      cases hw
  · have ht : tokenize "sample"
        "declare [int(1)*] :: f() declare [int*] p : 1 p : \"x\" ret \"x\" end" =
        .ok (pointerTokens .text "x") := ok_of_toOption (by decide +kernel)
    have hp : Program.ofTokens (pointerTokens .text "x") = .ok (pointerSample (.text "x")) := by cbv
    have he : (Check.analyze (pointerSample (.text "x")).toNode).abort? .fresh =
        some (.fault (.illegalAssignment "int(1)" "string(1)")) := by
      rw [Check.abort?, pointerSample, analyze_procedure pointerSample_type]
      cbv
    obtain ⟨s, hs⟩ := Check.error_of_abort? he
    exact ⟨_, s, ht, hp, List.all_eq_true.mp rfl, hs⟩

end Osclan
