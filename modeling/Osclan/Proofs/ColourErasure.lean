/-
  File:      Osclan/Proofs/ColourErasure.lean
  Subject:   The coloured assembly without its colours.

  Assembly is written in two ways: as source text, and in colours. The second is not the first with
  colours added. It sets instructions in by blanks instead of a tab, fills the mnemonic up to a
  fixed width, and leaves a colour out where another follows at once. Here the colours are taken
  away and both texts are tidied up: runs of blanks and tabs become one blank, and each line is
  trimmed. What is left is the same.

  * `Terminal.erase` -- a text without its colour sequences;
  * `Terminal.collapse`, `Terminal.trim`, `Terminal.tidy` -- a text tidied up, line by line;
  * `erase_painted` -- the texts of the spans are left of a painted line;
  * `tidy_bare` -- they are the line, up to blanks;
  * **`painted_agrees_with_text`** -- whole assemblies.
-/
import Mathlib
import Osclan.Assembly
import Osclan.Proofs.Disassembly
import Osclan.Text.Blank

namespace Osclan

namespace Terminal

/-! ## 1. Colour sequences -/

/-- A character of the parameters of a control sequence. -/
def isParameter (c : Char) : Bool := c.isDigit || c == ';'

/-- What stands behind the colour sequence at the head of a text, if there is one: an escape, a
    bracket, parameters, and an `m`. -/
def afterSequence? : List Char → Option (List Char)
  | '\x1b' :: '[' :: cs =>
    match cs.dropWhile isParameter with
    | 'm' :: rest => some rest
    | _ => none
  | _ => none

theorem length_afterSequence? {cs rest : List Char} (h : afterSequence? cs = some rest) :
    rest.length < cs.length := by
  unfold afterSequence? at h
  split at h
  · rename_i ds
    split at h
    · rename_i rest' hrest
      obtain rfl := Option.some.inj h
      have hle := (List.dropWhile_suffix (l := ds) isParameter).length_le
      rw [hrest] at hle
      simp only [List.length_cons] at hle ⊢
      omega
    · cases h
  · cases h

/-- A text without its colour sequences. -/
def erase : List Char → List Char
  | [] => []
  | c :: cs =>
    match _h : afterSequence? (c :: cs) with
    | some rest => erase rest
    | none => c :: erase cs
termination_by cs => cs.length
decreasing_by
  · exact length_afterSequence? ‹_›
  · exact Nat.lt_succ_self _

@[simp] theorem erase_nil : erase [] = [] := by rw [erase]

/-- A text without escapes stays as it is. -/
theorem erase_append {text : List Char} (h : '\x1b' ∉ text) (rest : List Char) :
    erase (text ++ rest) = text ++ erase rest := by
  induction text with
  | nil => rfl
  | cons c cs ih =>
    obtain ⟨hc, hcs⟩ := not_or.mp (mt List.mem_cons.mpr h)
    have hnone : afterSequence? (c :: (cs ++ rest)) = none := by
      unfold afterSequence?
      split
      · rename_i e
        exact absurd (List.cons.inj e).1.symm hc
      · rfl
    rw [List.cons_append, erase]
    split
    · rename_i e
      rw [hnone] at e
      cases e
    · rw [ih hcs]
      rfl

/-- A colour sequence is taken away. -/
theorem erase_controlSequence {p : String} (h : p.toList.all isParameter = true)
    (rest : List Char) : erase ((controlSequence p).toList ++ rest) = erase rest := by
  have hcs : (controlSequence p).toList ++ rest = '\x1b' :: '[' :: (p.toList ++ 'm' :: rest) := by
    simp [controlSequence, String.toList_append]
  have hrun : Run isParameter p.toList ('m' :: rest) := ⟨List.all_eq_true.mp h, rfl⟩
  have hafter : afterSequence? ('\x1b' :: '[' :: (p.toList ++ 'm' :: rest)) = some rest := by
    rw [afterSequence?, hrun.dropWhile_eq]
    rfl
  rw [hcs, erase]
  split
  · rename_i e
    rw [hafter] at e
    rw [Option.some.inj e]
  · rename_i e
    rw [hafter] at e
    cases e

/-- What is written where the colour changes is a colour sequence, or nothing. -/
theorem erase_switch (old new : Option Colour) (rest : List Char) :
    erase ((Span.switch old new).toList ++ rest) = erase rest := by
  cases new with
  | some colour => cases colour <;> exact erase_controlSequence (by decide) rest
  | none =>
    cases old with
    | some _ => exact erase_controlSequence (by decide) rest
    | none => rfl

/-- **Of painted spans their texts are left.** -/
theorem erase_paintFrom {spans : List Span} (h : ∀ s ∈ spans, '\x1b' ∉ s.text.toList)
    (current : Option Colour) (rest : List Char) :
    erase ((Span.paintFrom current spans).toList ++ rest) =
      spans.flatMap (fun s => s.text.toList) ++ erase rest := by
  induction spans generalizing current with
  | nil => exact erase_switch current none rest
  | cons s spans ih =>
    obtain ⟨hs, hspans⟩ := List.forall_mem_cons.mp h
    rw [Span.paintFrom, String.toList_append, String.toList_append, List.append_assoc,
      List.append_assoc, erase_switch, erase_append hs, ih hspans, List.flatMap_cons,
      List.append_assoc]

/-! ## 2. Tidying up -/

/-- A blank or a tab. -/
def isGap (c : Char) : Bool := c == ' ' || c == '\t'

/-- A text with one blank for each run of blanks and tabs. -/
def collapse : List Char → List Char
  | [] => []
  | c :: cs =>
    if isGap c = false then c :: collapse cs
    else if cs.head?.any isGap then collapse cs
    else ' ' :: collapse cs

/-- A text without the blank characters at its ends. -/
def trim (cs : List Char) : List Char := (cs.dropWhile Text.isBlank).rdropWhile Text.isBlank

/-- The lines of a text, tidied up. -/
def tidy (cs : List Char) : List (List Char) := ((collapse cs).splitOn '\n').map trim

theorem collapse_of_gap {g : Char} (h : isGap g = true) (cs : List Char) :
    collapse (g :: cs) = if cs.head?.any isGap then collapse cs else ' ' :: collapse cs := by
  rw [collapse, h, if_neg (Bool.noConfusion)]

theorem collapse_newline (cs ds : List Char) :
    collapse (cs ++ '\n' :: ds) = collapse cs ++ '\n' :: collapse ds := by
  induction cs with
  | nil => rfl
  | cons c cs ih =>
    have hhead : (cs ++ '\n' :: ds).head?.any isGap = cs.head?.any isGap := by
      cases cs <;> rfl
    rw [List.cons_append, collapse, collapse, hhead, ih]
    split
    · rfl
    · split <;> rfl

/-- **Lines are tidied up one by one.** -/
theorem tidy_newline (cs ds : List Char) : tidy (cs ++ '\n' :: ds) = tidy cs ++ tidy ds := by
  rw [tidy, collapse_newline, List.splitOn_append_cons_self, List.map_append]
  rfl

/-- It does not matter what a run of blanks and tabs consists of. -/
theorem collapse_gap {gap : List Char} (hne : gap ≠ []) (hall : ∀ c ∈ gap, isGap c = true)
    (cs : List Char) : collapse (gap ++ cs) = collapse (' ' :: cs) := by
  induction gap with
  | nil => exact absurd rfl hne
  | cons g gap ih =>
    obtain ⟨hg, hgap⟩ := List.forall_mem_cons.mp hall
    cases gap with
    | nil => rw [List.singleton_append, collapse_of_gap hg, collapse_of_gap rfl]
    | cons d gap =>
      have hd : ((d :: gap) ++ cs).head?.any isGap = true := (List.forall_mem_cons.mp hgap).1
      rw [List.cons_append, collapse_of_gap hg, hd, if_pos rfl]
      exact ih (List.cons_ne_nil d gap) hgap

theorem collapse_word {word : List Char} (h : ∀ c ∈ word, isGap c = false) (cs : List Char) :
    collapse (word ++ cs) = word ++ collapse cs := by
  induction word with
  | nil => rfl
  | cons c word ih =>
    obtain ⟨hc, hword⟩ := List.forall_mem_cons.mp h
    rw [List.cons_append, collapse, if_pos hc, ih hword]
    rfl

/-- A word that is set in stands behind one blank. -/
theorem collapse_set_in {gap word : List Char} (hne : gap ≠ []) (hall : ∀ c ∈ gap, isGap c = true)
    (hword : word ≠ []) (h : ∀ c ∈ word, isGap c = false) (cs : List Char) :
    collapse (gap ++ (word ++ cs)) = ' ' :: (word ++ collapse cs) := by
  obtain ⟨c, rest, rfl⟩ := List.exists_cons_of_ne_nil hword
  have hc : ((c :: rest) ++ cs).head?.any isGap = false := (List.forall_mem_cons.mp h).1
  rw [collapse_gap hne hall, collapse_of_gap rfl, hc, if_neg Bool.noConfusion, collapse_word h]

/-- A blank at the end of a line is trimmed. -/
theorem trim_blank (cs : List Char) : trim (cs ++ [' ']) = trim cs := by
  have hblank : Text.isBlank ' ' = true := by decide
  rw [trim, trim, List.dropWhile_append]
  split
  · rename_i hempty
    rw [List.isEmpty_iff.mp hempty, List.dropWhile_cons_of_pos hblank]
    rfl
  · exact List.rdropWhile_concat_pos _ _ _ hblank

end Terminal

open Terminal

/-! ## 3. Lines -/

/-- What the spans of a line hold. -/
def Line.bare (l : Line) : List Char := l.spans.flatMap fun s => s.text.toList

/-- The text that a line takes over as it is given, if it does. -/
def Line.given? : Line → Option String
  | .directive text => some text
  | .label name => some name
  | .inst (.bl target) => some target
  | .comment text => some text
  | .inst _ | .blank => none

/-- The text that the line takes over has no escape character in it. -/
def Line.EscapeFree (l : Line) : Prop := ∀ text, l.given? = some text → '\x1b' ∉ text.toList

section Escapes

/-- A numeral has no escape in it. -/
theorem escape_not_mem_toDigits {base : Nat} (hlow : 1 < base) (hhigh : base ≤ 16) (n : Nat) :
    '\x1b' ∉ Nat.toDigits base n := by
  intro h
  have hdigit := Disassembly.isDigitOf_of_mem_toDigits base hlow hhigh n _ h
  have hvalue : Disassembly.digitValue '\x1b' = 16 := rfl
  rw [Disassembly.isDigitOf, hvalue, decide_eq_true_iff] at hdigit
  omega

theorem escape_not_mem_decimal (n : Nat) : '\x1b' ∉ Nat.toDigits 10 n :=
  escape_not_mem_toDigits (by decide) (by decide) n

theorem Reg.escape_not_mem (r : Reg) : '\x1b' ∉ r.text.toList := by
  cases r with
  | sp => simp [Reg.text]
  | x n => simp [Reg.text, escape_not_mem_decimal]

theorem Operand.escape_not_mem (o : Operand) : '\x1b' ∉ o.text.toList := by
  cases o with
  | reg r => exact r.escape_not_mem
  | imm n => simp [Operand.text, escape_not_mem_decimal]

theorem escape_not_mem_int (z : Int) : '\x1b' ∉ z.repr.toList := by
  rw [Int.repr_eq_if]
  split
  · simp [escape_not_mem_decimal]
  · simp [escape_not_mem_decimal]

theorem Address.escape_not_mem (a : Address) : '\x1b' ∉ a.text.toList := by
  cases a with
  | preIndex base offset => simp [Address.text, base.escape_not_mem, escape_not_mem_int]
  | postIndex base offset => simp [Address.text, base.escape_not_mem, escape_not_mem_int]

/-- Only a label can bring an escape into an instruction. -/
theorem Instruction.escape_not_mem {i : Instruction} (h : (Line.inst i).EscapeFree) :
    '\x1b' ∉ i.operands.toList := by
  cases i with
  | mov dest value => simp [Instruction.operands, dest.escape_not_mem, value.escape_not_mem]
  | ldp first second address =>
    simp [Instruction.operands, first.escape_not_mem, second.escape_not_mem,
      address.escape_not_mem]
  | stp first second address =>
    simp [Instruction.operands, first.escape_not_mem, second.escape_not_mem,
      address.escape_not_mem]
  | bl label => exact h label rfl
  | ret => simp [Instruction.operands]
  | svc number =>
    simp [Instruction.operands, Instruction.hexText,
      escape_not_mem_toDigits (by decide : 1 < 16) (by decide)]

theorem Line.escape_not_mem_spans {l : Line} (h : l.EscapeFree) :
    ∀ s ∈ l.spans, '\x1b' ∉ s.text.toList := by
  cases l with
  | directive text => exact List.forall_mem_singleton.mpr (h text rfl)
  | label name =>
    refine List.forall_mem_cons.mpr ⟨h name rfl, List.forall_mem_singleton.mpr ?_⟩
    simp [Span.plain]
  | inst i =>
    refine List.forall_mem_cons.mpr ⟨by simp [Span.plain], List.forall_mem_cons.mpr ⟨?_,
      List.forall_mem_singleton.mpr (Instruction.escape_not_mem h)⟩⟩
    cases i <;> simp [Span.inColour, Instruction.padRight, Instruction.mnemonic]
  | comment text =>
    refine List.forall_mem_singleton.mpr ?_
    simp [Span.inColour, h text rfl]
  | blank => exact List.forall_mem_nil _

end Escapes

/-- **Of a painted line the texts of its spans are left.** -/
theorem erase_painted {l : Line} (h : l.EscapeFree) (rest : List Char) :
    erase (l.painted.toList ++ rest) = l.bare ++ erase rest :=
  erase_paintFrom (Line.escape_not_mem_spans h) none rest

/-- The mnemonic of an instruction is a word of at most three letters. -/
theorem Instruction.mnemonic_word (i : Instruction) :
    i.mnemonic.toList ≠ [] ∧ (∀ c ∈ i.mnemonic.toList, isGap c = false ∧ c ≠ '\n') ∧
      i.mnemonic.toList.length ≤ 3 := by
  cases i <;> simp [Instruction.mnemonic, isGap]

/-- An instruction is filled up with blanks where its source has a tab, also if it has no operands,
    so that in this case a blank stands at the end of the line. -/
theorem tidy_bare_inst (i : Instruction) :
    tidy (Line.inst i).bare = tidy (Line.inst i).text.toList := by
  obtain ⟨hne, hword, hlen⟩ := i.mnemonic_word
  have hgap : ∀ c ∈ i.mnemonic.toList, isGap c = false := fun c hc => (hword c hc).1
  -- what fills the mnemonic up is a gap
  obtain ⟨pad, hpad, hblank, hcs⟩ : ∃ pad : List Char, pad ≠ [] ∧ (∀ c ∈ pad, isGap c = true) ∧
      (Line.inst i).bare =
        [' ', ' ', ' ', ' '] ++ (i.mnemonic.toList ++ (pad ++ i.operands.toList)) := by
    refine ⟨List.replicate (6 - i.mnemonic.length) ' ', ?_, fun c hc => ?_, ?_⟩
    · rw [ne_eq, List.replicate_eq_nil_iff, ← String.length_toList]
      omega
    · rw [List.eq_of_mem_replicate hc]
      rfl
    · simp [Line.bare, Line.spans, Instruction.spans, Span.plain, Span.inColour,
        Instruction.padRight]
  have hbare : collapse (Line.inst i).bare =
      ' ' :: (i.mnemonic.toList ++ collapse (' ' :: i.operands.toList)) := by
    rw [hcs, collapse_set_in (List.cons_ne_nil _ _) (by simp [isGap]) hne hgap,
      collapse_gap hpad hblank]
  have htab : ['\t'] ≠ [] ∧ ∀ c ∈ ['\t'], isGap c = true :=
    ⟨List.cons_ne_nil _ _, List.forall_mem_singleton.mpr rfl⟩
  have hline : (Line.inst i).text.toList = ['\t'] ++ i.text.toList := by simp [Line.text]
  rw [tidy, tidy, hbare, hline, Instruction.text]
  split
  · rename_i hnone
    have htext := collapse_set_in htab.1 htab.2 hne hgap []
    have hm : '\n' ∉ i.mnemonic.toList := fun h => (hword _ h).2 rfl
    rw [List.append_nil] at htext
    rw [htext, hnone, collapse, List.append_nil]
    show ((' ' :: (i.mnemonic.toList ++ [' '])).splitOn '\n').map trim = _
    rw [List.splitOn_eq_singleton (by simp [hm]), List.splitOn_eq_singleton (by simp [hm]),
      List.map_singleton, List.map_singleton, ← List.cons_append, trim_blank]
  · have htext : (i.mnemonic ++ "\t" ++ i.operands).toList =
        i.mnemonic.toList ++ (['\t'] ++ i.operands.toList) := by simp
    rw [htext, collapse_set_in htab.1 htab.2 hne hgap, collapse_gap htab.1 htab.2]

/-- **The texts of the spans are the line**, up to blanks. -/
theorem tidy_bare (l : Line) : tidy l.bare = tidy l.text.toList := by
  cases l with
  | directive text => simp [Line.bare, Line.spans, Span.inColour, Line.text]
  | label name => simp [Line.bare, Line.spans, Span.inColour, Span.plain, Line.text]
  | inst i => exact tidy_bare_inst i
  | comment text => simp [Line.bare, Line.spans, Span.inColour, Line.text]
  | blank => rfl

/-! ## 4. Assembly -/

/-- A text without its colour sequences. -/
def uncoloured (text : String) : String := String.ofList (erase text.toList)

/-- The lines of a text, each trimmed, and with one blank for each run of blanks and tabs. -/
def tidyLines (text : String) : List String := (tidy text.toList).map String.ofList

/-- The text of these lines. -/
def tidied (text : String) : String := "\n".intercalate (tidyLines text)

/-- The texts that the lines take over have no escape characters in them. -/
def Assembly.EscapeFree (asm : Assembly) : Prop := ∀ l ∈ asm, l.EscapeFree

theorem tidy_text (asm : Assembly) :
    tidy asm.text.toList = asm.flatMap (fun l => tidy l.text.toList) ++ [[]] := by
  induction asm with
  | nil => rfl
  | cons l asm ih =>
    have hcs : (Assembly.text (l :: asm)).toList =
        l.text.toList ++ '\n' :: (Assembly.text asm).toList := by
      simp [Assembly.text, String.join_cons]
    rw [hcs, tidy_newline, ih, List.flatMap_cons, List.append_assoc]

theorem tidy_erase_painted {asm : Assembly} (h : asm.EscapeFree) :
    tidy (erase asm.painted.toList) = asm.flatMap (fun l => tidy l.text.toList) ++ [[]] := by
  induction asm with
  | nil =>
    have hcs : (Assembly.painted []).toList = [] := rfl
    rw [hcs, erase_nil]
    rfl
  | cons l asm ih =>
    obtain ⟨hl, hasm⟩ := List.forall_mem_cons.mp h
    have hcs : (Assembly.painted (l :: asm)).toList =
        l.painted.toList ++ (['\n'] ++ (Assembly.painted asm).toList) := by
      simp [Assembly.painted, String.join_cons]
    rw [hcs, erase_painted hl, erase_append (by decide)]
    show tidy (l.bare ++ '\n' :: erase _) = _
    rw [tidy_newline, tidy_bare, ih hasm, List.flatMap_cons, List.append_assoc]

/-- **The two renderings agree.** If no text that is given for a directive, a label, a comment or a
    call has an escape character in it, the coloured assembly without its colours and the source
    text are the same text once they are tidied up. They have the same lines, which are those of the
    lines of the assembly in order, whatever instructions, registers, numbers and offsets there
    are. -/
theorem painted_agrees_with_text {asm : Assembly} (h : asm.EscapeFree) :
    tidied (uncoloured asm.painted) = tidied asm.text ∧
    tidyLines (uncoloured asm.painted) = asm.flatMap (fun l : Line => tidyLines l.text) ++ [""] ∧
    tidyLines asm.text = asm.flatMap (fun l : Line => tidyLines l.text) ++ [""] ∧
    ∀ l ∈ asm, tidyLines (uncoloured l.painted) = tidyLines l.text := by
  have hlines : (asm.flatMap (fun l : Line => tidy l.text.toList) ++ [[]]).map String.ofList =
      asm.flatMap (fun l : Line => tidyLines l.text) ++ [""] := by
    rw [List.map_append, List.map_flatMap]
    rfl
  have htext : tidyLines asm.text = asm.flatMap (fun l : Line => tidyLines l.text) ++ [""] := by
    rw [tidyLines, tidy_text, hlines]
  have hpainted : tidyLines (uncoloured asm.painted) =
      asm.flatMap (fun l : Line => tidyLines l.text) ++ [""] := by
    rw [tidyLines, uncoloured, String.toList_ofList, tidy_erase_painted h, hlines]
  refine ⟨?_, hpainted, htext, fun l hl => ?_⟩
  · rw [tidied, tidied, hpainted, htext]
  · have herase := erase_painted (h l hl) []
    rw [List.append_nil, erase_nil, List.append_nil] at herase
    rw [tidyLines, tidyLines, uncoloured, String.toList_ofList, herase, tidy_bare]

/-- A call of a label with tabs in it, and a return, which has no operands. -/
def tabbedSample : Assembly := [.comment "two  blanks", .inst (.bl "\t_a\t b"), .inst .ret]

/-- The coloured text of the sample has no tab in front of the label and three blanks behind `ret`,
    and still the same lines. -/
theorem painted_agrees_of_tabs :
    tabbedSample.EscapeFree ∧ tidied (uncoloured tabbedSample.painted) = tidied tabbedSample.text ∧
      tidyLines (uncoloured tabbedSample.painted) = ["; two blanks", "bl _a b", "ret", ""] := by
  have hfree : tabbedSample.EscapeFree := by
    refine List.forall_mem_cons.mpr ⟨?_, List.forall_mem_cons.mpr
      ⟨?_, List.forall_mem_singleton.mpr ?_⟩⟩
    · intro text ht
      cases ht
      decide
    · intro text ht
      cases ht
      decide
    · intro text ht
      cases ht
  obtain ⟨hagree, hlines, _⟩ := painted_agrees_with_text hfree
  exact ⟨hfree, hagree, hlines.trans (by cbv)⟩

end Osclan
