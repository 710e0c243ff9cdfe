/-
  File:      Osclan/Proofs/Disassembly.lean
  Subject:   Which instruction a text stands for.

  The text of an instruction is a mnemonic and, behind a tab, its operands. The reader here goes the
  other way. It takes the mnemonic up to the first tab, and then the registers, numbers and marks
  that the mnemonic calls for, each from the head of what is left. It is lenient: leading zeros
  pass, and so does what stands behind the last operand. So what it reads is written out again and
  compared.

  * `Disassembly.number`, `Disassembly.signed` -- numerals at the head of a text;
  * `Disassembly.reg?`, `operand?`, `address?` -- operands;
  * `Instruction.ofText?` -- the instruction of a text;
  * `withOperands?_operands` -- the operands of an instruction are read back;
  * **`text_unambiguous`** -- the texts that are read, and what they are read as.
-/
import Mathlib
import Osclan.Instruction
import Osclan.Proofs.Lexeme

namespace Osclan

namespace Disassembly

/-! ## 1. Numerals -/

/-- The value of a digit in a base up to 16, and 16 for a character that is no digit. -/
def digitValue (c : Char) : Nat :=
  if c.isDigit then c.toNat - '0'.toNat
  else if 'a' ≤ c ∧ c ≤ 'f' then c.toNat - 'a'.toNat + 10
  else 16

/-- The character is a digit in the base. -/
def isDigitOf (base : Nat) (c : Char) : Bool := digitValue c < base

/-- The number that digits denote. -/
def valueOf (base : Nat) (digits : List Char) : Nat :=
  digits.foldl (fun n c => base * n + digitValue c) 0

/-- The number at the head of a text, and the text behind it. -/
def number (base : Nat) (cs : List Char) : Nat × List Char :=
  (valueOf base (cs.takeWhile (isDigitOf base)), cs.dropWhile (isDigitOf base))

/-- The same with a sign allowed in front. -/
def signed : List Char → Int × List Char
  | '-' :: cs => (-(number 10 cs).1, (number 10 cs).2)
  | cs => ((number 10 cs).1, (number 10 cs).2)

theorem digitValue_digitChar {d : Nat} (h : d < 16) : digitValue d.digitChar = d := by
  interval_cases d <;> rfl

/-- **Digits denote the number they are the digits of.** -/
theorem valueOf_toDigits (base : Nat) (hlow : 1 < base) (hhigh : base ≤ 16) (n : Nat) :
    valueOf base (Nat.toDigits base n) = n := by
  induction n using Nat.strongRecOn with
  | ind n ih =>
    by_cases hlt : n < base
    · rw [Nat.toDigits_of_lt_base hlt, valueOf, List.foldl_cons, List.foldl_nil,
        digitValue_digitChar (by omega)]
      omega
    · have hdiv : valueOf base (Nat.toDigits base (n / base)) = n / base :=
        ih (n / base) (Nat.div_lt_self (by omega) hlow)
      have hmod : n % base < 16 := (Nat.mod_lt n (by omega)).trans_le hhigh
      rw [Nat.toDigits_of_base_le hlow (Nat.le_of_not_lt hlt), valueOf, List.foldl_append]
      rw [valueOf] at hdiv
      rw [hdiv, List.foldl_cons, List.foldl_nil, digitValue_digitChar hmod]
      exact Nat.div_add_mod n base

theorem isDigitOf_of_mem_toDigits (base : Nat) (hlow : 1 < base) (hhigh : base ≤ 16) (n : Nat) :
    ∀ c ∈ Nat.toDigits base n, isDigitOf base c = true := by
  induction n using Nat.strongRecOn with
  | ind n ih =>
    have hdigit : ∀ d, d < base → isDigitOf base d.digitChar = true := by
      intro d hd
      rw [isDigitOf, digitValue_digitChar (by omega)]
      exact decide_eq_true hd
    by_cases hlt : n < base
    · rw [Nat.toDigits_of_lt_base hlt]
      exact List.forall_mem_singleton.mpr (hdigit n hlt)
    · rw [Nat.toDigits_of_base_le hlow (Nat.le_of_not_lt hlt)]
      exact List.forall_mem_append.mpr ⟨ih (n / base) (Nat.div_lt_self (by omega) hlow),
        List.forall_mem_singleton.mpr (hdigit _ (Nat.mod_lt n (by omega)))⟩

/-- **A numeral is read back**, if no digit stands behind it. -/
theorem number_toDigits (base : Nat) (hlow : 1 < base) (hhigh : base ≤ 16) (n : Nat)
    (rest : List Char) (hrest : rest.head?.any (isDigitOf base) = false) :
    number base (Nat.toDigits base n ++ rest) = (n, rest) := by
  have hrun : Run (isDigitOf base) (Nat.toDigits base n) rest :=
    ⟨isDigitOf_of_mem_toDigits base hlow hhigh n, hrest⟩
  rw [number, hrun.takeWhile_eq, hrun.dropWhile_eq, valueOf_toDigits base hlow hhigh]

theorem number_repr (n : Nat) (rest : List Char)
    (hrest : rest.head?.any (isDigitOf 10) = false) :
    number 10 (n.repr.toList ++ rest) = (n, rest) := by
  rw [Nat.toList_repr]
  exact number_toDigits 10 (by decide) (by decide) n rest hrest

/-- A numeral does not begin with the sign. -/
theorem repr_ne_minus (n : Nat) (rest cs : List Char) : n.repr.toList ++ rest ≠ '-' :: cs := by
  intro h
  have hdigits := isDigitOf_of_mem_toDigits 10 (by decide) (by decide) n
  obtain ⟨d, ds, hd⟩ := List.exists_cons_of_ne_nil (Nat.toDigits_ne_nil (n := n) (b := 10))
  rw [Nat.toList_repr, hd, List.cons_append] at h
  obtain ⟨rfl, _⟩ := List.cons.inj h
  rw [hd] at hdigits
  exact absurd (hdigits _ List.mem_cons_self) (by decide)

theorem signed_repr (z : Int) (rest : List Char)
    (hrest : rest.head?.any (isDigitOf 10) = false) :
    signed (z.repr.toList ++ rest) = (z, rest) := by
  rw [Int.repr_eq_if]
  split
  · rename_i hz
    rw [signed.eq_2 _ (repr_ne_minus z.toNat rest), number_repr z.toNat rest hrest]
    exact Prod.ext (Int.toNat_of_nonneg hz) rfl
  · rename_i hz
    have hcs : ("-" ++ (-z).toNat.repr).toList ++ rest =
        '-' :: ((-z).toNat.repr.toList ++ rest) := by
      rw [String.toList_append]
      rfl
    have hneg : (((-z).toNat : Nat) : Int) = -z := Int.toNat_of_nonneg (by omega)
    rw [hcs, signed, number_repr _ rest hrest, hneg, Int.neg_neg]

/-! ## 2. Operands -/

/-- The register at the head of a text, and the text behind it. -/
def reg? : List Char → Option (Reg × List Char)
  | 's' :: 'p' :: cs => some (.sp, cs)
  | 'x' :: cs =>
    if h : (number 10 cs).1 < 31 then some (.x ⟨(number 10 cs).1, h⟩, (number 10 cs).2) else none
  | _ => none

/-- What stands behind the comma between two operands. -/
def comma? : List Char → Option (List Char)
  | ',' :: ' ' :: cs => some cs
  | _ => none

/-- The second operand of a move. -/
def operand? : List Char → Option Operand
  | '#' :: cs => some (.imm (UInt64.ofNat (number 10 cs).1))
  | cs => (reg? cs).map fun r => .reg r.1

/-- Where a pair is loaded or stored. The bracket closes in front of the offset or behind it. -/
def address? : List Char → Option Address
  | '[' :: cs => do
    let (base, cs) ← reg? cs
    match cs with
    | ',' :: ' ' :: '#' :: cs => some (.preIndex base (Int64.ofInt (signed cs).1))
    | ']' :: ',' :: ' ' :: '#' :: cs => some (.postIndex base (Int64.ofInt (signed cs).1))
    | _ => none
  | _ => none

/-- The operands of a load or a store. -/
def pair? (cs : List Char) : Option (Reg × Reg × Address) := do
  let (first, cs) ← reg? cs
  let (second, cs) ← reg? (← comma? cs)
  return (first, second, ← address? (← comma? cs))

theorem reg?_text (r : Reg) (rest : List Char) (hrest : rest.head?.any (isDigitOf 10) = false) :
    reg? (r.text.toList ++ rest) = some (r, rest) := by
  cases r with
  | sp => rfl
  | x n =>
    have hcs : (Reg.x n).text.toList ++ rest = 'x' :: (n.val.repr.toList ++ rest) := by
      rw [Reg.text, String.toList_append]
      rfl
    rw [hcs, reg?]
    simp only [number_repr n.val rest hrest, n.isLt, dite_true]

theorem operand?_text (o : Operand) : operand? o.text.toList = some o := by
  cases o with
  | imm n =>
    have hcs : (Operand.imm n).text.toList = '#' :: (n.toNat.repr.toList ++ []) := by
      rw [Operand.text, String.toList_append, List.append_nil]
      rfl
    rw [hcs, operand?, number_repr n.toNat [] rfl, UInt64.ofNat_toNat]
  | reg r =>
    have hreg : reg? (r.text.toList ++ []) = some (r, []) := reg?_text r [] rfl
    rw [List.append_nil] at hreg
    have hplain : operand? r.text.toList = (reg? r.text.toList).map fun r => .reg r.1 := by
      rw [operand?.eq_2]
      intro cs hcs
      rw [hcs] at hreg
      cases hreg
    rw [Operand.text, hplain, hreg]
    rfl

theorem address?_text (a : Address) : address? a.text.toList = some a := by
  cases a with
  | preIndex base offset =>
    have hcs : (Address.preIndex base offset).text.toList =
        '[' :: (base.text.toList ++
          ',' :: ' ' :: '#' :: (offset.toInt.repr.toList ++ "]!".toList)) := by
      simp [Address.text, String.toList_append]
    rw [hcs, address?, reg?_text base _ rfl, Option.bind_eq_bind, Option.bind_some]
    simp only [signed_repr offset.toInt "]!".toList rfl, Int64.ofInt_toInt]
  | postIndex base offset =>
    have hcs : (Address.postIndex base offset).text.toList =
        '[' :: (base.text.toList ++
          ']' :: ',' :: ' ' :: '#' :: (offset.toInt.repr.toList ++ [])) := by
      simp [Address.text, String.toList_append]
    rw [hcs, address?, reg?_text base _ rfl, Option.bind_eq_bind, Option.bind_some]
    simp only [signed_repr offset.toInt [] rfl, Int64.ofInt_toInt]

theorem pair?_text (first second : Reg) (a : Address) :
    pair? (first.text ++ ", " ++ second.text ++ ", " ++ a.text).toList =
      some (first, second, a) := by
  have hcs : (first.text ++ ", " ++ second.text ++ ", " ++ a.text).toList =
      first.text.toList ++ ',' :: ' ' :: (second.text.toList ++ ',' :: ' ' :: a.text.toList) := by
    simp [String.toList_append]
  rw [hcs, pair?]
  simp only [reg?_text first (',' :: _) rfl, reg?_text second (',' :: _) rfl, comma?,
    address?_text, Option.bind_eq_bind, Option.bind_some, Option.pure_def]

/-! ## 3. Instructions -/

/-- The instruction of a mnemonic and the text of its operands. -/
def withOperands? (mnemonic : String) (cs : List Char) : Option Instruction :=
  match mnemonic with
  | "mov" => do
    let (dest, cs) ← reg? cs
    return .mov dest (← operand? (← comma? cs))
  | "ldp" => (pair? cs).map fun p => .ldp p.1 p.2.1 p.2.2
  | "stp" => (pair? cs).map fun p => .stp p.1 p.2.1 p.2.2
  | "bl" => some (.bl (String.ofList cs))
  | "ret" => some .ret
  | "svc" =>
    match cs with
    | '#' :: '0' :: 'x' :: cs => some (.svc (UInt16.ofNat (number 16 cs).1))
    | _ => none
  | _ => none

/-- The mnemonic is what stands in front of the first tab. -/
def instruction? (cs : List Char) : Option Instruction :=
  withOperands? (String.ofList (cs.takeWhile (· ≠ '\t'))) ((cs.dropWhile (· ≠ '\t')).drop 1)

/-- **The operands of an instruction are read back** behind its mnemonic. -/
theorem withOperands?_operands (i : Instruction) :
    withOperands? i.mnemonic i.operands.toList = some i := by
  cases i with
  | mov dest value =>
    have hcs : (Instruction.mov dest value).operands.toList =
        dest.text.toList ++ ',' :: ' ' :: value.text.toList := by
      simp [Instruction.operands, String.toList_append]
    rw [hcs, Instruction.mnemonic, withOperands?]
    simp only [reg?_text dest (',' :: _) rfl, comma?, operand?_text, Option.bind_eq_bind,
      Option.bind_some, Option.pure_def]
  | ldp first second address =>
    rw [Instruction.mnemonic, Instruction.operands, withOperands?, pair?_text]
    rfl
  | stp first second address =>
    rw [Instruction.mnemonic, Instruction.operands, withOperands?, pair?_text]
    rfl
  | bl label =>
    rw [Instruction.mnemonic, Instruction.operands, withOperands?, String.ofList_toList]
  | ret => rfl
  | svc n =>
    have hcs : (Instruction.svc n).operands.toList =
        '#' :: '0' :: 'x' :: (Nat.toDigits 16 n.toNat ++ []) := by
      simp [Instruction.operands, Instruction.hexText, String.toList_append]
    rw [hcs, Instruction.mnemonic, withOperands?]
    simp only [number_toDigits 16 (by decide) (by decide) n.toNat [] rfl, UInt16.ofNat_toNat]

/-- The text of an instruction is cut behind its mnemonic, which has no tab. -/
theorem instruction?_text (i : Instruction) : instruction? i.text.toList = some i := by
  have hname : '\t' ∉ i.mnemonic.toList := by
    cases i <;> simp [Instruction.mnemonic]
  have hcut : ∀ rest : List Char, rest.head?.any (fun c => decide (c ≠ '\t')) = false →
      instruction? (i.mnemonic.toList ++ rest) = withOperands? i.mnemonic (rest.drop 1) := by
    intro rest hrest
    have hrun : Run (fun c => decide (c ≠ '\t')) i.mnemonic.toList rest :=
      ⟨fun c hc => decide_eq_true fun e => hname (e ▸ hc), hrest⟩
    rw [instruction?, hrun.takeWhile_eq, hrun.dropWhile_eq, String.ofList_toList]
  rw [← withOperands?_operands i, Instruction.text]
  split
  · rename_i hnone
    have hempty := hcut [] rfl
    rw [List.append_nil] at hempty
    rw [hempty, hnone]
    rfl
  · have htab : (i.mnemonic ++ "\t" ++ i.operands).toList =
        i.mnemonic.toList ++ '\t' :: i.operands.toList := by
      simp [String.toList_append]
    rw [htab, hcut _ rfl]
    rfl

end Disassembly

/-- The instruction that a text stands for. -/
def Instruction.ofText? (t : String) : Option Instruction :=
  (Disassembly.instruction? t.toList).filter fun i => i.text = t

/-- **The text of an instruction is unambiguous.** The reader takes exactly the texts of
    instructions, and reads each as the instruction it is the text of: whatever the registers, the
    64-bit immediate, the signed offset, the number of the system call and the label are. So two
    instructions share a text only if they are one. -/
theorem text_unambiguous (t : String) (i j : Instruction) :
    (Instruction.ofText? t = some i ↔ t = i.text) ∧ (i.text = j.text ↔ i = j) := by
  have hread : ∀ i : Instruction, Instruction.ofText? i.text = some i := by
    intro i
    rw [Instruction.ofText?, Disassembly.instruction?_text]
    simp
  refine ⟨⟨fun h => ?_, fun h => ?_⟩, fun h => ?_, fun h => congrArg _ h⟩
  · obtain ⟨_, hwritten⟩ := Option.filter_eq_some_iff.mp h
    exact (of_decide_eq_true hwritten).symm
  · rw [h]
    exact hread i
  · exact Option.some.inj ((hread i).symm.trans ((congrArg _ h).trans (hread j)))

end Osclan
