/-
  File:      Osclan/Proofs/Machine.lean
  Subject:   The machine that assembly is made for.

  The machine has the registers that instructions name, a program counter, and a memory of bytes for
  data. Code is held apart from data: it stands in an image, an assembly loaded at some address, and
  no instruction writes to it. Each instruction takes four bytes there, labels and the other lines
  take none.

  Arithmetic is that of 64-bit words, so a base register that is moved may wrap. Executions are those
  in which it does not. A call of the system has no successor here: the system takes over.

  * `Memory.load`, `Memory.store` -- words in memory, the lowest byte first;
  * `Image`, `Image.fetch`, `Image.entry?` -- loaded code, and what its labels stand for;
  * `Image.exec` -- the instructions;
  * `Executes` -- the instructions executed from one state to another;
  * `openCalls` -- how many calls are open after some instructions.
-/
import Mathlib
import Osclan.Assembly

namespace Osclan

/-! ## 1. Memory -/

/-- Data memory: a byte at every address. -/
def Memory := UInt64 → UInt8

namespace Memory

/-- The lowest `k` bytes of a number, the lowest first. -/
def bytes : Nat → Nat → List UInt8
  | 0, _ => []
  | k + 1, n => UInt8.ofNat n :: bytes k (n / 256)

/-- The number that bytes make up. -/
def number : List UInt8 → Nat
  | [] => 0
  | b :: bs => b.toNat + 256 * number bs

theorem length_bytes (k n : Nat) : (bytes k n).length = k := by
  induction k generalizing n with
  | zero => rfl
  | succ k ih => rw [bytes, List.length_cons, ih]

theorem number_bytes (k n : Nat) : number (bytes k n) = n % 256 ^ k := by
  induction k generalizing n with
  | zero => rw [bytes, number, Nat.pow_zero, Nat.mod_one]
  | succ k ih =>
    rw [bytes, number, ih, UInt8.toNat_ofNat']
    show n % 256 + 256 * (n / 256 % 256 ^ k) = n % 256 ^ (k + 1)
    rw [Nat.pow_succ', Nat.mod_mul]

/-- The word at an address. -/
def load (m : Memory) (a : UInt64) : UInt64 :=
  UInt64.ofNat (number ((List.range 8).map fun i => m (a + UInt64.ofNat i)))

/-- The memory with a word at an address. -/
def store (m : Memory) (a v : UInt64) : Memory :=
  fun x => (bytes 8 v.toNat)[(x - a).toNat]?.getD (m x)

/-- The distance of an address behind another. -/
theorem toNat_add_ofNat_sub (a : UInt64) {i : Nat} (h : i < 2 ^ 64) :
    (a + UInt64.ofNat i - a).toNat = i := by
  rw [add_sub_cancel_left, UInt64.toNat_ofNat_of_lt' h]

/-- **What is stored is loaded.** -/
theorem load_store (m : Memory) (a v : UInt64) : (m.store a v).load a = v := by
  have hbytes : ((List.range 8).map fun i => m.store a v (a + UInt64.ofNat i)) =
      bytes 8 v.toNat := by
    refine List.ext_getElem (by rw [length_bytes, List.length_map, List.length_range]) ?_
    intro i hi hi'
    rw [length_bytes] at hi'
    rw [List.getElem_map, List.getElem_range, store, toNat_add_ofNat_sub a (by omega),
      List.getElem?_eq_getElem (by rw [length_bytes]; exact hi'), Option.getD_some]
  have hv : v.toNat % 256 ^ 8 = v.toNat := Nat.mod_eq_of_lt v.toNat_lt
  rw [load, hbytes, number_bytes, hv, UInt64.ofNat_toNat]

/-- Bytes outside the word stay. -/
theorem store_of_le (m : Memory) {a v x : UInt64} (h : 8 ≤ (x - a).toNat) :
    m.store a v x = m x := by
  rw [store, List.getElem?_eq_none (by rw [length_bytes]; exact h), Option.getD_none]

/-- A word depends on its bytes. -/
theorem load_congr {m m' : Memory} {a : UInt64}
    (h : ∀ i < 8, m (a + UInt64.ofNat i) = m' (a + UInt64.ofNat i)) : m.load a = m'.load a := by
  have hbytes : ((List.range 8).map fun i => m (a + UInt64.ofNat i)) =
      (List.range 8).map fun i => m' (a + UInt64.ofNat i) :=
    List.map_congr_left fun i hi => h i (List.mem_range.mp hi)
  rw [load, load, hbytes]

/-- Two words in a row do not meet. -/
theorem load_store_pair (m : Memory) (a v w : UInt64) :
    ((m.store a v).store (a + 8) w).load a = v := by
  refine Eq.trans (load_congr fun i hi => store_of_le _ ?_) (load_store m a v)
  have hi' : (UInt64.ofNat i).toNat = i :=
    UInt64.toNat_ofNat_of_lt' (show i < 2 ^ 64 by omega)
  have h8 : UInt64.toNat 8 = 8 := rfl
  rw [UInt64.toNat_sub, UInt64.toNat_add, UInt64.toNat_add]
  omega

theorem toNat_sub_sixteen {a : UInt64} (h : 16 ≤ a.toNat) : (a - 16).toNat + 16 = a.toNat := by
  have h16 : UInt64.toNat 16 = 16 := rfl
  have ha := a.toNat_lt
  rw [UInt64.toNat_sub]
  omega

/-- Two words that end at an address change no byte at or above it. -/
theorem store_pair_of_le (m : Memory) {a v w x : UInt64} (ha : 16 ≤ a.toNat) (hx : a ≤ x) :
    (m.store (a - 16) v).store (a - 16 + 8) w x = m x := by
  have hsub := toNat_sub_sixteen ha
  have hx' : a.toNat ≤ x.toNat := UInt64.le_iff_toNat_le.mp hx
  have hlt := x.toNat_lt
  have h8 : UInt64.toNat 8 = 8 := rfl
  rw [store_of_le, store_of_le]
  · rw [UInt64.toNat_sub x]
    omega
  · rw [UInt64.toNat_sub x, UInt64.toNat_add]
    omega

/-- A word in the sixteen bytes below an address depends on the bytes from their beginning on. -/
theorem load_eq_of_above {m m' : Memory} {a : UInt64} {d : Nat} (ha : 16 ≤ a.toNat) (hd : d ≤ 8)
    (h : ∀ x, a - 16 ≤ x → m x = m' x) :
    m.load (a - 16 + UInt64.ofNat d) = m'.load (a - 16 + UInt64.ofNat d) := by
  refine load_congr fun i hi => h _ (UInt64.le_iff_toNat_le.mpr ?_)
  have hsub := toNat_sub_sixteen ha
  have hlt := a.toNat_lt
  have hi' : (UInt64.ofNat i).toNat = i :=
    UInt64.toNat_ofNat_of_lt' (show i < 2 ^ 64 by omega)
  have hd' : (UInt64.ofNat d).toNat = d :=
    UInt64.toNat_ofNat_of_lt' (show d < 2 ^ 64 by omega)
  rw [UInt64.toNat_add, UInt64.toNat_add]
  omega

end Memory

/-! ## 2. States -/

/-- A state of the machine. -/
structure Machine where
  regs : Reg → UInt64
  pc : UInt64
  mem : Memory

namespace Machine

/-- The stack pointer. -/
def sp (s : Machine) : UInt64 := s.regs .sp

/-- The value of the second operand of a move. -/
def value (s : Machine) : Operand → UInt64
  | .reg r => s.regs r
  | .imm n => n

end Machine

namespace Address

/-- The register that is moved. -/
def base : Address → Reg
  | .preIndex base _ => base
  | .postIndex base _ => base

/-- The bytes it is moved by. -/
def offset : Address → Int64
  | .preIndex _ offset => offset
  | .postIndex _ offset => offset

/-- The base register after it has been moved. -/
def moved (a : Address) (s : Machine) : UInt64 := s.regs a.base + a.offset.toUInt64

/-- Where the pair is accessed. -/
def place (a : Address) (s : Machine) : UInt64 :=
  match a with
  | .preIndex .. => a.moved s
  | .postIndex base _ => s.regs base

/-- The base register leaves the address space when it is moved. -/
def Wraps (a : Address) (s : Machine) : Prop :=
  (s.regs a.base).toNat + a.offset.toInt < 0 ∨ 2 ^ 64 ≤ (s.regs a.base).toNat + a.offset.toInt

end Address

/-- The instruction makes a base register wrap. -/
def Instruction.Wraps (s : Machine) : Instruction → Prop
  | .stp _ _ a => a.Wraps s
  | .ldp _ _ a => a.Wraps s
  | _ => False

/-! ## 3. Images -/

namespace Assembly

/-- The instructions, in order. -/
def instructions (asm : Assembly) : List Instruction :=
  asm.filterMap fun
    | .inst i => some i
    | _ => none

/-- The number of instructions before the first label of the name. -/
def target? (name : String) : Assembly → Option Nat
  | [] => none
  | .label other :: rest => if other = name then some 0 else target? name rest
  | .inst _ :: rest => (target? name rest).map (· + 1)
  | _ :: rest => target? name rest

end Assembly

/-- An assembly that has been loaded at an address, with room for all its instructions. -/
structure Image where
  asm : Assembly
  base : UInt64
  fits : base.toNat + 4 * asm.instructions.length ≤ 2 ^ 64

namespace Image

/-- The address of an instruction. -/
def addr (img : Image) (k : Nat) : UInt64 := img.base + UInt64.ofNat (4 * k)

/-- The instruction at an address. -/
def fetch (img : Image) (pc : UInt64) : Option Instruction :=
  if (pc - img.base).toNat % 4 = 0 then img.asm.instructions[(pc - img.base).toNat / 4]? else none

/-- The address that a label stands for. -/
def entry? (img : Image) (name : String) : Option UInt64 := (img.asm.target? name).map img.addr

theorem addr_succ (img : Image) (k : Nat) : img.addr (k + 1) = img.addr k + 4 := by
  rw [addr, addr, add_assoc, Nat.mul_succ, UInt64.ofNat_add]
  rfl

/-- **The instructions stand at their addresses.** -/
theorem fetch_addr (img : Image) {k : Nat} {i : Instruction}
    (h : img.asm.instructions[k]? = some i) : img.fetch (img.addr k) = some i := by
  have hk : k < img.asm.instructions.length := (List.getElem?_eq_some_iff.mp h).1
  have hdist : (img.addr k - img.base).toNat = 4 * k := by
    rw [addr]
    exact Memory.toNat_add_ofNat_sub _ (by have := img.fits; omega)
  rw [fetch, hdist, if_pos (Nat.mul_mod_right 4 k), Nat.mul_div_cancel_left k (by decide), h]

/-- The state after an instruction. There is none after a call of the system, and none after a call
    of a label that is not there. -/
def exec (img : Image) (s : Machine) : Instruction → Option Machine
  | .mov dest v =>
    some { s with regs := Function.update s.regs dest (s.value v), pc := s.pc + 4 }
  | .stp first second a =>
    some { regs := Function.update s.regs a.base (a.moved s), pc := s.pc + 4,
           mem := (s.mem.store (a.place s) (s.regs first)).store (a.place s + 8) (s.regs second) }
  | .ldp first second a =>
    let loaded := Function.update (Function.update s.regs first (s.mem.load (a.place s))) second
      (s.mem.load (a.place s + 8))
    some { s with regs := Function.update loaded a.base (a.moved s), pc := s.pc + 4 }
  | .bl label =>
    (img.entry? label).map fun target =>
      { s with regs := Function.update s.regs .lr (s.pc + 4), pc := target }
  | .ret => some { s with pc := s.regs .lr }
  | .svc _ => none

end Image

/-! ## 4. Executions -/

/-- From the first state the image executes the instructions, and is then in the second state. No
    base register wraps on the way. -/
inductive Executes (img : Image) : Machine → List Instruction → Machine → Prop where
  | nil {s : Machine} : Executes img s [] s
  | cons {s t u : Machine} {i : Instruction} {is : List Instruction} :
      img.fetch s.pc = some i → ¬ i.Wraps s → img.exec s i = some t → Executes img t is u →
      Executes img s (i :: is) u

/-- No base register wraps in any execution from the state on. -/
def NeverWraps (img : Image) (s : Machine) : Prop :=
  ∀ is t i, Executes img s is t → img.fetch t.pc = some i → ¬ i.Wraps t

section

variable {img : Image} {s t u : Machine} {is js : List Instruction}

theorem Executes.append (h : Executes img s is t) (h' : Executes img t js u) :
    Executes img s (is ++ js) u := by
  induction h with
  | nil => exact h'
  | cons hf hw he _ ih => exact .cons hf hw he (ih h')

theorem Executes.of_append : ∀ {is : List Instruction} {s : Machine},
    Executes img s (is ++ js) u → ∃ t, Executes img s is t ∧ Executes img t js u
  | [], s, h => ⟨s, .nil, h⟩
  | i :: is, s, h => by
    cases h with
    | cons hf hw he hr =>
      obtain ⟨t, h₁, h₂⟩ := Executes.of_append hr
      exact ⟨t, .cons hf hw he h₁, h₂⟩

theorem NeverWraps.after (hs : NeverWraps img s) (h : Executes img s is t) : NeverWraps img t :=
  fun _ _ _ ht hi => hs _ _ _ (h.append ht) hi

end

/-! ## 5. Open calls -/

/-- How many calls are open after the instructions, with `d` open before them; none if a return
    leaves more than the calls among them have opened. -/
def openCalls : Nat → List Instruction → Option Nat
  | d, [] => some d
  | d, .bl _ :: is => openCalls (d + 1) is
  | 0, .ret :: _ => none
  | d + 1, .ret :: is => openCalls d is
  | d, _ :: is => openCalls d is

/-- **The return that closes a call.** Where all calls are closed again, one that was open before is
    closed by a return; up to it the `c` calls opened later are closed, and behind it the `d` calls
    opened earlier. -/
theorem exists_closing_ret : ∀ {is : List Instruction} {c d : Nat},
    openCalls (c + d + 1) is = some 0 → ∃ inner rest, is = inner ++ .ret :: rest ∧
      openCalls c inner = some 0 ∧ openCalls d rest = some 0
  | [], c, d, h => by
    cases h
  | i :: is, c, d, h => by
    cases i with
    | bl label =>
      have h' : openCalls (c + 1 + d + 1) is = some 0 := by
        rw [Nat.add_right_comm c 1 d]
        exact h
      obtain ⟨inner, rest, rfl, hi, hr⟩ := exists_closing_ret h'
      exact ⟨.bl label :: inner, rest, rfl, hi, hr⟩
    | ret =>
      cases c with
      | zero =>
        rw [Nat.zero_add] at h
        exact ⟨[], is, rfl, rfl, h⟩
      | succ c =>
        have h' : openCalls (c + d + 1) is = some 0 := by
          rw [Nat.add_right_comm c 1 d] at h
          exact h
        obtain ⟨inner, rest, rfl, hi, hr⟩ := exists_closing_ret h'
        exact ⟨.ret :: inner, rest, rfl, hi, hr⟩
    | mov | ldp | stp | svc =>
      obtain ⟨inner, rest, rfl, hi, hr⟩ := @exists_closing_ret is c d h
      exact ⟨_ :: inner, rest, rfl, hi, hr⟩

/-- The other way round: a return closes a call that was open before. -/
theorem openCalls_append_ret : ∀ {inner rest : List Instruction} {c d : Nat},
    openCalls c inner = some 0 → openCalls d rest = some 0 →
      openCalls (c + d + 1) (inner ++ .ret :: rest) = some 0
  | [], rest, c, d, hi, hr => by
    obtain rfl : c = 0 := Option.some.inj hi
    rw [Nat.zero_add]
    exact hr
  | i :: inner, rest, c, d, hi, hr => by
    cases i with
    | bl label =>
      have h := @openCalls_append_ret inner rest (c + 1) d hi hr
      rw [Nat.add_right_comm c 1 d] at h
      exact h
    | ret =>
      cases c with
      | zero => cases hi
      | succ c =>
        have h := @openCalls_append_ret inner rest c d hi hr
        rw [Nat.add_right_comm c 1 d]
        exact h
    | mov | ldp | stp | svc => exact @openCalls_append_ret inner rest c d hi hr

end Osclan
