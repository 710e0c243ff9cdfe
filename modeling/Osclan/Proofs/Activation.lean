/-
  File:      Osclan/Proofs/Activation.lean
  Subject:   Activations of procedures.

  A procedure opens a frame of two words on the stack, in which it saves the link register and the
  frame pointer, makes its calls, and closes the frame before it returns. Each call overwrites the
  link register and opens frames of its own below; that nothing above is touched rests on the same
  of all procedures that are called, and so on the number of instructions executed.

  Whether an activation ends is another question. It does where no procedure calls itself through
  others: then the procedures on the way to the active one all differ, and each level of calls leaves
  one procedure less to call.

  * `Linked` -- an image that holds procedures which call each other;
  * `InFrame`, `executes_prologue`, `executes_epilogue` -- the frame of an activation;
  * `Linked.returned` -- what an activation that returns leaves behind;
  * `Linked.activation_ends` -- activations end where the call graph has no cycle.
-/
import Osclan.Assembly.Generate
import Osclan.Proofs.Machine

namespace Osclan

open Assembly

/-! ## 1. Code in an image -/

/-- From the `k`-th instruction on, the image holds the given ones. -/
def Image.Holds (img : Image) (k : Nat) (is : List Instruction) : Prop :=
  is <+: img.asm.instructions.drop k

section

variable {img : Image} {k : Nat} {i : Instruction} {is : List Instruction}

theorem Image.Holds.fetch (h : img.Holds k (i :: is)) : img.fetch (img.addr k) = some i := by
  obtain ⟨rest, hrest⟩ := h
  apply img.fetch_addr
  rw [← List.head?_drop, ← hrest]
  rfl

theorem Image.Holds.tail (h : img.Holds k (i :: is)) : img.Holds (k + 1) is := by
  obtain ⟨rest, hrest⟩ := h
  refine ⟨rest, ?_⟩
  rw [← List.tail_drop, ← hrest]
  rfl

end

/-- Procedures by their labels, each with the labels it calls, in order. -/
abbrev CallTable := List (String × List String)

namespace CallTable

/-- The procedure `x` calls the procedure `y`. -/
def Calls (procs : CallTable) (x y : String) : Prop := ∃ f ∈ procs, f.1 = x ∧ y ∈ f.2

/-- The instructions of a procedure. -/
def code (names : List String) : List Instruction :=
  prologue ++ (names.map .bl ++ epilogue)

end CallTable

/-- The image holds the procedures at their labels, and they call each other only. -/
structure Linked (img : Image) (procs : CallTable) : Prop where
  held : ∀ f ∈ procs, ∃ k, img.entry? f.1 = some (img.addr k) ∧ img.Holds k (CallTable.code f.2)
  closed : ∀ f ∈ procs, ∀ name ∈ f.2, ∃ g ∈ procs, g.1 = name

/-! ## 2. Frames -/

/-- What a procedure that was entered in `s` leaves behind when it returns. -/
structure Returned (s t : Machine) : Prop where
  sp : t.sp = s.sp
  fp : t.regs .fp = s.regs .fp
  pc : t.pc = s.regs .lr
  mem : ∀ x, s.sp ≤ x → t.mem x = s.mem x

/-- The procedure that was entered in `s₀` has opened its frame and makes its calls. -/
structure InFrame (s₀ s : Machine) : Prop where
  room : 16 ≤ s₀.sp.toNat
  sp : s.sp = s₀.sp - 16
  fp : s.regs .fp = s.sp
  savedLr : s.mem.load s.sp = s₀.regs .lr
  savedFp : s.mem.load (s.sp + 8) = s₀.regs .fp
  mem : ∀ x, s₀.sp ≤ x → s.mem x = s₀.mem x

/-- The state after the prologue. -/
def Machine.opened (s : Machine) : Machine where
  regs := Function.update (Function.update s.regs .sp (s.sp - 16)) .fp (s.sp - 16)
  pc := s.pc + 4 + 4
  mem := (s.mem.store (s.sp - 16) (s.regs .lr)).store (s.sp - 16 + 8) (s.regs .fp)

/-- The state after the epilogue. -/
def Machine.closed (s : Machine) : Machine where
  regs :=
    let loaded := Function.update (Function.update (Function.update s.regs .sp (s.regs .fp)) .lr
      (s.mem.load (s.regs .fp))) .fp (s.mem.load (s.regs .fp + 8))
    Function.update loaded .sp (s.regs .fp + 16)
  pc := s.mem.load (s.regs .fp)
  mem := s.mem

section

variable {img : Image} {s s₀ : Machine} {k : Nat} {rest : List Instruction}

/-- A frame fits above the beginning of memory exactly if the stack pointer does not wrap. -/
theorem not_wraps_frame_iff : ¬ (Address.preIndex .sp (-16)).Wraps s ↔ 16 ≤ s.sp.toNat := by
  have hlt : s.sp.toNat < 2 ^ 64 := UInt64.toNat_lt _
  have hoffset : (-16 : Int64).toInt = -16 := by decide
  show ¬ ((s.sp.toNat : Int) + (-16 : Int64).toInt < 0 ∨
    2 ^ 64 ≤ (s.sp.toNat : Int) + (-16 : Int64).toInt) ↔ _
  rw [hoffset]
  omega

theorem executes_prologue (hk : img.Holds k (prologue ++ rest)) (hpc : s.pc = img.addr k)
    (hroom : 16 ≤ s.sp.toNat) : Executes img s prologue s.opened := by
  have hmoved : s.regs .sp + (-16 : Int64).toUInt64 = s.sp - 16 := by
    rw [sub_eq_add_neg]
    rfl
  have hfirst : img.fetch s.pc = some (.stp .lr .fp (.preIndex .sp (-16))) := by
    rw [hpc]
    exact hk.fetch
  have hsecond : img.fetch (s.pc + 4) = some (.mov .fp (.reg .sp)) := by
    rw [hpc, ← img.addr_succ]
    exact hk.tail.fetch
  refine .cons hfirst (not_wraps_frame_iff.mpr hroom) rfl (.cons hsecond id ?_ .nil)
  simp only [Image.exec, Machine.value, Machine.opened, Address.base, Address.moved, Address.offset,
    Address.place, hmoved, Function.update_self]

theorem executes_epilogue (hk : img.Holds k epilogue) (hpc : s.pc = img.addr k)
    (hf : InFrame s₀ s) : Executes img s epilogue s.closed := by
  have hfirst : img.fetch s.pc = some (.mov .sp (.reg .fp)) := by
    rw [hpc]
    exact hk.fetch
  have hsecond : img.fetch (s.pc + 4) = some (.ldp .lr .fp (.postIndex .sp 16)) := by
    rw [hpc, ← img.addr_succ]
    exact hk.tail.fetch
  have hthird : img.fetch (s.pc + 4 + 4) = some .ret := by
    rw [hpc, ← img.addr_succ, ← img.addr_succ]
    exact hk.tail.tail.fetch
  have hwraps : ∀ t : Machine, t.regs .sp = s.regs .fp →
      ¬ (Address.postIndex .sp 16).Wraps t := by
    intro t ht
    have hsp := Memory.toNat_sub_sixteen hf.room
    have hlt : s₀.sp.toNat < 2 ^ 64 := UInt64.toNat_lt _
    have hoffset : (16 : Int64).toInt = 16 := by decide
    simp only [Address.Wraps, Address.base, Address.offset, hoffset, ht, hf.fp, hf.sp]
    omega
  have hmoved : Function.update s.regs Reg.sp (s.regs .fp) .sp = s.regs .fp :=
    Function.update_self ..
  refine .cons hfirst id rfl (.cons hsecond (hwraps _ hmoved) rfl (.cons hthird id ?_ .nil))
  have hne : Reg.lr ≠ Reg.sp ∧ Reg.lr ≠ Reg.fp := by decide
  simp only [Image.exec, Machine.value, Machine.closed, Address.base, Address.moved,
    Address.offset, Address.place, Function.update_self, Function.update_of_ne hne.1,
    Function.update_of_ne hne.2]
  rfl

theorem inFrame_opened (hroom : 16 ≤ s.sp.toNat) : InFrame s s.opened := by
  have hne : Reg.sp ≠ Reg.fp := by decide
  have hsp : s.opened.sp = s.sp - 16 := by
    simp only [Machine.sp, Machine.opened, Function.update_of_ne hne, Function.update_self]
  have hfp : s.opened.regs .fp = s.sp - 16 := by
    simp only [Machine.opened, Function.update_self]
  refine ⟨hroom, hsp, hfp.trans hsp.symm, ?_, ?_, ?_⟩
  · rw [hsp]
    exact Memory.load_store_pair _ _ _ _
  · rw [hsp]
    exact Memory.load_store _ _ _
  · intro x hx
    exact Memory.store_pair_of_le _ hroom hx

theorem InFrame.returned (h : InFrame s₀ s) : Returned s₀ s.closed := by
  have hfp : s.regs .fp = s₀.sp - 16 := h.fp.trans h.sp
  have hne : Reg.fp ≠ Reg.sp := by decide
  refine ⟨?_, ?_, ?_, h.mem⟩
  · simp only [Machine.sp, Machine.closed, Function.update_self, hfp, sub_add_cancel]
  · simp only [Machine.closed, Function.update_self, Function.update_of_ne hne, h.fp, h.savedFp]
  · simp only [Machine.closed, h.fp, h.savedLr]

/-- The state in which a procedure is entered that is called at `e`. -/
def Machine.called (s : Machine) (e : UInt64) : Machine :=
  { s with regs := Function.update s.regs .lr (s.pc + 4), pc := e }

theorem Machine.sp_called (s : Machine) (e : UInt64) : (s.called e).sp = s.sp := by
  have hne : Reg.sp ≠ Reg.lr := by decide
  simp only [Machine.sp, Machine.called, Function.update_of_ne hne]

/-- A called procedure returns behind the call. -/
theorem Returned.pc_called {e : UInt64} {t : Machine} (h : Returned (s.called e) t) :
    t.pc = s.pc + 4 := by
  rw [h.pc]
  simp only [Machine.called, Function.update_self]

theorem executes_call {name : String} {e : UInt64} (hk : img.Holds k (.bl name :: rest))
    (hpc : s.pc = img.addr k) (he : img.entry? name = some e) :
    Executes img s [.bl name] (s.called e) := by
  refine .cons (hpc ▸ hk.fetch) id ?_ .nil
  simp only [Image.exec, he, Option.map_some, Machine.called]

/-- **A call that returns leaves the caller in its frame,** behind the call. -/
theorem InFrame.call {e : UInt64} {t : Machine} (h : InFrame s₀ s)
    (ht : Returned (s.called e) t) : InFrame s₀ t ∧ t.pc = s.pc + 4 := by
  have hne : Reg.fp ≠ Reg.lr := by decide
  have hfp : (s.called e).regs .fp = s.regs .fp := by
    simp only [Machine.called, Function.update_of_ne hne]
  have hsp' : t.sp = s.sp := ht.sp.trans (s.sp_called e)
  have hmem : ∀ x, s₀.sp - 16 ≤ x → t.mem x = s.mem x := by
    intro x hx
    refine ht.mem x ?_
    rw [s.sp_called e, h.sp]
    exact hx
  refine ⟨⟨h.room, hsp'.trans h.sp, ?_, ?_, ?_, ?_⟩, ?_⟩
  · rw [ht.fp, hfp, h.fp, hsp']
  · have hload := @Memory.load_eq_of_above _ _ _ 0 h.room (by decide) hmem
    rw [hsp', ← h.savedLr, h.sp]
    simpa using hload
  · have hload := @Memory.load_eq_of_above _ _ _ 8 h.room (by decide) hmem
    rw [hsp', ← h.savedFp, h.sp]
    exact hload
  · intro x hx
    have hsub := Memory.toNat_sub_sixteen h.room
    have hx' : s₀.sp.toNat ≤ x.toNat := UInt64.le_iff_toNat_le.mp hx
    rw [hmem x (UInt64.le_iff_toNat_le.mpr (by omega)), h.mem x hx]
  · exact ht.pc_called

end

/-! ## 3. Activations that return -/

section

variable {img : Image} {procs : CallTable} {s s₀ t u : Machine} {is js : List Instruction}

/-- What can be executed without a return is executed before the return. -/
theorem Executes.passes (h : Executes img s js u) (hjs : .ret ∉ js) : ∀ {is : List Instruction},
    Executes img s (is ++ [.ret]) t → ∃ is', is = js ++ is' ∧ Executes img u (is' ++ [.ret]) t := by
  induction h with
  | nil => exact fun h' => ⟨_, rfl, h'⟩
  | @cons s s₁ u i js hf hw he hr ih =>
    intro is h'
    have hi : Instruction.ret ≠ i := List.ne_of_not_mem_cons hjs
    cases is with
    | nil =>
      cases h' with
      | cons hf' =>
        rw [hf] at hf'
        exact absurd (Option.some.inj hf').symm hi
    | cons i' is =>
      cases h' with
      | cons hf' _ he' hr' =>
        rw [hf] at hf'
        obtain rfl := Option.some.inj hf'
        rw [he] at he'
        obtain rfl := Option.some.inj he'
        obtain ⟨is', rfl, h''⟩ := ih (List.not_mem_of_not_mem_cons hjs) hr'
        exact ⟨is', rfl, h''⟩

/-- Where a return can be executed and no call is open, nothing else is executed before it. -/
theorem Executes.last (h : Executes img s [.ret] u) (h' : Executes img s (is ++ [.ret]) t)
    (ho : openCalls 0 is = some 0) : is = [] ∧ t = u := by
  cases h with
  | cons hf _ he hn =>
    cases hn
    cases is with
    | nil =>
      cases h' with
      | cons _ _ he' hn' =>
        cases hn'
        rw [he] at he'
        exact ⟨rfl, (Option.some.inj he').symm⟩
    | cons i is =>
      cases h' with
      | cons hf' =>
        rw [hf] at hf'
        obtain rfl := Option.some.inj hf'
        cases ho

/-- A procedure that makes its first step has room for its frame. -/
theorem room_of_executes {k : Nat} {rest : List Instruction} (hk : img.Holds k (prologue ++ rest))
    (hpc : s.pc = img.addr k) (h : Executes img s is t) (hne : is ≠ []) : 16 ≤ s.sp.toNat := by
  cases h with
  | nil => exact absurd rfl hne
  | cons hf hw =>
    rw [hpc, hk.fetch] at hf
    obtain rfl := Option.some.inj hf
    exact not_wraps_frame_iff.mp hw

/-- **The calls of a procedure and its epilogue,** where shorter activations return well. -/
theorem Linked.returned_of_calls (hl : Linked img procs) {n : Nat}
    (ih : ∀ f ∈ procs, ∀ (is : List Instruction) (s t : Machine), is.length < n →
      img.entry? f.1 = some s.pc → Executes img s (is ++ [.ret]) t → openCalls 0 is = some 0 →
      Returned s t) :
    ∀ (names : List String) {k : Nat} {is : List Instruction} {s : Machine},
      (∀ name ∈ names, ∃ g ∈ procs, g.1 = name) → img.Holds k (names.map .bl ++ epilogue) →
      InFrame s₀ s → s.pc = img.addr k → is.length ≤ n → Executes img s (is ++ [.ret]) t →
      openCalls 0 is = some 0 → Returned s₀ t
  | [], k, is, s, _, hk, hf, hpc, _, h, ho => by
    have hend : Executes img s ([.mov .sp (.reg .fp), .ldp .lr .fp (.postIndex .sp 16)] ++ [.ret])
        s.closed := executes_epilogue hk hpc hf
    obtain ⟨u, hu, hret⟩ := hend.of_append
    obtain ⟨is', rfl, h'⟩ := hu.passes (by decide) h
    obtain ⟨_, rfl⟩ := hret.last h' ho
    exact hf.returned
  | name :: names, k, is, s, hc, hk, hf, hpc, hn, h, ho => by
    obtain ⟨g, hg, rfl⟩ := hc name List.mem_cons_self
    obtain ⟨e, he, _⟩ := hl.held g hg
    obtain ⟨is', rfl, h'⟩ := (executes_call hk hpc he).passes (by simp) h
    -- the call is closed by a return, and what is executed up to it is an activation
    obtain ⟨inner, rest, rfl, hinner, hrest⟩ := @exists_closing_ret is' 0 0 ho
    rw [List.append_assoc, List.cons_append, ← List.singleton_append, ← List.append_assoc] at h'
    obtain ⟨t₁, hcallee, hgoes⟩ := h'.of_append
    have hlen : inner.length < n := by
      simp only [List.length_append, List.length_cons, List.length_nil] at hn
      omega
    have hret := ih g hg inner _ t₁ hlen he hcallee hinner
    obtain ⟨hf', hpc'⟩ := hf.call hret
    refine Linked.returned_of_calls hl ih names (fun m hm => hc m (List.mem_cons_of_mem _ hm))
      hk.tail hf' ?_ ?_ hgoes hrest
    · rw [hpc', hpc, img.addr_succ]
    · simp only [List.length_append, List.length_cons, List.length_nil] at hn
      omega

/-- Activations of fewer than `n` instructions return well, by induction on `n`. -/
theorem Linked.returned_of_length (hl : Linked img procs) (n : Nat) : ∀ f ∈ procs,
    ∀ (is : List Instruction) (s t : Machine), is.length < n → img.entry? f.1 = some s.pc →
      Executes img s (is ++ [.ret]) t → openCalls 0 is = some 0 → Returned s t := by
  induction n with
  | zero => exact fun _ _ _ _ _ hlt => absurd hlt (Nat.not_lt_zero _)
  | succ n ih =>
    intro f hf is s t hlt he h ho
    obtain ⟨k, hk, hcode⟩ := hl.held f hf
    have hpc : s.pc = img.addr k := Option.some.inj (he.symm.trans hk)
    have hroom := room_of_executes hcode hpc h (by simp)
    obtain ⟨is', rfl, h'⟩ := (executes_prologue hcode hpc hroom).passes (by decide) h
    refine hl.returned_of_calls ih f.2 (hl.closed f hf) hcode.tail.tail (inFrame_opened hroom)
      ?_ ?_ h' ho
    · rw [img.addr_succ, img.addr_succ, ← hpc]
      rfl
    · rw [List.length_append] at hlt
      omega

/-- **What an activation leaves behind.** A procedure that is entered and executes its own return
    has restored the stack pointer and the frame pointer, goes on at the link register it was
    entered with, and has changed nothing at or above the stack pointer. -/
theorem Linked.returned (hl : Linked img procs) {f : String × List String} (hf : f ∈ procs)
    (he : img.entry? f.1 = some s.pc) (h : Executes img s (is ++ [.ret]) t)
    (ho : openCalls 0 is = some 0) : Returned s t :=
  hl.returned_of_length (is.length + 1) f hf is s t (Nat.lt_succ_self _) he h ho

end

/-! ## 4. Activations that end -/

section

variable {img : Image} {procs : CallTable} {s s₀ : Machine}

/-- What is executed from here on comes to a return with no call open. -/
def Image.Ends (img : Image) (s : Machine) : Prop :=
  ∃ is t, Executes img s (is ++ [.ret]) t ∧ openCalls 0 is = some 0

/-- The stack has room for `n` frames below the stack pointer, or the stack pointer never wraps
    anyway. -/
def Roomy (img : Image) (n : Nat) (s : Machine) : Prop :=
  NeverWraps img s ∨ 16 * n ≤ s.sp.toNat

theorem Roomy.after {n : Nat} {is : List Instruction} {t : Machine} (h : Roomy img n s)
    (hr : Executes img s is t) (hsp : t.sp = s.sp) : Roomy img n t := by
  rcases h with h | h
  · exact .inl (h.after hr)
  · right
    rw [hsp]
    exact h

/-- A frame takes its part of the room. -/
theorem Roomy.opened {n : Nat} (h : Roomy img (n + 1) s) (hr : Executes img s prologue s.opened)
    (hroom : 16 ≤ s.sp.toNat) : Roomy img n s.opened := by
  rcases h with h | h
  · exact .inl (h.after hr)
  · right
    have hsub := Memory.toNat_sub_sixteen hroom
    rw [(inFrame_opened hroom).sp]
    omega

/-- There is room for the frame of a procedure that is entered. -/
theorem Roomy.room {n k : Nat} {rest : List Instruction} (h : Roomy img (n + 1) s)
    (hk : img.Holds k (prologue ++ rest)) (hpc : s.pc = img.addr k) : 16 ≤ s.sp.toNat := by
  rcases h with h | h
  · have hfetch : img.fetch s.pc = some (.stp .lr .fp (.preIndex .sp (-16))) := hpc ▸ hk.fetch
    exact not_wraps_frame_iff.mp (h [] s _ .nil hfetch)
  · omega

/-- The calls of an active procedure are made one after the other, and it returns, if the activations
    of the procedures called end. -/
theorem Linked.ends_of_calls (hl : Linked img procs) {n : Nat} :
    ∀ (names : List String) {k : Nat} {s : Machine},
      (∀ name ∈ names, ∃ g ∈ procs, g.1 = name ∧
        ∀ s, Roomy img n s → img.entry? g.1 = some s.pc → img.Ends s) →
      img.Holds k (names.map .bl ++ epilogue) → InFrame s₀ s → s.pc = img.addr k →
      Roomy img n s → img.Ends s
  | [], k, s, _, hk, hf, hpc, _ => by
    refine ⟨[.mov .sp (.reg .fp), .ldp .lr .fp (.postIndex .sp 16)], s.closed, ?_, rfl⟩
    exact executes_epilogue hk hpc hf
  | name :: names, k, s, hc, hk, hf, hpc, hroom => by
    obtain ⟨g, hg, rfl, hends⟩ := hc name List.mem_cons_self
    obtain ⟨e, he, _⟩ := hl.held g hg
    have hcall := executes_call hk hpc he
    obtain ⟨inner, t₁, hinner, ho⟩ := hends _ (hroom.after hcall (s.sp_called _)) he
    have hret := hl.returned hg he hinner ho
    obtain ⟨hf', hpc'⟩ := hf.call hret
    have hrun : Executes img s ([.bl g.1] ++ (inner ++ [.ret])) t₁ := hcall.append hinner
    obtain ⟨is, t, hrest, ho'⟩ := Linked.ends_of_calls hl names
      (fun m hm => hc m (List.mem_cons_of_mem _ hm)) hk.tail hf'
      (by rw [hpc', hpc, img.addr_succ]) (hroom.after hrun (hret.sp.trans (s.sp_called _)))
    refine ⟨.bl g.1 :: (inner ++ .ret :: is), t, ?_, openCalls_append_ret ho ho'⟩
    have hall := hrun.append hrest
    simpa using hall

/-- The procedures from `x` on do not call themselves, not even through others. -/
def CallTable.AcyclicFrom (procs : CallTable) (x : String) : Prop :=
  ∀ y, Relation.ReflTransGen procs.Calls x y → ¬ Relation.TransGen procs.Calls y y

theorem CallTable.mem_of_calls {x y : String} (h : Relation.TransGen procs.Calls x y) :
    x ∈ procs.map Prod.fst := by
  obtain ⟨z, ⟨f, hf, rfl, _⟩, _⟩ := Relation.TransGen.head'_iff.mp h
  exact List.mem_map_of_mem hf

/-- Procedures that all differ and lead to one that does not call itself are not all there are. -/
theorem CallTable.length_lt_of_path {path : List String} {y : String} (hnd : path.Nodup)
    (hp : ∀ x ∈ path, Relation.TransGen procs.Calls x y) (hy : y ∈ procs.map Prod.fst)
    (hc : ¬ Relation.TransGen procs.Calls y y) : path.length < procs.length := by
  have hnd' : (y :: path).Nodup := List.nodup_cons.mpr ⟨fun hm => hc (hp y hm), hnd⟩
  have hsub : y :: path ⊆ procs.map Prod.fst :=
    List.cons_subset.mpr ⟨hy, fun x hx => mem_of_calls (hp x hx)⟩
  have hle := (hnd'.subperm hsub).length_le
  rw [List.length_cons, List.length_map] at hle
  exact hle

/-- **Activations end where the call graph has no cycle.** By induction on the number `n` of the
    procedures that are not on the way to this one; those on the way all differ. -/
theorem Linked.activation_ends (hl : Linked img procs) (n : Nat) : ∀ (path : List String),
    ∀ f ∈ procs, ∀ s : Machine, path.Nodup → (∀ x ∈ path, Relation.TransGen procs.Calls x f.1) →
      procs.AcyclicFrom f.1 → procs.length ≤ path.length + n → Roomy img n s →
      img.entry? f.1 = some s.pc → img.Ends s := by
  induction n with
  | zero =>
    intro path f hf s hnd hp hc hlen _ _
    have hlt := CallTable.length_lt_of_path hnd hp (List.mem_map_of_mem hf) (hc f.1 .refl)
    omega
  | succ n ih =>
    intro path f hf s hnd hp hc hlen hroomy he
    obtain ⟨k, hk, hcode⟩ := hl.held f hf
    have hpc : s.pc = img.addr k := Option.some.inj (he.symm.trans hk)
    have hroom := hroomy.room hcode hpc
    have hopen := executes_prologue hcode hpc hroom
    have hends : ∀ name ∈ f.2, ∃ g ∈ procs, g.1 = name ∧
        ∀ s, Roomy img n s → img.entry? g.1 = some s.pc → img.Ends s := by
      intro name hname
      obtain ⟨g, hg, rfl⟩ := hl.closed f hf name hname
      have hcall : procs.Calls f.1 g.1 := ⟨f, hf, rfl, hname⟩
      refine ⟨g, hg, rfl, fun s' hs' he' => ih (f.1 :: path) g hg s' ?_ ?_ ?_ ?_ hs' he'⟩
      · exact List.nodup_cons.mpr ⟨fun hm => hc f.1 .refl (hp f.1 hm), hnd⟩
      · intro x hx
        rcases List.mem_cons.mp hx with rfl | hx
        · exact .single hcall
        · exact (hp x hx).tail hcall
      · exact fun y hy => hc y (.head hcall hy)
      · rw [List.length_cons]
        omega
    have hpc' : s.opened.pc = img.addr (k + 1 + 1) := by
      rw [img.addr_succ, img.addr_succ, ← hpc]
      rfl
    obtain ⟨is, t, h, ho⟩ := hl.ends_of_calls f.2 hends hcode.tail.tail (inFrame_opened hroom) hpc'
      (hroomy.opened hopen hroom)
    refine ⟨prologue ++ is, t, ?_, ho⟩
    rw [List.append_assoc]
    exact hopen.append h

end

/-! ## 5. The entry -/

/-- The instructions of the entry stub: it calls a procedure and leaves the process. -/
def stub (main : String) : List Instruction :=
  [.bl main, .mov .syscall (.imm exitCall), .svc 0x80]

/-- **The entry reaches its system call,** with the number for leaving the process and the stack as
    it was, where the procedure it calls does not lead to a cycle of calls. -/
theorem Linked.reaches_exit {img : Image} {procs : CallTable} (hl : Linked img procs) {k : Nat}
    {f : String × List String} {s : Machine} (hf : f ∈ procs) (hk : img.Holds k (stub f.1))
    (hpc : s.pc = img.addr k) (hc : procs.AcyclicFrom f.1) (hroomy : Roomy img procs.length s) :
    ∃ is t, Executes img s is t ∧ img.fetch t.pc = some (.svc 0x80) ∧
      t.regs .syscall = exitCall ∧ t.sp = s.sp := by
  obtain ⟨e, he, _⟩ := hl.held f hf
  have hcall := executes_call hk hpc he
  obtain ⟨is, t, h, ho⟩ := hl.activation_ends procs.length [] f hf _ List.nodup_nil
    (fun _ hx => absurd hx List.not_mem_nil) hc (Nat.le_add_left _ _)
    (hroomy.after hcall (s.sp_called _)) he
  have hret := hl.returned hf he h ho
  have hpc' : t.pc = img.addr (k + 1) := by
    rw [hret.pc_called, hpc, img.addr_succ]
  have hmov : Executes img t [.mov .syscall (.imm exitCall)]
      { t with regs := Function.update t.regs .syscall exitCall, pc := t.pc + 4 } :=
    .cons (hpc' ▸ hk.tail.fetch) id rfl .nil
  have hne : Reg.sp ≠ Reg.syscall := by decide
  have hnumber : Function.update t.regs Reg.syscall exitCall .syscall = exitCall :=
    Function.update_self ..
  have hsp : Function.update t.regs Reg.syscall exitCall .sp = s.sp := by
    rw [Function.update_of_ne hne]
    exact hret.sp.trans (s.sp_called _)
  refine ⟨_, _, (hcall.append h).append hmov, ?_, hnumber, hsp⟩
  show img.fetch (t.pc + 4) = _
  rw [hpc', ← img.addr_succ]
  exact hk.tail.tail.fetch

end Osclan
