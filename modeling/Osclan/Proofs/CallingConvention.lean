/-
  File:      Osclan/Proofs/CallingConvention.lean
  Subject:   The calling convention of the code of accepted sources.

  The assembly of a tree is the entry stub and a frame for each procedure. Loaded into an image, each
  of these stands where its label leads to, as long as no label is there twice; and the check has
  seen to it that every call goes to a procedure. So the image is linked, and its activations return
  as activations of a linked image do.

  * `Assembly.callTable`, `Assembly.ofTree_eq_callTable` -- the procedures of a tree's assembly;
  * `Image.exists_held` -- code behind a label stands where the label leads to;
  * `Accepted.linked` -- the image of an accepted source is linked;
  * `accepted_calling_convention` -- the main result.
-/
import Osclan.Proofs.Activation
import Osclan.Proofs.Linking

namespace Osclan

namespace Assembly

/-! ## 1. Instructions and labels -/

theorem instructions_append (a b : Assembly) :
    instructions (a ++ b) = instructions a ++ instructions b :=
  List.filterMap_append

theorem instructions_insts (is : List Instruction) : instructions (is.map .inst) = is := by
  unfold instructions
  rw [List.filterMap_map]
  exact List.filterMap_some

/-- A label that stands behind some lines leads behind their instructions. -/
theorem target?_append {name : String} : ∀ {a : Assembly}, name ∉ a.labels → ∀ b : Assembly,
    target? name (a ++ b) = (target? name b).map (· + a.instructions.length)
  | [], _, b => by
    rw [List.nil_append]
    cases target? name b <;> rfl
  | line :: a, h, b => by
    cases line with
    | label other =>
      have hne : other ≠ name := fun e => h (e ▸ List.mem_cons_self)
      have hrest := @target?_append name a (fun hm => h (List.mem_cons_of_mem _ hm)) b
      rw [List.cons_append, target?, if_neg hne, hrest]
      rfl
    | inst i =>
      have hrest := @target?_append name a h b
      rw [List.cons_append, target?, hrest]
      cases target? name b <;> rfl
    | directive text => exact @target?_append name a h b
    | comment text => exact @target?_append name a h b
    | blank => exact @target?_append name a h b

/-! ## 2. The procedures of a tree -/

/-- The procedures of a tree's assembly by their labels, each with the labels it calls. -/
def callTable (tree : Node) : CallTable :=
  (procedures tree).map (fun p =>
    (Name.label p.value, (Node.valuesOfAll .call p.children).map Name.label)) ++
  (addedLabels tree).map fun name => (name, [])

/-- The lines of a procedure. -/
def lines (f : String × List String) : List Line :=
  .label f.1 :: ((CallTable.code f.2).map .inst ++ [.blank])

theorem frame_eq_lines (name : String) (names : List String) :
    frame name (names.map fun called => .bl (Name.label called)) =
      lines (Name.label name, names.map Name.label) := by
  simp only [frame, lines, CallTable.code, List.append_assoc, List.map_map, Function.comp_def]

/-- The main procedure that is added. -/
theorem added_eq_flatMap (tree : Node) :
    (if (procedures tree).any (·.value == mainName) then [] else frame mainName []) =
      ((addedLabels tree).map fun name => (name, [])).flatMap lines := by
  have hmain : ((procedures tree).any (·.value == mainName)) = true ↔
      mainName ∈ procedureNames tree := by
    simp only [procedureNames, List.any_eq_true, beq_iff_eq, List.mem_map]
  unfold addedLabels
  by_cases h : mainName ∈ procedureNames tree
  · rw [if_pos h, if_pos (hmain.mpr h)]
    rfl
  · rw [if_neg h, if_neg (fun h' => h (hmain.mp h'))]
    rfl

/-- **The assembly of a tree** is the entry stub and its procedures. -/
theorem ofTree_eq_callTable (now : Calendar.Instant) (tree : Node) :
    ofTree now tree = header now ++ start ++ (callTable tree).flatMap lines := by
  have hframe : ∀ p : Node, frame p.value (callsAll p.children) =
      lines (Name.label p.value, (Node.valuesOfAll .call p.children).map Name.label) := by
    intro p
    rw [callsAll_eq_map, frame_eq_lines]
  simp only [ofTree, added_eq_flatMap, hframe, callTable, List.flatMap_append, List.flatMap_map,
    List.append_assoc]

theorem labels_flatMap_lines (fs : CallTable) : labels (fs.flatMap lines) = fs.map Prod.fst := by
  induction fs with
  | nil => rfl
  | cons f fs ih =>
    have hf : labels (lines f) = [f.1] := by
      have e : lines f = [.label f.1] ++ ((CallTable.code f.2).map .inst ++ [.blank]) := rfl
      rw [e, labels_append, labels_append, labels_insts]
      rfl
    rw [List.flatMap_cons, labels_append, hf, ih]
    rfl

theorem labels_eq_callTable (now : Calendar.Instant) (tree : Node) :
    labels (ofTree now tree) = "_start" :: (callTable tree).map Prod.fst := by
  rw [ofTree_eq_callTable, labels_append, labels_flatMap_lines]
  rfl

theorem map_fst_callTable (tree : Node) : (callTable tree).map Prod.fst =
    (procedureNames tree).map Name.label ++ addedLabels tree :=
  (List.cons.inj ((labels_eq_callTable 0 tree).symm.trans (labels_ofTree 0 tree))).2

/-- There is a main procedure, of the tree or added to it. -/
theorem exists_main (tree : Node) : ∃ f ∈ callTable tree, f.1 = "_main" := by
  apply List.mem_map.mp
  rw [map_fst_callTable]
  by_cases h : mainName ∈ procedureNames tree
  · exact List.mem_append_left _ (List.mem_map_of_mem h)
  · rw [addedLabels, if_neg h]
    exact List.mem_append_right _ (List.mem_singleton.mpr rfl)

/-- The procedures of a tree make the calls that stand in it. -/
theorem mem_callTable {tree : Node} {f : String × List String} (hf : f ∈ callTable tree)
    {name : String} (hn : name ∈ f.2) : ∃ p ∈ procedures tree,
      ∃ called ∈ Node.valuesOfAll .call p.children, name = Name.label called := by
  rcases List.mem_append.mp hf with hf | hf
  · obtain ⟨p, hp, rfl⟩ := List.mem_map.mp hf
    obtain ⟨called, hc, rfl⟩ := List.mem_map.mp hn
    exact ⟨p, hp, called, hc, rfl⟩
  · obtain ⟨_, _, rfl⟩ := List.mem_map.mp hf
    exact absurd hn List.not_mem_nil

end Assembly

/-! ## 3. Images of trees -/

/-- **Code behind a label stands where the label leads to,** if the label does not occur before. -/
theorem Image.exists_held {img : Image} {pre post : Assembly} {name : String}
    {is : List Instruction} (h : img.asm = pre ++ .label name :: (is.map .inst ++ post))
    (hn : name ∉ pre.labels) : ∃ k, img.entry? name = some (img.addr k) ∧ img.Holds k is := by
  refine ⟨pre.instructions.length, ?_, ?_⟩
  · rw [Image.entry?, h, Assembly.target?_append hn, Assembly.target?, if_pos rfl]
    simp
  · have hcode : img.asm.instructions = pre.instructions ++ (is ++ post.instructions) := by
      have hlabel : Assembly.instructions (.label name :: (is.map .inst ++ post)) =
          Assembly.instructions (is.map .inst ++ post) := rfl
      rw [h, Assembly.instructions_append, hlabel, Assembly.instructions_append,
        Assembly.instructions_insts]
    rw [Image.Holds, hcode, List.drop_left]
    exact List.prefix_append _ _

section

variable {img : Image} {now : Calendar.Instant} {tree : Node}

/-- The procedures of a tree whose labels differ stand where their labels lead to. -/
theorem Assembly.exists_held (himg : img.asm = ofTree now tree)
    (hl : (ofTree now tree).labels.Nodup) {f : String × List String} (hf : f ∈ callTable tree) :
    ∃ k, img.entry? f.1 = some (img.addr k) ∧ img.Holds k (CallTable.code f.2) := by
  obtain ⟨pre, post, hcut⟩ := List.append_of_mem hf
  have hasm : img.asm = (header now ++ start ++ pre.flatMap lines) ++
      .label f.1 :: ((CallTable.code f.2).map .inst ++ ([.blank] ++ post.flatMap lines)) := by
    rw [himg, ofTree_eq_callTable, hcut, List.flatMap_append, List.flatMap_cons]
    simp only [lines, List.append_assoc, List.cons_append]
  refine Image.exists_held hasm ?_
  have hlabels : labels (header now ++ start ++ pre.flatMap lines) = "_start" :: pre.map Prod.fst := by
    rw [labels_append, labels_flatMap_lines]
    rfl
  rw [labels_eq_callTable, hcut, List.map_append, List.map_cons, ← List.cons_append] at hl
  rw [hlabels]
  exact fun hm => (List.nodup_append.mp hl).2.2 _ hm _ List.mem_cons_self rfl

/-- The entry stub stands where its label leads to. -/
theorem Assembly.exists_stub (himg : img.asm = ofTree now tree) :
    ∃ k, img.entry? "_start" = some (img.addr k) ∧ img.Holds k (stub "_main") := by
  have hasm : img.asm = header now ++ .label "_start" ::
      ((stub "_main").map .inst ++ ([.blank] ++ (callTable tree).flatMap lines)) := by
    rw [himg, ofTree_eq_callTable, List.append_assoc]
    rfl
  refine Image.exists_held hasm ?_
  exact List.not_mem_nil

end

/-! ## 4. Accepted sources -/

section

variable {file source : String} {p : Program} {a : Analysis} {img : Image}
  {now : Calendar.Instant}

/-- **The image of an accepted source is linked,** if its labels differ. -/
theorem Accepted.linked (h : Accepted file source p a)
    (hl : (Assembly.ofTree now p.toNode).labels.Nodup)
    (himg : img.asm = Assembly.ofTree now p.toNode) :
    Linked img (Assembly.callTable p.toNode) := by
  refine ⟨fun f hf => Assembly.exists_held himg hl hf, fun f hf name hn => ?_⟩
  obtain ⟨proc, hp, called, hc, rfl⟩ := Assembly.mem_callTable hf hn
  apply List.mem_map.mp
  rw [Assembly.map_fst_callTable]
  exact List.mem_append_left _ (h.label_mem hp hc)

/-- **The calling convention.** In the image of an accepted source whose labels differ, every
    procedure that is entered and executes its own return has restored the stack pointer and the
    frame pointer, goes on at the link register it was entered with, and has changed no memory at
    or above the stack pointer. If the main procedure does not lead to a cycle of calls, the entry
    reaches its system call, with the number for leaving the process and the stack pointer as it
    was; that the stack pointer never wraps is certain if there are sixteen bytes below it for each
    procedure. -/
theorem accepted_calling_convention (h : Accepted file source p a)
    (hl : (Assembly.ofTree now a.tree).labels.Nodup)
    (himg : img.asm = Assembly.ofTree now a.tree) :
    (∀ name ∈ img.asm.labels, name ≠ "_start" → ∃ e, img.entry? name = some e ∧
      ∀ s is t, s.pc = e → Executes img s (is ++ [.ret]) t → openCalls 0 is = some 0 →
        t.sp = s.sp ∧ t.regs .fp = s.regs .fp ∧ t.pc = s.regs .lr ∧
          ∀ x, s.sp ≤ x → t.mem x = s.mem x) ∧
    ((Assembly.callTable p.toNode).AcyclicFrom "_main" → ∃ e, img.entry? "_start" = some e ∧
      ∀ s, s.pc = e →
        NeverWraps img s ∨ 16 * (Assembly.callTable p.toNode).length ≤ s.sp.toNat →
        ∃ is t, Executes img s is t ∧ img.fetch t.pc = some (.svc 0x80) ∧
          t.regs .syscall = 1 ∧ t.sp = s.sp) := by
  rw [h.ofTree_eq now] at hl himg
  have hlinked := h.linked hl himg
  constructor
  · intro name hname hne
    rw [himg, Assembly.labels_eq_callTable] at hname
    obtain ⟨f, hf, rfl⟩ := List.mem_map.mp ((List.mem_cons.mp hname).resolve_left hne)
    obtain ⟨k, hk, _⟩ := hlinked.held f hf
    refine ⟨_, hk, fun s is t hs hrun ho => ?_⟩
    have hret := hlinked.returned hf (hs ▸ hk) hrun ho
    exact ⟨hret.sp, hret.fp, hret.pc, hret.mem⟩
  · intro hc
    obtain ⟨f, hf, hmain⟩ := Assembly.exists_main p.toNode
    obtain ⟨k, hk, hstub⟩ := Assembly.exists_stub himg
    rw [← hmain] at hc hstub
    exact ⟨_, hk, fun s hs hroom => hlinked.reaches_exit hf hstub hs hc hroom⟩

end

/-- The code of the sample whose one procedure calls itself, loaded at an address. -/
def callingImage : Image where
  asm := Assembly.ofTree 0 callingSample.toNode
  base := 0x4000
  fits := by decide

/-- A state at an address, with two frames' room on the stack. -/
def machineAt (pc : UInt64) : Machine where
  regs := fun r => if r = .sp then 32 else 7
  pc := pc
  mem := fun _ => 0

/-- The main procedure that is added calls nothing. -/
theorem callingSample_acyclic : (Assembly.callTable callingSample.toNode).AcyclicFrom "_main" := by
  have htable : Assembly.callTable callingSample.toNode =
      [("_log_line", ["_log_line"]), ("_main", [])] := by decide
  have hnone : ∀ y, ¬ (Assembly.callTable callingSample.toNode).Calls "_main" y := by
    rintro y ⟨f, hf, hname, hy⟩
    rw [htable, List.mem_cons, List.mem_singleton] at hf
    rcases hf with rfl | rfl
    · exact absurd hname (by decide)
    · exact absurd hy List.not_mem_nil
  intro y hy hcycle
  rcases Relation.ReflTransGen.cases_head hy with rfl | ⟨z, hz, _⟩
  · obtain ⟨z, hz, _⟩ := Relation.TransGen.head'_iff.mp hcycle
    exact hnone z hz
  · exact hnone z hz

/-- Though one of its procedures calls itself without end, the sample comes to its system call. The
    activation of the main procedure ends on the way; it leaves everything as it was. -/
theorem calling_convention_of_callingSample : ∃ a, Accepted "sample"
    "declare [void] :: log-line() call log-line() end" callingSample a ∧
    callingImage.asm = Assembly.ofTree 0 a.tree ∧
    (∃ is t, Executes callingImage (machineAt 0x4024) (is ++ [.ret]) t ∧
      openCalls 0 is = some 0 ∧ t.sp = 32 ∧ t.regs .fp = 7 ∧ t.pc = 7 ∧
      ∀ x, 32 ≤ x → t.mem x = 0) ∧
    ∃ is t, Executes callingImage (machineAt 0x4000) is t ∧
      callingImage.fetch t.pc = some (.svc 0x80) ∧ t.regs .syscall = 1 ∧ t.sp = 32 := by
  obtain ⟨a, h⟩ := callingSample_accepted
  have himg : callingImage.asm = Assembly.ofTree 0 a.tree := (h.ofTree_eq 0).symm
  have hnd : (Assembly.ofTree 0 callingSample.toNode).labels.Nodup := by decide
  have hl : (Assembly.ofTree 0 a.tree).labels.Nodup := by
    rw [h.ofTree_eq 0]
    exact hnd
  obtain ⟨hreturns, hreaches⟩ := accepted_calling_convention h hl himg
  refine ⟨a, h, himg, ?_, ?_⟩
  · have hlinked := h.linked hnd (show callingImage.asm = _ from rfl)
    have hentry : callingImage.entry? "_main" = some (machineAt 0x4024).pc := by decide
    have hmain : ("_main", []) ∈ Assembly.callTable callingSample.toNode := by decide
    obtain ⟨is, t, hrun, ho⟩ := hlinked.activation_ends 2 [] _ hmain _ List.nodup_nil
      (fun _ hx => absurd hx List.not_mem_nil) callingSample_acyclic (by decide)
      (.inr (by decide)) hentry
    obtain ⟨e, he, hret⟩ := hreturns "_main" (by decide) (by decide)
    obtain ⟨hsp, hfp, hpc, hmem⟩ := hret (machineAt 0x4024) is t
      (Option.some.inj (hentry.symm.trans he)) hrun ho
    exact ⟨is, t, hrun, ho, hsp, hfp, hpc, hmem⟩
  · obtain ⟨e, he, hgoes⟩ := hreaches callingSample_acyclic
    have hentry : callingImage.entry? "_start" = some (machineAt 0x4000).pc := by decide
    exact hgoes (machineAt 0x4000) (Option.some.inj (hentry.symm.trans he)) (.inr (by decide))

end Osclan
