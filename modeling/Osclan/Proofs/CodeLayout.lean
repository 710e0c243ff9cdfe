/-
  File:      Osclan/Proofs/CodeLayout.lean
  Subject:   The blocks of the assembly, and the order of the calls in them.

  Every procedure at the top of a tree gets a block: a label, a frame, and in the frame a call for
  each call that stands anywhere below the procedure. Calls are told apart by their places in the
  tree, so that two calls of one procedure stay two. The places are those of the calls, each once,
  and they are in order: what is nested in a call comes before it, and what stands below an earlier
  child comes before what stands below a later one.

  * `Node.at?` -- the node at a place;
  * `Precedes` -- the order of places, and that it is one;
  * `Emits` -- the calls among some nodes, in order;
  * `calls_emits` -- the calls of a tree;
  * **`ofTree_blocks`** -- the assembly of a tree.
-/
import Mathlib
import Osclan.Assembly.Generate

namespace Osclan

/-! ## 1. Places -/

/-- The node at a place: the numbers lead from child to child. -/
def Node.at? : Node → List Nat → Option Node
  | n, [] => some n
  | n, i :: place => n.children[i]?.bind fun child => child.at? place

/-- **The order of places.** A place inside another comes before it, and a place below an earlier
    child comes before one below a later child. -/
inductive Precedes : List Nat → List Nat → Prop where
  | inside (place : List Nat) (i : Nat) (rest : List Nat) : Precedes (place ++ i :: rest) place
  | left (place : List Nat) {i j : Nat} (a b : List Nat) :
      i < j → Precedes (place ++ i :: a) (place ++ j :: b)

namespace Precedes

variable {a b : List Nat}

theorem cons (i : Nat) (h : Precedes a b) : Precedes (i :: a) (i :: b) := by
  cases h with
  | inside place j rest => exact .inside (i :: b) j rest
  | left place a b hlt => exact .left (i :: place) a b hlt

/-- The order looks at the first numbers, and below them if they are the same. -/
theorem cons_iff {i j : Nat} : Precedes (i :: a) (j :: b) ↔ i < j ∨ i = j ∧ Precedes a b := by
  constructor
  · intro h
    generalize hx : i :: a = x at h
    generalize hy : j :: b = y at h
    cases h with
    | inside place k rest =>
      subst hy
      obtain ⟨rfl, rfl⟩ := List.cons.inj hx
      exact .inr ⟨rfl, .inside b k rest⟩
    | left place c d hlt =>
      cases place with
      | nil =>
        obtain ⟨rfl, rfl⟩ := List.cons.inj hx
        obtain ⟨rfl, rfl⟩ := List.cons.inj hy
        exact .inl hlt
      | cons k place =>
        obtain ⟨rfl, rfl⟩ := List.cons.inj hx
        obtain ⟨rfl, rfl⟩ := List.cons.inj hy
        exact .inr ⟨rfl, .left place c d hlt⟩
  · intro h
    rcases h with hlt | ⟨rfl, h⟩
    · exact .left [] a b hlt
    · exact h.cons i

theorem not_nil : ¬ Precedes [] b := by
  intro h
  generalize hx : ([] : List Nat) = x at h
  cases h with
  | inside place i rest => exact absurd hx (by simp)
  | left place c d hlt => exact absurd hx (by simp)

/-- No two places come each before the other, and none before itself. -/
theorem asymm (h : Precedes a b) : ¬ Precedes b a := by
  induction a generalizing b with
  | nil => exact absurd h not_nil
  | cons i a ih =>
    cases b with
    | nil => exact not_nil
    | cons j b =>
      intro hback
      rw [cons_iff] at h hback
      rcases h with hlt | ⟨rfl, h⟩
      · omega
      · exact ih h (hback.resolve_left (Nat.lt_irrefl i)).2

end Precedes

/-! ## 2. Calls in order -/

namespace Assembly

/-- The instructions are the calls among the nodes that are found at some places: one for each, in
    the order of the places. -/
structure Emits (found : List Nat → Node → Prop) (places : List (List Nat))
    (body : List Instruction) : Prop where
  each : List.Forall₂ (fun place i => ∃ n, found place n ∧ i = .bl (Name.label n.value)) places body
  complete : ∀ place, place ∈ places ↔ ∃ n, found place n ∧ n.kind = .call
  order : places.Pairwise Precedes

section

variable {found found' : List Nat → Node → Prop} {places places' : List (List Nat)}
  {body body' : List Instruction}

theorem Emits.congr (h : Emits found places body)
    (hf : ∀ place n, found' place n ↔ found place n) : Emits found' places body := by
  have heq : found' = found := funext fun place => funext fun n => propext (hf place n)
  rw [heq]
  exact h

/-- Nodes at places that come one after the other. -/
theorem Emits.append (h : Emits found places body) (h' : Emits found' places' body')
    (horder : ∀ a ∈ places, ∀ b ∈ places', Precedes a b) :
    Emits (fun place n => found place n ∨ found' place n) (places ++ places') (body ++ body') := by
  refine ⟨List.rel_append (h.each.imp ?_) (h'.each.imp ?_), fun place => ?_,
    List.pairwise_append.mpr ⟨h.order, h'.order, horder⟩⟩
  · intro place i hi
    obtain ⟨n, hn, e⟩ := hi
    exact ⟨n, .inl hn, e⟩
  · intro place i hi
    obtain ⟨n, hn, e⟩ := hi
    exact ⟨n, .inr hn, e⟩
  · rw [List.mem_append, h.complete, h'.complete, ← exists_or]
    simp only [or_and_right]

/-- Nodes below the `i`th child. -/
theorem Emits.below (i : Nat) (h : Emits found places body) :
    Emits (fun place n => ∃ rest, place = i :: rest ∧ found rest n) (places.map (i :: ·)) body := by
  refine ⟨?_, fun place => ?_, ?_⟩
  · rw [List.forall₂_map_left_iff]
    refine h.each.imp fun rest o ho => ?_
    obtain ⟨n, hn, e⟩ := ho
    exact ⟨n, ⟨rest, rfl, hn⟩, e⟩
  · rw [List.mem_map]
    constructor
    · intro hp
      obtain ⟨rest, hrest, e⟩ := hp
      obtain ⟨n, hn, hk⟩ := (h.complete rest).mp hrest
      exact ⟨n, ⟨rest, e.symm, hn⟩, hk⟩
    · intro hp
      obtain ⟨n, ⟨rest, e, hn⟩, hk⟩ := hp
      exact ⟨rest, (h.complete rest).mpr ⟨n, hn, hk⟩, e.symm⟩
  · exact List.pairwise_map.mpr (h.order.imp fun hab => hab.cons i)

/-- A node by itself. -/
theorem Emits.own (l : Label) (children : List Node) :
    Emits (fun place n => place = [] ∧ n = ⟨l, children⟩) (if l.kind = .call then [[]] else [])
      (if l.kind = .call then [.bl (Name.label l.value)] else []) := by
  by_cases hk : l.kind = .call
  · rw [if_pos hk, if_pos hk]
    refine ⟨.cons ⟨_, ⟨rfl, rfl⟩, rfl⟩ .nil, fun place => ?_, List.pairwise_singleton _ _⟩
    rw [List.mem_singleton]
    constructor
    · intro hp
      exact ⟨_, ⟨hp, rfl⟩, hk⟩
    · intro hp
      obtain ⟨_, ⟨hp, _⟩, _⟩ := hp
      exact hp
  · rw [if_neg hk, if_neg hk]
    refine ⟨.nil, fun place => ⟨fun hp => absurd hp List.not_mem_nil, fun hp => ?_⟩, .nil⟩
    obtain ⟨_, ⟨_, rfl⟩, hcall⟩ := hp
    exact absurd hcall hk

end

/-- The node at a place below some nodes, which are numbered from `i` on. -/
def Found (i : Nat) (ns : List Node) (place : List Nat) (n : Node) : Prop :=
  ∃ j child rest, place = (i + j) :: rest ∧ ns[j]? = some child ∧ child.at? rest = some n

theorem found_cons {i : Nat} {m : Node} {ns : List Node} {place : List Nat} {n : Node} :
    Found i (m :: ns) place n ↔
      (∃ rest, place = i :: rest ∧ m.at? rest = some n) ∨ Found (i + 1) ns place n := by
  constructor
  · intro h
    obtain ⟨j, child, rest, rfl, hchild, hn⟩ := h
    cases j with
    | zero =>
      obtain rfl := Option.some.inj hchild
      exact .inl ⟨rest, rfl, hn⟩
    | succ j => exact .inr ⟨j, child, rest, by rw [Nat.add_right_comm, Nat.add_assoc], hchild, hn⟩
  · intro h
    rcases h with ⟨rest, rfl, hn⟩ | ⟨j, child, rest, rfl, hchild, hn⟩
    · exact ⟨0, m, rest, rfl, rfl, hn⟩
    · exact ⟨j + 1, child, rest, by rw [Nat.add_right_comm, Nat.add_assoc], hchild, hn⟩

/-- A place in a tree is the root or below it. -/
theorem at?_eq_some_iff {l : Label} {children : List Node} {place : List Nat} {n : Node} :
    (Node.mk l children).at? place = some n ↔
      Found 0 children place n ∨ (place = [] ∧ n = ⟨l, children⟩) := by
  cases place with
  | nil =>
    constructor
    · intro h
      exact .inr ⟨rfl, (Option.some.inj h).symm⟩
    · intro h
      rcases h with ⟨_, _, _, e, _⟩ | ⟨_, rfl⟩
      · cases e
      · rfl
  | cons i rest =>
    rw [Node.at?, Option.bind_eq_some_iff]
    constructor
    · intro h
      obtain ⟨child, hchild, hn⟩ := h
      exact .inl ⟨i, child, rest, by rw [Nat.zero_add], hchild, hn⟩
    · intro h
      rcases h with ⟨j, child, rest', e, hchild, hn⟩ | ⟨e, _⟩
      · obtain ⟨rfl, rfl⟩ := List.cons.inj e
        rw [Nat.zero_add]
        exact ⟨child, hchild, hn⟩
      · cases e

mutual

/-- **The calls of a tree**, its root included, are made in order. -/
theorem calls_emits : ∀ n : Node, ∃ places,
    Emits (fun place m => n.at? place = some m) places (calls n)
  | ⟨l, children⟩ => by
    obtain ⟨places, h⟩ := callsAll_emits children 0
    rw [calls]
    refine ⟨_, (h.append (.own l children) fun a ha b hb => ?_).congr
      fun place n => at?_eq_some_iff⟩
    -- the root is the last
    have hnil : b = [] := by
      split at hb
      · exact List.mem_singleton.mp hb
      · exact absurd hb List.not_mem_nil
    obtain ⟨n, ⟨j, child, rest, rfl, _⟩, _⟩ := (h.complete a).mp ha
    rw [hnil]
    exact .inside [] (0 + j) rest

theorem callsAll_emits : ∀ (ns : List Node) (i : Nat), ∃ places,
    Emits (Found i ns) places (callsAll ns)
  | [], i => by
    refine ⟨[], .nil, fun place => ⟨fun h => absurd h List.not_mem_nil, fun h => ?_⟩, .nil⟩
    obtain ⟨_, ⟨_, _, _, _, e, _⟩, _⟩ := h
    cases e
  | n :: rest, i => by
    obtain ⟨places, h⟩ := calls_emits n
    obtain ⟨places', h'⟩ := callsAll_emits rest (i + 1)
    rw [callsAll]
    refine ⟨_, ((h.below i).append h' fun a ha b hb => ?_).congr fun place m => found_cons⟩
    obtain ⟨below, _, rfl⟩ := List.mem_map.mp ha
    obtain ⟨_, ⟨j, _, below', rfl, _⟩, _⟩ := (h'.complete b).mp hb
    exact .left [] below below' (by omega)

end

/-! ## 3. Blocks -/

/-- **The calls of a procedure.** Each instruction calls the procedure that is named at its place.
    The places are those below the procedure at which there is a call, none of them twice, and of
    two instructions the first is the one whose place comes before. -/
structure CallsBelow (p : Node) (places : List (List Nat)) (body : List Instruction) : Prop where
  each : List.Forall₂ (fun place i => ∃ n, p.at? place = some n ∧ i = .bl (Name.label n.value))
    places body
  complete : ∀ place, place ∈ places ↔ place ≠ [] ∧ ∃ n, p.at? place = some n ∧ n.kind = .call
  nodup : places.Nodup
  order : ∀ (i j : Nat) (a b : List Nat), places[i]? = some a → places[j]? = some b →
    (Precedes a b ↔ i < j)

/-- Places that are in order are where the order says. -/
theorem precedes_iff_lt {places : List (List Nat)} (h : places.Pairwise Precedes) {i j : Nat}
    {a b : List Nat} (ha : places[i]? = some a) (hb : places[j]? = some b) :
    Precedes a b ↔ i < j := by
  have hget : ∀ {i j : Nat} {a b : List Nat}, places[i]? = some a → places[j]? = some b → i < j →
      Precedes a b := by
    intro i j a b ha hb hlt
    obtain ⟨hi, rfl⟩ := List.getElem?_eq_some_iff.mp ha
    obtain ⟨hj, rfl⟩ := List.getElem?_eq_some_iff.mp hb
    exact List.pairwise_iff_getElem.mp h i j hi hj hlt
  refine ⟨fun hab => ?_, hget ha hb⟩
  rcases Nat.lt_trichotomy i j with hlt | rfl | hgt
  · exact hlt
  · rw [ha] at hb
    obtain rfl := Option.some.inj hb
    exact absurd hab hab.asymm
  · exact absurd (hget hb ha hgt) hab.asymm

theorem callsBelow (p : Node) : ∃ places, CallsBelow p places (callsAll p.children) := by
  rcases p with ⟨l, children⟩
  obtain ⟨places, h⟩ := callsAll_emits children 0
  have hfound : ∀ {place n}, Found 0 children place n →
      place ≠ [] ∧ (Node.mk l children).at? place = some n := by
    intro place n hn
    refine ⟨?_, at?_eq_some_iff.mpr (.inl hn)⟩
    obtain ⟨_, _, _, rfl, _⟩ := hn
    exact List.cons_ne_nil _ _
  refine ⟨places, h.each.imp ?_, fun place => ?_, ?_, fun i j a b => precedes_iff_lt h.order⟩
  · intro place i hi
    obtain ⟨n, hn, e⟩ := hi
    exact ⟨n, (hfound hn).2, e⟩
  · rw [h.complete]
    constructor
    · intro hp
      obtain ⟨n, hn, hk⟩ := hp
      exact ⟨(hfound hn).1, n, (hfound hn).2, hk⟩
    · intro hp
      obtain ⟨hne, n, hn, hk⟩ := hp
      rcases at?_eq_some_iff.mp hn with hn | ⟨e, _⟩
      · exact ⟨n, hn, hk⟩
      · exact absurd e hne
  · exact h.order.imp fun hab e => (e ▸ hab).asymm (e ▸ hab)

/-- The lines that every assembly begins with. -/
def opening (now : Calendar.Instant) : List Line :=
  [.comment ("Generated file on " ++ Calendar.text now), .directive ".global _start",
   .directive ".align 2", .blank, .label "_start", .inst (.bl "_main"),
   .inst (.mov .syscall (.imm 1)), .inst (.svc 0x80), .blank]

theorem header_start_eq_opening (now : Calendar.Instant) : header now ++ start = opening now := by
  have hmain : Name.label mainName = "_main" := by cbv
  rw [start, hmain]
  rfl

/-- A label, a frame around some calls, and an empty line. -/
def block (name : String) (body : List Instruction) : List Line :=
  Line.label (Name.label name) :: (prologue.map Line.inst ++ body.map Line.inst ++
    epilogue.map Line.inst ++ [Line.blank])

theorem frame_eq_block (name : String) (body : List Instruction) :
    frame name body = block name body := by
  simp [frame, block]

/-- **The layout of the code.** Behind the entry stub the lines of the assembly split into blocks,
    one for each procedure among the children of the root, in order, and at the end an empty one of
    the name `main` exactly if no procedure has that name. The block of a procedure is its label,
    the prologue, the calls below the procedure, the epilogue and an empty line. No call is lost and
    none made twice; a call is made behind all calls that are nested in it, and those below an
    earlier child are made before those below a later one. -/
theorem ofTree_blocks (now : Calendar.Instant) (tree : Node) :
    ∃ blocks last : List (List Line),
      ofTree now tree = opening now ++ (blocks ++ last).flatten ∧
      List.Forall₂ (fun p lines => ∃ places body, lines = block p.value body ∧
        CallsBelow p places body) (tree.children.filter (·.kind = .procedure)) blocks ∧
      ((∀ p ∈ tree.children, p.kind = .procedure → p.value ≠ "main") ∧ last = [block "main" []] ∨
        (∃ p ∈ tree.children, p.kind = .procedure ∧ p.value = "main") ∧ last = []) := by
  have hprocs : procedures tree = tree.children.filter (·.kind = .procedure) := rfl
  have hany : (procedures tree).any (·.value == mainName) = true ↔
      ∃ p ∈ tree.children, p.kind = .procedure ∧ p.value = "main" := by
    simp [hprocs, mainName]
  refine ⟨(procedures tree).map fun p => block p.value (callsAll p.children),
    if (procedures tree).any (·.value == mainName) then [] else [block "main" []], ?_, ?_, ?_⟩
  · rw [ofTree, ← header_start_eq_opening]
    simp only [frame_eq_block, List.flatten_append, List.flatMap_def, List.append_assoc]
    split <;> rfl
  · rw [← hprocs, List.forall₂_map_right_iff, List.forall₂_same]
    intro p _
    obtain ⟨places, h⟩ := callsBelow p
    exact ⟨places, _, rfl, h⟩
  · by_cases hm : (procedures tree).any (·.value == mainName) = true
    · exact .inr ⟨hany.mp hm, if_pos hm⟩
    · refine .inl ⟨fun p hp hk hv => hm (hany.mpr ⟨p, hp, hk, hv⟩), if_neg hm⟩

end Assembly

end Osclan
