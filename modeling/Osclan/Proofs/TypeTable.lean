/-
  File:      Osclan/Proofs/TypeTable.lean
  Subject:   The types of the root are built from earlier ones.

  Only a record adds a type, at the end of the table and behind the walk over its fields. So each
  entry is read off a record, and the types that the record mentions are found among the entries in
  front of its own. This holds over every sequence of runs, whether they are accepted or not: a run
  that stops has added the types of the records in front of the place where it stopped.

  * `Ty.parts` -- the types inside a type;
  * `Founded` -- a table of types each of which is built from those in front of it;
  * `Item.Adds.founded`, `Program.grounded` -- items and runs keep it;
  * **`type_table_founded`** -- the root after any sequence of runs.
-/
import Osclan.Proofs.ItemWalk

namespace Osclan

/-! ## 1. Parts of types -/

mutual

/-- The types inside a type: those of its fields, and the types inside them. -/
def Ty.parts : Ty → List Ty
  | ⟨_, _, fields⟩ => Ty.partsAll fields

/-- The types of some fields, each before the types inside it. -/
def Ty.partsAll : List (String × Ty) → List Ty
  | [] => []
  | (_, t) :: rest => t :: (t.parts ++ Ty.partsAll rest)

end

mutual

/-- A type is larger than the types inside it. -/
theorem Ty.sizeOf_part : ∀ t : Ty, ∀ part ∈ t.parts, sizeOf part.fields < sizeOf t.fields
  | ⟨_, _, fields⟩ => by
    rw [Ty.parts]
    exact Ty.sizeOf_partsAll fields

theorem Ty.sizeOf_partsAll : ∀ fields : List (String × Ty), ∀ part ∈ Ty.partsAll fields,
    sizeOf part.fields < sizeOf fields
  | [] => by
    rw [Ty.partsAll]
    exact List.forall_mem_nil _
  | (key, t) :: rest => by
    have ht := Ty.sizeOf_part t
    have hrest := Ty.sizeOf_partsAll rest
    have hfields : sizeOf t.fields < sizeOf t := by
      cases t
      simp
    rw [Ty.partsAll]
    refine List.forall_mem_cons.mpr ⟨?_, List.forall_mem_append.mpr ⟨?_, ?_⟩⟩
    · simp
      omega
    · intro part hpart
      have hlt := ht part hpart
      simp
      omega
    · intro part hpart
      have hlt := hrest part hpart
      simp
      omega

end

/-- No type is inside itself, whatever sizes the two carry. -/
theorem Ty.ne_of_mem_parts {t part : Ty} (h : part ∈ t.parts) (size : UInt64) :
    { part with size } ≠ t := by
  intro e
  have hlt := Ty.sizeOf_part t part h
  rw [← e] at hlt
  exact Nat.lt_irrefl _ hlt

/-! ## 2. Founded tables -/

/-- The entry at a place of a table: a type that every program knows, or that of a record among the
    given items. Its key is new, and the types that its fields are written with are entries in front
    of it. -/
structure FoundedAt (items : Item → Prop) (types : Table Ty) (i : Nat) (entry : String × Ty) :
    Prop where
  key : entry.1 = Name.mangle entry.2.name
  fresh : entry.1 ∉ (types.take i).map Prod.fst
  size : entry.2.size = 0
  source : entry.2 ∈ Ty.builtins ∨ ∃ mods fields,
    items (.declaration mods (.record entry.2.name fields)) ∧
      List.Forall₂ (Field.Means (types.take i)) fields entry.2.fields

/-- Every type of the table is built from those in front of it. -/
def Founded (items : Item → Prop) (types : Table Ty) : Prop :=
  ∀ i entry, types[i]? = some entry → FoundedAt items types i entry

/-- The types that every program knows come without fields, under keys of their own. -/
theorem Founded.fresh (items : Item → Prop) : Founded items ScopeStack.fresh.root.types := by
  have hkeys : ScopeStack.fresh.root.types.map Prod.fst = ["_O3int", "_O4uint", "_O6string"] := by
    cbv
  have hnodup : (ScopeStack.fresh.root.types.map Prod.fst).Nodup := by
    rw [hkeys]
    decide
  intro i entry he
  obtain ⟨t, ht, rfl⟩ := List.mem_map.mp (List.mem_of_getElem? he)
  have hsize : ∀ t ∈ Ty.builtins, t.size = 0 := by simp [Ty.builtins, Ty.elementary]
  refine ⟨rfl, ?_, hsize t ht, .inl ht⟩
  rw [List.map_take]
  intro hm
  have hdrop : Name.mangle t.name ∈ (ScopeStack.fresh.root.types.map Prod.fst).drop i := by
    refine List.mem_of_getElem? (i := 0) ?_
    rw [List.getElem?_drop, Nat.add_zero, List.getElem?_map, he]
    rfl
  exact List.disjoint_take_drop hnodup (Nat.le_refl i) hm hdrop

/-- One more entry at the end. -/
theorem Founded.append {items : Item → Prop} {types : Table Ty} {entry : String × Ty}
    (h : Founded items types) (he : FoundedAt items types types.length entry) :
    Founded items (types ++ [entry]) := by
  intro i found hi
  -- a place in front of the last has the same entry and the same entries in front of it
  have htake : i ≤ types.length → (types ++ [entry]).take i = types.take i :=
    List.take_append_of_le_length
  by_cases hlt : i < types.length
  · rw [List.getElem?_append_left hlt] at hi
    obtain ⟨hkey, hfresh, hsize, hsource⟩ := h i found hi
    rw [← htake (Nat.le_of_lt hlt)] at hfresh hsource
    exact ⟨hkey, hfresh, hsize, hsource⟩
  · rw [List.getElem?_append_right (Nat.le_of_not_lt hlt), List.getElem?_singleton] at hi
    split at hi
    next hzero =>
      obtain rfl : i = types.length := by omega
      cases hi
      obtain ⟨hkey, hfresh, hsize, hsource⟩ := he
      rw [← htake (Nat.le_refl _)] at hfresh hsource
      exact ⟨hkey, hfresh, hsize, hsource⟩
    next => cases hi

/-! ## 3. Runs -/

/-- **An item keeps the table founded.** Only a record adds to it. -/
theorem Item.Adds.founded {items : Item → Prop} {item : Item} {sc sc' : Scope}
    (h : item.Adds sc sc') (hitem : items item) (hf : Founded items sc.types) :
    Founded items sc'.types := by
  cases h with
  | directive | anonymous | procedure | «global» => exact hf
  | @record mods name fields sc t hname hnew ht =>
    refine hf.append ⟨?_, ?_, ht.size, .inr ⟨mods, fields, ?_, ?_⟩⟩
    · rw [ht.name]
    · rw [List.take_length]
      exact Table.not_mem_keys hnew
    · rw [ht.name]
      exact hitem
    · rw [List.take_length]
      exact ht.fields

theorem Item.AddsAll.founded {items : Item → Prop} {list : List Item} {sc sc' : Scope}
    (h : AddsAll list sc sc') (hitems : ∀ item ∈ list, items item)
    (hf : Founded items sc.types) : Founded items sc'.types := by
  induction h with
  | nil sc => exact hf
  | cons hadds _ ih =>
    obtain ⟨hitem, hrest⟩ := List.forall_mem_cons.mp hitems
    exact ih hrest (hadds.founded hitem hf)

/-- A state between runs, with types that are built from records of the given items. -/
structure Analyzer.Grounded (items : Item → Prop) (s : Analyzer) : Prop where
  inner : s.scopes.inner = []
  depth : s.scopes.root.depth = 0
  founded : Founded items s.scopes.root.types

theorem Analyzer.Grounded.of_scopes {items : Item → Prop} {s : Analyzer} {root : Scope}
    (hs : s.scopes = ⟨root, []⟩) (hdepth : root.depth = 0) (hf : Founded items root.types) :
    s.Grounded items := by
  constructor
  · rw [hs]
  · rw [hs]
    exact hdepth
  · rw [hs]
    exact hf

/-- **A run keeps the types founded**, however it ends. -/
theorem Program.grounded {items : Item → Prop} (p : Program) {s s' : Analyzer}
    (hitems : ∀ item ∈ p.items, items item) (hs : s.Grounded items)
    (h : (Check.analyze p.toNode).settled s = some s') : s'.Grounded items := by
  obtain ⟨⟨root, inner⟩, archive, warnings, procedure⟩ := s
  obtain ⟨hinner, hdepth, hfounded⟩ := hs
  cases hinner
  have hruns := p.runs (s := ⟨⟨root, []⟩, archive, warnings, procedure⟩) rfl hdepth
  have hafter := Check.after_of_settled h
  unfold Check.after at hafter
  cases hrun : Check.analyze p.toNode ⟨⟨root, []⟩, archive, warnings, procedure⟩ with
  | ok a t =>
    rw [hrun] at hafter
    cases hafter
    obtain ⟨_, hscopes, hall, _⟩ := hruns.ok hrun
    exact .of_scopes hscopes (hall.depth.trans hdepth) (hall.founded hitems hfounded)
  | error e t =>
    rw [hrun] at hafter
    cases hafter
    obtain ⟨root', mid, done, hscopes, hdepth', hdone, hall, htypes⟩ := hruns.stop hrun
    have hmid := hall.founded (fun item hm => hitems item (hdone.subset hm)) hfounded
    rw [← htypes] at hmid
    exact .of_scopes hscopes hdepth' hmid

theorem grounded_analyzeAll {items : Item → Prop} : ∀ (programs : List Program)
    {s s' : Analyzer}, (∀ p ∈ programs, ∀ item ∈ p.items, items item) → s.Grounded items →
    s.analyzeAll (programs.map Program.toNode) = some s' → s'.Grounded items
  | [], s, s', _, hs, h => by
    rw [← Option.some.inj h]
    exact hs
  | p :: rest, s, s', hitems, hs, h => by
    obtain ⟨hp, hrest⟩ := List.forall_mem_cons.mp hitems
    obtain ⟨t, ht, h⟩ := Option.bind_eq_some_iff.mp h
    exact grounded_analyzeAll rest hrest (p.grounded hp hs ht) h

/-! ## 4. The main result -/

/-- **The type table is closed and well founded.** After any sequence of runs over programs, accepted
    or not, each entry of the types of the root is one of those that every program knows, or the type
    of a record of one of the programs. The fields of the record mean their types among the entries
    strictly in front of it: a plain field has a copy of one of them, with a size of its own if one
    is written, and a nested record is built in the same way. The key of the entry is not among those
    in front, no type inside the type is the type itself up to its size, and its own size is 0. -/
theorem type_table_founded {programs : List Program} {s : Analyzer}
    (h : Analyzer.fresh.analyzeAll (programs.map Program.toNode) = some s) (i : Nat) (key : String)
    (t : Ty) (hi : s.scopes.root.types[i]? = some (key, t)) :
    key = Name.mangle t.name ∧ key ∉ (s.scopes.root.types.take i).map Prod.fst ∧
    (t ∈ Ty.builtins ∨ ∃ p ∈ programs, ∃ mods fields,
      .declaration mods (.record t.name fields) ∈ p.items ∧
        List.Forall₂ (Field.Means (s.scopes.root.types.take i)) fields t.fields) ∧
    (∀ part ∈ t.parts, ∀ size, { part with size } ≠ t) ∧ t.size = 0 := by
  have hgrounded : s.Grounded fun item => ∃ p ∈ programs, item ∈ p.items :=
    grounded_analyzeAll programs (fun p hp item hm => ⟨p, hp, hm⟩)
      ⟨rfl, rfl, .fresh _⟩ h
  obtain ⟨hkey, hfresh, hsize, hsource⟩ := hgrounded.founded i (key, t) hi
  refine ⟨hkey, hfresh, hsource.imp id ?_, fun part hp size => Ty.ne_of_mem_parts hp size, hsize⟩
  intro hrecord
  obtain ⟨mods, fields, ⟨p, hp, hm⟩, hfields⟩ := hrecord
  exact ⟨p, hp, mods, fields, hm, hfields⟩

/-- The program `declare struct P [int(4)] x end`. -/
def pointSample : Program :=
  ⟨[.declaration [] (.record "P" [.plain ⟨"int", some 4, false⟩ "x"])]⟩

/-- The program `declare [Q] q : 1`, whose type is not declared. -/
def strayTypeSample : Program :=
  ⟨[.declaration [] (.global ⟨"Q", none, false⟩ "q" (.number "1"))]⟩

/-- Behind a run that is refused and one that is accepted, the fourth type is that of the record. -/
theorem type_table_founded_of_samples :
    ∃ s key t, Analyzer.fresh.analyzeAll ([strayTypeSample, pointSample].map Program.toNode) =
        some s ∧
      s.scopes.root.types[3]? = some (key, t) ∧ key = Name.mangle "P" ∧
      key ∉ (s.scopes.root.types.take 3).map Prod.fst ∧
      t.parts = [⟨"int", 4, []⟩] ∧ ∀ part ∈ t.parts, ∀ size, { part with size } ≠ t := by
  have hstray : (Check.analyze strayTypeSample.toNode).settled .fresh = some .fresh := by cbv
  have htype : recordType (.inBody ScopeStack.fresh.root []) ⟨{ kind := .record, value := "P" },
      Field.toNodes "P" [.plain ⟨"int", some 4, false⟩ "x"]⟩ =
      .ok ⟨"P", 0, [(Name.mangle "x", ⟨"int", 4, []⟩)]⟩ := by cbv
  obtain ⟨u, hu, hscopes⟩ := record_accepted (s := .fresh) rfl rfl (by decide) htype (by cbv)
  have hpoint : (Check.analyze pointSample.toNode).settled .fresh =
      some { u with warnings := [], archive := [] } := by
    have hitems : visitAll (pointSample.items.map Item.toNode) .fresh =
        .ok (pointSample.items.map Item.toNode) u := by
      unfold pointSample List.map visitAll List.map visitAll
      exact Check.bind_ok.mpr ⟨_, u, hu, rfl⟩
    have hroot : visit pointSample.toNode .fresh = .ok pointSample.toNode u := by
      unfold Program.toNode visit
      exact Check.bind_ok.mpr ⟨_, u, hitems, rfl⟩
    have hanalyze : Check.analyze pointSample.toNode .fresh = _ :=
      Check.bind_ok.mpr ⟨_, u, hroot, rfl⟩
    rw [Check.settled, hanalyze]
  have hall : Analyzer.fresh.analyzeAll ([strayTypeSample, pointSample].map Program.toNode) =
      some { u with warnings := [], archive := [] } := by
    simp only [List.map_cons, List.map_nil, Analyzer.analyzeAll, hstray, hpoint, Option.bind_some]
  have hfourth : u.scopes.root.types[3]? =
      some (Name.mangle "P", ⟨"P", 0, [(Name.mangle "x", ⟨"int", 4, []⟩)]⟩) := by
    rw [hscopes]
    rfl
  obtain ⟨hkey, hfresh, _, hparts, _⟩ := type_table_founded hall 3 _ _ hfourth
  exact ⟨_, _, _, hall, hfourth, hkey, hfresh, rfl, hparts⟩

end Osclan
