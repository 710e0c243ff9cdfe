/-
  File:      Osclan/Proofs/GlobalScope.lean
  Subject:   The root holds what a program declares at the top, and nothing else.

  * `Program.records`, `Program.headings`, `Program.bindings` -- the declarations at the top;
  * `Item.AddsAll.extends` -- each table of the root is extended by its declarations;
  * `Item.AddsAll.keys` -- a key of the root is from before, or that of a name declared at the top;
  * `ofTokens_topName` -- the names at the top of a source;
  * **`global_table_exact`** -- the root after an accepted source.
-/
import Osclan.Proofs.GlobalTable
import Osclan.Proofs.ItemWalk
import Osclan.Proofs.Renaming

namespace Osclan

/-! ## 1. Declarations -/

/-- The record that an item declares. -/
def Item.record? : Item → Option Record
  | .declaration _ (.record name fields) => some ⟨name, fields⟩
  | _ => none

/-- The heading of the procedure that an item declares. -/
def Item.heading? : Item → Option Heading
  | .declaration _ (.procedure returns name params _) => some ⟨returns, name, params⟩
  | _ => none

/-- The variable that an item declares. -/
def Item.binding? : Item → Option Binding
  | .declaration _ (.global type name value) => some (value.binding type name)
  | _ => none

/-- The records at the top of a program. -/
def Program.records (p : Program) : List Record := p.items.filterMap Item.record?

/-- The headings of the procedures at the top. -/
def Program.headings (p : Program) : List Heading := p.items.filterMap Item.heading?

/-- The variables at the top. -/
def Program.bindings (p : Program) : List Binding := p.items.filterMap Item.binding?

mutual

/-- The names in a field: its own, and those of the fields in a nested record. -/
def Field.names : Field → List String
  | .plain _ name => [name]
  | .nested name fields => name :: Field.namesAll fields

/-- The names in some fields. -/
def Field.namesAll : List Field → List String
  | [] => []
  | f :: rest => f.names ++ Field.namesAll rest

end

/-- The variable that a statement declares. -/
def Statement.local? : Statement → Option String
  | .declare _ name _ => some name
  | _ => none

/-- The names declared inside an item: fields and nested records, parameters and locals. -/
def Item.innerNames : Item → List String
  | .declaration _ (.record _ fields) => Field.namesAll fields
  | .declaration _ (.procedure _ _ params body) =>
    params.map Param.name ++ body.filterMap Statement.local?
  | _ => []

/-- The names declared inside the items of a program. -/
def Program.innerNames (p : Program) : List String := p.items.flatMap Item.innerNames

/-! ## 2. Tables that are extended -/

/-- The table goes on with one entry for each of the given things, in their order. -/
def Table.ExtendedBy {α β : Type} (name : α → String) (R : α → β → Prop) (as : List α)
    (t t' : Table β) : Prop :=
  ∃ more, t' = t ++ more ∧ List.Forall₂ (Entered name R) as more

section

variable {α β : Type} {name : α → String} {R : α → β → Prop}

theorem Table.ExtendedBy.refl (t : Table β) : t.ExtendedBy name R [] t :=
  ⟨[], (List.append_nil _).symm, .nil⟩

theorem Table.ExtendedBy.cons {a : α} {as : List α} {b : β} {t t' : Table β} (hb : R a b)
    (h : Table.ExtendedBy name R as (t ++ [(Name.mangle (name a), b)]) t') :
    t.ExtendedBy name R (a :: as) t' := by
  obtain ⟨more, rfl, hmore⟩ := h
  exact ⟨(Name.mangle (name a), b) :: more, List.append_assoc _ _ _, .cons ⟨rfl, hb⟩ hmore⟩

end

/-- The tables of the root behind some items. -/
structure Scope.ExtendedBy (sc : Scope) (items : List Item) (sc' : Scope) : Prop where
  types : sc.types.ExtendedBy Record.name (Record.Means sc'.types) (items.filterMap Item.record?)
    sc'.types
  procs : sc.procs.ExtendedBy Heading.name (Heading.Means sc'.types)
    (items.filterMap Item.heading?) sc'.procs
  vars : sc.vars.ExtendedBy Binding.name (Binding.Means sc'.types) (items.filterMap Item.binding?)
    sc'.vars

/-- **What items add**, each with the meaning that it has among the types at the end. -/
theorem Item.AddsAll.extends {items : List Item} {sc sc' : Scope} (h : AddsAll items sc sc')
    (hnamed : ∀ r ∈ items.filterMap Item.record?, r.name ≠ "") : sc.ExtendedBy items sc' := by
  induction h with
  | nil sc => exact ⟨.refl _, .refl _, .refl _⟩
  | @cons item rest sc mid sc' hadds hall ih =>
    have hgrown : sc.types <+: sc'.types := hadds.types.trans hall.types
    cases hadds with
    | directive name argument sc =>
      obtain ⟨htypes, hprocs, hvars⟩ := ih hnamed
      exact ⟨htypes, hprocs, hvars⟩
    | anonymous mods fields sc => exact absurd rfl (hnamed ⟨"", fields⟩ List.mem_cons_self)
    | record _ _ ht =>
      obtain ⟨htypes, hprocs, hvars⟩ := ih fun r hr => hnamed r (List.mem_cons_of_mem _ hr)
      exact ⟨htypes.cons (ht.mono hgrown), hprocs, hvars⟩
    | procedure hp =>
      obtain ⟨htypes, hprocs, hvars⟩ := ih hnamed
      exact ⟨htypes, hprocs.cons (hp.mono hgrown), hvars⟩
    | «global» hv =>
      obtain ⟨htypes, hprocs, hvars⟩ := ih hnamed
      exact ⟨htypes, hprocs, hvars.cons (hv.mono hgrown)⟩

/-! ## 3. Keys -/

theorem Item.Adds.keys {item : Item} {sc sc' : Scope} (h : item.Adds sc sc') {e : Entity}
    {key : String} (hk : key ∈ sc'.keys e) :
    key ∈ sc.keys e ∨ ∃ name, item.declares? = some (e, name) ∧ Name.mangle name = key := by
  have hlast : ∀ {α : Type} {t : Table α} {name : String} {a : α},
      key ∈ (t ++ [(Name.mangle name, a)]).map Prod.fst →
      key ∈ t.map Prod.fst ∨ Name.mangle name = key := by
    intro α t name a hmem
    rw [List.map_append, List.mem_append] at hmem
    exact hmem.imp id fun hm => (List.mem_singleton.mp hm).symm
  cases h with
  | directive | anonymous => exact .inl hk
  | @record mods name =>
    cases e with
    | type => exact (hlast hk).imp id fun hn => ⟨name, rfl, hn⟩
    | _ => exact .inl hk
  | @procedure mods returns name =>
    cases e with
    | proc => exact (hlast hk).imp id fun hn => ⟨name, rfl, hn⟩
    | _ => exact .inl hk
  | @«global» mods type name =>
    cases e with
    | var => exact (hlast hk).imp id fun hn => ⟨name, rfl, hn⟩
    | _ => exact .inl hk

/-- **A key of the root** is one from before, or that of a name declared at the top. -/
theorem Item.AddsAll.keys {items : List Item} {sc sc' : Scope} (h : AddsAll items sc sc')
    {e : Entity} {key : String} (hk : key ∈ sc'.keys e) :
    key ∈ sc.keys e ∨
      ∃ name, (e, name) ∈ items.filterMap Item.declares? ∧ Name.mangle name = key := by
  induction h with
  | nil sc => exact .inl hk
  | @cons item rest sc mid sc' hadds hall ih =>
    rcases ih hk with hk | ⟨name, hname, hkey⟩
    · rcases hadds.keys hk with hk | ⟨name, hname, hkey⟩
      · exact .inl hk
      · exact .inr ⟨name, List.mem_filterMap.mpr ⟨item, List.mem_cons_self, hname⟩, hkey⟩
    · obtain ⟨other, hother, hd⟩ := List.mem_filterMap.mp hname
      exact .inr ⟨name, List.mem_filterMap.mpr ⟨other, List.mem_cons_of_mem _ hother, hd⟩, hkey⟩

/-! ## 4. Names of sources -/

/-- The name of a declaration is the value of one of its tokens. -/
theorem FormsDeclared.name_token {pre : List Token} {n : Node} {ms : List Node}
    (h : FormsDeclared pre n) {mods : List String} {d : Declared} {e : Entity} {name : String}
    (hn : (Item.declaration mods d).toNode = ⟨n.label, n.children ++ ms⟩)
    (hd : (Item.declaration mods d).declares? = some (e, name)) :
    ∃ t ∈ pre, t.kind = .ident ∧ t.value = name := by
  have hkind := congrArg (fun n => n.label.kind) hn
  have hvalue := congrArg (fun n => n.label.value) hn
  have htarget := congrArg (fun n => n.children.head?.map Node.value) hn
  cases h with
  | @record s t e fields fs hs ht hf he =>
    cases d with
    | record =>
      cases hd
      exact ⟨t, by simp, ht, hvalue.symm⟩
    | procedure => cases hkind
    | «global» => cases hkind
  | @procedure tpre params body ty c t l r e ps ns htype hc ht hl hp hr hb he =>
    cases d with
    | record => cases hkind
    | procedure =>
      cases hd
      exact ⟨t, by simp, ht, hvalue.symm⟩
    | «global» => cases hkind
  | «global» hb =>
    cases hb with
    | @mk pre post ty t c value htype ht hc hv =>
      cases d with
      | record => cases hkind
      | procedure => cases hkind
      | «global» =>
        cases hd
        exact ⟨t, by simp, ht, (Option.some.inj htarget).symm⟩

/-- **The names declared at the top of a source** are names that a source can have. -/
theorem ofTokens_topName {file source : String} {ts : List Token} {p : Program}
    (ht : tokenize file source = .ok ts) (hp : Program.ofTokens ts = .ok p) :
    ∀ d ∈ p.declared, Name.InSource d.2 := by
  obtain ⟨pre, eof, rest, rfl, _, hforms, hgood⟩ := ofTokens_sound hp
  have hnames : ∀ t ∈ pre, t.Names Name.InSource := fun t hm =>
    (lex_spelled ht t (List.mem_append_left _ hm) (hgood t hm).2).inSource
  have hitem : ∀ {pre : List Token} {n : Node}, FormsItem pre n →
      OfTokens (Token.Names Name.InSource) (fun n => ∀ item : Item, item.toNode = n →
        ∀ d, item.declares? = some d → Name.InSource d.2) pre n := by
    intro pre n h htokens item hn d hd
    obtain ⟨e, name⟩ := d
    cases item with
    | directive => cases hd
    | declaration mods declared =>
      cases h with
      | directive =>
        have hkind := congrArg (fun n => n.label.kind) hn
        cases declared <;> cases hkind
      | @declaration dtok ms pre ns n hdtok hms hdeclared =>
        obtain ⟨t, hm, hk, rfl⟩ := hdeclared.name_token hn hd
        exact htokens t (by simp [hm]) (.inl hk)
  intro d hd
  obtain ⟨item, hm, hd⟩ := List.mem_filterMap.mp hd
  have hnode : item.toNode ∈ p.toNode.children := List.mem_map_of_mem hm
  generalize p.toNode = tree at hforms hnode
  cases hforms with
  | mk hmany =>
    have hall := (hmany.imp fun pre n _ h => hitem h).ofTokens hnames
    exact hall item.toNode hnode item rfl d hd

mutual

theorem Field.plain_names : ∀ (parent : String) (f : Field), (f.toNode parent).Named Name.Plain →
    ∀ name ∈ f.names, Name.Plain name
  | parent, .plain type name, h => by
    rw [Field.toNode] at h
    rw [Field.names]
    exact List.forall_mem_singleton.mpr (h.plain rfl)
  | parent, .nested name fields, h => by
    have hfields := Field.plain_namesAll (joinPath parent name) fields
    rw [Field.toNode] at h
    rw [Field.names]
    exact List.forall_mem_cons.mpr ⟨h.plain rfl, hfields h.children⟩

theorem Field.plain_namesAll : ∀ (parent : String) (fields : List Field),
    (∀ n ∈ Field.toNodes parent fields, n.Named Name.Plain) →
    ∀ name ∈ Field.namesAll fields, Name.Plain name
  | parent, [], _ => by
    rw [Field.namesAll]
    exact List.forall_mem_nil _
  | parent, f :: rest, h => by
    have hf := Field.plain_names parent f
    have hrest := Field.plain_namesAll parent rest
    rw [Field.toNodes] at h
    obtain ⟨hfirst, hothers⟩ := List.forall_mem_cons.mp h
    rw [Field.namesAll]
    exact List.forall_mem_append.mpr ⟨hf hfirst, hrest hothers⟩

end

theorem Item.plain_innerNames (item : Item) (h : item.toNode.Named Name.Plain) :
    ∀ name ∈ item.innerNames, Name.Plain name := by
  cases item with
  | directive => exact List.forall_mem_nil _
  | declaration mods declared =>
    obtain ⟨hchildren, _⟩ := List.forall_mem_append.mp h.children
    cases declared with
    | record name fields => exact Field.plain_namesAll name fields hchildren
    | procedure returns name params body =>
      obtain ⟨_, hrest⟩ := List.forall_mem_cons.mp hchildren
      obtain ⟨hparams, hbody⟩ := List.forall_mem_append.mp hrest
      refine List.forall_mem_append.mpr ⟨?_, ?_⟩
      · exact List.forall_mem_map.mpr fun p hp =>
          (hparams _ (List.mem_map_of_mem hp)).plain rfl
      · intro x hx
        obtain ⟨st, hst, hlocal⟩ := List.mem_filterMap.mp hx
        have hnamed := hbody _ (List.mem_map_of_mem hst)
        cases st with
        | declare type name value =>
          cases hlocal
          exact (hnamed.children _ List.mem_cons_self).plain rfl
        | assign => cases hlocal
        | ret => cases hlocal
        | print => cases hlocal
        | call => cases hlocal
    | «global» => exact List.forall_mem_nil _

/-! ## 5. The main result -/

/-- **The global table is exact.** Behind an accepted source the root has depth 0. Its types are the
    three that every program knows, elementary and of size 0, and behind them the records at the top;
    its procedures are those at the top, each with its parameters in order and without a result
    exactly if it is written to return `void`; its variables are those declared at the top. Each
    table is in source order and keyed by the mangled names, and all types are those of the root
    itself. The name of a local, of a parameter, of a field or of a nested record is a key of the
    root only where the same name is declared at the top as well, or known to every program, and the
    empty name of anonymous records is none. -/
theorem global_table_exact {file source : String} {p : Program} {a : Analysis}
    (h : Accepted file source p a) :
    a.globals.depth = 0 ∧
    (∃ records, a.globals.types = [(Name.mangle "int", ⟨"int", 0, []⟩),
        (Name.mangle "uint", ⟨"uint", 0, []⟩), (Name.mangle "string", ⟨"string", 0, []⟩)] ++ records ∧
      List.Forall₂ (Entered Record.name (Record.Means a.globals.types)) p.records records) ∧
    List.Forall₂ (Entered Heading.name (Heading.Means a.globals.types)) p.headings
      a.globals.procs ∧
    List.Forall₂ (Entered Binding.name (Binding.Means a.globals.types)) p.bindings
      a.globals.vars ∧
    (∀ name ∈ p.innerNames, ∀ e, Name.mangle name ∈ a.globals.keys e →
      (e, name) ∈ p.declared ∨ e = .type ∧ name ∈ ["int", "uint", "string"]) ∧
    ∀ e, Name.mangle "" ∉ a.globals.keys e := by
  obtain ⟨ts, s, ht, hp, ha⟩ := h
  obtain ⟨_, _, hall, _⟩ := (p.runs rfl rfl).ok ha
  have htop := ofTokens_topName ht hp
  have hnamed : p.toNode.Named Name.Plain :=
    ofTokens_named ht hp (by decide) (by decide) fun _ hs => hs.plain
  have hrecords : ∀ r ∈ p.records, r.name ≠ "" := by
    intro r hr
    obtain ⟨item, hm, hrecord⟩ := List.mem_filterMap.mp hr
    have hd : (Entity.type, r.name) ∈ p.declared := by
      refine List.mem_filterMap.mpr ⟨item, hm, ?_⟩
      cases item with
      | directive => cases hrecord
      | declaration mods declared =>
        cases declared with
        | record =>
          cases hrecord
          rfl
        | procedure => cases hrecord
        | «global» => cases hrecord
    exact (htop _ hd).ne_empty
  obtain ⟨⟨records, htypes, hrecords⟩, ⟨procs, hprocs, hheadings⟩, ⟨vars, hvars, hbindings⟩⟩ :=
    hall.extends hrecords
  -- a key of the root is that of a builtin type, or of a name declared at the top
  have hkeys : ∀ {name : String}, Name.Plain name → ∀ {e : Entity},
      Name.mangle name ∈ a.globals.keys e →
      (e, name) ∈ p.declared ∨ e = .type ∧ name ∈ ["int", "uint", "string"] := by
    intro name hname e hk
    rcases hall.keys hk with hk | ⟨other, hother, hkey⟩
    · cases e with
      | type =>
        obtain ⟨known, hknown, hkey⟩ := List.mem_map.mp
          (show Name.mangle name ∈ ["int", "uint", "string"].map Name.mangle from hk)
        have hplain : ∀ w ∈ ["int", "uint", "string"], Name.Plain w := by decide
        rw [hname.mangle_inj (hplain known hknown) hkey.symm]
        exact .inr ⟨rfl, hknown⟩
      | _ => exact absurd hk List.not_mem_nil
    · rw [hname.mangle_inj (htop _ hother).plain hkey.symm]
      exact .inl hother
  refine ⟨hall.depth, ⟨records, htypes, hrecords⟩, ?_, ?_, ?_, ?_⟩
  · rw [hprocs]
    exact hheadings
  · rw [hvars]
    exact hbindings
  · intro name hm e hk
    obtain ⟨item, hitem, hin⟩ := List.mem_flatMap.mp hm
    exact hkeys (item.plain_innerNames (hnamed.children _ (List.mem_map_of_mem hitem)) name hin) hk
  · intro e hk
    rcases hkeys (by decide) hk with hd | hb
    · exact (htop _ hd).ne_empty rfl
    · exact absurd hb.2 (by decide)

/-- The program `declare [int] x : 7 declare [Void] :: f([int] n) end`. -/
def tableSample : Program :=
  ⟨[.declaration [] (.global ⟨"int", none, false⟩ "x" (.number "7")),
    .declaration [] (.procedure ⟨"Void", none, false⟩ "f" [⟨⟨"int", none, false⟩, "n"⟩] [])]⟩

/-- Its tokens. -/
def tableTokens : List Token :=
  [sampleToken 0 .declare "declare", sampleToken 8 .lbracket "[", sampleToken 9 .ident "int",
    sampleToken 12 .rbracket "]", sampleToken 14 .ident "x", sampleToken 16 .colon ":",
    sampleToken 18 .number "7", sampleToken 20 .declare "declare", sampleToken 28 .lbracket "[",
    sampleToken 29 .ident "Void", sampleToken 33 .rbracket "]", sampleToken 35 .doubleColon "::",
    sampleToken 38 .ident "f", sampleToken 39 .lparen "(", sampleToken 40 .lbracket "[",
    sampleToken 41 .ident "int", sampleToken 44 .rbracket "]", sampleToken 46 .ident "n",
    sampleToken 47 .rparen ")", sampleToken 49 .endBlock "end", sampleToken 52 .eof ""]

set_option maxRecDepth 20000 in
/-- The root of the sample holds the variable and the procedure, which returns nothing, and the
    parameter is not among its keys. -/
theorem global_table_exact_of_sample :
    ∃ a, Accepted "sample" "declare [int] x : 7 declare [Void] :: f([int] n) end" tableSample a ∧
      a.globals.vars.map Prod.fst = ["_O1x"] ∧ a.globals.procs.map Prod.fst = ["_O1f"] ∧
      (∀ entry ∈ a.globals.procs, entry.2.returns = none) ∧
      ∀ e, Name.mangle "n" ∉ a.globals.keys e := by
  have ht : (tokenize "sample" "declare [int] x : 7 declare [Void] :: f([int] n) end").toOption =
      some tableTokens := by decide +kernel
  have hp : Program.ofTokens tableTokens = .ok tableSample := by cbv
  obtain ⟨a, h⟩ := accepted_of_stages ht hp (by cbv)
  obtain ⟨_, _, hprocs, hvars, hinner, _⟩ := global_table_exact h
  refine ⟨a, h, (Entered.keys hvars).trans (by cbv), (Entered.keys hprocs).trans (by cbv), ?_, ?_⟩
  · obtain ⟨entry, _, hentry, hnil, hall⟩ := List.forall₂_cons_left_iff.mp hprocs
    cases hnil
    rw [hall]
    exact List.forall_mem_singleton.mpr (hentry.value.returns_none.mpr (by decide))
  · intro e hk
    rcases hinner "n" (by decide) e hk with hd | hb
    · exact absurd hd (by cases e <;> decide)
    · exact absurd hb.2 (by decide)

end Osclan
