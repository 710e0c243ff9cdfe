/-
  File:      Osclan/Proofs/SourceNames.lean
  Subject:   The names in a tree that was read are names of the source.

  Whatever is known of the names among some tokens is known of the names in the tree they form: of
  what is declared and referred to, of type names, and of the segments of written paths. The proofs
  go along the derivation of the tree, one for each production.

  * `Name.IsPath` -- a written path whose segments have a property;
  * `Label.Named`, `Node.Named` -- trees whose names have a property;
  * `FormsProgram.isNamed` -- the trees of tokens;
  * `ofTokens_named` -- the trees of sources.
-/
import Osclan.Proofs.Likeness
import Osclan.Proofs.Parsing
import Osclan.Proofs.Spelling

namespace Osclan

variable {P : String → Prop}

/-! ## 1. Trees whose names have a property -/

/-- The written path is made of names with the property. -/
inductive Name.IsPath (P : String → Prop) : String → Prop where
  | base {name : String} : P name → Name.IsPath P name
  | join {path name : String} : Name.IsPath P path → P name → Name.IsPath P (joinPath path name)

/-- The names in the label have the property. A record without a name has the empty text. -/
structure Label.Named (P : String → Prop) (l : Label) : Prop where
  value : l.naming = true → l.value = "" ∨ P l.value
  typeName : ∀ name ∈ l.typeName, P name
  path : ∀ path ∈ l.path, Name.IsPath P path

/-- The names in all labels of the tree have the property. -/
inductive Node.Named (P : String → Prop) : Node → Prop where
  | mk {l : Label} {ns : List Node} : l.Named P → (∀ n ∈ ns, n.Named P) → Node.Named P ⟨l, ns⟩

theorem Node.Named.label {n : Node} (h : n.Named P) : n.label.Named P := by
  cases h with
  | mk hl _ => exact hl

theorem Node.Named.children {n : Node} (h : n.Named P) : ∀ m ∈ n.children, m.Named P := by
  cases h with
  | mk _ hc => exact hc

/-- A label with nothing but a name. -/
theorem Label.named_of_value {l : Label} (hv : P l.value) (ht : l.typeName = none)
    (hp : l.path = none) : l.Named P := by
  refine ⟨fun _ => .inr hv, ?_, ?_⟩
  · rw [ht]
    simp
  · rw [hp]
    simp

/-- A label that names nothing. -/
theorem Label.named_of_text {l : Label} (hn : l.naming = false) (ht : ∀ name ∈ l.typeName, P name)
    (hp : l.path = none) : l.Named P := by
  refine ⟨fun e => ?_, ht, ?_⟩
  · rw [hn] at e
    cases e
  · rw [hp]
    simp

/-- A label with a type, of something that has a name or has none. -/
theorem Label.named_typedAs {l ty : Label} (hv : l.value = "" ∨ P l.value) (ht : P ty.value)
    (hp : l.path = none) : (l.typedAs ty).Named P := by
  refine ⟨fun _ => hv, ?_, ?_⟩
  · intro name hn
    obtain rfl := Option.some.inj hn
    exact ht
  · show ∀ path ∈ l.path, Name.IsPath P path
    rw [hp]
    simp

/-- A node without children. -/
theorem Label.Named.leaf {l : Label} (h : l.Named P) : Node.Named P ⟨l, []⟩ :=
  .mk h fun _ hn => absurd hn List.not_mem_nil

/-! ## 2. Derivations -/

/-- If the token is a name, it has the property. -/
def Token.Names (P : String → Prop) (t : Token) : Prop :=
  t.kind = .ident ∨ t.kind = .struct → P t.value

section Derivations

variable {pre : List Token} {n : Node}

theorem FormsType.isNamed {ty : Label} (h : FormsType pre ty) :
    OfTokens (Token.Names P) (fun ty => P ty.value ∧ Node.Named P ⟨ty, []⟩) pre ty := by
  intro ht
  cases h with
  | @mk l name r size star k pointer hl hname hsize hstar hr =>
    have hx : P name.value := ht name (by simp) hname
    exact ⟨hx, (Label.named_of_value hx rfl rfl).leaf⟩

/-- The names of one step of a path. -/
def PathStep.Named (P : String → Prop) (step : PathStep) : Prop :=
  P step.name ∧ ∀ n ∈ step.inner, n.Named P

theorem chain_named : ∀ {steps : List PathStep}, (∀ step ∈ steps, step.Named P) →
    ∀ {before : String}, Name.IsPath P before → ∀ n ∈ chain before steps, n.Named P
  | [], _, before, _ => by
    intro n hn
    rw [chain] at hn
    exact absurd hn List.not_mem_nil
  | step :: rest, hs, before, hb => by
    obtain ⟨hstep, hrest⟩ := List.forall_mem_cons.mp hs
    have hpath : Name.IsPath P (before ++ "::" ++ step.name) := .join hb hstep.1
    have hbelow := chain_named hrest hpath
    rw [chain]
    refine List.forall_mem_singleton.mpr (.mk ⟨fun _ => .inr hstep.1, by simp, ?_⟩ ?_)
    · intro path hp
      rw [← Option.some.inj hp]
      exact hpath
    · exact List.forall_mem_append.mpr ⟨hstep.2, hbelow⟩

theorem FormsSegment.isNamed {step : PathStep}
    (h : FormsSegment (OfTokens (Token.Names P) (Node.Named P)) pre step) :
    OfTokens (Token.Names P) (PathStep.Named P) pre step := by
  intro ht
  cases h with
  | @plain c name hc hname =>
    exact ⟨ht name (by simp) (.inl hname), fun n hn => absurd hn List.not_mem_nil⟩
  | @fixed c name l t r hc hname =>
    exact ⟨ht name (by simp) (.inl hname), fun n hn => absurd hn List.not_mem_nil⟩
  | @dynamic c name l r inner offset hc hname hl hp hr =>
    refine ⟨ht name (by simp) (.inl hname), List.forall_mem_singleton.mpr ?_⟩
    exact hp fun t hm => ht t (by simp [hm])

theorem FormsPath.isNamed : ∀ {kind : NodeKind} {pre : List Token} {n : Node},
    FormsPath kind pre n → OfTokens (Token.Names P) (Node.Named P) pre n
  | kind, _, _, @FormsPath.mk _ base pre steps hbase hm => by
    intro ht
    obtain ⟨hb, hrest⟩ := List.forall_mem_cons.mp ht
    have hsteps := (hm.imp fun p s hp hseg => (hseg.imp fun q n hq hpath =>
      hpath.isNamed).isNamed).ofTokens hrest
    have hx : P base.value := hb (.inl hbase)
    exact .mk (Label.named_of_value hx rfl rfl) (chain_named hsteps (.base hx))
termination_by _ pre => pre.length
decreasing_by simp only [List.length_cons]; omega

theorem FormsMember.isNamed (h : FormsMember (OfTokens (Token.Names P) (Node.Named P)) pre n) :
    OfTokens (Token.Names P) (Node.Named P) pre n := by
  intro ht
  have hassign : ∀ {x : Token} {n : Node}, P x.value → n.Named P →
      Node.Named P ⟨{ kind := .assignment }, [⟨{ kind := .field, value := x.value }, []⟩, n]⟩ := by
    intro x n hx hn
    refine .mk (Label.named_of_text rfl (by simp) rfl) (List.forall_mem_cons.mpr ⟨?_, ?_⟩)
    · exact (Label.named_of_value hx rfl rfl).leaf
    · exact List.forall_mem_singleton.mpr hn
  cases h with
  | @named x c pre n hx hc hv =>
    exact hassign (ht x (by simp) (.inl hx)) (hv fun t hm => ht t (by simp [hm]))
  | @short x hx =>
    have hname : P x.value := ht x (by simp) (.inl hx)
    exact hassign hname (Label.named_of_value hname rfl rfl).leaf

theorem FormsCall.isNamed (h : FormsCall (OfTokens (Token.Names P) (Node.Named P)) pre n) :
    OfTokens (Token.Names P) (Node.Named P) pre n := by
  intro ht
  cases h with
  | @mk c name l r args ns hc hname hl ha hr =>
    have hargs := ha.ofTokens fun t hm => ht t (by simp [hm])
    refine .mk (Label.named_of_value (ht name (by simp) (.inl hname)) rfl rfl) ?_
    refine List.forall_mem_map.mpr fun n hn => ?_
    exact .mk (Label.named_of_text rfl (by simp) rfl) (List.forall_mem_singleton.mpr (hargs n hn))

section Literals

variable (hint : P "int") (hstring : P "string")
include hint hstring

theorem FormsValue.isNamed : ∀ {pre : List Token} {n : Node}, FormsValue pre n →
    OfTokens (Token.Names P) (Node.Named P) pre n
  | _, _, @FormsValue.allocate t pre ty _ htype => by
    intro ht
    have hty := htype.isNamed (List.forall_mem_cons.mp ht).2
    exact (Label.named_typedAs (.inl rfl) hty.1 rfl).leaf
  | _, _, .number _ => fun _ => (Label.named_of_text rfl (by simpa using hint) rfl).leaf
  | _, _, .text _ => fun _ => (Label.named_of_text rfl (by simpa using hstring) rfl).leaf
  | _, _, .path hp => hp.isNamed
  | _, _, @FormsValue.pointer s name hs hname => fun ht =>
    (Label.named_of_value (ht name (by simp) (.inl hname)) rfl rfl).leaf
  | _, _, @FormsValue.anon d a e pre ns hd ha hm he => by
    intro ht
    have hmembers := (hm.imp fun p n hp hmem => (hmem.imp fun q m hq hv =>
      hv.isNamed).isNamed).ofTokens fun t hm => ht t (by simp [hm])
    exact .mk ⟨fun _ => .inl rfl, by simp, by simp⟩ hmembers
  | _, _, .call hc => (hc.imp fun p m hp hv => hv.isNamed).isNamed
termination_by pre => pre.length
decreasing_by
  · simp only [List.length_cons, List.length_append]
    omega
  · exact hp

theorem FormsBinding.isNamed (h : FormsBinding pre n) :
    OfTokens (Token.Names P) (Node.Named P) pre n := by
  intro ht
  cases h with
  | @mk tpre post ty name c n htype hname hc hv =>
    have hty := htype.isNamed fun t hm => ht t (by simp [hm])
    have hx : P name.value := ht name (by simp) (.inl hname)
    have hn := hv.isNamed hint hstring fun t hm => ht t (by simp [hm])
    refine .mk (Label.named_of_text rfl (by simp) rfl) (List.forall_mem_cons.mpr ⟨?_, ?_⟩)
    · exact (Label.named_typedAs (.inr hx) hty.1 rfl).leaf
    · exact List.forall_mem_singleton.mpr hn

theorem FormsStatement.isNamed (h : FormsStatement pre n) :
    OfTokens (Token.Names P) (Node.Named P) pre n := by
  intro ht
  have hnode : ∀ {l : Label} {ns : List Node}, l.naming = false → l.typeName = none →
      l.path = none → (∀ n ∈ ns, n.Named P) → Node.Named P ⟨l, ns⟩ :=
    fun hl htype hp hns => .mk (Label.named_of_text hl (by simp [htype]) hp) hns
  cases h with
  | @declare d pre n hd hb => exact hb.isNamed hint hstring (List.forall_mem_cons.mp ht).2
  | @assign pre post c target n hp hc hv =>
    have htarget := hp.isNamed (P := P) fun t hm => ht t (by simp [hm])
    have hvalue := hv.isNamed hint hstring fun t hm => ht t (by simp [hm])
    refine hnode rfl rfl rfl (List.forall_mem_cons.mpr ⟨htarget, ?_⟩)
    exact List.forall_mem_singleton.mpr hvalue
  | @ret r pre n hr hv =>
    have hvalue := hv.isNamed hint hstring (List.forall_mem_cons.mp ht).2
    exact hnode rfl rfl rfl (List.forall_mem_singleton.mpr hvalue)
  | @print p pre n hp hv =>
    have hvalue := hv.isNamed hint hstring (List.forall_mem_cons.mp ht).2
    exact hnode rfl rfl rfl (List.forall_mem_singleton.mpr hvalue)
  | call hc => exact (hc.imp fun p m _ hv => hv.isNamed hint hstring).isNamed ht

theorem FormsBody.isNamed {ns : List Node} (h : FormsBody pre ns) (ht : ∀ t ∈ pre, t.Names P) :
    ∀ n ∈ ns, n.Named P := by
  have hmany : ∀ {pre : List Token} {ns : List Node}, Many FormsStatement pre ns →
      (∀ t ∈ pre, t.Names P) → ∀ n ∈ ns, n.Named P :=
    fun hm => (hm.imp fun p n _ hs => hs.isNamed hint hstring).ofTokens
  cases h with
  | plain hm => exact hmany hm ht
  | bareRet hm hr =>
    refine List.forall_mem_append.mpr ⟨hmany hm (List.forall_mem_append.mp ht).1, ?_⟩
    exact List.forall_mem_singleton.mpr (Label.named_of_text rfl (by simp) rfl).leaf

end Literals

/-- The names of a field, wherever its record stands. -/
def NamedField (P : String → Prop) (f : String → Node) : Prop :=
  ∀ parent, Name.IsPath P parent → (f parent).Named P

theorem FormsField.isNamed : ∀ {pre : List Token} {f : String → Node}, FormsField pre f →
    OfTokens (Token.Names P) (NamedField P) pre f
  | _, _, @FormsField.plain pre ty name htype _ hname => by
    intro ht parent _
    have hty := htype.isNamed fun t hm => ht t (by simp [hm])
    refine .mk (Label.named_of_value (ht name (by simp) (.inl hname)) rfl rfl) ?_
    exact List.forall_mem_singleton.mpr hty.2
  | _, _, @FormsField.nested pre fields ty name b e fs htype _ hname hb hm he => by
    intro ht parent hparent
    have hx : P name.value := ht name (by simp) (.inl hname)
    have hfields := (hm.imp fun p f hp hf => hf.isNamed).ofTokens fun t hmem =>
      ht t (by simp [hmem])
    have hpath : Name.IsPath P (parent ++ "::" ++ name.value) := .join hparent hx
    refine .mk ⟨fun _ => .inr hx, by simp, ?_⟩ ?_
    · intro path hp
      rw [← Option.some.inj hp]
      exact hpath
    · exact List.forall_mem_map.mpr fun f hf => hfields f hf _ hpath
termination_by pre => pre.length
decreasing_by
  simp only [List.length_append, List.length_cons]
  omega

theorem FormsParam.isNamed (h : FormsParam pre n) :
    OfTokens (Token.Names P) (Node.Named P) pre n := by
  intro ht
  cases h with
  | @mk pre ty name htype hname =>
    have hty := htype.isNamed fun t hm => ht t (by simp [hm])
    have hx : P name.value := ht name (by simp) (.inl hname)
    exact .mk (Label.named_typedAs (.inr hx) hty.1 rfl) (List.forall_mem_singleton.mpr hty.2)

section Programs

variable (hint : P "int") (hstring : P "string")
include hint hstring

theorem FormsDeclared.isNamed (h : FormsDeclared pre n) :
    OfTokens (Token.Names P) (Node.Named P) pre n := by
  intro ht
  cases h with
  | @record s name e fields fs hs hname hf he =>
    have hx : P name.value := ht name (by simp) (.inl hname)
    have hfields := (hf.imp fun p f _ hfield => hfield.isNamed).ofTokens fun t hm =>
      ht t (by simp [hm])
    refine .mk (Label.named_of_value hx rfl rfl) (List.forall_mem_map.mpr fun f hf => ?_)
    exact hfields f hf _ (.base hx)
  | @procedure tpre params body ty c name l r e ps ns htype hc hname hl hp hr hb he =>
    have hty := htype.isNamed fun t hm => ht t (by simp [hm])
    have hx : P name.value := ht name (by simp) (.inl hname)
    have hparams := (hp.imp fun p n _ hparam => hparam.isNamed).ofTokens fun t hm =>
      ht t (by simp [hm])
    have hbody := hb.isNamed hint hstring fun t hm => ht t (by simp [hm])
    refine .mk (Label.named_of_value hx rfl rfl) (List.forall_mem_cons.mpr ⟨hty.2, ?_⟩)
    exact List.forall_mem_append.mpr ⟨hparams, hbody⟩
  | «global» hb => exact hb.isNamed hint hstring ht

theorem FormsItem.isNamed (h : FormsItem pre n) :
    OfTokens (Token.Names P) (Node.Named P) pre n := by
  intro ht
  cases h with
  | directive =>
    refine .mk (Label.named_of_text rfl (by simp) rfl) (List.forall_mem_singleton.mpr ?_)
    exact (Label.named_of_text rfl (by simp) rfl).leaf
  | @declaration d ms pre mods n hd hm hdecl =>
    have hn := hdecl.isNamed hint hstring fun t hmem => ht t (by simp [hmem])
    refine .mk hn.label (List.forall_mem_append.mpr ⟨hn.children, ?_⟩)
    refine hm.forall_mem fun p m hmod => ?_
    cases hmod
    exact (Label.named_of_text rfl (by simp) rfl).leaf

/-- **The names in a tree are names among its tokens**, and those of the types of literals. -/
theorem FormsProgram.isNamed (h : FormsProgram pre n) :
    OfTokens (Token.Names P) (Node.Named P) pre n := by
  intro ht
  cases h with
  | mk hm =>
    have hitems := (hm.imp fun p n _ hitem => hitem.isNamed hint hstring).ofTokens ht
    exact .mk (Label.named_of_text rfl (by simp) rfl) hitems

end Programs

end Derivations

/-- **The names in the tree of a source are names of the source.** -/
theorem ofTokens_named {file source : String} {ts : List Token} {p : Program}
    (ht : tokenize file source = .ok ts) (hp : Program.ofTokens ts = .ok p)
    (hint : P "int") (hstring : P "string") (hnames : ∀ t : Token, t.Spelled → t.Names P) :
    p.toNode.Named P := by
  obtain ⟨pre, e, rest, rfl, _, hforms, hgood⟩ := ofTokens_sound hp
  refine hforms.isNamed hint hstring fun t hm => hnames t ?_
  exact lex_spelled ht t (List.mem_append_left _ hm) (hgood t hm).2

end Osclan
