/-
  File:      Osclan/Proofs/RoundTrip.lean
  Subject:   What is read from the source of a tree is the tree.

  The words of a tree are tokens one by one, and these tokens derive the tree. Both are proved along
  the derivation the tree came from: it says which words are names, texts and numbers, and that they
  have been tokens before. The new derivation is in general another one, since members, offsets and
  the types of nested records may have been spelled differently.

  * `Prints` -- words are legible, and their tokens are as said;
  * `Printed` -- what is derived from tokens of a source prints as itself;
  * `FormsPath.printed`, `FormsValue.printed`, `FormsField.printed`, … -- one for each production;
  * `tokenize_source` -- the main result.
-/
import Osclan.Proofs.Parsing
import Osclan.Proofs.Printing

namespace Osclan

/-! ## 1. Legible words -/

/-- The word is a token on its own; a number denotes a word. -/
def Legible (word : String) (kind : TokenKind) (value : String) : Prop :=
  ReadsAs word kind value ∧ (kind = .number → (Text.readWord? value).isSome = true)

instance (word : String) (kind : TokenKind) (value : String) :
    Decidable (Legible word kind value) :=
  inferInstanceAs (Decidable (_ ∧ _))

/-- A token of a source that has been read. -/
structure Token.Sound (t : Token) : Prop where
  spelled : t.Spelled
  readable : t.unreadable = false

theorem Token.Sound.legible {t : Token} (h : t.Sound) :
    Legible (spelling t.kind t.value) t.kind t.value := by
  refine ⟨h.spelled, fun hk => ?_⟩
  have hr := h.readable
  rw [Token.unreadable, hk] at hr
  simpa using hr

/-- The words of fixed spelling. -/
def fixedWords : List (String × TokenKind) :=
  [("[", .lbracket), ("]", .rbracket), ("(", .lparen), (")", .rparen), ("*", .asterisk),
   ("::", .doubleColon), (":", .colon), (",", .comma), (".", .dot), ("declare", .declare),
   ("anon", .anon), ("struct", .struct), ("begin", .beginBlock), ("end", .endBlock),
   ("init", .init), ("call", .call), ("ret", .ret), ("print", .print)]

theorem legible_of_fixed {word : String} {kind : TokenKind} (h : (word, kind) ∈ fixedWords) :
    Legible word kind word := by
  have hall : ∀ r ∈ fixedWords, Legible r.1 r.2 r.1 := by decide +kernel
  exact hall (word, kind) h

theorem isDigit_of_mem_repr {n : Nat} {d : Char} (h : d ∈ n.repr.toList) : d.isDigit = true := by
  rw [Nat.toList_repr] at h
  exact Nat.isDigit_of_mem_toDigits (by decide) (by decide) h

theorem repr_toList_ne_nil (n : Nat) : n.repr.toList ≠ [] := by
  rw [Nat.toList_repr]
  exact Nat.toDigits_ne_nil

/-- The numeral of a word denotes it. -/
theorem readWord?_repr (n : UInt64) : Text.readWord? n.toNat.repr = some n := by
  have hd : n.toNat.repr.toList.all Char.isDigit = true :=
    List.all_eq_true.mpr fun d hd => isDigit_of_mem_repr hd
  have hne : decide (n.toNat.repr.toList = []) = false := decide_eq_false (repr_toList_ne_nil _)
  have hlt : n.toNat < Text.wordLimit := n.toNat_lt
  unfold Text.readWord?
  split
  · rename_i digits e
    rw [e] at hd
    exact absurd hd (by simp)
  · simp only [hd, hne, Bool.not_true, Bool.or_false, Bool.false_eq_true, if_false]
    rw [Nat.toList_repr, Nat.ofDigitChars_ten_toDigits, if_pos hlt, UInt64.ofNat_toNat]

theorem legible_repr (n : UInt64) : Legible n.toNat.repr .number n.toNat.repr := by
  refine ⟨readsAs_number (repr_toList_ne_nil _) fun d hd => isDigit_of_mem_repr hd, fun _ => ?_⟩
  rw [readWord?_repr]
  rfl

/-! ## 2. Words that print -/

/-- The words are legible, and their tokens, wherever they stand, are as said. -/
structure Prints (words : List String) (P : List Token → Prop) : Prop where
  legible : ∀ w ∈ words, ∃ kind value, Legible w kind value
  forms : ∀ ts, TokensOf words ts → P ts

section

variable {word : String} {words more : List String} {kind : TokenKind} {value : String}
  {P Q : List Token → Prop}

theorem Prints.nil (h : P []) : Prints [] P :=
  ⟨fun _ hw => absurd hw List.not_mem_nil, fun _ ht => by cases ht; exact h⟩

theorem Prints.imp (h : Prints words P) (hi : ∀ ts, P ts → Q ts) : Prints words Q :=
  ⟨h.legible, fun ts ht => hi ts (h.forms ts ht)⟩

/-- One word more. Where its token stands does not matter. -/
theorem Prints.cons (hw : Legible word kind value)
    (h : ∀ t : Token, t.kind = kind → t.value = value → Prints words fun ts => P (t :: ts)) :
    Prints (word :: words) P := by
  constructor
  · intro w hm
    rcases List.mem_cons.mp hm with rfl | hm
    · exact ⟨kind, value, hw⟩
    · exact (h ⟨kind, value, .start ""⟩ rfl rfl).legible w hm
  · intro ts ht
    cases ht with
    | @cons t _ us _ hr hus =>
      obtain ⟨hk, hv⟩ := hw.1.unique hr
      exact (h t hk hv).forms us hus

theorem Prints.fixed (kind : TokenKind) (hw : (word, kind) ∈ fixedWords)
    (h : ∀ t : Token, t.kind = kind → Prints words fun ts => P (t :: ts)) :
    Prints (word :: words) P :=
  .cons (legible_of_fixed hw) fun t hk _ => h t hk

/-- Legible words have tokens. -/
theorem exists_tokensOf (h : ∀ w ∈ words, ∃ kind value, Legible w kind value) :
    ∃ ts, TokensOf words ts := by
  induction words with
  | nil => exact ⟨[], .nil⟩
  | cons w words ih =>
    obtain ⟨kind, value, hw⟩ := h w List.mem_cons_self
    obtain ⟨ts, hts⟩ := ih fun v hv => h v (List.mem_cons_of_mem _ hv)
    exact ⟨⟨kind, value, .start ""⟩ :: ts, .cons hw.1 hts⟩

theorem Prints.append (hw : Prints words Q)
    (h : ∀ us, Q us → Prints more fun ts => P (us ++ ts)) : Prints (words ++ more) P := by
  constructor
  · intro w hm
    obtain ⟨us, hus⟩ := exists_tokensOf hw.legible
    rcases List.mem_append.mp hm with hm | hm
    · exact hw.legible w hm
    · exact (h us (hw.forms us hus)).legible w hm
  · intro ts ht
    have hleft := List.forall₂_take_append ts words more ht
    have hright := List.forall₂_drop_append ts words more ht
    have hp := (h _ (hw.forms _ hleft)).forms _ hright
    rwa [List.take_append_drop] at hp

end

/-- What the tokens derive prints as itself, if they are those of a source. -/
def Printed {β : Type} (P : List Token → β → Prop) (words : β → List String) (pre : List Token)
    (b : β) : Prop :=
  (∀ t ∈ pre, t.Sound) → Prints (words b) (P · b)

section

variable {β : Type} {P : List Token → β → Prop} {words : β → List String} {pre : List Token}

/-- **Repetition prints**: one part after the other. -/
theorem Many.printed {bs : List β} (h : Many (Printed P words) pre bs) :
    Printed (Many P) (·.flatMap words) pre bs := by
  induction h with
  | nil => exact fun _ => .nil .nil
  | @cons p rest b bs hb _ ih =>
    intro hs
    have hfirst := hb fun t ht => hs t (List.mem_append_left _ ht)
    have hrest := ih fun t ht => hs t (List.mem_append_right _ ht)
    show Prints (words b ++ bs.flatMap words) _
    refine hfirst.append fun us hus => ?_
    exact hrest.imp fun ts hts => .cons hus hts

theorem AfterComma.printed {b : β} (h : AfterComma (Printed P words) pre b) :
    Printed (AfterComma P) (fun b => "," :: words b) pre b := by
  cases h with
  | mk _ hb =>
    intro hs
    refine .fixed .comma (by decide) fun c hc => ?_
    exact (hb fun t ht => hs t (List.mem_cons_of_mem _ ht)).imp fun ts hts => .mk hc hts

theorem Listed.printed {bs : List β} (h : Listed (Printed P words) pre bs) :
    Printed (Listed P) (fun bs => separated "," (bs.map words)) pre bs := by
  cases h with
  | nil => exact fun _ => .nil .nil
  | @cons p rest b bs hb hm =>
    intro hs
    have hfirst := hb fun t ht => hs t (List.mem_append_left _ ht)
    have hrest := (hm.imp fun _ _ _ hc => hc.printed).printed
      fun t ht => hs t (List.mem_append_right _ ht)
    show Prints (words b ++ (bs.map words).flatMap ("," :: ·)) _
    rw [List.flatMap_map]
    refine hfirst.append fun us hus => ?_
    exact hrest.imp fun ts hts => .cons hus hts

end

/-! ## 3. Types and paths -/

section

variable {pre : List Token}

theorem Token.Sound.name {t : Token} (h : t.Sound) (hk : t.kind ≠ .text) :
    Legible t.value t.kind t.value := by
  have hl := h.legible
  rwa [spelling, if_neg hk] at hl

theorem Token.Sound.ident {t : Token} (h : t.Sound) (hk : t.kind = .ident) :
    Legible t.value .ident t.value := by
  rw [← hk]
  exact h.name (by rw [hk]; decide)

theorem Token.Sound.text {t : Token} (h : t.Sound) (hk : t.kind = .text) :
    Legible (spelling .text t.value) .text t.value := by
  have hl := h.legible
  rwa [hk] at hl

theorem FormsSize.printed {n : Option UInt64} (h : FormsSize pre n) :
    Prints (sizeWords n) (FormsSize · n) := by
  cases h with
  | none => exact .nil .none
  | @some l t r =>
    refine .fixed .lparen (by decide) fun l hl => ?_
    refine .cons (legible_repr _) fun u hu hv => ?_
    refine .fixed .rparen (by decide) fun r hr => .nil ?_
    have hword : u.word = t.word := by rw [Token.word, hv, readWord?_repr, Option.getD_some]
    rw [← hword]
    exact .some hl hu hr

theorem FormsStar.printed {pointer : Bool} (h : FormsStar pre pointer) :
    Prints (starWords pointer) (FormsStar · pointer) := by
  cases h with
  | none => exact .nil .none
  | some => exact .fixed .asterisk (by decide) fun t ht => .nil (.some ht)

theorem FormsType.printed {ty : Label} (h : FormsType pre ty) :
    Printed FormsType (fun ty => typeWords ty.value ty.size ty.pointer) pre ty := by
  cases h with
  | @mk l name r size star n pointer hl hname hsize hstar hr =>
    intro hs
    have hne : name.kind ≠ .text := by
      rcases hname with hk | hk <;> rw [hk] <;> decide
    have hlegible := (hs name (List.mem_cons_of_mem _ List.mem_cons_self)).name hne
    refine .fixed .lbracket (by decide) fun l hl => ?_
    refine .cons hlegible fun u hu hv => ?_
    refine hsize.printed.append fun ss hss => ?_
    refine hstar.printed.append fun st hst => ?_
    refine .fixed .rbracket (by decide) fun r hr => .nil ?_
    show FormsType _ { kind := .typeExpr, value := name.value, size := n, pointer }
    rw [← hv]
    exact .mk hl (by rwa [hu]) hss hst hr

theorem Node.words_type {ty : Label} (hk : ty.kind = .typeExpr) :
    Node.words ⟨ty, []⟩ = typeWords ty.value ty.size ty.pointer := by
  rw [Node.words_mk, layout, hk]

/-- A step as it is written. -/
def PathStep.words (s : PathStep) : List String :=
  "::" :: s.name :: (offsetWords s.offset ++ s.inner.flatMap Node.words)

theorem flatMap_words_chain (before : String) (steps : List PathStep) :
    (chain before steps).flatMap Node.words = steps.flatMap PathStep.words := by
  induction steps generalizing before with
  | nil => rfl
  | cons s steps ih =>
    rw [chain, List.flatMap_singleton, Node.words_segment, List.flatMap_append, ih,
      ← List.append_assoc]
    rfl

/-- A segment without a written offset. -/
theorem plainSegment_prints {V : List Token → Node → Prop} {name : String}
    (h : Legible name .ident name) :
    Prints ["::", name] (FormsSegment V · ⟨name, 0, []⟩) := by
  refine .fixed .doubleColon (by decide) fun c hc => ?_
  refine .cons h fun u hu hv => .nil ?_
  rw [← hv]
  exact .plain hc hu

theorem FormsSegment.printed {step : PathStep}
    (h : FormsSegment (fun p n => FormsPath .dynamicOffset p n ∧
      Printed (FormsPath .dynamicOffset) pathWords p n) pre step) :
    Printed (FormsSegment (FormsPath .dynamicOffset)) PathStep.words pre step := by
  intro hs
  cases h with
  | @plain c name hc hname => exact plainSegment_prints ((hs name (by simp)).ident hname)
  | @fixed c name l t r hc hname hl ht hr =>
    have hlegible := (hs name (by simp)).ident hname
    by_cases h0 : t.word = 0
    · -- an offset of zero is not written
      rw [h0]
      exact plainSegment_prints hlegible
    · have hwords : PathStep.words ⟨name.value, t.word, []⟩ =
          ["::", name.value, "(", t.word.toNat.repr, ")"] := by
        rw [PathStep.words, offsetWords, if_neg h0]
        rfl
      rw [hwords]
      refine .fixed .doubleColon (by decide) fun c hc => ?_
      refine .cons hlegible fun u hu hv => ?_
      refine .fixed .lparen (by decide) fun l hl => ?_
      refine .cons (legible_repr _) fun o ho hov => ?_
      refine .fixed .rparen (by decide) fun r hr => .nil ?_
      have hword : o.word = t.word := by rw [Token.word, hov, readWord?_repr, Option.getD_some]
      rw [← hword, ← hv]
      exact .fixed hc hu hl ho hr
  | @dynamic c name l r inner offset hc hname hl hp hr =>
    have hlegible := (hs name (by simp)).ident hname
    have hinner := hp.2 fun t ht => hs t (by simp [ht])
    have hwords : PathStep.words ⟨name.value, 0, [offset]⟩ =
        "::" :: name.value :: "(" :: (pathWords offset ++ [")"]) := by
      cases hp.1 with
      | mk hbase hm =>
        rw [PathStep.words, List.flatMap_singleton, Node.words_dynamicOffset]
        rfl
    rw [hwords]
    refine .fixed .doubleColon (by decide) fun c hc => ?_
    refine .cons hlegible fun u hu hv => ?_
    refine .fixed .lparen (by decide) fun l hl => ?_
    refine hinner.append fun us hus => ?_
    refine .fixed .rparen (by decide) fun r hr => .nil ?_
    rw [← hv]
    exact .dynamic hc hu hl hus hr

end

/-- **A path prints as itself**, whether it stands on its own or as an offset. -/
theorem FormsPath.printed : ∀ {kind : NodeKind} {pre : List Token} {n : Node},
    FormsPath kind pre n → Printed (FormsPath kind) pathWords pre n
  | kind, _, _, @FormsPath.mk _ base pre steps hbase hm => by
    intro hs
    have hlegible := (hs base List.mem_cons_self).ident hbase
    have hsteps := (hm.imp fun p s hp hseg => (hseg.imp fun q n hq hpath =>
      And.intro hpath hpath.printed).printed).printed
        fun t ht => hs t (List.mem_cons_of_mem _ ht)
    show Prints (base.value :: (chain base.value steps).flatMap Node.words) _
    rw [flatMap_words_chain]
    refine .cons hlegible fun u hu hv => hsteps.imp fun ts hts => ?_
    rw [← hv]
    exact .mk hu hts
termination_by _ pre => pre.length
decreasing_by simp only [List.length_cons]; omega

/-! ## 4. Values -/

section

variable {V : List Token → Node → Prop} {pre : List Token} {n : Node}

theorem FormsCall.printed (h : FormsCall (Printed V Node.words) pre n) :
    Printed (FormsCall V) Node.words pre n := by
  cases h with
  | @mk c name l r args ns hc hname hl ha hr =>
    intro hs
    have hlegible := (hs name (by simp)).ident hname
    have hargs := ha.printed fun t ht => hs t (by simp [ht])
    rw [Node.words_call]
    refine .fixed .call (by decide) fun c hc => ?_
    refine .cons hlegible fun u hu hv => ?_
    refine .fixed .lparen (by decide) fun l hl => ?_
    refine hargs.append fun us hus => ?_
    refine .fixed .rparen (by decide) fun r hr => .nil ?_
    rw [← hv]
    exact .mk hc hu hl hus hr

/-- A member prints with its value, also if it was spelled as a name alone. -/
theorem FormsMember.printed
    (hv : ∀ x : Token, x.kind = .ident → V [x] ⟨{ kind := .reference, value := x.value }, []⟩)
    (h : FormsMember (Printed V Node.words) pre n) :
    Printed (FormsMember V) Node.words pre n := by
  intro hs
  cases h with
  | @named x c pre n hx hc hvalue =>
    have hlegible := (hs x List.mem_cons_self).ident hx
    have hn := hvalue fun t ht => hs t (by simp [ht])
    rw [Node.words_assignment, Node.words_field]
    refine .cons hlegible fun u hu hv => ?_
    refine .fixed .colon (by decide) fun c hc => ?_
    rw [← hv]
    exact hn.imp fun ts hts => .named hu hc hts
  | @short x hx =>
    have hlegible := (hs x List.mem_cons_self).ident hx
    rw [Node.words_assignment, Node.words_field, Node.words_reference]
    refine .cons hlegible fun u hu huv => ?_
    refine .fixed .colon (by decide) fun c hc => ?_
    refine .cons hlegible fun w hw hwv => .nil ?_
    have hnamed := FormsMember.named hu hc (hv w hw)
    rwa [huv, hwv] at hnamed

end

/-- **A value prints as itself.** -/
theorem FormsValue.printed : ∀ {pre : List Token} {n : Node}, FormsValue pre n →
    Printed FormsValue Node.words pre n
  | _, _, @FormsValue.allocate t pre ty ht hty => by
    intro hs
    have htype := hty.printed fun u hu => hs u (List.mem_cons_of_mem _ hu)
    show Prints (Node.words ⟨({ kind := .allocation } : Label).typedAs ty, []⟩) _
    rw [Node.words_mk]
    show Prints ("init" :: typeWords ty.value ty.size ty.pointer) _
    refine .fixed .init (by decide) fun t ht => ?_
    exact htype.imp fun ts hts => .allocate ht hts
  | _, _, @FormsValue.number t ht => by
    intro hs
    have hlegible := (hs t List.mem_cons_self).name (by rw [ht]; decide)
    rw [ht] at hlegible
    have hwords : Node.words ⟨{ kind := .scalar, value := t.value, typeName := some "int" }, []⟩ =
        [t.value] := by
      rw [Node.words_mk]
      rfl
    rw [hwords]
    refine .cons hlegible fun u hu hv => .nil ?_
    rw [← hv]
    exact .number hu
  | _, _, @FormsValue.text t ht => by
    intro hs
    have hlegible := (hs t List.mem_cons_self).text ht
    have hwords : Node.words
        ⟨{ kind := .scalar, value := t.value, typeName := some "string",
           size := some (byteSize t.value) }, []⟩ = [spelling .text t.value] := by
      rw [Node.words_mk]
      rfl
    rw [hwords]
    refine .cons hlegible fun u hu hv => .nil ?_
    rw [← hv]
    exact .text hu
  | _, _, .path hp => by
    intro hs
    have hprints := hp.printed hs
    cases hp with
    | mk hbase hm =>
      rw [Node.words_reference]
      exact hprints.imp fun ts hts => .path hts
  | _, _, @FormsValue.pointer s name hstar hname => by
    intro hs
    have hlegible := (hs name (by simp)).ident hname
    have hwords : Node.words ⟨{ kind := .reference, value := name.value, pointer := true }, []⟩ =
        ["*", name.value] := by
      rw [Node.words_mk]
      rfl
    rw [hwords]
    refine .fixed .asterisk (by decide) fun s hstar => ?_
    refine .cons hlegible fun u hu hv => .nil ?_
    rw [← hv]
    exact .pointer hstar hu
  | _, _, @FormsValue.anon d a e pre ns hd ha hm he => by
    intro hs
    have hmembers := (hm.imp fun p n hp hmem => (hmem.imp fun q m hq hv => hv.printed).printed
      fun x hx => .path (.mk hx .nil)).printed fun t ht => hs t (by simp [ht])
    rw [Node.words_anon]
    refine .fixed .declare (by decide) fun d hd => ?_
    refine .fixed .anon (by decide) fun a ha => ?_
    refine hmembers.append fun us hus => ?_
    exact .fixed .endBlock (by decide) fun e he => .nil (.anon hd ha hus he)
  | _, _, .call hc => by
    intro hs
    have hprints := (hc.imp fun p m hp hv => hv.printed).printed hs
    exact hprints.imp fun ts hts => .call hts
termination_by pre => pre.length
decreasing_by
  · simp only [List.length_cons, List.length_append]
    omega
  · exact hp

theorem FormsBinding.printed {pre : List Token} {n : Node} (h : FormsBinding pre n) :
    Printed FormsBinding (fun n => declaredWords n.label (n.children.map Node.part)) pre n := by
  cases h with
  | @mk pre post ty name c n hty hname hc hvalue =>
    intro hs
    have htype := hty.printed fun t ht => hs t (by simp [ht])
    have hlegible := (hs name (by simp)).ident hname
    have hn := hvalue.printed fun t ht => hs t (by simp [ht])
    have htarget : Node.words ⟨({ kind := .reference, value := name.value } : Label).typedAs ty,
        []⟩ = typeWords ty.value ty.size ty.pointer ++ [name.value] := by
      rw [Node.words_mk]
      rfl
    show Prints (Node.words _ ++ (":" :: n.words ++ [])) _
    rw [htarget, List.append_nil, List.append_assoc]
    refine htype.append fun us hus => ?_
    refine .cons hlegible fun u hu hv => ?_
    refine .fixed .colon (by decide) fun c hc => ?_
    rw [← hv]
    exact hn.imp fun ts hts => .mk hus hu hc hts

/-! ## 5. Statements and declarations -/

section

variable {pre : List Token} {n : Node}

/-- The label is written by `declaring`, and no child of the node is a modifier. -/
structure Declares (n : Node) : Prop where
  layout : ∀ parts, layout n.label parts = declaring n.label parts
  children : ∀ m ∈ n.children, m.kind ≠ .modifier

theorem Declares.words : ∀ {n : Node}, Declares n →
    n.words = "declare" :: declaredWords n.label (n.children.map Node.part)
  | ⟨label, children⟩, h => by
    have hwords := Node.words_declaring h.layout h.children fun m hm => absurd hm List.not_mem_nil
    rwa [List.append_nil] at hwords

theorem FormsBinding.declares (h : FormsBinding pre n) : Declares n := by
  cases h with
  | mk hty hname hc hvalue =>
    refine ⟨fun _ => rfl, List.forall_mem_cons.mpr ⟨?_, ?_⟩⟩
    · intro e
      cases e
    · exact List.forall_mem_singleton.mpr (hvalue.kind_ne (by decide))

theorem FormsStatement.printed (h : FormsStatement pre n) :
    Printed FormsStatement Node.words pre n := by
  intro hs
  cases h with
  | @declare d pre n hd hb =>
    have hprints := hb.printed fun t ht => hs t (List.mem_cons_of_mem _ ht)
    rw [hb.declares.words]
    refine .fixed .declare (by decide) fun d hd => ?_
    exact hprints.imp fun ts hts => .declare hd hts
  | @assign pre post c target n hp hc hvalue =>
    have htarget := hp.printed fun t ht => hs t (List.mem_append_left _ ht)
    have hn := hvalue.printed fun t ht =>
      hs t (List.mem_append_right _ (List.mem_cons_of_mem _ ht))
    have hwords : target.words = pathWords target := by
      cases hp
      exact Node.words_reference _ _
    rw [Node.words_assignment, hwords]
    refine htarget.append fun us hus => ?_
    refine .fixed .colon (by decide) fun c hc => ?_
    exact hn.imp fun ts hts => .assign hus hc hts
  | @ret r pre n hr hvalue =>
    have hn := hvalue.printed fun t ht => hs t (List.mem_cons_of_mem _ ht)
    rw [Node.words_mk]
    show Prints ("ret" :: (n.words ++ [])) _
    rw [List.append_nil]
    refine .fixed .ret (by decide) fun r hr => ?_
    exact hn.imp fun ts hts => .ret hr hts
  | @print p pre n hp hvalue =>
    have hn := hvalue.printed fun t ht => hs t (List.mem_cons_of_mem _ ht)
    rw [Node.words_mk]
    show Prints ("print" :: (n.words ++ [])) _
    rw [List.append_nil]
    refine .fixed .print (by decide) fun p hp => ?_
    exact hn.imp fun ts hts => .print hp hts
  | call hc =>
    have hprints := (hc.imp fun p m hp hv => hv.printed).printed hs
    exact hprints.imp fun ts hts => .call hts

theorem FormsBody.printed {ns : List Node} (h : FormsBody pre ns) :
    Printed FormsBody (·.flatMap Node.words) pre ns := by
  cases h with
  | plain hm =>
    intro hs
    have hprints := (hm.imp fun p n _ hstmt => hstmt.printed).printed hs
    exact hprints.imp fun ts hts => .plain hts
  | bareRet hm hr =>
    intro hs
    have hprints := (hm.imp fun p n _ hstmt => hstmt.printed).printed
      fun t ht => hs t (List.mem_append_left _ ht)
    have hret : Node.words ⟨{ kind := .ret }, []⟩ = ["ret"] := by
      rw [Node.words_mk]
      rfl
    show Prints (List.flatMap Node.words (_ ++ [_])) _
    rw [List.flatMap_append, List.flatMap_singleton, hret]
    refine hprints.append fun us hus => ?_
    exact .fixed .ret (by decide) fun r hr => .nil (.bareRet hus hr)

end

/-- **A field prints as itself**, in a record of any path. The type of a nested record is always
    written as `[struct]`. -/
theorem FormsField.printed : ∀ {pre : List Token} {f : String → Node}, FormsField pre f →
    ∀ parent, Printed FormsField (fun f => (f parent).words) pre f
  | _, _, @FormsField.plain pre ty name hty hstruct hname, parent => by
    intro hs
    have htype := hty.printed fun t ht => hs t (List.mem_append_left _ ht)
    have hlegible := (hs name (by simp)).ident hname
    show Prints (Node.words ⟨{ kind := .field, value := name.value }, [⟨ty, []⟩]⟩) _
    rw [Node.words_field, List.flatMap_singleton, Node.words_type hty.kind]
    refine htype.append fun us hus => ?_
    refine .cons hlegible fun u hu hv => .nil ?_
    rw [← hv]
    exact .plain hus hstruct hu
  | _, _, @FormsField.nested pre fields ty name b e fs hty hstruct hname hb hm he, parent => by
    intro hs
    have hlegible := (hs name (by simp)).ident hname
    have hfields := (hm.imp fun p f hp hf => hf.printed (parent ++ "::" ++ name.value)).printed
      fun t ht => hs t (by simp [ht])
    show Prints (Node.words ⟨{ kind := .record, value := name.value, path := some _ }, _⟩) _
    rw [Node.words_nested, List.flatMap_map]
    refine .fixed .lbracket (by decide) fun l hl => ?_
    refine .cons (@legible_of_fixed "struct" .struct (by decide)) fun s hstruct hsv => ?_
    refine .fixed .rbracket (by decide) fun r hr => ?_
    refine .cons hlegible fun u hu hv => ?_
    refine .fixed .beginBlock (by decide) fun b hb => ?_
    refine hfields.append fun us hus => ?_
    refine .fixed .endBlock (by decide) fun e he => .nil ?_
    have htype := FormsType.mk hl (.inr hstruct) .none .none hr
    have hword : Text.isAsciiWord "struct" s.value = true := by
      rw [hsv]
      decide
    rw [← hv]
    exact .nested htype hword hu hb hus he
termination_by pre => pre.length
decreasing_by
  simp only [List.length_append, List.length_cons]
  omega

section

variable {pre : List Token} {n : Node}

theorem FormsParam.printed (h : FormsParam pre n) : Printed FormsParam Node.words pre n := by
  cases h with
  | @mk pre ty name hty hname =>
    intro hs
    have htype := hty.printed fun t ht => hs t (List.mem_append_left _ ht)
    have hlegible := (hs name (by simp)).ident hname
    rw [Node.words_mk]
    show Prints (flat ([⟨ty, []⟩].map Node.part) ++ [name.value]) _
    rw [flat_map_part, List.flatMap_singleton, Node.words_type hty.kind]
    refine htype.append fun us hus => ?_
    refine .cons hlegible fun u hu hv => .nil ?_
    rw [← hv]
    exact .mk hus hu

/-- A name is not empty. -/
theorem Legible.ne_empty {word value : String} {kind : TokenKind} (h : Legible word kind value) :
    word ≠ "" := by
  rintro rfl
  exact absurd h.1 nofun

theorem FormsField.kind_ne_modifier {f : String → Node} (h : FormsField pre f) (parent : String) :
    (f parent).kind ≠ .modifier := by
  cases h with
  | plain | nested =>
    intro e
    cases e

theorem FormsDeclared.declares (h : FormsDeclared pre n) (hs : ∀ t ∈ pre, t.Sound) :
    Declares n := by
  cases h with
  | @record s name e fields fs hstruct hname hm he =>
    have hne := ((hs name (by simp)).ident hname).ne_empty
    refine ⟨fun parts => ?_, ?_⟩
    · show (if name.value = "" then _ else _) = _
      rw [if_neg hne]
    · have hfs := hm.forall_mem fun p f hf => hf.kind_ne_modifier name.value
      exact List.forall_mem_map.mpr hfs
  | @procedure pre params body ty c name l r e ps ns hty hc hname hl hp hr hb he =>
    refine ⟨fun _ => rfl, List.forall_mem_cons.mpr ⟨?_, List.forall_mem_append.mpr ⟨?_, ?_⟩⟩⟩
    · show ty.kind ≠ .modifier
      rw [hty.kind]
      decide
    · intro p hm
      rw [hp.forall_mem (fun _ _ hparam => hparam.kind) p hm]
      decide
    · intro s hm e
      have hk := hb.kind_mem s hm
      rw [e] at hk
      exact absurd hk (by decide)
  | «global» hb => exact hb.declares

theorem FormsDeclared.printed (h : FormsDeclared pre n) :
    Printed FormsDeclared (fun n => declaredWords n.label (n.children.map Node.part)) pre n := by
  intro hs
  cases h with
  | @record s name e fields fs hstruct hname hm he =>
    have hlegible := (hs name (by simp)).ident hname
    have hfields := (hm.imp fun p f _ hf => hf.printed name.value).printed
      fun t ht => hs t (by simp [ht])
    show Prints ("struct" :: name.value :: (flat _ ++ ["end"])) _
    rw [flat_map_part, List.flatMap_map]
    refine .fixed .struct (by decide) fun s hstruct => ?_
    refine .cons hlegible fun u hu hv => ?_
    refine hfields.append fun us hus => ?_
    refine .fixed .endBlock (by decide) fun e he => .nil ?_
    rw [← hv]
    exact .record hstruct hu hus he
  | @procedure pre params body ty c name l r e ps ns hty hc hname hl hp hr hb he =>
    have htype := hty.printed fun t ht => hs t (by simp [ht])
    have hlegible := (hs name (by simp)).ident hname
    have hparams := (hp.imp fun p m _ hparam => hparam.printed).printed
      fun t ht => hs t (by simp [ht])
    have hbody := hb.printed fun t ht => hs t (by simp [ht])
    have hkinds : ∀ s ∈ ns, s.kind ≠ .typeExpr ∧ s.kind ≠ .argument := by
      intro s hm
      have hk := hb.kind_mem s hm
      constructor <;> intro e <;> rw [e] at hk <;> exact absurd hk (by decide)
    have hkind : (Node.mk ty []).kind = .typeExpr := hty.kind
    show Prints (declaredWords { kind := .procedure, value := name.value } _) _
    rw [declaredWords_procedure _ hkind (hp.forall_mem fun _ _ hparam => hparam.kind) hkinds,
      Node.words_type hty.kind]
    refine htype.append fun us hus => ?_
    refine .fixed .doubleColon (by decide) fun c hc => ?_
    refine .cons hlegible fun u hu hv => ?_
    refine .fixed .lparen (by decide) fun l hl => ?_
    refine hparams.append fun vs hvs => ?_
    refine .fixed .rparen (by decide) fun r hr => ?_
    refine hbody.append fun ws hws => ?_
    refine .fixed .endBlock (by decide) fun e he => .nil ?_
    rw [← hv]
    exact .procedure hus hc hu hl hvs hr hws he
  | «global» hb => exact (hb.printed hs).imp fun ts hts => .global hts

theorem FormsModifier.printed (h : FormsModifier pre n) :
    Printed FormsModifier Node.words pre n := by
  cases h with
  | @mk m hk =>
    intro hs
    have hlegible := (hs m List.mem_cons_self).name (by rw [hk]; decide)
    rw [Node.words_mk]
    refine .cons hlegible fun u hu hv => .nil ?_
    rw [← hv]
    exact .mk (by rw [hu, hk])

/-- **An item prints as itself.** -/
theorem FormsItem.printed (h : FormsItem pre n) : Printed FormsItem Node.words pre n := by
  intro hs
  cases h with
  | @directive d name a hd hname hword ha =>
    have hlegible := (hs name (by simp)).ident hname
    have htext := (hs a (by simp)).text ha
    have hwords : Node.words ⟨{ kind := .directive, value := name.value },
        [⟨{ kind := .argument, value := a.value }, []⟩]⟩ =
        [".", name.value, spelling .text a.value] := by
      rw [Node.words_mk]
      show "." :: name.value :: flat _ = _
      rw [flat_map_part, List.flatMap_singleton, Node.words_mk]
      rfl
    rw [hwords]
    refine .fixed .dot (by decide) fun d hd => ?_
    refine .cons hlegible fun u hu hv => ?_
    refine .cons htext fun b hb hbv => .nil ?_
    rw [← hv] at hword ⊢
    rw [← hbv]
    exact .directive hd hu hword hb
  | @declaration d ms pre mods n hd hm hdecl =>
    have hpre : ∀ t ∈ pre, t.Sound := fun t ht => hs t (by simp [ht])
    have hmods := (hm.imp fun p m _ hmod => hmod.printed).printed fun t ht => hs t (by simp [ht])
    have hdeclares := hdecl.declares hpre
    rw [Node.words_declaring hdeclares.layout hdeclares.children
      (hm.forall_mem fun _ _ hmod => hmod.kind)]
    refine .fixed .declare (by decide) fun d hd => ?_
    refine hmods.append fun us hus => ?_
    exact (hdecl.printed hpre).imp fun ts hts => .declaration hd hus hts

end

/-! ## 6. Sources -/

theorem FormsProgram.printed {pre : List Token} {tree : Node} (h : FormsProgram pre tree) :
    Printed FormsProgram Node.words pre tree := by
  cases h with
  | mk hm =>
    intro hs
    have hitems := (hm.imp fun p n _ hi => hi.printed).printed hs
    rw [Node.words_mk]
    show Prints (flat _) _
    rw [flat_map_part]
    exact hitems.imp fun ts hts => .mk hts

/-- Tokens of legible words are readable. -/
theorem TokensOf.readable {words : List String} {ts : List Token} (h : TokensOf words ts)
    (hw : ∀ w ∈ words, ∃ kind value, Legible w kind value) :
    ∀ t ∈ ts, t.unreadable = false := by
  induction h with
  | nil => exact fun t ht => absurd ht List.not_mem_nil
  | @cons t w ts words hr _ ih =>
    refine List.forall_mem_cons.mpr ⟨?_, ih fun v hv => hw v (List.mem_cons_of_mem _ hv)⟩
    obtain ⟨kind, value, hl⟩ := hw w List.mem_cons_self
    obtain ⟨hk, hv⟩ := hl.1.unique hr
    rw [Token.unreadable, hk, hv]
    by_cases hn : kind = .number
    · simpa [hn] using hl.2 hn
    · simp [hn]

/-- **What is read from the source of a tree is the tree.** Whatever tokens a tree was read from,
    its own source is cut into tokens, and these are read as the same tree. -/
theorem tokenize_source {file source : String} {ts : List Token} {tree : Node}
    (ht : tokenize file source = .ok ts)
    (hp : (Program.ofTokens ts).map Program.toNode = .ok tree) (name : String) :
    ∃ us, tokenize name tree.source = .ok us ∧
      (Program.ofTokens us).map Program.toNode = .ok tree := by
  cases hr : Program.ofTokens ts with
  | error e =>
    rw [hr] at hp
    cases hp
  | ok p =>
    rw [hr] at hp
    obtain rfl : p.toNode = tree := Except.ok.inj hp
    obtain ⟨pre, e, rest, rfl, he, hforms, hgood⟩ := ofTokens_sound hr
    have hsound : ∀ t ∈ pre, t.Sound := fun t hm =>
      ⟨lex_spelled ht t (List.mem_append_left _ hm) (hgood t hm).2, (hgood t hm).1⟩
    have hprints := hforms.printed hsound
    have hwords : ∀ w ∈ p.toNode.words, IsWord w := by
      intro w hw
      obtain ⟨kind, value, hl⟩ := hprints.legible w hw
      exact ⟨kind, value, hl.1⟩
    obtain ⟨us, last, hlex, hlast, hus⟩ := lex_spaced hwords (.start name)
    have hd : Derives us p.toNode := ⟨hprints.forms us hus, hus.readable hprints.legible⟩
    exact ⟨us ++ [last], hlex, hd.read hlast⟩

/-- A source of all that is spelled in more than one way. -/
def mixedSample : String :=
  ".Module \"m\" DECLARE struct r [Struct(3)*] in begin [uint(08)] n end end\n" ++
  "declare public [void]::f([r*] a) a::in(0)::n(a::in) : declare anon a end ret end"

/-- The same with each spelling in its plain form. -/
def plainSample : String :=
  ". Module \"m\" declare struct r [ struct ] in begin [ uint ( 8 ) ] n end end " ++
  "declare public [ void ] :: f ( [ r * ] a ) " ++
  "a :: in :: n ( a :: in ) : declare anon a : a end ret end"

theorem source_of_mixedSample : ∃ ts tree us, tokenize "sample" mixedSample = .ok ts ∧
    (Program.ofTokens ts).map Program.toNode = .ok tree ∧
    tree.source = plainSample ∧ tokenize "sample" plainSample = .ok us ∧
    (Program.ofTokens us).map Program.toNode = .ok tree := by
  have hstages : ((tokenize "sample" mixedSample).toOption.bind fun ts =>
      (Program.ofTokens ts).toOption.map fun p => p.toNode.source) =
      some plainSample := by
    decide +kernel
  obtain ⟨ts, p, ht, hp, hsource⟩ := exists_program hstages
  have htree : (Program.ofTokens ts).map Program.toNode = .ok p.toNode := by
    rw [hp]
    rfl
  obtain ⟨us, hus, hread⟩ := tokenize_source ht htree "sample"
  rw [hsource] at hus
  exact ⟨ts, p.toNode, us, ht, htree, hsource, hus, hread⟩

end Osclan
