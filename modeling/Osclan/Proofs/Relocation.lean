/-
  File:      Osclan/Proofs/Relocation.lean
  Subject:   Tokens form the same tree wherever they stand.

  No production asks for the place of a token, so tokens that are moved form what they formed
  before. There is one lemma for each production, and the recursive ones put what is known of
  shorter derivations in the place of the parts.

  * `AtMove` -- a relation of tokens after a move;
  * `FormsType.moved`, `FormsPath.moved`, `FormsValue.moved`, … -- one for each production;
  * `FormsProgram.moved`, `Derives.moved` -- whole programs;
  * `Derives.append` -- one program behind another.
-/
import Osclan.Proofs.Derivation
import Osclan.Proofs.LineEnd

namespace Osclan

/-- What the relation says of the tokens once they are moved. -/
def AtMove {β : Type} (m : Move) (P : List Token → β → Prop) (pre : List Token) (b : β) : Prop :=
  P (pre.map (Token.moved m)) b

section

variable {m : Move} {pre : List Token}

/-! ## 1. Repetition -/

section

variable {β : Type} {P : List Token → β → Prop} {bs : List β}

theorem Many.moved (h : Many (AtMove m P) pre bs) : AtMove m (Many P) pre bs := by
  induction h with
  | nil => exact .nil
  | cons hb _ ih =>
    rw [AtMove, List.map_append]
    exact .cons hb ih

theorem AfterComma.moved {b : β} (h : AfterComma (AtMove m P) pre b) :
    AtMove m (AfterComma P) pre b := by
  cases h with
  | mk hc hb => exact .mk hc hb

theorem Listed.moved (h : Listed (AtMove m P) pre bs) : AtMove m (Listed P) pre bs := by
  cases h with
  | nil => exact .nil
  | cons hb hm =>
    rw [AtMove, List.map_append]
    exact .cons hb (hm.imp fun p b _ hc => hc.moved).moved

theorem Many.append {more : List Token} {cs : List β} (h : Many P pre bs) (h' : Many P more cs) :
    Many P (pre ++ more) (bs ++ cs) := by
  induction h with
  | nil => exact h'
  | cons hb _ ih =>
    rw [List.append_assoc, List.cons_append]
    exact .cons hb ih

end

/-! ## 2. Types and paths -/

theorem FormsSize.moved {n : Option UInt64} (h : FormsSize pre n) : AtMove m FormsSize pre n := by
  cases h with
  | none => exact .none
  | @some l t r hl ht hr => exact @FormsSize.some (l.moved m) (t.moved m) (r.moved m) hl ht hr

theorem FormsStar.moved {star : Bool} (h : FormsStar pre star) : AtMove m FormsStar pre star := by
  cases h with
  | none => exact .none
  | @some t ht => exact @FormsStar.some (t.moved m) ht

theorem FormsType.moved {ty : Label} (h : FormsType pre ty) : AtMove m FormsType pre ty := by
  cases h with
  | @mk l name r size star n pointer hl hname hsize hstar hr =>
    simp only [AtMove, List.map_cons, List.map_append, List.map_nil]
    exact @FormsType.mk (l.moved m) (name.moved m) (r.moved m) _ _ n pointer hl hname hsize.moved
      hstar.moved hr

theorem FormsSegment.moved {P : List Token → Node → Prop} {step : PathStep}
    (h : FormsSegment (AtMove m P) pre step) : AtMove m (FormsSegment P) pre step := by
  cases h with
  | @plain c name hc hname => exact @FormsSegment.plain P (c.moved m) (name.moved m) hc hname
  | @fixed c name l t r hc hname hl ht hr =>
    exact @FormsSegment.fixed P (c.moved m) (name.moved m) (l.moved m) (t.moved m) (r.moved m) hc
      hname hl ht hr
  | @dynamic c name l r pre offset hc hname hl hp hr =>
    simp only [AtMove, List.map_cons, List.map_append, List.map_nil]
    exact @FormsSegment.dynamic P (c.moved m) (name.moved m) (l.moved m) (r.moved m) _ offset hc
      hname hl hp hr

/-- A path keeps its tree. -/
theorem FormsPath.moved : ∀ {kind : NodeKind} {pre : List Token} {n : Node},
    FormsPath kind pre n → AtMove m (FormsPath kind) pre n
  | kind, _, _, @FormsPath.mk _ base pre steps hbase hm => by
    have hsteps := (hm.imp fun p s hp hseg => (hseg.imp fun q n hq hpath =>
      hpath.moved).moved).moved
    exact @FormsPath.mk kind (base.moved m) _ steps hbase hsteps
termination_by _ pre => pre.length
decreasing_by simp only [List.length_cons]; omega

/-! ## 3. Values -/

section

variable {V : List Token → Node → Prop} {n : Node}

theorem FormsCall.moved (h : FormsCall (AtMove m V) pre n) : AtMove m (FormsCall V) pre n := by
  cases h with
  | @mk c name l r args ns hc hname hl ha hr =>
    simp only [AtMove, List.map_cons, List.map_append, List.map_nil]
    exact @FormsCall.mk V (c.moved m) (name.moved m) (l.moved m) (r.moved m) _ ns hc hname hl
      ha.moved hr

theorem FormsMember.moved (h : FormsMember (AtMove m V) pre n) :
    AtMove m (FormsMember V) pre n := by
  cases h with
  | @named x c pre n hx hc hv => exact @FormsMember.named V (x.moved m) (c.moved m) _ n hx hc hv
  | @short x hx => exact @FormsMember.short V (x.moved m) hx

end

/-- A value keeps its tree. -/
theorem FormsValue.moved : ∀ {pre : List Token} {n : Node}, FormsValue pre n →
    AtMove m FormsValue pre n
  | _, _, @FormsValue.allocate t pre ty ht hty =>
    @FormsValue.allocate (t.moved m) _ ty ht hty.moved
  | _, _, @FormsValue.number t ht => @FormsValue.number (t.moved m) ht
  | _, _, @FormsValue.text t ht => @FormsValue.text (t.moved m) ht
  | _, _, .path hp => .path hp.moved
  | _, _, @FormsValue.pointer s name hs hname =>
    @FormsValue.pointer (s.moved m) (name.moved m) hs hname
  | _, _, @FormsValue.anon d a e pre ns hd ha hm he => by
    have hmembers := (hm.imp fun p x hp hmember => (hmember.imp fun q n hq hvalue =>
      hvalue.moved).moved).moved
    simp only [AtMove, List.map_cons, List.map_append, List.map_nil]
    exact @FormsValue.anon (d.moved m) (a.moved m) (e.moved m) _ ns hd ha hmembers he
  | _, _, .call hc => .call (hc.imp fun q n hq hvalue => hvalue.moved).moved
termination_by pre => pre.length
decreasing_by
  · simp only [List.length_cons, List.length_append]
    omega
  · exact hq

theorem FormsBinding.moved {n : Node} (h : FormsBinding pre n) : AtMove m FormsBinding pre n := by
  cases h with
  | @mk pre post ty name c n hty hname hc hv =>
    simp only [AtMove, List.map_append, List.map_cons]
    exact @FormsBinding.mk _ _ ty (name.moved m) (c.moved m) n hty.moved hname hc hv.moved

/-! ## 4. Statements -/

theorem FormsStatement.moved {n : Node} (h : FormsStatement pre n) :
    AtMove m FormsStatement pre n := by
  cases h with
  | @declare d pre n hd hb => exact @FormsStatement.declare (d.moved m) _ n hd hb.moved
  | @assign pre post c target n hp hc hv =>
    simp only [AtMove, List.map_append, List.map_cons]
    exact @FormsStatement.assign _ _ (c.moved m) target n hp.moved hc hv.moved
  | @ret r pre n hr hv => exact @FormsStatement.ret (r.moved m) _ n hr hv.moved
  | @print p pre n hp hv => exact @FormsStatement.print (p.moved m) _ n hp hv.moved
  | call hc => exact .call (hc.imp fun q n _ hvalue => hvalue.moved).moved

theorem FormsBody.moved {ns : List Node} (h : FormsBody pre ns) : AtMove m FormsBody pre ns := by
  have hmany : ∀ {pre : List Token} {ns : List Node}, Many FormsStatement pre ns →
      AtMove m (Many FormsStatement) pre ns :=
    fun hm => (hm.imp fun p n _ hs => hs.moved).moved
  cases h with
  | plain hm => exact .plain (hmany hm)
  | @bareRet pre ns r hm hr =>
    simp only [AtMove, List.map_append, List.map_cons, List.map_nil]
    exact @FormsBody.bareRet _ ns (r.moved m) (hmany hm) hr

/-! ## 5. Declarations -/

/-- A field keeps its tree, in whatever record it stands. -/
theorem FormsField.moved : ∀ {pre : List Token} {f : String → Node}, FormsField pre f →
    AtMove m FormsField pre f
  | _, _, @FormsField.plain pre ty name hty hword hname => by
    simp only [AtMove, List.map_append, List.map_cons, List.map_nil]
    exact @FormsField.plain _ ty (name.moved m) hty.moved hword hname
  | _, _, @FormsField.nested pre fields ty name b e fs hty hword hname hb hm he => by
    have hfields := (hm.imp fun p f hp hfield => hfield.moved).moved
    simp only [AtMove, List.map_append, List.map_cons, List.map_nil]
    exact @FormsField.nested _ _ ty (name.moved m) (b.moved m) (e.moved m) fs hty.moved hword hname
      hb hfields he
termination_by pre => pre.length
decreasing_by
  simp only [List.length_cons, List.length_append]
  omega

theorem FormsParam.moved {n : Node} (h : FormsParam pre n) : AtMove m FormsParam pre n := by
  cases h with
  | @mk pre ty name hty hname =>
    simp only [AtMove, List.map_append, List.map_cons, List.map_nil]
    exact @FormsParam.mk _ ty (name.moved m) hty.moved hname

theorem FormsDeclared.moved {n : Node} (h : FormsDeclared pre n) :
    AtMove m FormsDeclared pre n := by
  cases h with
  | @record s name e fields fs hs hname hf he =>
    have hfields := (hf.imp fun p f _ hfield => hfield.moved (m := m)).moved
    simp only [AtMove, List.map_cons, List.map_append, List.map_nil]
    exact @FormsDeclared.record (s.moved m) (name.moved m) (e.moved m) _ fs hs hname hfields he
  | @procedure pre params body ty c name l r e ps ns hty hc hname hl hp hr hb he =>
    have hparams := (hp.imp fun p n _ hparam => hparam.moved (m := m)).moved
    simp only [AtMove, List.map_cons, List.map_append, List.map_nil]
    exact @FormsDeclared.procedure _ _ _ ty (c.moved m) (name.moved m) (l.moved m) (r.moved m)
      (e.moved m) ps ns hty.moved hc hname hl hparams hr hb.moved he
  | «global» hb => exact .global hb.moved

theorem FormsModifier.moved {n : Node} (h : FormsModifier pre n) :
    AtMove m FormsModifier pre n := by
  cases h with
  | @mk t ht => exact @FormsModifier.mk (t.moved m) ht

theorem FormsItem.moved {n : Node} (h : FormsItem pre n) : AtMove m FormsItem pre n := by
  cases h with
  | @directive d name a hd hname hword ha =>
    exact @FormsItem.directive (d.moved m) (name.moved m) (a.moved m) hd hname hword ha
  | @declaration d ms pre mods n hd hm hn =>
    have hmods := (hm.imp fun p n _ hmod => hmod.moved (m := m)).moved
    simp only [AtMove, List.map_cons, List.map_append]
    exact @FormsItem.declaration (d.moved m) _ _ mods n hd hmods hn.moved

/-! ## 6. Programs -/

theorem FormsProgram.moved {tree : Node} (h : FormsProgram pre tree) :
    AtMove m FormsProgram pre tree := by
  cases h with
  | mk hm => exact .mk (hm.imp fun p n _ hitem => hitem.moved).moved

/-- **A program keeps its tree when its tokens are moved.** -/
theorem Derives.moved {tree : Node} (h : Derives pre tree) : AtMove m Derives pre tree :=
  ⟨h.forms.moved, List.forall_mem_map.mpr h.readable⟩

end

/-- **One program behind another is a program**, with the items of both. -/
theorem Derives.append {pre more : List Token} {p q : Program} (h : Derives pre p.toNode)
    (h' : Derives more q.toNode) :
    Derives (pre ++ more) (Program.toNode ⟨p.items ++ q.items⟩) := by
  refine ⟨?_, List.forall_mem_append.mpr ⟨h.readable, h'.readable⟩⟩
  have hitems : ∀ {ts : List Token} {r : Program}, FormsProgram ts r.toNode →
      Many FormsItem ts (r.items.map Item.toNode) := by
    intro ts r hforms
    generalize htree : r.toNode = tree at hforms
    cases hforms with
    | mk hm =>
      cases htree
      exact hm
  rw [Program.toNode, List.map_append]
  exact .mk ((hitems h.forms).append (hitems h'.forms))

end Osclan
