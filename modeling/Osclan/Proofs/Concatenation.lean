/-
  File:      Osclan/Proofs/Concatenation.lean
  Subject:   Two accepted sources, one behind the other.

  Sources that are accepted on their own and declare different names at the top are accepted as one
  source, in either order. The second is cut and read as it is on its own, since a line end closes
  what stands before it and no production asks for places. It is checked as it is on its own, since
  what the first has entered into the root has other keys than anything the second enters or finds
  there.

  * `Scope.extend` -- a scope with more entries behind its own;
  * `GoodRun`, `Accepted.goodRun` -- the run over the items of an accepted source;
  * `GoodRun.append` -- a run over the items of both;
  * `Accepted.read` -- the tokens of an accepted source;
  * `Analysis.FollowedBy`, `accepted_append_newline` -- the main result.
-/
import Osclan.Proofs.GlobalTable
import Osclan.Proofs.Relocation
import Osclan.Proofs.Segmentation
import Osclan.Proofs.Sequencing

namespace Osclan

/-! ## 1. Scopes -/

/-- The scope with the entries of another behind its own. -/
def Scope.extend (sc own : Scope) : Scope :=
  { sc with
    vars := sc.vars ++ own.vars
    types := sc.types ++ own.types
    procs := sc.procs ++ own.procs }

theorem Scope.keys_extend (sc own : Scope) (e : Entity) :
    (sc.extend own).keys e = sc.keys e ++ own.keys e := by
  cases e with
  | field => rfl
  | _ => exact List.map_append

theorem Scope.Grows.exists_own {sc sc' : Scope} (h : sc.Grows sc') :
    ∃ own, sc' = sc.extend own := by
  rcases sc' with ⟨depth, vars, types, procs⟩
  obtain ⟨hd, ⟨vars', hv⟩, ⟨types', ht⟩, ⟨procs', hp⟩⟩ := h
  refine ⟨⟨0, vars', types', procs'⟩, ?_⟩
  simp only [Scope.extend, hv, ht, hp, Scope.mk.injEq, and_true]
  exact hd

/-- The foreign entries stand between the base and what has been added to it. -/
theorem Scope.Spliced.eq_extend {o : Foreign} {own sc' : Scope}
    (h : (o.base.extend own).Spliced o sc') : sc' = (o.base.extend o.entries).extend own := by
  rcases sc' with ⟨depth, vars, types, procs⟩
  obtain ⟨hd, ⟨vars', hv, rfl⟩, ⟨types', ht, rfl⟩, ⟨procs', hp, rfl⟩⟩ := h
  rw [← List.append_cancel_left hv, ← List.append_cancel_left ht, ← List.append_cancel_left hp]
  simp only [Scope.extend, Scope.mk.injEq, and_true]
  exact hd

theorem Table.mem_keys_of_contains {α : Type} {t : Table α} {key : String}
    (h : t.contains key = true) : key ∈ t.map (·.1) := by
  obtain ⟨value, hv⟩ := Option.isSome_iff_exists.mp h
  exact List.mem_map.mpr ⟨(key, value), Table.mem_of_find? hv, rfl⟩

theorem Table.avoids_of_keys {α : Type} {foreign t : Table α}
    (h : ∀ key ∈ foreign.map (·.1), key ∉ t.map (·.1)) : foreign.Avoids t := by
  intro key hk
  by_contra hne
  exact h key (Table.mem_keys_of_contains hk)
    (Table.mem_keys_of_contains (eq_true_of_ne_false hne))

/-! ## 2. A good run over a program -/

/-- A good run over the items of a program: what it gives, what it enters into the root, and the
    state it leaves. -/
structure GoodRun (p : Program) (ns : List Node) (own : Scope) (s : Analyzer) : Prop where
  run : visitAll (p.items.map Item.toNode) .fresh = .ok ns s
  scopes : s.scopes = ⟨ScopeStack.fresh.root.extend own, []⟩
  procedure : s.procedure = none
  /-- Each key is that of a name declared at the top. -/
  names : ∀ e, ∀ key ∈ own.keys e,
    ∃ name, (e, name) ∈ p.declared ∧ Name.Plain name ∧ Name.mangle name = key
  /-- No key is that of a type every program knows. -/
  new : ∀ e, ∀ key ∈ own.keys e, key ∉ ScopeStack.fresh.root.keys e

theorem goodRun_of_items {p : Program} {ns : List Node} {s : Analyzer}
    (hitems : ∀ n ∈ p.items.map Item.toNode, IsItem n)
    (h : visitAll (p.items.map Item.toNode) .fresh = .ok ns s) : ∃ own, GoodRun p ns own s := by
  have hframe : Analyzer.fresh.Frame s :=
    ((@visitAll_does (fun _ => True) _ (fun _ _ => trivial) _).ok h).frame
  obtain ⟨own, hroot⟩ := hframe.scopes.root.exists_own
  have hkeys : ∀ e, KeysGo (ScopeStack.fresh.root.keys e) (own.keys e) (s.scopes.root.keys e) ∧
      own.keys e = keysOf e ((p.items.map Item.toNode).filterMap Node.declares?) := by
    intro e
    have hgo := visitAll_enters e hitems topLevel_fresh h
    have hown : own.keys e = keysOf e ((p.items.map Item.toNode).filterMap Node.declares?) := by
      have heq := hgo.eq
      rw [hroot, Scope.keys_extend] at heq
      exact List.append_cancel_left heq
    rw [hown]
    exact ⟨hgo, rfl⟩
  refine ⟨own, h, ?_, hframe.procedure, ?_, ?_⟩
  · rcases hst : s.scopes with ⟨root, inner⟩
    have hinner : s.scopes.inner = [] := hframe.scopes.inner_eq_nil rfl
    rw [hst] at hroot hinner
    rw [show root = _ from hroot, show inner = [] from hinner]
    rfl
  · intro e key hk
    rw [(hkeys e).2] at hk
    obtain ⟨name, hd, hm⟩ := mem_keysOf.mp hk
    obtain ⟨n, hn, hnd⟩ := List.mem_filterMap.mp hd
    exact ⟨name, Program.mem_declared hd, (hitems n hn).plain hnd, hm⟩
  · intro e key hk hfresh
    have hnodup : (ScopeStack.fresh.root.keys e).Nodup := by
      cases e <;> decide
    have hall := (hkeys e).1.nodup hnodup
    rw [(hkeys e).1.eq, List.nodup_append] at hall
    exact hall.2.2 key hfresh key hk rfl

/-- **What the one program enters keeps clear of the root of the other**, if they declare different
    names. -/
theorem GoodRun.avoids {p₁ p₂ : Program} {ns₁ ns₂ : List Node} {own₁ own₂ : Scope}
    {s₁ s₂ : Analyzer} (h₁ : GoodRun p₁ ns₁ own₁ s₁) (h₂ : GoodRun p₂ ns₂ own₂ s₂)
    (hapart : ∀ d ∈ p₁.declared, d ∉ p₂.declared) : own₁.Avoids s₂.scopes.root := by
  have hkeys : ∀ e, ∀ key ∈ own₁.keys e, key ∉ s₂.scopes.root.keys e := by
    intro e key hk₁ hk₂
    rw [h₂.scopes, Scope.keys_extend] at hk₂
    rcases List.mem_append.mp hk₂ with hk₂ | hk₂
    · exact h₁.new e key hk₁ hk₂
    · obtain ⟨name₁, hd₁, hp₁, hm₁⟩ := h₁.names e key hk₁
      obtain ⟨name₂, hd₂, hp₂, hm₂⟩ := h₂.names e key hk₂
      have heq := hp₁.mangle_inj hp₂ (hm₁.trans hm₂.symm)
      rw [← heq] at hd₂
      exact hapart _ hd₁ hd₂
  exact ⟨Table.avoids_of_keys (hkeys .var), Table.avoids_of_keys (hkeys .type),
    Table.avoids_of_keys (hkeys .proc)⟩

/-- **A run over the items of both programs**: the second runs beside what the first has left. -/
theorem GoodRun.append {p₁ p₂ : Program} {ns₁ ns₂ : List Node} {own₁ own₂ : Scope}
    {s₁ s₂ : Analyzer} (h₁ : GoodRun p₁ ns₁ own₁ s₁) (h₂ : GoodRun p₂ ns₂ own₂ s₂)
    (hapart : ∀ d ∈ p₁.declared, d ∉ p₂.declared) :
    ∃ s, visitAll ((p₁.items ++ p₂.items).map Item.toNode) .fresh = .ok (ns₁ ++ ns₂) s ∧
      s.warnings = s₁.warnings ++ s₂.warnings ∧ s.archive = s₁.archive ++ s₂.archive ∧
      s.scopes.root = (ScopeStack.fresh.root.extend own₁).extend own₂ := by
  let o : Foreign := ⟨ScopeStack.fresh.root, own₁, s₁.warnings, s₁.archive⟩
  -- where the first run ends, a fresh state stands beside all that it has left
  have hstart : Analyzer.fresh.Beside o s₁ := by
    refine ⟨?_, (List.append_nil _).symm, (List.append_nil _).symm, h₁.procedure⟩
    rw [h₁.scopes]
    refine ⟨⟨rfl, ⟨[], ?_, ?_⟩, ⟨[], ?_, ?_⟩, ⟨[], ?_, ?_⟩⟩, rfl⟩
    all_goals exact (List.append_nil _).symm
  have havoids : o.entries.Avoids s₂.scopes.root := h₁.avoids h₂ hapart
  obtain ⟨s, hrun, hs⟩ := (visitAll_agrees _ o).ok hstart h₂.run havoids
  refine ⟨s, ?_, hs.warnings, hs.archive, ?_⟩
  · rw [List.map_append, visitAll_append]
    exact Check.bind_ok.mpr ⟨ns₁, s₁, h₁.run, Check.bind_ok.mpr ⟨ns₂, s, hrun, rfl⟩⟩
  · have hroot := hs.scopes.root
    rw [h₂.scopes] at hroot
    exact hroot.eq_extend

/-! ## 3. Sources -/

/-- The tokens of an accepted source, but for its end token, form its program. -/
theorem read_source {file source : String} {ts : List Token} {p : Program}
    (ht : tokenize file source = .ok ts) (hp : Program.ofTokens ts = .ok p) :
    ∃ pre e, ts = pre ++ [e] ∧ e.kind = .eof ∧ Derives pre p.toNode ∧ ∀ t ∈ pre, t.Plain := by
  have hstart : Position.start file = .counted file [] := rfl
  have hlex : lex (.counted file []) source.toList = .ok ts := hstart ▸ ht
  -- both sides cut the tokens at the first end token, and there is only one
  obtain ⟨us, hus, hne⟩ := (lex_segments hlex).ends
  obtain ⟨pre, e, rest, hpre, he, hforms, hgood⟩ := ofTokens_sound hp
  have hsame : us = pre := by
    rw [← @beforeEnd_append us [] ⟨.eof, "", _⟩ rfl hne, ← hus, hpre,
      beforeEnd_append he fun t hm => (hgood t hm).2]
  subst hsame
  refine ⟨us, _, hus, rfl, ⟨hforms, fun t hm => (hgood t hm).1⟩, fun t hm => ?_⟩
  have hmem : t ∈ ts := by
    rw [hus]
    exact List.mem_append_left _ hm
  exact (lex_spelled ht t hmem (hne t hm)).plain

/-- What an accepted source gives is what a good run over its items gives. -/
theorem Accepted.goodRun {file source : String} {p : Program} {a : Analysis}
    (h : Accepted file source p a) :
    ∃ ns own s, GoodRun p ns own s ∧ a = ⟨.root ns, s.warnings, s.archive, s.scopes.root⟩ := by
  obtain ⟨ts, t, ht, hp, ha⟩ := h
  obtain ⟨pre, e, _, _, hderives, hplain⟩ := read_source ht hp
  have hrun : Check.analyze (.root (p.items.map Item.toNode)) .fresh = .ok a t := ha
  rw [analyze_root] at hrun
  cases hv : visitAll (p.items.map Item.toNode) .fresh with
  | error e u =>
    rw [hv] at hrun
    cases hrun
  | ok ns s =>
    rw [hv] at hrun
    cases hrun
    obtain ⟨own, hgood⟩ := goodRun_of_items (hderives.forms.items hplain) hv
    exact ⟨ns, own, s, hgood, rfl⟩

/-- Two accepted sources with a line end between them are read as the items of both. -/
theorem read_append_newline (file : String) {file₁ file₂ source₁ source₂ : String}
    {p₁ p₂ : Program} {a₁ a₂ : Analysis} (h₁ : Accepted file₁ source₁ p₁ a₁)
    (h₂ : Accepted file₂ source₂ p₂ a₂) :
    ∃ ts p, tokenize file (source₁ ++ "\n" ++ source₂) = .ok ts ∧ Program.ofTokens ts = .ok p ∧
      p.toNode = .root ((p₁.items ++ p₂.items).map Item.toNode) := by
  obtain ⟨ts₁, _, ht₁, hp₁, _⟩ := h₁
  obtain ⟨ts₂, _, ht₂, hp₂, _⟩ := h₂
  obtain ⟨pre₁, e₁, rfl, _, hd₁, _⟩ := read_source ht₁ hp₁
  obtain ⟨pre₂, e₂, rfl, he₂, hd₂, _⟩ := read_source ht₂ hp₂
  obtain ⟨m₁, m₂, htokens⟩ := tokenize_append_newline file ht₁ ht₂
  have hderives : Derives (pre₁.map (Token.moved m₁) ++ pre₂.map (Token.moved m₂)) _ :=
    Derives.append hd₁.moved hd₂.moved
  have hread := @Derives.read _ [] (e₂.moved m₂) _ hderives he₂
  rw [List.map_append, ← List.append_assoc] at htokens
  cases hp : Program.ofTokens (pre₁.map (Token.moved m₁) ++ pre₂.map (Token.moved m₂) ++
      [e₂.moved m₂]) with
  | error e =>
    rw [hp] at hread
    cases hread
  | ok p =>
    rw [hp] at hread
    exact ⟨_, p, htokens, hp, Except.ok.inj hread⟩

/-- `c` is `a` followed by `b`: the tree, the warnings and the closed scopes are those of the one
    and then of the other, and the globals are what every program knows, then what the one declares,
    then what the other does. -/
structure Analysis.FollowedBy (a b c : Analysis) : Prop where
  tree : c.tree = .root (a.tree.children ++ b.tree.children)
  warnings : c.warnings = a.warnings ++ b.warnings
  scopes : c.scopes = a.scopes ++ b.scopes
  globals : ∃ own own', a.globals = ScopeStack.fresh.root.extend own ∧
    b.globals = ScopeStack.fresh.root.extend own' ∧
    c.globals = (ScopeStack.fresh.root.extend own).extend own'

theorem exists_accepted_append {file file₁ file₂ source₁ source₂ : String} {p₁ p₂ : Program}
    {a₁ a₂ : Analysis} (h₁ : Accepted file₁ source₁ p₁ a₁) (h₂ : Accepted file₂ source₂ p₂ a₂)
    (hapart : ∀ d ∈ p₁.declared, d ∉ p₂.declared) :
    ∃ p a, Accepted file (source₁ ++ "\n" ++ source₂) p a ∧ a₁.FollowedBy a₂ a := by
  obtain ⟨ts, p, htokens, hp, htree⟩ := read_append_newline file h₁ h₂
  obtain ⟨ns₁, own₁, s₁, hrun₁, rfl⟩ := h₁.goodRun
  obtain ⟨ns₂, own₂, s₂, hrun₂, rfl⟩ := h₂.goodRun
  obtain ⟨s, hrun, hwarnings, harchive, hroot⟩ := hrun₁.append hrun₂ hapart
  refine ⟨p, ⟨.root (ns₁ ++ ns₂), s.warnings, s.archive, s.scopes.root⟩,
    ⟨ts, s.cleared, htokens, hp, ?_⟩, rfl, hwarnings, harchive, own₁, own₂, ?_, ?_, hroot⟩
  · rw [htree, analyze_root, hrun]
  · exact congrArg ScopeStack.root hrun₁.scopes
  · exact congrArg ScopeStack.root hrun₂.scopes

/-- **Separately accepted sources link.** If two sources are accepted, each on its own, and no
    variable, no record and no procedure is declared at the top of both, then the one followed by a
    line end and the other is accepted, in either order, and gives what the one gives followed by
    what the other gives. -/
theorem accepted_append_newline {file file₁ file₂ source₁ source₂ : String} {p₁ p₂ : Program}
    {a₁ a₂ : Analysis} (h₁ : Accepted file₁ source₁ p₁ a₁) (h₂ : Accepted file₂ source₂ p₂ a₂)
    (hapart : ∀ d ∈ p₁.declared, d ∉ p₂.declared) :
    (∃ p a, Accepted file (source₁ ++ "\n" ++ source₂) p a ∧ a₁.FollowedBy a₂ a) ∧
      ∃ p a, Accepted file (source₂ ++ "\n" ++ source₁) p a ∧ a₂.FollowedBy a₁ a :=
  ⟨exists_accepted_append h₁ h₂ hapart,
    exists_accepted_append h₂ h₁ fun d hd₂ hd₁ => hapart d hd₁ hd₂⟩

/-- A variable at the top. -/
def globalSample : Program :=
  ⟨[.declaration [] (.global ⟨"int", none, false⟩ "x" (.number "1"))]⟩

/-- The tokens of `declare [int] x : 1`. -/
def globalTokens : List Token :=
  [sampleToken 0 .declare "declare", sampleToken 8 .lbracket "[", sampleToken 9 .ident "int",
    sampleToken 12 .rbracket "]", sampleToken 14 .ident "x", sampleToken 16 .colon ":",
    sampleToken 18 .number "1", sampleToken 19 .eof ""]

/-- A procedure with the name of that variable, and a parameter with it too. -/
def namesakeSample : Program :=
  ⟨[.declaration [] (.procedure ⟨"void", none, false⟩ "x" [⟨⟨"string", none, false⟩, "x"⟩]
    [.print (.path (.mk "x" []))])]⟩

/-- The tokens of `declare [void] :: x([string] x) print x end`. -/
def namesakeTokens : List Token :=
  [sampleToken 0 .declare "declare", sampleToken 8 .lbracket "[", sampleToken 9 .ident "void",
    sampleToken 13 .rbracket "]", sampleToken 15 .doubleColon "::", sampleToken 18 .ident "x",
    sampleToken 19 .lparen "(", sampleToken 20 .lbracket "[", sampleToken 21 .ident "string",
    sampleToken 27 .rbracket "]", sampleToken 29 .ident "x", sampleToken 30 .rparen ")",
    sampleToken 32 .print "print", sampleToken 38 .ident "x", sampleToken 40 .endBlock "end",
    sampleToken 43 .eof ""]

set_option maxRecDepth 20000 in
/-- The name is declared by both, as different things, and the parameter hides the variable: the two
    sources link all the same. -/
theorem accepted_append_newline_namesake :
    ∃ a₁ a₂, Accepted "sample" "declare [int] x : 1" globalSample a₁ ∧
      Accepted "sample" "declare [void] :: x([string] x) print x end" namesakeSample a₂ ∧
      (∀ d ∈ globalSample.declared, d ∉ namesakeSample.declared) ∧
      (∃ p a, Accepted "both" ("declare [int] x : 1" ++ "\n" ++
        "declare [void] :: x([string] x) print x end") p a ∧ a₁.FollowedBy a₂ a) ∧
      ∃ p a, Accepted "both" ("declare [void] :: x([string] x) print x end" ++ "\n" ++
        "declare [int] x : 1") p a ∧ a₂.FollowedBy a₁ a := by
  have ht₁ : (tokenize "sample" "declare [int] x : 1").toOption = some globalTokens := by
    decide +kernel
  have ht₂ : (tokenize "sample" "declare [void] :: x([string] x) print x end").toOption =
      some namesakeTokens := by decide +kernel
  obtain ⟨a₁, h₁⟩ := accepted_of_stages ht₁
    (show Program.ofTokens _ = .ok globalSample by cbv) (by cbv)
  obtain ⟨a₂, h₂⟩ := accepted_of_stages ht₂
    (show Program.ofTokens _ = .ok namesakeSample by cbv) (by cbv)
  have hapart : ∀ d ∈ globalSample.declared, d ∉ namesakeSample.declared := by decide
  exact ⟨a₁, a₂, h₁, h₂, hapart, accepted_append_newline h₁ h₂ hapart⟩

end Osclan
