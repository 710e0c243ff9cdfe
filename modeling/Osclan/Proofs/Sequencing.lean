/-
  File:      Osclan/Proofs/Sequencing.lean
  Subject:   Checking trees one after the other.

  A walk over two lists of nodes is a walk over the one and then over the other. So a run over both
  is two runs, but for what is handed over in between: the second of two runs begins without the
  warnings and closed scopes of the first, and nothing else tells the two ways apart.

  * `Node.root` -- nodes as one tree;
  * `visitAll_append`, `analyze_root` -- the walk over two lists, and a run by its walk;
  * `visitAll_resume` -- a walk that begins with warnings and closed scopes, by one without;
  * `analyze_append` -- the main result.
-/
import Osclan.Proofs.Weakening

namespace Osclan

/-- Nodes as one tree. -/
def Node.root (ns : List Node) : Node := ⟨{ kind := .root }, ns⟩

/-- The state with the warnings and the closed scopes of earlier work in front of its own. -/
def Analyzer.resume (s : Analyzer) (warnings : List Warning) (archive : List Scope) : Analyzer :=
  { s with warnings := warnings ++ s.warnings, archive := archive ++ s.archive }

/-- The state as a run leaves it that has handed over its warnings and closed scopes. -/
def Analyzer.cleared (s : Analyzer) : Analyzer := { s with warnings := [], archive := [] }

/-! ## 1. The walk over two lists -/

/-- **Two lists are walked one after the other.** -/
theorem visitAll_append (ns ms : List Node) :
    visitAll (ns ++ ms) = do
      let ns' ← visitAll ns
      let ms' ← visitAll ms
      return ns' ++ ms' := by
  induction ns with
  | nil =>
    rw [List.nil_append, visitAll]
    simp only [pure_bind, List.nil_append, bind_pure]
  | cons n ns ih =>
    rw [List.cons_append, visitAll, visitAll, ih]
    simp only [bind_assoc, pure_bind, List.cons_append]

/-- What a run hands over and leaves, by the walk over its nodes. -/
theorem analyze_root (ns : List Node) (s : Analyzer) :
    Check.analyze (.root ns) s = match visitAll ns s with
      | .ok ns' t => .ok ⟨.root ns', t.warnings, t.archive, t.scopes.root⟩ t.cleared
      | .error e t => .error e t := by
  unfold Check.analyze Node.root visit
  simp only [bind, EStateM.bind]
  cases visitAll ns s <;> rfl

/-! ## 2. What went before -/

/-- A state with the scopes it has and no others. -/
theorem Analyzer.Beside.eq {o : Foreign} {s s' : Analyzer} (h : s.Beside o s')
    (hn : o.NoEntries) : s' = s.resume o.warnings o.archive := by
  rcases s with ⟨scopes, archive, warnings, procedure⟩
  rcases s' with ⟨scopes', archive', warnings', procedure'⟩
  rw [show scopes' = scopes from h.scopes.eq hn, show procedure' = procedure from h.procedure,
    show archive' = o.archive ++ archive from h.archive,
    show warnings' = o.warnings ++ warnings from h.warnings]
  rfl

/-- **A walk does not look at the warnings and closed scopes it finds**, and adds its own behind
    them. -/
theorem visitAll_resume (ns : List Node) (s : Analyzer) (warnings : List Warning)
    (archive : List Scope) :
    visitAll ns (s.resume warnings archive) = match visitAll ns s with
      | .ok ns' t => .ok ns' (t.resume warnings archive)
      | .error e t => .error e (t.resume warnings archive) := by
  have hn := Foreign.noEntries_earlier warnings archive
  have hs : s.Beside (.earlier warnings archive) (s.resume warnings archive) :=
    ⟨(Joins.refl s.scopes warnings archive).beside, rfl, rfl, rfl⟩
  have hagrees := visitAll_agrees ns (.earlier warnings archive)
  cases hrun : visitAll ns s with
  | ok ns' t =>
    obtain ⟨t', hrun', ht⟩ := hagrees.ok hs hrun (hn.avoids _)
    rw [hrun', ht.eq hn]
    rfl
  | error e t =>
    obtain ⟨t', hrun', ht⟩ := hagrees.error hn hs hrun
    rw [hrun', ht.eq hn]
    rfl

/-! ## 3. Runs one after the other -/

/-- **Runs compose in sequence.** From any state, a run over two lists of nodes is a run over the
    first and, on what that leaves, a run over the second. It succeeds if both do: its tree has the
    nodes of both, its warnings and closed scopes are those of the first followed by those of the
    second, and it ends with the globals and in the state of the second. If the first stops, the
    whole stops with the same cause and state; if only the second does, the whole stops with the
    cause of the second, and the warnings and scopes of the first are still there. -/
theorem analyze_append (s : Analyzer) (ns ms : List Node) :
    Check.analyze (.root (ns ++ ms)) s = match Check.analyze (.root ns) s with
      | .error e t => .error e t
      | .ok a t => match Check.analyze (.root ms) t with
        | .error e u => .error e (u.resume a.warnings a.scopes)
        | .ok b u => .ok ⟨.root (a.tree.children ++ b.tree.children), a.warnings ++ b.warnings,
            a.scopes ++ b.scopes, b.globals⟩ u := by
  simp only [analyze_root, visitAll_append, bind, EStateM.bind]
  cases hfirst : visitAll ns s with
  | error e t => rfl
  | ok ns' t =>
    -- the whole goes on from `t`, the second run from `t` without what was handed over
    have ht : t = t.cleared.resume t.warnings t.archive := by
      simp only [Analyzer.resume, Analyzer.cleared, List.append_nil]
    have hresume := visitAll_resume ms t.cleared t.warnings t.archive
    rw [← ht] at hresume
    simp only [hresume]
    cases visitAll ms t.cleared with
    | error e u => rfl
    | ok ms' u => rfl

end Osclan
