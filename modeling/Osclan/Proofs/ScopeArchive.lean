/-
  File:      Osclan/Proofs/ScopeArchive.lean
  Subject:   The scopes on file mirror the tree.

  * **`archive_mirrors_tree`** -- one scope for each record and procedure, in the order in which they
    end.
-/
import Osclan.Proofs.ItemWalk

namespace Osclan

/-- **The archive mirrors the tree.** The scopes that an accepted program leaves on file are those of
    the records and procedures of its tree, one for each and innermost first. Each is as deep as the
    number of records and procedures on the way to it, itself included, and holds no types and no
    procedures. That of a record is empty; that of a procedure holds its parameters and behind them
    the variables of its body, in source order and under the keys of their names. -/
theorem archive_mirrors_tree {p : Program} {a : Analysis} {s : Analyzer}
    (h : Check.analyze p.toNode .fresh = .ok a s) :
    List.Forall₂ (fun b sc => sc.OfBlock a.globals.types b) (p.toNode.blocks 0) a.scopes := by
  obtain ⟨scopes, _, _, hscopes, hblocks⟩ := (p.runs rfl rfl).ok h
  rw [hscopes]
  exact hblocks

/-- The program `declare [void] :: f([int] a) print declare anon x : 1 end declare [string] b : "hi"
    end`. -/
def archiveSample : Program :=
  ⟨[.declaration [] (.procedure ⟨"void", none, false⟩ "f" [⟨⟨"int", none, false⟩, "a"⟩]
    [.print (.anon [.mk "x" (.number "1")]), .declare ⟨"string", none, false⟩ "b" (.text "hi")])]⟩

/-- The anonymous record ends first, two blocks deep and empty, and the procedure around it holds `a`
    and `b`. -/
theorem archive_mirrors_tree_of_sample :
    ∃ a s record procedure, Check.analyze archiveSample.toNode .fresh = .ok a s ∧
      a.scopes = [record, procedure] ∧ record.depth = 2 ∧ record.vars = [] ∧
      procedure.depth = 1 ∧ procedure.vars.map Prod.fst = ["_O1a", "_O1b"] := by
  have hok : (Check.analyze archiveSample.toNode).succeeds .fresh = true := by cbv
  obtain ⟨a, s, h⟩ := Check.ok_of_succeeds hok
  have hmirror := archive_mirrors_tree h
  have hblocks : archiveSample.toNode.blocks 0 =
      [(2, (Value.anon [.mk "x" (.number "1")]).toNode),
        (1, ⟨{ kind := .procedure, value := "f" },
          (archiveSample.items.map Item.toNode).flatMap Node.children⟩)] := by cbv
  rw [hblocks] at hmirror
  obtain ⟨record, _, hrecord, hrest, hscopes⟩ := List.forall₂_cons_left_iff.mp hmirror
  obtain ⟨procedure, _, hprocedure, hnil, rfl⟩ := List.forall₂_cons_left_iff.mp hrest
  cases hnil
  have hkeys := Entered.keys (hprocedure.ofProcedure rfl)
  refine ⟨a, s, record, procedure, h, hscopes, hrecord.depth, hrecord.ofRecord ?_,
    hprocedure.depth, hkeys.trans ?_⟩
  · cbv
  · cbv

end Osclan
