/-
  TillLang.Proofs.Positions — positions are only decoration.

  Two programs that differ in the positions of their nodes only are answered alike by the checker, have the same
  text, and run alike: they display the same texts, leave the same values under the same names and end the same
  way, up to the position that a violation or a failure is reported at (`positions_are_decoration`).

  Checking and running were shown before to do on a bare tree what they do on the tree. Here the printer is: it
  reads no position at all (`printExpr_bare`, `printStatement_bare`), and a tree is as high without its positions.
-/

import TillLang.Proofs.Eval.Unplaced

namespace TillLang

open Eval (Settings World Stop runTo unplacedEnd)
open Node (bares heights)

/-! ## Height -/

mutual

theorem Node.height_bare (form : Literal → Literal) : ∀ n : Node, (n.bare form).height = n.height
  | .program body _ => by rw [Node.bare, Node.height, Node.height, heights_bares form body]
  | .block statements _ => by rw [Node.bare, Node.height, Node.height, heights_bares form statements]
  | .varDecl _ _ initializer _ => by rw [Node.bare, Node.height, Node.height, height_bare form initializer]
  | .function _ params _ body _ => by
    rw [Node.bare, Node.height, Node.height, heights_bares form params, height_bare form body]
  | .ifStmt condition body _ => by
    rw [Node.bare, Node.height, Node.height, height_bare form condition, height_bare form body]
  | .whileStmt condition body _ => by
    rw [Node.bare, Node.height, Node.height, height_bare form condition, height_bare form body]
  | .assignment _ value _ => by rw [Node.bare, Node.height, Node.height, height_bare form value]
  | .returnStmt value _ => by rw [Node.bare, Node.height, Node.height, height_bare form value]
  | .display value _ => by rw [Node.bare, Node.height, Node.height, height_bare form value]
  | .binary _ left right _ => by
    rw [Node.bare, Node.height, Node.height, height_bare form left, height_bare form right]
  | .unary _ operand _ => by rw [Node.bare, Node.height, Node.height, height_bare form operand]
  | .call _ args _ => by rw [Node.bare, Node.height, Node.height, heights_bares form args]
  | .absent | .param .. | .literal .. | .identifier .. => rfl

theorem Node.heights_bares (form : Literal → Literal) : ∀ ns : List Node, heights (bares form ns) = heights ns
  | [] => rfl
  | n :: ns => by rw [bares, heights, heights, height_bare form n, heights_bares form ns]

end

/-! ## Printing -/

namespace Syntax

theorem bindingOf_bare (n : Node) : bindingOf (n.bare id) = bindingOf n := by
  cases n with
  | literal value _ => cases value <;> rfl
  | _ => rfl

mutual

/-- The text of an expression does not depend on positions. -/
theorem printExpr_bare : ∀ n : Node, printExpr (n.bare id) = printExpr n
  | .call callee args _ => by rw [Node.bare, printExpr, printExpr, printExprs_bare args]
  | .unary op operand _ => by rw [Node.bare, printExpr, printExpr, printExpr_bare operand, bindingOf_bare]
  | .binary op left right _ => by
    rw [Node.bare, printExpr, printExpr, printExpr_bare left, printExpr_bare right, bindingOf_bare, bindingOf_bare]
  | .absent | .program .. | .block .. | .varDecl .. | .param .. | .function .. | .ifStmt .. | .whileStmt ..
  | .assignment .. | .returnStmt .. | .display .. | .literal .. | .identifier .. => rfl

theorem printExprs_bare : ∀ ns : List Node, printExprs (bares id ns) = printExprs ns
  | [] => rfl
  | n :: ns => by rw [bares, printExprs, printExprs, printExpr_bare n, printExprs_bare ns]

end

theorem printHeader_bare (name : String) (params : List Node) (returns : Option String) :
    printHeader name (bares id params) returns = printHeader name params returns := by
  have hparam : printParam ∘ Node.bare id = printParam := by
    funext n
    simp only [Function.comp_apply, printParam, Node.declared?_bare]
  rw [printHeader, printHeader, Node.bares_eq_map, List.mapM_map, hparam]

/-- A declaration with an initial value. -/
theorem printStatement_init {n : Node} (h : n.isAbsent = false) (level : Nat) (type name : String)
    (position : Option Position) : printStatement level (.varDecl (some type) name n position) =
      (fun text => [pad level ++ type ++ " " ++ name ++ " = " ++ text]) <$> printExpr n := by
  cases n <;> first | rfl | cases h

/-- A return with a value. -/
theorem printStatement_return {n : Node} (h : n.isAbsent = false) (level : Nat) (position : Option Position) :
    printStatement level (.returnStmt n position) = (fun text => [pad level ++ "return " ++ text]) <$> printExpr n := by
  cases n <;> first | rfl | cases h

theorem eq_absent {n : Node} (h : n.isAbsent = true) : n = .absent := by
  cases n <;> first | rfl | cases h

mutual

/-- The lines of a statement do not depend on positions. -/
theorem printStatement_bare (level : Nat) : ∀ n : Node, printStatement level (n.bare id) = printStatement level n
  | .varDecl none _ _ _ => rfl
  | .varDecl (some type) name initializer position => by
    rw [Node.bare]
    cases h : initializer.isAbsent with
    | true => rw [eq_absent h, Node.bare, printStatement, printStatement]
    | false =>
      rw [printStatement_init h, printStatement_init ((Node.isAbsent_bare id initializer).trans h), printExpr_bare]
  | .returnStmt value _ => by
    rw [Node.bare]
    cases h : value.isAbsent with
    | true => rw [eq_absent h, Node.bare, printStatement, printStatement]
    | false =>
      rw [printStatement_return h, printStatement_return ((Node.isAbsent_bare id value).trans h), printExpr_bare]
  | .assignment _ value _ => by rw [Node.bare, printStatement, printStatement, printExpr_bare]
  | .display value _ => by rw [Node.bare, printStatement, printStatement, printExpr_bare]
  | .ifStmt condition body _ => by
    rw [Node.bare, printStatement, printStatement, printExpr_bare, printBlock_bare (level + 1) body]
  | .whileStmt condition body _ => by
    rw [Node.bare, printStatement, printStatement, printExpr_bare, printBlock_bare (level + 1) body]
  | .function name params returns body _ => by
    rw [Node.bare, printStatement, printStatement, printHeader_bare, printBlock_bare (level + 1) body]
  | .absent | .program .. | .block .. | .param .. | .binary .. | .unary .. | .literal .. | .identifier ..
  | .call .. => rfl

theorem printBlock_bare (level : Nat) : ∀ n : Node, printBlock level (n.bare id) = printBlock level n
  | .block statements _ => printStatements_bare level statements
  | .absent | .program .. | .varDecl .. | .param .. | .function .. | .ifStmt .. | .whileStmt .. | .assignment ..
  | .returnStmt .. | .display .. | .binary .. | .unary .. | .literal .. | .identifier .. | .call .. => rfl

theorem printStatements_bare (level : Nat) :
    ∀ ns : List Node, printStatements level (bares id ns) = printStatements level ns
  | [] => rfl
  | n :: ns => by
    rw [bares, printStatements, printStatements, printStatement_bare level n, printStatements_bare level ns]

end

theorem printProgram_bare (p : Node) : printProgram (p.bare id) = printProgram p := by
  unfold printProgram
  rw [Node.programBody_bare]
  cases p.programBody with
  | error cause => rfl
  | ok body => simp only [Success.ok_map, Node.heights_bares, printBody, printStatements_bare]

end Syntax

/-! ## Programs -/

/-- Programs that are the same but for the positions of their nodes are checked, printed and run alike. -/
theorem positions_are_decoration {p q : Node} (h : p.bare id = q.bare id) :
    (∀ scopes, (Typing.check scopes p).1 = (Typing.check scopes q).1 ∧
      (Typing.check scopes p).2.mapError Typing.Fault.unplaced =
        (Typing.check scopes q).2.mapError Typing.Fault.unplaced) ∧
    format p = format q ∧
    ∀ (settings : Settings) (limit : Nat),
      (runTo settings limit p World.start).2.displayed = (runTo settings limit q World.start).2.displayed ∧
      (runTo settings limit p World.start).2.arena.unplaced = (runTo settings limit q World.start).2.arena.unplaced ∧
      (runTo settings limit p World.start).1.mapError Stop.unplaced =
        (runTo settings limit q World.start).1.mapError Stop.unplaced := by
  refine ⟨fun scopes => ?_, ?_, fun settings limit => ?_⟩
  · have hcheck := (Typing.check_bare scopes p).symm.trans ((congrArg _ h).trans (Typing.check_bare scopes q))
    exact Prod.mk.inj hcheck
  · rw [format, format, ← Syntax.printProgram_bare p, ← Syntax.printProgram_bare q, h]
  · have hruns := Eval.runTo_of_bare h settings limit World.start
    simp only [unplacedEnd, id_map, Prod.mk.injEq] at hruns
    have hdisplayed := congrArg World.displayed hruns.2
    have harena := congrArg World.arena hruns.2
    exact ⟨hdisplayed, harena, hruns.1⟩

/-- A program that displays a text and then fails for its condition, which stands at a position. -/
def failingAt (position : Option Position) : Node :=
  .program
    [.display (.literal (.str "shown") position) position,
     .ifStmt (.literal (.str "x") position) (.block [.display (.literal (.bool true) none) none] none) position]
    position

theorem failingAt_decorated : (runTo ⟨0, 1⟩ 9 (failingAt (some (Location.position ⟨7, 4⟩))) World.start).1 =
      .error (.failure (.conditionType "Str") (some (Location.position ⟨7, 4⟩))) ∧
    (runTo ⟨0, 1⟩ 9 (failingAt none) World.start).1 = .error (.failure (.conditionType "Str") none) ∧
    (failingAt (some (Location.position ⟨7, 4⟩))).bare id = (failingAt none).bare id ∧
    format (failingAt (some (Location.position ⟨7, 4⟩))) = format (failingAt none) ∧
    ∀ (settings : Settings) (limit : Nat),
      (runTo settings limit (failingAt (some (Location.position ⟨7, 4⟩))) World.start).2.displayed =
        (runTo settings limit (failingAt none) World.start).2.displayed := by
  have hbare : (failingAt (some (Location.position ⟨7, 4⟩))).bare id = (failingAt none).bare id := rfl
  obtain ⟨-, hformat, hruns⟩ := positions_are_decoration hbare
  exact ⟨rfl, rfl, hbare, hformat, fun settings limit => (hruns settings limit).1⟩

end TillLang
