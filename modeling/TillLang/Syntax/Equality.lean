/-
  TillLang.Syntax.Equality — equality of trees up to positions.

  Two trees are equal when they have the same classes and parts, wherever they come from.
  Literals are compared by value. The comparison stops at the first difference, and it
  gives up where two trees agree past the nesting limit.
-/

import TillLang.Syntax.Basic

namespace TillLang.Syntax

open Node

/-- The answer of a comparison; `none` when it would nest too deeply. -/
abbrev Comparison := Option Bool

/-- The second comparison decides if the first finds no difference. -/
def Comparison.andThen (a : Comparison) (b : Unit → Comparison) : Comparison :=
  match a with
  | some true => b ()
  | other => other

def sameLists (same : Node → Node → Comparison) : List Node → List Node → Comparison
  | a :: as, b :: bs => (same a b).andThen fun _ => sameLists same as bs
  | _, _ => some true

def sameNodes (same : Node → Node → Comparison) (as bs : List Node) : Comparison :=
  if as.length = bs.length then sameLists same as bs else some false

/-- Compares two literals: numbers as doubles, all else by kind and value. -/
def sameLiteral : Literal → Literal → Bool
  | .num x, .num y => x == y
  | .other kind a _, .other kind' b _ => a.same b && kind == kind'
  | _, _ => false

def sameTo : Nat → Node → Node → Comparison
  | _, .absent, .absent => some true
  | 0, a, b => if a.className = b.className then none else some false
  | limit + 1, a, b =>
    let same := sameTo limit
    match a, b with
    | .program as _, .program bs _ => sameNodes same as bs
    | .block as _, .block bs _ => sameNodes same as bs
    | .varDecl t n a _, .varDecl u m b _ =>
      Comparison.andThen (some (t == u && n == m)) fun _ => same a b
    | .param t n _, .param u m _ => some (t == u && n == m)
    | .function n as r a _, .function m bs s b _ =>
      Comparison.andThen (some (n == m)) fun _ =>
        Comparison.andThen (sameNodes same as bs) fun _ =>
          Comparison.andThen (some (r == s)) fun _ => same a b
    | .ifStmt c a _, .ifStmt d b _ => (same c d).andThen fun _ => same a b
    | .whileStmt c a _, .whileStmt d b _ => (same c d).andThen fun _ => same a b
    | .assignment n a _, .assignment m b _ =>
      Comparison.andThen (some (n == m)) fun _ => same a b
    | .returnStmt a _, .returnStmt b _ => same a b
    | .display a _, .display b _ => same a b
    | .binary o a c _, .binary q b d _ =>
      Comparison.andThen (some (o == q)) fun _ => (same a b).andThen fun _ => same c d
    | .unary o a _, .unary q b _ => Comparison.andThen (some (o == q)) fun _ => same a b
    | .literal a _, .literal b _ => some (sameLiteral a b)
    | .identifier n _, .identifier m _ => some (n == m)
    | .call n as _, .call m bs _ =>
      Comparison.andThen (some (n == m)) fun _ => sameNodes same as bs
    | _, _ => some false

/-- Whether two trees are equal up to positions. -/
def same (a b : Node) : Comparison := sameTo nestingLimit a b

end TillLang.Syntax
