/-
  TillLang.Proofs.Parse.Spelling — which tokens spell which syntax trees.

  `Spells` is the grammar of programs as a relation between tokens and syntax trees, free of
  tables, cursors and fuel. It has one rule for each construct; a layer of binary operators
  recurses on its left operand, so that operands of equal precedence are joined to the left.
  The relation carries the depth of nesting that the descent counts. Everything that is
  known of parsed programs is read off this relation: the descent and the table both parse
  exactly the tokens that spell a program.

  Proved here: a spelling survives a greater depth (`Spells.mono`), a phrase that is part of a
  line holds no line ends (`Spells.isOrdinary`), and a statement starts at its first token
  (`Spells.starts`).
-/

import TillLang.Grammar.Symbol
import TillLang.Parse.Fault

namespace TillLang

open Grammar (Terminal)

/-- A token stands for a terminal. -/
def Token.Stands (t : Token) (x : Terminal) : Prop := Terminal.ofToken? t = some x

theorem Token.Stands.unique {t : Token} {x y : Terminal} (hx : t.Stands x) (hy : t.Stands y) : x = y :=
  Option.some.inj (hx.symm.trans hy)

/-- The kind of token that a terminal is, if it is more than one of the words and operators. -/
def Grammar.Terminal.kind? : Terminal → Option Token.Kind
  | .name => some .name
  | .number => some .number
  | .string => some .string
  | .char => some .char
  | .newline => some .newline
  | .indent => some .indent
  | .dedent => some .dedent
  | .finish => some .eof
  | _ => none

theorem kind_of_ofText {s : String} {x : Terminal} (h : Terminal.ofText? s = some x) : x.kind? = none := by
  unfold Terminal.ofText? at h
  split at h
  case h_19 => cases h
  all_goals
    obtain rfl := Option.some.inj h
    rfl

theorem Token.Stands.kind {t : Token} {x : Terminal} (h : t.Stands x) {k : Token.Kind} (hk : x.kind? = some k) :
    t.kind = k := by
  unfold Token.Stands Terminal.ofToken? at h
  cases ht : t.kind <;> rw [ht] at h <;> simp only at h
  case keyword => simp [kind_of_ofText h] at hk
  case op => simp [kind_of_ofText h] at hk
  case bool =>
    obtain rfl := Option.some.inj h
    split at hk <;> cases hk
  all_goals
    obtain rfl := Option.some.inj h
    exact Option.some.inj hk

theorem ofText_not_bool {s : String} {x : Terminal} (h : Terminal.ofText? s = some x) :
    ¬ (x = .litTrue ∨ x = .litFalse) := by
  unfold Terminal.ofText? at h
  split at h
  case h_19 => cases h
  all_goals
    obtain rfl := Option.some.inj h
    decide

/-- The token of a truth value. -/
theorem Token.Stands.bool {t : Token} {x : Terminal} (h : t.Stands x) (hx : x = .litTrue ∨ x = .litFalse) :
    t.kind = .bool ∧ (t.lexeme == "true") = (x == .litTrue) := by
  unfold Token.Stands Terminal.ofToken? at h
  cases ht : t.kind <;> rw [ht] at h <;> simp only at h
  case bool =>
    refine ⟨rfl, ?_⟩
    obtain rfl := Option.some.inj h
    cases t.lexeme == "true" <;> rfl
  case keyword => exact absurd hx (ofText_not_bool h)
  case op => exact absurd hx (ofText_not_bool h)
  all_goals
    obtain rfl := Option.some.inj h
    rcases hx with hx | hx <;> cases hx

/-- The place of a token, as nodes carry it. -/
def Token.place (t : Token) : Option Position := some t.location.position

namespace Parse

/-- The kinds of phrases. Layer `0` holds prefix operators on a primary, and layer `k + 1` the
binary operators of strength `k`, the strongest first. -/
inductive Phrase where
  | layer (k : Nat)
  | arguments
  | statement
  | statements
  | block

/-- The binary operators by their strength. -/
def operatorAt : Nat → Terminal
  | 0 => .mulOp
  | 1 => .addOp
  | 2 => .relOp
  | _ => .eqOp

/-- The number of layers of binary operators. -/
def layerCount : Nat := 4

/-- The keywords with a condition and a block. -/
def guardOf? : Terminal → Option (Node → Node → Option Position → Node)
  | .kwIf => some .ifStmt
  | .kwWhile => some .whileStmt
  | _ => none

/-- Parameters separated by commas. -/
inductive SpellsParams : List Token → List Node → Prop
  | one {type name : Token} (ht : type.Stands .name) (hn : name.Stands .name) :
      SpellsParams [type, name] [.param (some type.lexeme) name.lexeme type.place]
  | more {type name comma : Token} {ts : List Token} {ns : List Node} (ht : type.Stands .name)
      (hn : name.Stands .name) (hc : comma.Stands .comma) (h : SpellsParams ts ns) :
      SpellsParams (type :: name :: comma :: ts) (.param (some type.lexeme) name.lexeme type.place :: ns)

/-- What stands between the parentheses of a function. -/
def SpellsParamList (ts : List Token) (ns : List Node) : Prop := ts = [] ∧ ns = [] ∨ SpellsParams ts ns

/-- The return type of a function. -/
inductive SpellsReturns : List Token → Option String → Prop
  | none : SpellsReturns [] none
  | some {arrow type : Token} (ha : arrow.Stands .arrow) (ht : type.Stands .name) :
      SpellsReturns [arrow, type] (some type.lexeme)

/-- The tokens of a phrase that nests at most so deep, and the nodes it stands for. -/
inductive Spells : Nat → Phrase → List Token → List Node → Prop
  | lift {d k : Nat} {ts : List Token} {n : Node} (hk : k < layerCount) (h : Spells d (.layer k) ts [n]) :
      Spells d (.layer (k + 1)) ts [n]
  | binary {d k : Nat} {ls rs : List Token} {op : Token} {l r : Node} (hk : k < layerCount)
      (hl : Spells d (.layer (k + 1)) ls [l]) (hop : op.Stands (operatorAt k))
      (hr : Spells d (.layer k) rs [r]) :
      Spells d (.layer (k + 1)) (ls ++ op :: rs) [.binary op.lexeme l r op.place]
  | unary {d : Nat} {ts : List Token} {op : Token} {n : Node} (hop : op.Stands .unaryOp)
      (h : Spells d (.layer 0) ts [n]) :
      Spells (d + 1) (.layer 0) (op :: ts) [.unary op.lexeme n op.place]
  | literal {d : Nat} {t : Token} {v : Literal} (h : literalOf? t = some (.ok v)) :
      Spells (d + 1) (.layer 0) [t] [.literal v t.place]
  | identifier {d : Nat} {t : Token} (ht : t.Stands .name) :
      Spells (d + 1) (.layer 0) [t] [.identifier t.lexeme t.place]
  | callPlain {d : Nat} {t lp rp : Token} (ht : t.Stands .name) (hlp : lp.Stands .lpar)
      (hrp : rp.Stands .rpar) :
      Spells (d + 1) (.layer 0) [t, lp, rp] [.call t.lexeme [] t.place]
  | callArgs {d : Nat} {t lp rp : Token} {ts : List Token} {args : List Node} (ht : t.Stands .name)
      (hlp : lp.Stands .lpar) (h : Spells d .arguments ts args) (hrp : rp.Stands .rpar) :
      Spells (d + 1) (.layer 0) (t :: lp :: (ts ++ [rp])) [.call t.lexeme args t.place]
  | parens {d : Nat} {lp rp : Token} {ts : List Token} {n : Node} (hlp : lp.Stands .lpar)
      (h : Spells d (.layer layerCount) ts [n]) (hrp : rp.Stands .rpar) :
      Spells (d + 1) (.layer 0) (lp :: (ts ++ [rp])) [n]
  | argsOne {d : Nat} {ts : List Token} {n : Node} (h : Spells d (.layer layerCount) ts [n]) :
      Spells d .arguments ts [n]
  | argsMore {d : Nat} {ts us : List Token} {comma : Token} {n : Node} {ns : List Node}
      (h : Spells d (.layer layerCount) ts [n]) (hc : comma.Stands .comma) (hs : Spells d .arguments us ns) :
      Spells d .arguments (ts ++ comma :: us) (n :: ns)
  | varDeclPlain {d : Nat} {type name eol : Token} (ht : type.Stands .name) (hn : name.Stands .name)
      (he : eol.Stands .newline) :
      Spells (d + 1) .statement [type, name, eol] [.varDecl (some type.lexeme) name.lexeme .absent type.place]
  | varDeclInit {d : Nat} {type name eq eol : Token} {ts : List Token} {n : Node} (ht : type.Stands .name)
      (hn : name.Stands .name) (hq : eq.Stands .assign) (h : Spells d (.layer layerCount) ts [n])
      (he : eol.Stands .newline) :
      Spells (d + 1) .statement (type :: name :: eq :: (ts ++ [eol]))
        [.varDecl (some type.lexeme) name.lexeme n type.place]
  | assignment {d : Nat} {name eq eol : Token} {ts : List Token} {n : Node} (hn : name.Stands .name)
      (hq : eq.Stands .assign) (h : Spells d (.layer layerCount) ts [n]) (he : eol.Stands .newline) :
      Spells (d + 1) .statement (name :: eq :: (ts ++ [eol])) [.assignment name.lexeme n name.place]
  | returnPlain {d : Nat} {kw eol : Token} (hk : kw.Stands .kwReturn) (he : eol.Stands .newline) :
      Spells (d + 1) .statement [kw, eol] [.returnStmt .absent kw.place]
  | returnValue {d : Nat} {kw eol : Token} {ts : List Token} {n : Node} (hk : kw.Stands .kwReturn)
      (h : Spells d (.layer layerCount) ts [n]) (he : eol.Stands .newline) :
      Spells (d + 1) .statement (kw :: (ts ++ [eol])) [.returnStmt n kw.place]
  | display {d : Nat} {kw eol : Token} {ts : List Token} {n : Node} (hk : kw.Stands .kwDisplay)
      (h : Spells d (.layer layerCount) ts [n]) (he : eol.Stands .newline) :
      Spells (d + 1) .statement (kw :: (ts ++ [eol])) [.display n kw.place]
  | guarded {d : Nat} {kw : Token} {x : Terminal} {build : Node → Node → Option Position → Node}
      {ts us : List Token} {n b : Node} (hk : kw.Stands x) (hx : guardOf? x = some build)
      (h : Spells d (.layer layerCount) ts [n]) (hb : Spells d .block us [b]) :
      Spells (d + 1) .statement (kw :: (ts ++ us)) [build n b kw.place]
  | function {d : Nat} {name lp rp : Token} {ps rs us : List Token} {params : List Node}
      {returns : Option String} {b : Node} (hn : name.Stands .name) (hlp : lp.Stands .lpar)
      (hps : SpellsParamList ps params) (hrp : rp.Stands .rpar) (hrs : SpellsReturns rs returns)
      (hb : Spells d .block us [b]) :
      Spells (d + 1) .statement (name :: lp :: (ps ++ rp :: (rs ++ us)))
        [.function name.lexeme params returns b name.place]
  | one {d : Nat} {ts : List Token} {n : Node} (h : Spells d .statement ts [n]) : Spells d .statements ts [n]
  | more {d : Nat} {ts us : List Token} {n : Node} {ns : List Node} (h : Spells d .statement ts [n])
      (hs : Spells d .statements us ns) : Spells d .statements (ts ++ us) (n :: ns)
  | block {d : Nat} {eol ind ded : Token} {ts : List Token} {n : Node} {ns : List Node}
      (he : eol.Stands .newline) (hi : ind.Stands .indent) (h : Spells d .statements ts (n :: ns))
      (hd : ded.Stands .dedent) :
      Spells d .block (eol :: ind :: (ts ++ [ded])) [.block (n :: ns) (n.position?.getD none)]

/-- The tokens of a whole text, and the statements of the program it stands for. -/
def SpellsProgram (d : Nat) (tokens : List Token) (body : List Node) : Prop :=
  ∃ ts last, tokens = ts ++ [last] ∧ last.Stands .finish ∧ (ts = [] ∧ body = [] ∨ Spells d .statements ts body)

/-! ## Depth -/

/-- What nests at most so deep nests at most deeper. -/
theorem Spells.mono {d : Nat} {p : Phrase} {ts : List Token} {ns : List Node} (h : Spells d p ts ns) {e : Nat}
    (he : d ≤ e) : Spells e p ts ns := by
  induction h generalizing e with
  | lift hk _ ih => exact .lift hk (ih he)
  | binary hk _ hop _ ihl ihr => exact .binary hk (ihl he) hop (ihr he)
  | argsOne _ ih => exact .argsOne (ih he)
  | argsMore _ hc _ ih ihs => exact .argsMore (ih he) hc (ihs he)
  | one _ ih => exact .one (ih he)
  | more _ _ ih ihs => exact .more (ih he) (ihs he)
  | block hl hi _ hd ih => exact .block hl hi (ih he) hd
  | unary hop _ ih =>
    obtain ⟨e, rfl⟩ : ∃ e', e = e' + 1 := ⟨e - 1, by omega⟩
    exact .unary hop (ih (by omega))
  | literal hv =>
    obtain ⟨e, rfl⟩ : ∃ e', e = e' + 1 := ⟨e - 1, by omega⟩
    exact .literal hv
  | identifier ht =>
    obtain ⟨e, rfl⟩ : ∃ e', e = e' + 1 := ⟨e - 1, by omega⟩
    exact .identifier ht
  | callPlain ht hlp hrp =>
    obtain ⟨e, rfl⟩ : ∃ e', e = e' + 1 := ⟨e - 1, by omega⟩
    exact .callPlain ht hlp hrp
  | callArgs ht hlp _ hrp ih =>
    obtain ⟨e, rfl⟩ : ∃ e', e = e' + 1 := ⟨e - 1, by omega⟩
    exact .callArgs ht hlp (ih (by omega)) hrp
  | parens hlp _ hrp ih =>
    obtain ⟨e, rfl⟩ : ∃ e', e = e' + 1 := ⟨e - 1, by omega⟩
    exact .parens hlp (ih (by omega)) hrp
  | varDeclPlain ht hn hl =>
    obtain ⟨e, rfl⟩ : ∃ e', e = e' + 1 := ⟨e - 1, by omega⟩
    exact .varDeclPlain ht hn hl
  | varDeclInit ht hn hq _ hl ih =>
    obtain ⟨e, rfl⟩ : ∃ e', e = e' + 1 := ⟨e - 1, by omega⟩
    exact .varDeclInit ht hn hq (ih (by omega)) hl
  | assignment hn hq _ hl ih =>
    obtain ⟨e, rfl⟩ : ∃ e', e = e' + 1 := ⟨e - 1, by omega⟩
    exact .assignment hn hq (ih (by omega)) hl
  | returnPlain hk hl =>
    obtain ⟨e, rfl⟩ : ∃ e', e = e' + 1 := ⟨e - 1, by omega⟩
    exact .returnPlain hk hl
  | returnValue hk _ hl ih =>
    obtain ⟨e, rfl⟩ : ∃ e', e = e' + 1 := ⟨e - 1, by omega⟩
    exact .returnValue hk (ih (by omega)) hl
  | display hk _ hl ih =>
    obtain ⟨e, rfl⟩ : ∃ e', e = e' + 1 := ⟨e - 1, by omega⟩
    exact .display hk (ih (by omega)) hl
  | guarded hk hx _ _ ih ihb =>
    obtain ⟨e, rfl⟩ : ∃ e', e = e' + 1 := ⟨e - 1, by omega⟩
    exact .guarded hk hx (ih (by omega)) (ihb (by omega))
  | function hn hlp hps hrp hrs _ ihb =>
    obtain ⟨e, rfl⟩ : ∃ e', e = e' + 1 := ⟨e - 1, by omega⟩
    exact .function hn hlp hps hrp hrs (ihb (by omega))

theorem SpellsProgram.mono {d : Nat} {tokens : List Token} {body : List Node}
    (h : SpellsProgram d tokens body) {e : Nat}
    (he : d ≤ e) : SpellsProgram e tokens body := by
  obtain ⟨ts, last, rfl, hlast, hbody⟩ := h
  exact ⟨ts, last, rfl, hlast, hbody.imp_right fun h => h.mono he⟩

/-! ## Tokens of a phrase -/

/-- Phrases that are part of a line. -/
def Phrase.isInline : Phrase → Prop
  | .layer _ | .arguments => True
  | _ => False

theorem isOrdinary_of_stands {t : Token} {x : Terminal} (h : t.Stands x)
    (hx : x ≠ .newline ∧ x ≠ .indent ∧ x ≠ .dedent ∧ x ≠ .finish) : t.kind.isOrdinary = true := by
  unfold Token.Stands Terminal.ofToken? at h
  cases hk : t.kind <;> simp_all [Token.Kind.isOrdinary]

theorem isOrdinary_of_literal {t : Token} {r : Except Fault Literal} (h : literalOf? t = some r) :
    t.kind.isOrdinary = true := by
  unfold literalOf? at h
  cases hk : t.kind <;> simp_all [Token.Kind.isOrdinary]

theorem operatorAt_inline (k : Nat) : operatorAt k ≠ .newline ∧ operatorAt k ≠ .indent ∧ operatorAt k ≠ .dedent ∧
    operatorAt k ≠ .finish := by
  unfold operatorAt
  split <;> decide

/-- The tokens of a phrase that is part of a line stand for text of the source. -/
theorem Spells.isOrdinary {d : Nat} {p : Phrase} {ts : List Token} {ns : List Node} (h : Spells d p ts ns)
    (hp : p.isInline) : ∀ t ∈ ts, t.kind.isOrdinary = true := by
  induction h with
  | lift _ _ ih => exact ih trivial
  | binary _ _ hop _ ihl ihr =>
    intro t ht
    rcases List.mem_append.mp ht with ht | ht
    · exact ihl trivial t ht
    · rcases List.mem_cons.mp ht with rfl | ht
      · exact isOrdinary_of_stands hop (operatorAt_inline _)
      · exact ihr trivial t ht
  | unary hop _ ih =>
    intro t ht
    rcases List.mem_cons.mp ht with rfl | ht
    · exact isOrdinary_of_stands hop (by decide)
    · exact ih trivial t ht
  | literal hv => simpa using isOrdinary_of_literal hv
  | identifier ht => simpa using isOrdinary_of_stands ht (by decide)
  | callPlain ht hlp hrp =>
    simp only [List.mem_cons, List.not_mem_nil, or_false, forall_eq_or_imp, forall_eq]
    exact ⟨isOrdinary_of_stands ht (by decide), isOrdinary_of_stands hlp (by decide),
      isOrdinary_of_stands hrp (by decide)⟩
  | callArgs ht hlp _ hrp ih =>
    simp only [List.mem_cons, List.mem_append, List.not_mem_nil, or_false, forall_eq_or_imp]
    refine ⟨isOrdinary_of_stands ht (by decide), isOrdinary_of_stands hlp (by decide), ?_⟩
    rintro t (ht | rfl)
    · exact ih trivial t ht
    · exact isOrdinary_of_stands hrp (by decide)
  | parens hlp _ hrp ih =>
    simp only [List.mem_cons, List.mem_append, List.not_mem_nil, or_false, forall_eq_or_imp]
    refine ⟨isOrdinary_of_stands hlp (by decide), ?_⟩
    rintro t (ht | rfl)
    · exact ih trivial t ht
    · exact isOrdinary_of_stands hrp (by decide)
  | argsOne _ ih => exact ih trivial
  | argsMore _ hc _ ih ihs =>
    intro t ht
    rcases List.mem_append.mp ht with ht | ht
    · exact ih trivial t ht
    · rcases List.mem_cons.mp ht with rfl | ht
      · exact isOrdinary_of_stands hc (by decide)
      · exact ihs trivial t ht
  | _ => exact hp.elim

/-- The terminals of literals. -/
def literalTerminals : List Terminal := [.number, .string, .char, .litTrue, .litFalse]

theorem stands_of_literal {t : Token} {r : Except Fault Literal} (h : literalOf? t = some r) :
    ∃ x ∈ literalTerminals, t.Stands x := by
  unfold Token.Stands Terminal.ofToken?
  unfold literalOf? at h
  cases hk : t.kind <;> rw [hk] at h <;> simp only at h <;> try cases h
  case bool =>
    simp only [beq_iff_eq, Option.some.injEq]
    split <;> exact ⟨_, by decide, rfl⟩
  all_goals exact ⟨_, by decide, rfl⟩

/-- The terminals an expression starts with. -/
def expressionStarts : List Terminal := .name :: .unaryOp :: .lpar :: literalTerminals

theorem Spells.startsInline {d : Nat} {p : Phrase} {ts : List Token} {ns : List Node} (h : Spells d p ts ns)
    (hp : p.isInline) : ∃ t rest x, ts = t :: rest ∧ x ∈ expressionStarts ∧ t.Stands x := by
  induction h with
  | lift _ _ ih => exact ih trivial
  | binary _ _ _ _ ihl _ =>
    obtain ⟨t, rest, x, rfl, hx, ht⟩ := ihl trivial
    exact ⟨t, _, x, rfl, hx, ht⟩
  | unary hop _ _ => exact ⟨_, _, _, rfl, by decide, hop⟩
  | literal hv =>
    obtain ⟨x, hx, ht⟩ := stands_of_literal hv
    exact ⟨_, _, x, rfl, List.mem_cons_of_mem _ (List.mem_cons_of_mem _ (List.mem_cons_of_mem _ hx)), ht⟩
  | identifier ht => exact ⟨_, _, _, rfl, by decide, ht⟩
  | callPlain ht _ _ => exact ⟨_, _, _, rfl, by decide, ht⟩
  | callArgs ht _ _ _ _ => exact ⟨_, _, _, rfl, by decide, ht⟩
  | parens hlp _ _ _ => exact ⟨_, _, _, rfl, by decide, hlp⟩
  | argsOne _ ih => exact ih trivial
  | argsMore _ _ _ ih _ =>
    obtain ⟨t, rest, x, rfl, hx, ht⟩ := ih trivial
    exact ⟨t, _, x, rfl, hx, ht⟩
  | _ => exact hp.elim

/-- The terminals a statement starts with. -/
def statementStarts : List Terminal := [.name, .kwIf, .kwWhile, .kwReturn, .kwDisplay]

/-- A phrase is not empty; a statement starts with one of a few terminals, and its node is placed there. -/
theorem Spells.starts {d : Nat} {p : Phrase} {ts : List Token} {ns : List Node} (h : Spells d p ts ns) :
    ∃ t rest, ts = t :: rest ∧ (p = .statement ∨ p = .statements →
      (∃ x ∈ statementStarts, t.Stands x) ∧ ∃ n others, ns = n :: others ∧ n.position? = some t.place) := by
  induction h with
  | lift _ _ ih =>
    obtain ⟨t, rest, rfl, -⟩ := ih
    exact ⟨t, rest, rfl, by simp⟩
  | binary _ _ _ _ ihl _ =>
    obtain ⟨t, rest, rfl, -⟩ := ihl
    exact ⟨t, _, rfl, by simp⟩
  | argsOne _ ih =>
    obtain ⟨t, rest, rfl, -⟩ := ih
    exact ⟨t, rest, rfl, by simp⟩
  | argsMore _ _ _ ih _ =>
    obtain ⟨t, rest, rfl, -⟩ := ih
    exact ⟨t, _, rfl, by simp⟩
  | varDeclPlain ht _ _ => exact ⟨_, _, rfl, fun _ => ⟨⟨_, by decide, ht⟩, _, _, rfl, rfl⟩⟩
  | varDeclInit ht _ _ _ _ _ => exact ⟨_, _, rfl, fun _ => ⟨⟨_, by decide, ht⟩, _, _, rfl, rfl⟩⟩
  | assignment hn _ _ _ _ => exact ⟨_, _, rfl, fun _ => ⟨⟨_, by decide, hn⟩, _, _, rfl, rfl⟩⟩
  | returnPlain hk _ => exact ⟨_, _, rfl, fun _ => ⟨⟨_, by decide, hk⟩, _, _, rfl, rfl⟩⟩
  | returnValue hk _ _ _ => exact ⟨_, _, rfl, fun _ => ⟨⟨_, by decide, hk⟩, _, _, rfl, rfl⟩⟩
  | display hk _ _ _ => exact ⟨_, _, rfl, fun _ => ⟨⟨_, by decide, hk⟩, _, _, rfl, rfl⟩⟩
  | guarded hk hx _ _ _ _ =>
    refine ⟨_, _, rfl, fun _ => ?_⟩
    unfold guardOf? at hx
    split at hx
    · obtain rfl := Option.some.inj hx
      exact ⟨⟨_, by decide, hk⟩, _, _, rfl, rfl⟩
    · obtain rfl := Option.some.inj hx
      exact ⟨⟨_, by decide, hk⟩, _, _, rfl, rfl⟩
    · cases hx
  | function hn _ _ _ _ _ _ => exact ⟨_, _, rfl, fun _ => ⟨⟨_, by decide, hn⟩, _, _, rfl, rfl⟩⟩
  | one _ ih =>
    obtain ⟨t, rest, rfl, hs⟩ := ih
    exact ⟨t, rest, rfl, fun _ => hs (Or.inl rfl)⟩
  | more _ _ ih _ =>
    obtain ⟨t, rest, rfl, hs⟩ := ih
    obtain ⟨hx, n', others, heq, hpos⟩ := hs (Or.inl rfl)
    obtain ⟨rfl, rfl⟩ := List.cons.inj heq
    exact ⟨t, _, rfl, fun _ => ⟨hx, _, _, rfl, hpos⟩⟩
  | _ => exact ⟨_, _, rfl, by simp⟩

end Parse

end TillLang
