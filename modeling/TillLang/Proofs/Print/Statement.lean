/-
  TillLang.Proofs.Print.Statement — the lines of a statement spell the statement.

  What a line says is written piece by piece, and laid at its level; a block is laid under its
  header, and statements after one another. By induction on a statement in its place, its lines
  have tokens that spell it (`printedAs_of_placed`).
-/

import TillLang.Proofs.Print.Expression
import TillLang.Proofs.Print.Layout

namespace TillLang.Print

open Token (Writes Bounded Anything IsName Then Between)
open Parse (Spells SpellsParams SpellsParamList SpellsReturns layerCount)
open Syntax
open Node (bares)
open Grammar (Terminal)

variable {form : Literal → Literal} {lit : Literal → Prop} {level : Nat} {P Q : List Token → Prop}

/-! ## Pieces of lines -/

theorem opens_of_isName {name : String} (h : IsName name) : Opens name.toList := by
  obtain ⟨c, body, hname, hc, -⟩ := h.letters
  have hword := Token.isWordChar_of_isWordStart hc
  exact ⟨c, body, hname, Token.ne_of_isWordChar hword (by decide), Token.ne_of_isWordChar hword (by decide)⟩

/-- The keywords that start a line. -/
def keywords : List (String × Terminal) :=
  [("if", .kwIf), ("while", .kwWhile), ("return", .kwReturn), ("display", .kwDisplay)]

theorem writes_lineStart (word : String) (x : Terminal) (h : (word, x) ∈ keywords) :
    Opens word.toList ∧ Writes Bounded word.toList fun ts => ∃ t : Token, ts = [t] ∧ t.Stands x := by
  simp only [keywords, List.mem_cons, List.not_mem_nil, or_false, Prod.mk.injEq] at h
  rcases h with ⟨rfl, rfl⟩ | ⟨rfl, rfl⟩ | ⟨rfl, rfl⟩ | ⟨rfl, rfl⟩ <;>
    exact ⟨⟨_, _, rfl, by decide⟩,
      Token.writes_keyword ⟨_, _, rfl, by decide, List.all_eq_true.mp (by decide)⟩ (by decide) rfl⟩

/-- A token of a kind and then tokens with a property. -/
def Led (x : Terminal) (P : List Token → Prop) (ts : List Token) : Prop := ∃ t us, ts = t :: us ∧ t.Stands x ∧ P us

/-- A keyword and what it is about. -/
theorem writes_after (word : String) {text : String} (x : Terminal)
    (hword : (word, x) ∈ keywords) (h : Writes Bounded text.toList P) :
    Opens (word ++ " " ++ text).toList ∧ Writes Bounded (word ++ " " ++ text).toList (Led x P) := by
  obtain ⟨hopens, hwrites⟩ := writes_lineStart word x hword
  rw [String.toList_append, String.toList_append, List.append_assoc]
  refine ⟨hopens.append _, (hwrites.append h.spaceBefore fun _ _ => bounded_space _).imp ?_⟩
  rintro _ ⟨_, us, rfl, ⟨t, rfl, ht⟩, hus⟩
  exact ⟨t, us, rfl, ht, hus⟩

/-- A type and a name. -/
def Typed (type name : String) (ts : List Token) : Prop :=
  ∃ t u : Token, ts = [t, u] ∧ t.Stands .name ∧ t.lexeme = type ∧ u.Stands .name ∧ u.lexeme = name

theorem writes_typed {type name : String} (ht : IsName type) (hn : IsName name) :
    Writes Bounded (type ++ " " ++ name).toList (Typed type name) := by
  rw [String.toList_append, String.toList_append, List.append_assoc]
  refine (ht.writes.append hn.writes.spaceBefore fun _ _ => bounded_space _).imp ?_
  rintro _ ⟨_, _, rfl, ⟨t, rfl, htype, rfl⟩, u, rfl, hname, rfl⟩
  exact ⟨t, u, rfl, htype, rfl, hname, rfl⟩

/-- What is given a value and then the value. -/
theorem writes_given {left text : String} (hl : Writes Bounded left.toList P) (h : Writes Bounded text.toList Q) :
    Writes Bounded (left ++ " = " ++ text).toList (Then P (Led .assign Q)) := by
  have hsplit : (left ++ " = " ++ text).toList = left.toList ++ (' ' :: ("=".toList ++ [' ']) ++ text.toList) := by
    simp [String.toList_append]
  rw [hsplit]
  have hequals := Token.writes_spacedOp "=" .assign (by decide) rfl
  refine (hl.append (hequals.append h fun _ _ => trivial) fun _ _ => bounded_space _).imp ?_
  rintro _ ⟨ts, _, rfl, hts, _, us, rfl, ⟨t, rfl, ht, -⟩, hus⟩
  exact ⟨ts, t :: us, rfl, hts, t, us, rfl, ht, hus⟩

/-! ## Headers of functions -/

/-- Tokens spell a parameter, up to positions. -/
def SpellsParam (form : Literal → Literal) (param : Node) (ts : List Token) : Prop :=
  ∃ type name : Token, ts = [type, name] ∧ type.Stands .name ∧ name.Stands .name ∧
    (Node.param (some type.lexeme) name.lexeme type.place).bare form = param.bare form

theorem Commas.params {params : List Node} {ts : List Token} (h : Commas (SpellsParam form) params ts) :
    ∃ ns, SpellsParamList ts ns ∧ bares form ns = bares form params := by
  suffices ts = [] ∧ params = [] ∨ ∃ ns, SpellsParams ts ns ∧ bares form ns = bares form params by
    obtain ⟨rfl, rfl⟩ | ⟨ns, hns, heq⟩ := this
    · exact ⟨[], .inl ⟨rfl, rfl⟩, rfl⟩
    · exact ⟨ns, .inr hns, heq⟩
  induction h with
  | nil => exact .inl ⟨rfl, rfl⟩
  | one h =>
    obtain ⟨type, name, rfl, ht, hn, heq⟩ := h
    exact .inr ⟨_, .one ht hn, by simp only [bares, heq]⟩
  | more h hc _ ih =>
    obtain ⟨type, name, rfl, ht, hn, heq⟩ := h
    obtain ⟨-, hnil⟩ | ⟨ns, hns, heqs⟩ := ih
    · cases hnil
    · exact .inr ⟨_, .more ht hn hc hns, by simp only [bares, heq] at heqs ⊢; rw [heqs]⟩

variable (form) in
/-- The parameters of a function are written as they are spelled. -/
theorem printParams_writes {params : List Node} (h : ∀ param ∈ params, Placed lit IsName .parameter param) :
    ∃ texts, params.mapM printParam = .ok texts ∧
      Writes Bounded (", ".intercalate texts).toList (Commas (SpellsParam form) params) := by
  suffices ∃ texts, params.mapM printParam = .ok texts ∧
      List.Forall₂ (fun param text => Writes Bounded text.toList (SpellsParam form param)) params texts by
    obtain ⟨texts, htexts, hwrites⟩ := this
    exact ⟨texts, htexts, writes_commas hwrites⟩
  induction params with
  | nil => exact ⟨[], rfl, .nil⟩
  | cons param params ih =>
    obtain ⟨hparam, h⟩ := List.forall_mem_cons.mp h
    obtain ⟨texts, htexts, hmore⟩ := ih h
    cases hparam with
    | @param type name _ ht hn =>
      refine ⟨(type ++ " " ++ name) :: texts, ?_, .cons ((writes_typed ht hn).imp ?_) hmore⟩
      · rw [List.mapM_cons, htexts]
        rfl
      · rintro _ ⟨t, u, rfl, htype, rfl, hname, rfl⟩
        exact ⟨t, u, rfl, htype, hname, rfl⟩

/-- The tokens of the header of a function. -/
def SpellsHeader (form : Literal → Literal) (name : String) (params : List Node) (returns : Option String)
    (ts : List Token) : Prop :=
  ∃ t lp ps rp rs ns, ts = t :: lp :: (ps ++ rp :: rs) ∧ t.Stands .name ∧ t.lexeme = name ∧ lp.Stands .lpar ∧
    SpellsParamList ps ns ∧ bares form ns = bares form params ∧ rp.Stands .rpar ∧ SpellsReturns rs returns

/-- The return type of a function, if it has one. -/
theorem writes_returns {text : String} (h : Writes Anything text.toList P) {returns : Option String}
    (hr : ∀ type, returns = some type → IsName type) :
    Writes Bounded (match returns with | some type => text ++ " -> " ++ type | none => text).toList
      (Then P fun ts => SpellsReturns ts returns) := by
  cases returns with
  | none => exact h.anywhere.imp fun ts hts => ⟨ts, [], by simp, hts, .none⟩
  | some type =>
    have hsplit : (text ++ " -> " ++ type).toList = text.toList ++ (' ' :: ("->".toList ++ [' ']) ++ type.toList) := by
      simp [String.toList_append]
    simp only [hsplit]
    have harrow := Token.writes_spacedOp "->" .arrow (by decide) rfl
    refine (h.append (harrow.append (hr type rfl).writes fun _ _ => trivial) fun _ _ => trivial).imp ?_
    rintro _ ⟨ts, _, rfl, hts, _, _, rfl, ⟨a, rfl, ha, -⟩, u, rfl, hu, rfl⟩
    exact ⟨ts, [a, u], rfl, hts, .some ha hu⟩

variable (form) in
theorem printHeader_writes {name : String} {params : List Node} {returns : Option String} (hn : IsName name)
    (hp : ∀ param ∈ params, Placed lit IsName .parameter param) (hr : ∀ type, returns = some type → IsName type) :
    ∃ text, printHeader name params returns = .ok text ∧ Opens text.toList ∧
      Writes Bounded text.toList (SpellsHeader form name params returns) := by
  obtain ⟨texts, htexts, hwrites⟩ := printParams_writes form hp
  have hsplit : (name ++ "(" ++ ", ".intercalate texts ++ ")").toList =
      name.toList ++ '(' :: ((", ".intercalate texts).toList ++ [')']) := by
    simp [String.toList_append]
  have hname : Writes Anything (name ++ "(" ++ ", ".intercalate texts ++ ")").toList
      (Then (fun ts => ∃ t : Token, ts = [t] ∧ t.Stands .name ∧ t.lexeme = name)
        (Between (Commas (SpellsParam form) params))) := by
    rw [hsplit]
    exact hn.writes.append hwrites.parens fun _ _ => Token.bounded_of_head (by decide)
  refine ⟨_, by rw [printHeader, htexts]; rfl, ?_, (writes_returns hname hr).imp ?_⟩
  · cases returns with
    | none => simpa only [hsplit] using (opens_of_isName hn).append _
    | some type =>
      simp only [String.toList_append, List.append_assoc]
      exact (opens_of_isName hn).append _
  · rintro _ ⟨_, rs, rfl, ⟨_, _, rfl, ⟨t, rfl, ht, hl⟩, lp, ps, rp, rfl, hlp, hps, hrp⟩, hrs⟩
    obtain ⟨ns, hns, heq⟩ := hps.params
    exact ⟨t, lp, ps, rp, rs, ns, by simp, ht, hl, hlp, hns, heq, hrp, hrs⟩

/-! ## Statements -/

/-- Tokens spell a statement, up to positions. -/
def SpellsStatement (form : Literal → Literal) (n : Node) (ts : List Token) : Prop :=
  ∃ n', Spells (depthOf n) .statement ts [n'] ∧ n'.bare form = n.bare form

/-- Tokens spell statements, up to positions. -/
def SpellsStatements (form : Literal → Literal) (ns : List Node) (ts : List Token) : Prop :=
  ∃ ns', Spells (depthsOf ns) .statements ts ns' ∧ bares form ns' = bares form ns

/-- A statement has lines at every level. -/
def Laid (form : Literal → Literal) (n : Node) : Prop :=
  ∀ level, ∃ lines, printStatement level n = .ok lines ∧ Lays level lines (SpellsStatement form n)

/-- A block has lines at every level. -/
def LaidBlock (form : Literal → Literal) (n : Node) : Prop :=
  ∃ statements position, n = .block statements position ∧
    ∀ level, ∃ lines, printStatements level statements = .ok lines ∧ Lays level lines (SpellsStatements form statements)

theorem laid_statements {ns : List Node} (hne : ns ≠ []) (h : ∀ n ∈ ns, Laid form n) (level : Nat) :
    ∃ lines, printStatements level ns = .ok lines ∧ Lays level lines (SpellsStatements form ns) := by
  induction ns with
  | nil => exact absurd rfl hne
  | cons n ns ih =>
    obtain ⟨hn, hns⟩ := List.forall_mem_cons.mp h
    obtain ⟨first, hfirst, hlays⟩ := hn level
    cases ns with
    | nil =>
      refine ⟨first, by simp [printStatements, hfirst], hlays.imp ?_⟩
      rintro ts ⟨n', hn', heq⟩
      exact ⟨[n'], .one (hn'.mono (by simp [depthsOf])), by simp only [bares, heq]⟩
    | cons m ns =>
      obtain ⟨others, hothers, hmore⟩ := ih (by simp) hns
      refine ⟨first ++ others, ?_, (hlays.append hmore).imp ?_⟩
      · rw [printStatements, hfirst, hothers]
        rfl
      · rintro _ ⟨ts, us, rfl, ⟨n', hn', heq⟩, ns', hns', heqs⟩
        refine ⟨n' :: ns', .more (hn'.mono (Nat.le_max_left _ _)) (hns'.mono (Nat.le_max_right _ _)), ?_⟩
        rw [bares, heq, heqs]
        rfl

theorem LaidBlock.lines {n : Node} (h : LaidBlock form n) (level : Nat) :
    ∃ lines, printBlock level n = .ok lines ∧ Lays level lines fun ts =>
      ∀ {eol ind ded : Token}, eol.Stands .newline → ind.Stands .indent → ded.Stands .dedent →
        ∃ n', Spells (depthOf n) .block (eol :: ind :: (ts ++ [ded])) [n'] ∧ n'.bare form = n.bare form := by
  obtain ⟨statements, position, rfl, h⟩ := h
  obtain ⟨lines, hlines, hlays⟩ := h level
  refine ⟨lines, hlines, hlays.imp ?_⟩
  rintro ts ⟨ns, hns, heq⟩ eol ind ded heol hind hded
  obtain ⟨_, _, -, hstarts⟩ := hns.starts
  obtain ⟨-, m, ms, rfl, -⟩ := hstarts (.inr rfl)
  exact ⟨_, .block heol hind hns hded, by rw [Node.bare, Node.bare, heq]⟩

section Statements

variable {position : Option Position}

attribute [local simp] printStatement

/-- A statement on a line of its own. -/
theorem laid_line {n : Node} {text : String} (hprint : ∀ level, printStatement level n = .ok [pad level ++ text])
    (ho : Opens text.toList) (hw : Writes Bounded text.toList P)
    (hspells : ∀ ts eol, P ts → eol.Stands .newline → SpellsStatement form n (ts ++ [eol])) : Laid form n := by
  intro level
  refine ⟨_, hprint level, (lays_line hw ho).imp ?_⟩
  rintro _ ⟨ts, eol, rfl, hts, heol⟩
  exact hspells ts eol hts heol

/-- A statement with a header and a block. -/
theorem laid_headed {n body : Node} {text : String} (hb : LaidBlock form body)
    (hprint : ∀ level lines, printBlock (level + 1) body = .ok lines →
      printStatement level n = .ok ((pad level ++ text) :: lines))
    (ho : Opens text.toList) (hw : Writes Bounded text.toList P)
    (hspells : ∀ ts us b, P ts → Spells (depthOf body) .block us [b] → b.bare form = body.bare form →
      SpellsStatement form n (ts ++ us)) : Laid form n := by
  intro level
  obtain ⟨lines, hlines, hlays⟩ := hb.lines (level + 1)
  refine ⟨_, hprint level lines hlines, (hlays.block hw ho).imp ?_⟩
  rintro _ ⟨ts, eol, ind, us, ded, rfl, hts, heol, hind, hus, hded⟩
  obtain ⟨b, hb, heq⟩ := hus heol hind hded
  exact hspells ts _ b hts hb heq

theorem laid_varDecl {type name : String} (ht : IsName type) (hn : IsName name) :
    Laid form (.varDecl (some type) name .absent position) := by
  refine laid_line (fun level => by simp [String.append_assoc]) ?_ (writes_typed ht hn) ?_
  · rw [String.append_assoc, String.toList_append]
    exact (opens_of_isName ht).append _
  · rintro _ eol ⟨t, u, rfl, htype, rfl, hname, rfl⟩ heol
    exact ⟨_, .varDeclPlain htype hname heol, rfl⟩

theorem laid_varInit {type name : String} {initializer : Node} (ht : IsName type) (hn : IsName name)
    (hplaced : initializer.isAbsent = false) (h : Printed form initializer) :
    Laid form (.varDecl (some type) name initializer position) := by
  obtain ⟨text, htext, hwrites⟩ := h.whole
  have hprint : ∀ level, printStatement level (.varDecl (some type) name initializer position) =
      .ok [pad level ++ (type ++ " " ++ name ++ " = " ++ text)] := fun level => by
    cases initializer with
    | absent => cases hplaced
    | _ => simp [htext, String.append_assoc]
  refine laid_line hprint ?_ (writes_given (writes_typed ht hn) hwrites) ?_
  · simp only [String.toList_append, List.append_assoc]
    exact (opens_of_isName ht).append _
  · rintro _ eol ⟨_, _, rfl, ⟨t, u, rfl, htype, rfl, hname, rfl⟩, q, us, rfl, hq, n, hn, heq⟩ heol
    exact ⟨_, .varDeclInit htype hname hq hn heol, by rw [Node.bare, Node.bare, heq]⟩

theorem laid_assignment {name : String} {value : Node} (hn : IsName name) (h : Printed form value) :
    Laid form (.assignment name value position) := by
  obtain ⟨text, htext, hwrites⟩ := h.whole
  refine laid_line (fun level => by simp [htext, String.append_assoc]) ?_ (writes_given hn.writes hwrites) ?_
  · simp only [String.toList_append, List.append_assoc]
    exact (opens_of_isName hn).append _
  · rintro _ eol ⟨_, _, rfl, ⟨t, rfl, ht, rfl⟩, q, us, rfl, hq, n, hn, heq⟩ heol
    exact ⟨_, .assignment ht hq hn heol, by rw [Node.bare, Node.bare, heq]⟩

theorem laid_returnPlain : Laid form (.returnStmt .absent position) := by
  obtain ⟨hopens, hwrites⟩ := writes_lineStart "return" .kwReturn (by decide)
  refine laid_line (fun level => by simp) hopens hwrites ?_
  rintro _ eol ⟨t, rfl, ht⟩ heol
  exact ⟨_, .returnPlain ht heol, rfl⟩

theorem laid_returnValue {value : Node} (hplaced : value.isAbsent = false) (h : Printed form value) :
    Laid form (.returnStmt value position) := by
  obtain ⟨text, htext, hwrites⟩ := h.whole
  obtain ⟨hopens, hwrites⟩ := writes_after "return" .kwReturn (by decide) hwrites
  have hprint :
    ∀ level, printStatement level (.returnStmt value position) = .ok [pad level ++ ("return" ++ " " ++ text)] :=
    fun level => by
      cases value with
      | absent => cases hplaced
      | _ => simp [htext, ← String.append_assoc]
  refine laid_line hprint hopens hwrites ?_
  rintro _ eol ⟨t, us, rfl, ht, n, hn, heq⟩ heol
  exact ⟨_, .returnValue ht hn heol, by rw [Node.bare, Node.bare, heq]⟩

theorem laid_display {value : Node} (h : Printed form value) : Laid form (.display value position) := by
  obtain ⟨text, htext, hwrites⟩ := h.whole
  obtain ⟨hopens, hwrites⟩ := writes_after "display" .kwDisplay (by decide) hwrites
  refine laid_line (fun level => by simp [htext, String.append_assoc]) hopens hwrites ?_
  rintro _ eol ⟨t, us, rfl, ht, n, hn, heq⟩ heol
  exact ⟨_, .display ht hn heol, by rw [Node.bare, Node.bare, heq]⟩

theorem laid_ifStmt {condition body : Node} (hc : Printed form condition) (hb : LaidBlock form body) :
    Laid form (.ifStmt condition body position) := by
  obtain ⟨text, htext, hwrites⟩ := hc.whole
  obtain ⟨hopens, hwrites⟩ := writes_after "if" .kwIf (by decide) hwrites
  refine laid_headed hb (fun level lines hlines => ?_) hopens hwrites ?_
  · simp [htext, hlines, String.append_assoc]
  · rintro _ us b ⟨t, ts, rfl, ht, n, hn, heq⟩ hb heqb
    refine ⟨.ifStmt n b t.place, .guarded ht rfl (hn.mono ?_) (hb.mono ?_), by rw [Node.bare, Node.bare, heq, heqb]⟩
    · exact Nat.le_max_left _ _
    · exact Nat.le_max_right _ _

theorem laid_whileStmt {condition body : Node} (hc : Printed form condition) (hb : LaidBlock form body) :
    Laid form (.whileStmt condition body position) := by
  obtain ⟨text, htext, hwrites⟩ := hc.whole
  obtain ⟨hopens, hwrites⟩ := writes_after "while" .kwWhile (by decide) hwrites
  refine laid_headed hb (fun level lines hlines => ?_) hopens hwrites ?_
  · simp [htext, hlines, String.append_assoc]
  · rintro _ us b ⟨t, ts, rfl, ht, n, hn, heq⟩ hb heqb
    refine ⟨.whileStmt n b t.place, .guarded ht rfl (hn.mono ?_) (hb.mono ?_), by rw [Node.bare, Node.bare, heq, heqb]⟩
    · exact Nat.le_max_left _ _
    · exact Nat.le_max_right _ _

theorem laid_function {name : String} {params : List Node} {returns : Option String} {body : Node} (hn : IsName name)
    (hp : ∀ param ∈ params, Placed lit IsName .parameter param) (hr : ∀ type, returns = some type → IsName type)
    (hb : LaidBlock form body) : Laid form (.function name params returns body position) := by
  obtain ⟨text, htext, hopens, hwrites⟩ := printHeader_writes form hn hp hr
  refine laid_headed hb (fun level lines hlines => ?_) hopens hwrites ?_
  · simp [htext, hlines]
  · rintro _ us b ⟨t, lp, ps, rp, rs, ns, rfl, ht, rfl, hlp, hps, heq, hrp, hrs⟩ hb heqb
    refine ⟨.function t.lexeme ns returns b t.place, ?_, by rw [Node.bare, Node.bare, heq, heqb]⟩
    simp only [List.cons_append, List.append_assoc]
    exact .function ht hlp hps hrp hrs hb

end Statements

/-- What a node in its place is printed as. -/
def PrintedAs (form : Literal → Literal) : Place → Node → Prop
  | .expression, n => Printed form n
  | .parameter, _ => True
  | .statement, n => Laid form n
  | .block, n => LaidBlock form n

theorem printedAs_of_placed (hlit : ∀ v, lit v → Legible form v) {place : Place} {n : Node}
    (h : Placed lit IsName place n) : PrintedAs form place n := by
  induction h with
  | literal hv => exact printed_literal (hlit _ hv)
  | identifier hn => exact printed_identifier hn
  | unary hop _ ih => exact printed_unary hop ih
  | binary hop _ _ ihl ihr => exact printed_binary hop ihl ihr
  | call hn _ ih => exact printed_call hn ih
  | param => trivial
  | varDecl ht hn => exact laid_varDecl ht hn
  | varInit ht hn h ih => exact laid_varInit ht hn h.not_absent ih
  | assignment hn _ ih => exact laid_assignment hn ih
  | returnPlain => exact laid_returnPlain
  | returnValue h ih => exact laid_returnValue h.not_absent ih
  | display _ ih => exact laid_display ih
  | ifStmt _ _ ihc ihb => exact laid_ifStmt ihc ihb
  | whileStmt _ _ ihc ihb => exact laid_whileStmt ihc ihb
  | function hn hp hr _ _ ihb => exact laid_function hn hp hr ihb
  | block hne _ ih => exact ⟨_, _, rfl, laid_statements hne ih⟩

/-- The text of statements in their places has tokens that spell them. -/
theorem printBody_spells (hlit : ∀ v, lit v → Legible form v) {body : List Node}
    (h : ∀ n ∈ body, Placed lit IsName .statement n) :
    ∃ text tokens body', printBody body = .ok text ∧ tokenize text = .ok tokens ∧
      Parse.SpellsProgram (depthsOf body) tokens body' ∧ bares form body' = bares form body := by
  by_cases hne : body = []
  · subst hne
    exact ⟨"", _, [], rfl, rfl, ⟨[], _, rfl, rfl, .inl ⟨rfl, rfl⟩⟩, rfl⟩
  · obtain ⟨lines, hlines, hlays⟩ := laid_statements hne (fun n hn => printedAs_of_placed hlit (h n hn)) 0
    obtain ⟨ts, last, htokens, ⟨body', hbody', heq⟩, hlast⟩ := tokenize_lays hlays
    exact ⟨_, _, body', by rw [printBody, hlines]; rfl, htokens, ⟨ts, last, rfl, hlast, .inr hbody'⟩, heq⟩

end TillLang.Print
