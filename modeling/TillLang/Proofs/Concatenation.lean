/-
  TillLang.Proofs.Concatenation — two texts one after the other.

  A text that is parsed closes every parenthesis that it opens, since no phrase holds one without
  the other (`Spells.level`), and it opens no block in front of its first statement. So behind a
  text that ends with a line break the lexer has nothing open but blocks, and the next text closes
  them as the end of the first one did. What its tokens spell is put behind what was spelled before
  (`SpellsProgram.append`): the two texts together are parsed to the statements of both
  (`parse_concatenation`).
-/

import TillLang.Proofs.Parse.Relocated
import TillLang.Proofs.Token.Seam

namespace TillLang

open Grammar (Terminal)
open Node (bares nestingLimit)
open Token (parens parensAfter)

/-! ## Parentheses of a phrase -/

namespace Token

variable {t : Token} {x : Terminal} {ts us : List Token}

/-- The parentheses themselves. -/
def isParen : Terminal → Bool
  | .lpar | .rpar => true
  | _ => false

theorem parens_of_stands (h : t.Stands x) (hx : isParen x = false) (depth : Nat) : parens depth t = depth := by
  rw [parens, h]
  cases x <;> first | rfl | cases hx

/-- Tokens that leave as many parentheses open as were open in front of them. -/
def Level (ts : List Token) : Prop := ∀ depth, parensAfter depth ts = depth

theorem level_nil : Level [] := fun _ => rfl

theorem Level.append (h : Level ts) (h' : Level us) : Level (ts ++ us) := fun depth => by
  rw [parensAfter_append, h, h']

theorem Level.cons (h : t.Stands x) (hx : isParen x = false) (hts : Level ts) : Level (t :: ts) := fun depth => by
  rw [parensAfter_cons, parens_of_stands h hx, hts]

/-- A parenthesis and the one that closes it. -/
theorem Level.enclosed {lp rp : Token} (hlp : lp.Stands .lpar) (h : Level ts) (hrp : rp.Stands .rpar) (hus : Level us) :
    Level (lp :: (ts ++ rp :: us)) := fun depth => by
  have hopen : parens depth lp = depth + 1 := by rw [parens, hlp]
  have hclose : parens (depth + 1) rp = depth := by
    rw [parens, hrp]
    rfl
  rw [parensAfter_cons, parensAfter_append, parensAfter_cons, hopen, h, hclose, hus]

end Token

namespace Parse

open Token (Level isParen level_nil)

variable {d : Nat} {ts us : List Token} {ns ms : List Node}

theorem isParen_operatorAt (k : Nat) : isParen (operatorAt k) = false := by
  unfold operatorAt
  split <;> rfl

theorem level_of_literal {t : Token} {r : Except Fault Literal} (h : literalOf? t = some r) : Level [t] := by
  obtain ⟨x, hx, ht⟩ := stands_of_literal h
  have hnone : ∀ x ∈ literalTerminals, isParen x = false := by decide
  exact .cons ht (hnone x hx) level_nil

theorem SpellsParams.level (h : SpellsParams ts ns) : Level ts := by
  induction h with
  | one ht hn => exact .cons ht rfl (.cons hn rfl level_nil)
  | more ht hn hc _ ih => exact .cons ht rfl (.cons hn rfl (.cons hc rfl ih))

theorem SpellsParamList.level (h : SpellsParamList ts ns) : Level ts := by
  rcases h with ⟨rfl, -⟩ | h
  · exact level_nil
  · exact h.level

theorem SpellsReturns.level {returns : Option String} (h : SpellsReturns ts returns) : Level ts := by
  cases h with
  | none => exact level_nil
  | some ha ht => exact .cons ha rfl (.cons ht rfl level_nil)

theorem isParen_of_guard {x : Terminal} {build : Node → Node → Option Position → Node} (h : guardOf? x = some build) :
    isParen x = false := by
  cases x <;> first | rfl | cases h

/-- A phrase closes every parenthesis that it opens. -/
theorem Spells.level {p : Phrase} (h : Spells d p ts ns) : Level ts := by
  induction h with
  | lift _ _ ih => exact ih
  | binary _ _ hop _ ihl ihr => exact ihl.append (.cons hop (isParen_operatorAt _) ihr)
  | unary hop _ ih => exact .cons hop rfl ih
  | literal hv => exact level_of_literal hv
  | identifier ht => exact .cons ht rfl level_nil
  | callPlain ht hlp hrp => exact .cons ht rfl (.enclosed hlp level_nil hrp level_nil)
  | callArgs ht hlp _ hrp ih => exact .cons ht rfl (.enclosed hlp ih hrp level_nil)
  | parens hlp _ hrp ih => exact .enclosed hlp ih hrp level_nil
  | argsOne _ ih => exact ih
  | argsMore _ hc _ ih ihs => exact ih.append (.cons hc rfl ihs)
  | varDeclPlain ht hn he => exact .cons ht rfl (.cons hn rfl (.cons he rfl level_nil))
  | varDeclInit ht hn hq _ he ih =>
      exact .cons ht rfl (.cons hn rfl (.cons hq rfl (ih.append (.cons he rfl level_nil))))
  | assignment hn hq _ he ih => exact .cons hn rfl (.cons hq rfl (ih.append (.cons he rfl level_nil)))
  | returnPlain hk he => exact .cons hk rfl (.cons he rfl level_nil)
  | returnValue hk _ he ih | display hk _ he ih => exact .cons hk rfl (ih.append (.cons he rfl level_nil))
  | guarded hk hx _ _ ih ihb => exact .cons hk (isParen_of_guard hx) (ih.append ihb)
  | function hn hlp hps hrp hrs _ ihb => exact .cons hn rfl (.enclosed hlp hps.level hrp (hrs.level.append ihb))
  | one _ ih => exact ih
  | more _ _ ih ihs => exact ih.append ihs
  | block he hi _ hd ih => exact .cons he rfl (.cons hi rfl (ih.append (.cons hd rfl level_nil)))

theorem SpellsProgram.level (h : SpellsProgram d ts ns) : Level ts := by
  obtain ⟨ts, last, rfl, hlast, hbody⟩ := h
  refine Level.append ?_ (.cons hlast rfl level_nil)
  rcases hbody with ⟨rfl, -⟩ | hbody
  · exact level_nil
  · exact hbody.level

/-! ## Statements after one another -/

theorem Spells.append (h : Spells d .statements ts ns) (h' : Spells d .statements us ms) :
    Spells d .statements (ts ++ us) (ns ++ ms) := by
  generalize hp : Phrase.statements = p at h
  induction h with
  | one h => exact .more h h'
  | more h _ _ ih =>
    rw [List.append_assoc]
    exact .more h (ih h' rfl)
  | _ => cases hp

/-- The end of the first text goes, and the statements of the second come behind those of the first. -/
theorem SpellsProgram.append (h : SpellsProgram d ts ns) (h' : SpellsProgram d us ms) :
    SpellsProgram d (ts.dropLast ++ us) (ns ++ ms) := by
  obtain ⟨ts, last, rfl, -, hbody⟩ := h
  obtain ⟨us, last', rfl, hlast', hbody'⟩ := h'
  rw [List.dropLast_concat, ← List.append_assoc]
  refine ⟨ts ++ us, last', rfl, hlast', ?_⟩
  rcases hbody with ⟨rfl, rfl⟩ | hbody
  · exact hbody'
  rcases hbody' with ⟨rfl, rfl⟩ | hbody'
  · rw [List.append_nil, List.append_nil]
    exact .inr hbody
  · exact .inr (hbody.append hbody')

/-- A program does not start with a block. -/
theorem SpellsProgram.starts (h : SpellsProgram d ts ns) : ∀ t ∈ ts.head?, t.kind ≠ .indent := by
  obtain ⟨ts, last, rfl, hlast, ⟨rfl, -⟩ | hbody⟩ := h
  · rintro t ⟨⟩
    rw [hlast.kind rfl]
    decide
  · obtain ⟨t, rest, rfl, hstart⟩ := hbody.starts
    obtain ⟨⟨x, hx, ht⟩, -⟩ := hstart (.inr rfl)
    rintro u ⟨⟩ hk
    have hindent : x = .indent := ht.unique (by rw [Token.Stands, Terminal.ofToken?, hk])
    rw [hindent] at hx
    exact absurd hx (by decide)

end Parse

/-! ## Texts -/

/-- Parsing respects concatenation: if two texts are parsed, and the first one is empty or ends with a line break, then
the second one behind the first is parsed to the statements of both, up to positions. -/
theorem parse_concatenation {source source' : String} {depth : Nat} {p q : Node}
    (hbreak : source = "" ∨ source.toList.getLast? = some '\n') (hp : parseTo .descent depth source = .ok p)
    (hq : parseTo .descent depth source' = .ok q) :
    ∃ r body body' both, parseTo .descent depth (source ++ source') = .ok r ∧ p.programBody = .ok body ∧
      q.programBody = .ok body' ∧ r.programBody = .ok both ∧ bares id both = bares id body ++ bares id body' := by
  obtain ⟨ts, hts, hstream⟩ := parseTo_ok hp
  obtain ⟨us, hus, hstream'⟩ := parseTo_ok hq
  obtain ⟨body, rfl, hspells⟩ := (Parse.programTo_iff hstream).mp ((parseTo_descent hts).mp hp)
  obtain ⟨body', rfl, hspells'⟩ := (Parse.programTo_iff hstream').mp ((parseTo_descent hus).mp hq)
  obtain ⟨vs, hvs, halike⟩ : ∃ vs, tokenize (source ++ source') = .ok vs ∧ Token.Alike vs (ts.dropLast ++ us) := by
    rcases hbreak with rfl | hbreak
    · cases hts
      exact ⟨us, by rwa [String.empty_append], rfl⟩
    · exact Token.tokenize_seam hbreak hts (hspells.level 0) hus hspells'.starts
  obtain ⟨both, hboth, heq⟩ := (hspells.append hspells').relocated halike
  refine ⟨.program both Parse.programPosition, body, body', both, (parseTo_descent hvs).mpr ?_, rfl, rfl, rfl, ?_⟩
  · exact (Parse.programTo_iff (Token.tokenize_stream hvs)).mpr ⟨both, rfl, hboth⟩
  · rw [heq, Node.bares_eq_map, Node.bares_eq_map, Node.bares_eq_map, List.map_append]

/-- A text that ends inside two blocks, behind a call on two lines. -/
def blockSource : String := "if x\n  y = f(1,\n    (2))\n  while y\n    display y\n"

/-- A text that starts with a blank line and ends inside a block. -/
def tailSource : String := "\n  \ndisplay (y\n)\nif y\n  x = 2"

theorem blockSource_tailSource : blockSource.toList.getLast? = some '\n' ∧ ∃ p q r body body' both,
    parseTo .descent nestingLimit blockSource = .ok p ∧ parseTo .descent nestingLimit tailSource = .ok q ∧
    parseTo .descent nestingLimit (blockSource ++ tailSource) = .ok r ∧ p.programBody = .ok body ∧
    q.programBody = .ok body' ∧ r.programBody = .ok both ∧ bares id both = bares id body ++ bares id body' := by
  have hbreak : blockSource.toList.getLast? = some '\n' := by decide
  obtain ⟨p, hp⟩ := Success.exists_of_isOk (x := parseTo .descent nestingLimit blockSource) (by decide +kernel)
  obtain ⟨q, hq⟩ := Success.exists_of_isOk (x := parseTo .descent nestingLimit tailSource) (by decide +kernel)
  obtain ⟨r, body, body', both, hr, hbodies⟩ := parse_concatenation (.inr hbreak) hp hq
  exact ⟨hbreak, p, q, r, body, body', both, hp, hq, hr, hbodies⟩

end TillLang
