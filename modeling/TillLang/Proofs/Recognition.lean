/-
  TillLang.Proofs.Recognition — the descent recognises exactly the grammar.

  The descent knows nothing of rules and derivations. Still it succeeds on the tokens of a
  source text exactly when their terminals, without the end of the text, are derived from
  the start symbol; there is then one derivation, and the program that the descent returns
  is the one that derivation stands for (`descent_recognises`).
-/

import TillLang.Proofs.Agreement
import TillLang.Proofs.Grammar.Construction

namespace TillLang

open Token (Stream)
open Grammar (Terminal Tree)

/-- A tree is a derivation of a text from the start symbol. -/
def Grammar.Tree.Derives (t : Tree) (text : List (Terminal × Token)) : Prop :=
  t.Valid ∧ t.symbol = .nonterminal .start ∧ t.yield = text

namespace Grammar

/-- A stream without its end is a text of the grammar. -/
theorem terminals_of_stream {tokens : List Token} (hs : Stream tokens) :
    ∃ text last, tokens = text.map Prod.snd ++ [last] ∧ last.Stands .finish ∧ terminals tokens = .ok text ∧
      ∀ p ∈ text, Terminal.ofToken? p.2 = some p.1 ∧ p.1 ≠ .finish := by
  obtain ⟨ts, last, rfl, hk, hts⟩ := hs.ended
  have hlast : last.Stands .finish := by simp [Token.Stands, Terminal.ofToken?, hk]
  obtain ⟨text, htext, hall⟩ : ∃ text : List (Terminal × Token), text.map Prod.snd = ts ∧
      ∀ p ∈ text, Terminal.ofToken? p.2 = some p.1 ∧ p.1 ≠ .finish := by
    have hknown : ∀ t ∈ ts, ∃ x, Terminal.ofToken? t = some x ∧ x ≠ .finish := by
      intro t ht
      obtain ⟨x, hx⟩ := hs.known t (List.mem_append_left _ ht)
      refine ⟨x, hx, ?_⟩
      rintro rfl
      exact hts t ht (Token.Stands.kind hx rfl)
    clear hs hts
    induction ts with
    | nil => exact ⟨[], rfl, by simp⟩
    | cons t ts ih =>
      obtain ⟨text, rfl, hall⟩ := ih fun u hu => hknown u (List.mem_cons_of_mem _ hu)
      obtain ⟨x, hx, hne⟩ := hknown t (by simp)
      exact ⟨(x, t) :: text, rfl, List.forall_mem_cons.mpr ⟨⟨hx, hne⟩, hall⟩⟩
  subst htext
  exact ⟨text, last, rfl, hlast, terminals_append hlast rfl hall, hall⟩

theorem text_of_tokens {text text' : List (Terminal × Token)} (h : ∀ p ∈ text, Terminal.ofToken? p.2 = some p.1)
    (h' : ∀ p ∈ text', Terminal.ofToken? p.2 = some p.1) (heq : text.map Prod.snd = text'.map Prod.snd) :
    text = text' := by
  have hback : ∀ text : List (Terminal × Token), (∀ p ∈ text, Terminal.ofToken? p.2 = some p.1) →
      text.map some = (text.map Prod.snd).map fun t => (Terminal.ofToken? t).map (·, t) := by
    intro text htext
    rw [List.map_map]
    refine List.map_congr_left fun p hp => ?_
    simp [htext p hp]
  have hsome := (hback text h).trans (heq ▸ (hback text' h').symm)
  exact List.map_injective_iff.mpr (fun _ _ => Option.some.inj) hsome

theorem Tree.Derives.unique {t u : Tree} {text : List (Terminal × Token)} (ht : t.Derives text) (hu : u.Derives text) :
    t = u := by
  have htext : ∀ p ∈ text, Terminal.ofToken? p.2 = some p.1 := ht.2.2 ▸ ht.1.ofToken_of_mem
  have h₁ := (accepts_iff table_certified htext).mpr ht
  have h₂ := (accepts_iff table_certified htext).mpr hu
  rw [h₁] at h₂
  exact Outcome.accepted.inj h₂

/-- A derivation over tokens whose literals can be read stands for a program, which its tokens spell. -/
theorem Tree.Derives.spells {t : Tree} {text : List (Terminal × Token)} (h : t.Derives text)
    (hread : ∀ p ∈ text, p.2.Readable) {last : Token} (hlast : last.Stands .finish) :
    ∃ body d, t.program = .ok (.program body Parse.programPosition) ∧
      Parse.SpellsProgram d (text.map Prod.snd ++ [last]) body := by
  obtain ⟨hv, hsym, rfl⟩ := h
  obtain ⟨ps, hps⟩ := hv.hasParts fun u hu => by
    obtain ⟨p, hp, rfl⟩ := List.mem_map.mp hu
    exact hread p hp
  have hm := hv.means (Nat.le_refl t.size) hps
  rw [hsym] at hm
  obtain ⟨body, rfl, hspell⟩ := hm
  exact ⟨body, t.size, Tree.program_ok_iff.mpr hps, t.tokens, last, rfl, hlast, hspell⟩

end Grammar

/-- The descent succeeds on the tokens of a source text exactly when their terminals are derived from the start
symbol. There is then one derivation, and from some depth of nesting on the descent returns the program
that it stands for. -/
theorem descent_recognises {source : String} {tokens : List Token} (h : tokenize source = .ok tokens) :
    ∃ text last, tokens = text.map Prod.snd ++ [last] ∧ last.kind = .eof ∧ Grammar.terminals tokens = .ok text ∧
      ((∃ depth p, Parse.programTo depth tokens = .ok p) ↔ ∃ t : Tree, t.Derives text) ∧
      ∀ t : Tree, t.Derives text → (∀ u : Tree, u.Derives text → u = t) ∧
        ∃ p, t.program = .ok p ∧ (∃ limit, ∀ depth, limit ≤ depth → Parse.programTo depth tokens = .ok p) ∧
          ∀ depth q, Parse.programTo depth tokens = .ok q → q = p := by
  have hs := Token.tokenize_stream h
  obtain ⟨text, last, rfl, hlast, hterminals, htext⟩ := Grammar.terminals_of_stream hs
  have hread : ∀ p ∈ text, p.2.Readable := fun p hp =>
    Token.tokenize_readable h p.2 (List.mem_append_left _ (List.mem_map_of_mem hp))
  refine ⟨text, last, rfl, hlast.kind rfl, hterminals, ⟨?_, ?_⟩, ?_⟩
  · rintro ⟨depth, p, hp⟩
    obtain ⟨body, rfl, hspell⟩ := (Parse.programTo_iff hs).mp hp
    obtain ⟨limit, htable⟩ := Grammar.programTo_of_spells hs hspell
    obtain ⟨t, hv, hsym, htok, -⟩ := (Grammar.programTo_iff hs hlast).mp (htable limit (Nat.le_refl _))
    exact ⟨t, hv, hsym, Grammar.text_of_tokens hv.ofToken_of_mem (fun p hp => (htext p hp).1) htok⟩
  · rintro ⟨t, ht⟩
    obtain ⟨body, d, -, hspell⟩ := ht.spells hread hlast
    exact ⟨d, _, (Parse.programTo_iff hs).mpr ⟨body, rfl, hspell⟩⟩
  · intro t ht
    obtain ⟨body, d, hprogram, hspell⟩ := ht.spells hread hlast
    refine ⟨fun u hu => hu.unique ht, _, hprogram, ⟨d, fun depth hd => ?_⟩, fun depth q hq => ?_⟩
    · exact (Parse.programTo_iff hs).mpr ⟨body, rfl, hspell.mono hd⟩
    · obtain ⟨body', rfl, hspell'⟩ := (Parse.programTo_iff hs).mp hq
      have h₁ := (Parse.programTo_iff hs).mpr ⟨body, rfl, hspell.mono (Nat.le_max_left d depth)⟩
      have h₂ := (Parse.programTo_iff hs).mpr ⟨body', rfl, hspell'.mono (Nat.le_max_right d depth)⟩
      exact Except.ok.inj (h₂.symm.trans h₁)

/-- A text with operators of every layer, prefix operators, parentheses and a call. -/
def operatorsSource : String :=
  "f(Num a, Num b) -> Num\n" ++
  "    return a - b - (a - b)\n" ++
  "if !(~1 + 2 * 3 < 4 == true)\n" ++
  "    display f(1, 2 / 3) + \"x\"\n"

theorem operatorsSource_recognised : ∃ tokens, tokenize operatorsSource = .ok tokens ∧
    (∃ depth p, Parse.programTo depth tokens = .ok p) ∧
    ∃ text, Grammar.terminals tokens = .ok text ∧ ∃ t : Tree, t.Derives text ∧ ∀ u : Tree, u.Derives text → u = t := by
  have hgood : (match tokenize operatorsSource with
      | .ok tokens => (Parse.programTo 20 tokens).isOk
      | .error _ => false) = true := by decide +kernel
  cases htokens : tokenize operatorsSource with
  | error e => simp [htokens] at hgood
  | ok tokens =>
    rw [htokens] at hgood
    have hparse : ∃ depth p, Parse.programTo depth tokens = .ok p := by
      cases hp : Parse.programTo 20 tokens with
      | error e => simp [hp, Except.isOk, Except.toBool] at hgood
      | ok p => exact ⟨20, p, hp⟩
    obtain ⟨text, last, -, -, hterminals, hiff, hderives⟩ := descent_recognises htokens
    obtain ⟨t, ht⟩ := hiff.mp hparse
    exact ⟨tokens, rfl, hparse, text, hterminals, t, ht, (hderives t ht).1⟩

end TillLang
