/-
  TillLang.Proofs.Parse.Relocated — the same tokens in other places.

  What tokens spell depends on their kinds and texts, and the places of tokens show in the positions
  of nodes only. So tokens that say the same as others spell the same trees, up to positions
  (`Spells.relocated`), and two texts with such tokens are parsed alike (`parseTo_relocated`).
-/

import TillLang.Proofs.Agreement
import TillLang.Proofs.Syntax.Bare
import TillLang.Proofs.Token.Lines

namespace TillLang

open Grammar (Terminal)
open Node (bare bares)
open Token (Alike alike_nil alike_cons alike_append content)

/-! ## One token -/

section Token

variable {t u : Token} (h : u.content = t.content)
include h

theorem Token.kind_of_content : u.kind = t.kind := congrArg Prod.fst h

theorem Token.lexeme_of_content : u.lexeme = t.lexeme := congrArg Prod.snd h

theorem Token.Stands.relocated {x : Terminal} (ht : t.Stands x) : u.Stands x := by
  unfold Token.Stands Terminal.ofToken? at ht ⊢
  rwa [Token.kind_of_content h, Token.lexeme_of_content h]

theorem Parse.literalOf_relocated : Parse.literalOf? u = Parse.literalOf? t := by
  unfold Parse.literalOf? Parse.numberOf Parse.textOf
  rw [Token.kind_of_content h, Token.lexeme_of_content h]

end Token

namespace Parse

variable {ts us : List Token} {ns ns' : List Node}

theorem exists_of_bares_cons {n : Node} (h : bares id ns' = bares id (n :: ns)) :
    ∃ n' rest, ns' = n' :: rest ∧ n'.bare id = n.bare id ∧ bares id rest = bares id ns := by
  cases ns' with
  | nil => cases h
  | cons n' rest =>
    obtain ⟨hhead, htail⟩ := List.cons.inj h
    exact ⟨n', rest, rfl, hhead, htail⟩

theorem exists_of_bares_one {n : Node} (h : bares id ns' = bares id [n]) :
    ∃ n', ns' = [n'] ∧ n'.bare id = n.bare id := by
  obtain ⟨n', rest, rfl, hhead, htail⟩ := exists_of_bares_cons h
  cases rest with
  | nil => exact ⟨n', rfl, hhead⟩
  | cons _ _ => cases htail

/-- What holds of a list with the bare form of a single tree holds of a single tree with that form. -/
theorem exists_single {P : List Node → Prop} {n : Node} (h : ∃ ns', P ns' ∧ bares id ns' = bares id [n]) :
    ∃ n', P [n'] ∧ n'.bare id = n.bare id := by
  obtain ⟨ns', hns', heq⟩ := h
  obtain ⟨n', rfl, hn'⟩ := exists_of_bares_one heq
  exact ⟨n', hns', hn'⟩

/-! ## Phrases -/

theorem SpellsParams.relocated (h : SpellsParams ts ns) (hus : Alike us ts) :
    ∃ ns', SpellsParams us ns' ∧ bares id ns' = bares id ns := by
  induction h generalizing us with
  | one ht hn =>
    simp only [alike_cons, alike_nil] at hus
    obtain ⟨type, _, rfl, htype, name, _, rfl, hname, rfl⟩ := hus
    refine ⟨_, .one (ht.relocated htype) (hn.relocated hname), ?_⟩
    simp [bares, bare, Token.lexeme_of_content htype, Token.lexeme_of_content hname]
  | more ht hn hc _ ih =>
    simp only [alike_cons] at hus
    obtain ⟨type, _, rfl, htype, name, _, rfl, hname, comma, us, rfl, hcomma, hus⟩ := hus
    obtain ⟨ns', hns', heq⟩ := ih hus
    refine ⟨_, .more (ht.relocated htype) (hn.relocated hname) (hc.relocated hcomma) hns', ?_⟩
    simp [bares, bare, Token.lexeme_of_content htype, Token.lexeme_of_content hname, heq]

theorem SpellsParamList.relocated (h : SpellsParamList ts ns) (hus : Alike us ts) :
    ∃ ns', SpellsParamList us ns' ∧ bares id ns' = bares id ns := by
  rcases h with ⟨rfl, rfl⟩ | h
  · exact ⟨[], .inl ⟨alike_nil.mp hus, rfl⟩, rfl⟩
  · obtain ⟨ns', hns', heq⟩ := h.relocated hus
    exact ⟨ns', .inr hns', heq⟩

theorem SpellsReturns.relocated {returns : Option String} (h : SpellsReturns ts returns) (hus : Alike us ts) :
    SpellsReturns us returns := by
  cases h with
  | none =>
    obtain rfl := alike_nil.mp hus
    exact .none
  | some ha ht =>
    simp only [alike_cons, alike_nil] at hus
    obtain ⟨arrow, _, rfl, harrow, type, _, rfl, htype, rfl⟩ := hus
    rw [← Token.lexeme_of_content htype]
    exact .some (ha.relocated harrow) (ht.relocated htype)

/-- Tokens that say the same spell the same, up to positions. -/
theorem Spells.relocated {d : Nat} {p : Phrase} (h : Spells d p ts ns) (hus : Alike us ts) :
    ∃ ns', Spells d p us ns' ∧ bares id ns' = bares id ns := by
  induction h generalizing us with
  | lift hk _ ih =>
    obtain ⟨ns', hns', heq⟩ := ih hus
    obtain ⟨n', rfl, -⟩ := exists_of_bares_one heq
    exact ⟨_, .lift hk hns', heq⟩
  | binary hk _ hop _ ihl ihr =>
    simp only [alike_append, alike_cons] at hus
    obtain ⟨ls, _, rfl, hls, op, rs, rfl, hop', hrs⟩ := hus
    obtain ⟨l, hl, hl'⟩ := exists_single (ihl hls)
    obtain ⟨r, hr, hr'⟩ := exists_single (ihr hrs)
    refine ⟨_, .binary hk hl (hop.relocated hop') hr, ?_⟩
    simp [bares, bare, Token.lexeme_of_content hop', hl', hr']
  | unary hop _ ih =>
    obtain ⟨op, us, rfl, hop', hus⟩ := alike_cons.mp hus
    obtain ⟨n, hn, hn'⟩ := exists_single (ih hus)
    refine ⟨_, .unary (hop.relocated hop') hn, ?_⟩
    simp [bares, bare, Token.lexeme_of_content hop', hn']
  | literal hv =>
    simp only [alike_cons, alike_nil] at hus
    obtain ⟨t, _, rfl, ht, rfl⟩ := hus
    exact ⟨_, .literal ((literalOf_relocated ht).trans hv), rfl⟩
  | identifier ht =>
    simp only [alike_cons, alike_nil] at hus
    obtain ⟨t, _, rfl, ht', rfl⟩ := hus
    exact ⟨_, .identifier (ht.relocated ht'), by simp [bares, bare, Token.lexeme_of_content ht']⟩
  | callPlain ht hlp hrp =>
    simp only [alike_cons, alike_nil] at hus
    obtain ⟨t, _, rfl, ht', lp, _, rfl, hlp', rp, _, rfl, hrp', rfl⟩ := hus
    refine ⟨_, .callPlain (ht.relocated ht') (hlp.relocated hlp') (hrp.relocated hrp'), ?_⟩
    simp [bares, bare, Token.lexeme_of_content ht']
  | callArgs ht hlp _ hrp ih =>
    simp only [alike_cons, alike_append, alike_nil] at hus
    obtain ⟨t, _, rfl, ht', lp, _, rfl, hlp', us, _, rfl, hus, rp, _, rfl, hrp', rfl⟩ := hus
    obtain ⟨args, hargs, heq⟩ := ih hus
    refine ⟨_, .callArgs (ht.relocated ht') (hlp.relocated hlp') hargs (hrp.relocated hrp'), ?_⟩
    simp [bares, bare, Token.lexeme_of_content ht', heq]
  | parens hlp _ hrp ih =>
    simp only [alike_cons, alike_append, alike_nil] at hus
    obtain ⟨lp, _, rfl, hlp', us, _, rfl, hus, rp, _, rfl, hrp', rfl⟩ := hus
    obtain ⟨_, hn, heq⟩ := ih hus
    obtain ⟨n, rfl, -⟩ := exists_of_bares_one heq
    exact ⟨_, .parens (hlp.relocated hlp') hn (hrp.relocated hrp'), heq⟩
  | argsOne _ ih =>
    obtain ⟨_, hn, heq⟩ := ih hus
    obtain ⟨n, rfl, -⟩ := exists_of_bares_one heq
    exact ⟨_, .argsOne hn, heq⟩
  | argsMore _ hc _ ih ihs =>
    simp only [alike_append, alike_cons] at hus
    obtain ⟨vs, _, rfl, hvs, comma, us, rfl, hcomma, hus⟩ := hus
    obtain ⟨n, hn, hn'⟩ := exists_single (ih hvs)
    obtain ⟨ns, hns, heqs⟩ := ihs hus
    exact ⟨_, .argsMore hn (hc.relocated hcomma) hns, by simp [bares, hn', heqs]⟩
  | varDeclPlain ht hn he =>
    simp only [alike_cons, alike_nil] at hus
    obtain ⟨type, _, rfl, ht', name, _, rfl, hn', eol, _, rfl, he', rfl⟩ := hus
    refine ⟨_, .varDeclPlain (ht.relocated ht') (hn.relocated hn') (he.relocated he'), ?_⟩
    simp [bares, bare, Token.lexeme_of_content ht', Token.lexeme_of_content hn']
  | varDeclInit ht hn hq _ he ih =>
    simp only [alike_cons, alike_append, alike_nil] at hus
    obtain ⟨type, _, rfl, ht', name, _, rfl, hn', eq, _, rfl, hq', us, _, rfl, hus, eol, _, rfl, he', rfl⟩ := hus
    obtain ⟨v, hv, hv'⟩ := exists_single (ih hus)
    refine ⟨_, .varDeclInit (ht.relocated ht') (hn.relocated hn') (hq.relocated hq') hv (he.relocated he'), ?_⟩
    simp [bares, bare, Token.lexeme_of_content ht', Token.lexeme_of_content hn', hv']
  | assignment hn hq _ he ih =>
    simp only [alike_cons, alike_append, alike_nil] at hus
    obtain ⟨name, _, rfl, hn', eq, _, rfl, hq', us, _, rfl, hus, eol, _, rfl, he', rfl⟩ := hus
    obtain ⟨v, hv, hv'⟩ := exists_single (ih hus)
    refine ⟨_, .assignment (hn.relocated hn') (hq.relocated hq') hv (he.relocated he'), ?_⟩
    simp [bares, bare, Token.lexeme_of_content hn', hv']
  | returnPlain hk he =>
    simp only [alike_cons, alike_nil] at hus
    obtain ⟨kw, _, rfl, hk', eol, _, rfl, he', rfl⟩ := hus
    exact ⟨_, .returnPlain (hk.relocated hk') (he.relocated he'), rfl⟩
  | returnValue hk _ he ih =>
    simp only [alike_cons, alike_append, alike_nil] at hus
    obtain ⟨kw, _, rfl, hk', us, _, rfl, hus, eol, _, rfl, he', rfl⟩ := hus
    obtain ⟨v, hv, hv'⟩ := exists_single (ih hus)
    exact ⟨_, .returnValue (hk.relocated hk') hv (he.relocated he'), by simp [bares, bare, hv']⟩
  | display hk _ he ih =>
    simp only [alike_cons, alike_append, alike_nil] at hus
    obtain ⟨kw, _, rfl, hk', us, _, rfl, hus, eol, _, rfl, he', rfl⟩ := hus
    obtain ⟨v, hv, hv'⟩ := exists_single (ih hus)
    exact ⟨_, .display (hk.relocated hk') hv (he.relocated he'), by simp [bares, bare, hv']⟩
  | guarded hk hx _ _ ih ihb =>
    simp only [alike_cons, alike_append] at hus
    obtain ⟨kw, _, rfl, hk', vs, us, rfl, hvs, hus⟩ := hus
    obtain ⟨n, hn, hn'⟩ := exists_single (ih hvs)
    obtain ⟨b, hb, hb'⟩ := exists_single (ihb hus)
    refine ⟨_, .guarded (hk.relocated hk') hx hn hb, ?_⟩
    unfold guardOf? at hx
    split at hx <;> cases hx <;> simp [bares, bare, hn', hb']
  | function hn hlp hps hrp hrs _ ihb =>
    simp only [alike_cons, alike_append] at hus
    obtain ⟨name, _, rfl, hn', lp, _, rfl, hlp', ps, _, rfl, hps', rp, _, rfl, hrp', rs, us, rfl, hrs', hus⟩ := hus
    obtain ⟨params, hparams, heqp⟩ := hps.relocated hps'
    obtain ⟨b, hb, hb'⟩ := exists_single (ihb hus)
    refine ⟨_, .function (hn.relocated hn') (hlp.relocated hlp') hparams
      (hrp.relocated hrp') (hrs.relocated hrs') hb, ?_⟩
    simp [bares, bare, Token.lexeme_of_content hn', heqp, hb']
  | one _ ih =>
    obtain ⟨_, hn, heq⟩ := ih hus
    obtain ⟨n, rfl, -⟩ := exists_of_bares_one heq
    exact ⟨_, .one hn, heq⟩
  | more _ _ ih ihs =>
    obtain ⟨vs, us, rfl, hvs, hus⟩ := alike_append.mp hus
    obtain ⟨n, hn, hn'⟩ := exists_single (ih hvs)
    obtain ⟨ns, hns, heqs⟩ := ihs hus
    exact ⟨_, .more hn hns, by simp [bares, hn', heqs]⟩
  | block he hi _ hd ih =>
    simp only [alike_cons, alike_append, alike_nil] at hus
    obtain ⟨eol, _, rfl, he', ind, _, rfl, hi', us, _, rfl, hus, ded, _, rfl, hd', rfl⟩ := hus
    obtain ⟨_, hns, heq⟩ := ih hus
    obtain ⟨n, rest, rfl, -, -⟩ := exists_of_bares_cons heq
    refine ⟨_, .block (he.relocated he') (hi.relocated hi') hns (hd.relocated hd'), ?_⟩
    rw [bares, bare, heq]
    rfl

theorem SpellsProgram.relocated {d : Nat} {body : List Node} (h : SpellsProgram d ts body) (hus : Alike us ts) :
    ∃ body', SpellsProgram d us body' ∧ bares id body' = bares id body := by
  obtain ⟨ts, last, rfl, hlast, hbody⟩ := h
  simp only [alike_append, alike_cons, alike_nil] at hus
  obtain ⟨us, _, rfl, hus, last', _, rfl, hlast', rfl⟩ := hus
  rcases hbody with ⟨rfl, rfl⟩ | hbody
  · exact ⟨[], ⟨us, last', rfl, hlast.relocated hlast', .inl ⟨alike_nil.mp hus, rfl⟩⟩, rfl⟩
  · obtain ⟨body', hbody', heq⟩ := hbody.relocated hus
    exact ⟨body', ⟨us, last', rfl, hlast.relocated hlast', .inr hbody'⟩, heq⟩

end Parse

/-! ## Texts -/

/-- Texts whose tokens say the same are parsed alike. -/
theorem parseTo_relocated {source source' : String} {ts us : List Token} (hts : tokenize source = .ok ts)
    (hus : tokenize source' = .ok us) (h : Alike us ts) {depth : Nat} {p : Node}
    (hp : parseTo .descent depth source = .ok p) :
    ∃ q, parseTo .descent depth source' = .ok q ∧ q.bare id = p.bare id := by
  obtain ⟨body, rfl, hspells⟩ := (Parse.programTo_iff (Token.tokenize_stream hts)).mp ((parseTo_descent hts).mp hp)
  obtain ⟨body', hspells', heq⟩ := hspells.relocated h
  refine ⟨.program body' Parse.programPosition, (parseTo_descent hus).mpr ?_, by rw [bare, bare, heq]⟩
  exact (Parse.programTo_iff (Token.tokenize_stream hus)).mpr ⟨body', rfl, hspells'⟩

end TillLang
