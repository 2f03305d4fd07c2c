/-
  TillLang.Proofs.Rejection — the two front ends blame the same token.

  A text that has no program is refused by both front ends at one token: the first that,
  behind the tokens before it, is the start of no sentence (`frontends_blame_alike`). The
  errors of the two carry the place of that token, except that the table has no place for
  the end of the text and puts its error at the start.

  Each front end is known to blame a token behind a viable start. That the token is the same
  follows since a start of a viable start is viable: there is only one place where a text
  stops being one.
-/

import TillLang.Proofs.Grammar.Refusal
import TillLang.Proofs.Parse.Blame
import TillLang.Proofs.Parse.Depth
import TillLang.Proofs.Recognition

namespace TillLang

open Token (Stream Follows endsStatement)
open Grammar (Terminal Tree Viable Endless sample)
open Parse (Spells SpellsParams SpellsParamList SpellsReturns SpellsProgram Phrased)

/-! ## Spelled tokens are in order -/

namespace Parse

/-- Tokens in order that do not start with the end of a block or of the text. -/
structure Orderly (ts : List Token) : Prop where
  head : ∀ t ∈ ts.head?, ¬ (t.kind = .dedent ∨ t.kind = .eof)
  chain : ts.IsChain Follows

namespace Orderly

theorem append {ts us : List Token} (ht : Orderly ts) (hu : Orderly us) : Orderly (ts ++ us) where
  head := by
    cases ts with
    | nil => exact hu.head
    | cons t ts => exact ht.head
  chain := List.isChain_append.mpr ⟨ht.chain, hu.chain, fun _ _ y hy hend => absurd hend (hu.head y hy)⟩

theorem single {t : Token} {x : Terminal} (h : t.Stands x) (hd : x ≠ .dedent) (hf : x ≠ .finish) : Orderly [t] where
  head := by
    intro u hu hend
    obtain rfl : t = u := Option.some.inj hu
    rcases hend with hend | hend
    · exact hd (h.unique (by simp [Token.Stands, Terminal.ofToken?, hend]))
    · exact hf (h.unique (by simp [Token.Stands, Terminal.ofToken?, hend]))
  chain := List.isChain_singleton _

theorem cons {t : Token} {ts : List Token} {x : Terminal} (h : t.Stands x) (hd : x ≠ .dedent) (hf : x ≠ .finish)
    (hts : Orderly ts) : Orderly (t :: ts) :=
  (single h hd hf).append hts

theorem nil : Orderly [] := ⟨by simp, List.isChain_nil⟩

/-- The tokens of a part of a line are in order. -/
theorem of_ordinary {ts : List Token} (h : ∀ t ∈ ts, t.kind.isOrdinary = true) : Orderly ts := by
  induction ts with
  | nil => exact nil
  | cons t ts ih =>
    obtain ⟨ht, hts⟩ := List.forall_mem_cons.mp h
    have hone : Orderly [t] := ⟨fun u hu hend => ?_, List.isChain_singleton _⟩
    · exact hone.append (ih hts)
    obtain rfl : t = u := Option.some.inj hu
    rcases hend with hend | hend <;> (rw [hend] at ht; cases ht)

/-- A block ends behind a statement. -/
theorem closed {ts : List Token} {last ded : Token} (h : Orderly (ts ++ [last])) (hlast : last.endsStatement) :
    Orderly (ts ++ [last] ++ [ded]) where
  head := by
    cases ts with
    | nil => exact h.head
    | cons t ts => exact h.head
  chain := by
    refine List.isChain_append.mpr ⟨h.chain, List.isChain_singleton _, fun x hx y _ _ => ?_⟩
    obtain rfl : last = x := by simpa using hx
    exact hlast

end Orderly

/-- Tokens in order of which the last one ends a statement. -/
def Ended (ts : List Token) : Prop := Orderly ts ∧ ∃ front last, ts = front ++ [last] ∧ last.endsStatement

theorem Ended.append {ts us : List Token} (ht : Orderly ts) (hu : Ended us) : Ended (ts ++ us) := by
  obtain ⟨hu, front, last, rfl, hlast⟩ := hu
  exact ⟨ht.append hu, ts ++ front, last, by rw [List.append_assoc], hlast⟩

theorem Ended.cons {t : Token} {us : List Token} {x : Terminal} (h : t.Stands x) (hd : x ≠ .dedent) (hf : x ≠ .finish)
    (hu : Ended us) : Ended (t :: us) :=
  Ended.append (.single h hd hf) hu

theorem Ended.newline {eol : Token} (h : eol.Stands .newline) : Ended [eol] :=
  ⟨.single h (by decide) (by decide), [], eol, rfl, .inl (h.kind rfl)⟩

theorem SpellsParams.orderly {ts : List Token} {ns : List Node} (h : SpellsParams ts ns) : Orderly ts := by
  induction h with
  | one ht hn => exact .cons ht (by decide) (by decide) (.single hn (by decide) (by decide))
  | more ht hn hc _ ih =>
    exact .cons ht (by decide) (by decide) (.cons hn (by decide) (by decide) (.cons hc (by decide) (by decide) ih))

theorem SpellsParamList.orderly {ts : List Token} {ns : List Node} (h : SpellsParamList ts ns) : Orderly ts := by
  rcases h with ⟨rfl, -⟩ | h
  · exact .nil
  · exact SpellsParams.orderly h

theorem SpellsReturns.orderly {ts : List Token} {type : Option String} (h : SpellsReturns ts type) : Orderly ts := by
  cases h with
  | none => exact .nil
  | some ha ht => exact .cons ha (by decide) (by decide) (.single ht (by decide) (by decide))

/-- The tokens of statements are in order, and the last one ends a statement. -/
theorem Spells.ended {d : Nat} {p : Phrase} {ts : List Token} {ns : List Node} (h : Spells d p ts ns)
    (hp : ¬ p.isInline) : Ended ts := by
  induction h with
  | varDeclPlain ht hn he =>
    exact .cons ht (by decide) (by decide) (.cons hn (by decide) (by decide) (.newline he))
  | varDeclInit ht hn hq h he _ =>
    exact .cons ht (by decide) (by decide) (.cons hn (by decide) (by decide) (.cons hq (by decide) (by decide)
      (.append (.of_ordinary (h.isOrdinary trivial)) (.newline he))))
  | assignment hn hq h he _ =>
    exact .cons hn (by decide) (by decide) (.cons hq (by decide) (by decide)
      (.append (.of_ordinary (h.isOrdinary trivial)) (.newline he)))
  | returnPlain hk he => exact .cons hk (by decide) (by decide) (.newline he)
  | returnValue hk h he _ =>
    exact .cons hk (by decide) (by decide) (.append (.of_ordinary (h.isOrdinary trivial)) (.newline he))
  | display hk h he _ =>
    exact .cons hk (by decide) (by decide) (.append (.of_ordinary (h.isOrdinary trivial)) (.newline he))
  | guarded hk hx h _ _ ih =>
    have hne : ∀ {x build}, guardOf? x = some build → x ≠ .dedent ∧ x ≠ .finish := by
      intro x build hx
      constructor <;> (rintro rfl; cases hx)
    exact .cons hk (hne hx).1 (hne hx).2 (.append (.of_ordinary (h.isOrdinary trivial)) (ih id))
  | function hn hlp hps hrp hrs _ ih =>
    exact .cons hn (by decide) (by decide) (.cons hlp (by decide) (by decide) (.append hps.orderly
      (.cons hrp (by decide) (by decide) (.append hrs.orderly (ih id)))))
  | one _ ih => exact ih id
  | more _ _ ih ihs => exact .append (ih id).1 (ihs id)
  | block he hi _ hd ih =>
    obtain ⟨hord, front, last, rfl, hlast⟩ := ih id
    refine .cons he (by decide) (by decide) (.cons hi (by decide) (by decide) ⟨hord.closed hlast, _, _, rfl, ?_⟩)
    exact .inr (hd.kind rfl)
  | _ => exact absurd trivial hp

end Parse

/-! ## Sentences and the descent -/

theorem sample_readable (x : Terminal) : (sample x).Readable := by
  have hok : ∀ x, ((Parse.literalOf? (sample x)).all fun r => r.isOk) = true := by
    intro x
    cases x <;> decide +kernel
  intro r hr
  have := hok x
  rw [hr] at this
  cases r with
  | error fault => cases this
  | ok v => exact ⟨v, rfl⟩

theorem Grammar.Tree.Derives.endless {t : Tree} {text : List (Terminal × Token)} (h : t.Derives text) :
    Endless text := by
  obtain ⟨hv, hsym, rfl⟩ := h
  exact fun p hp => ⟨hv.ofToken_of_mem p hp, hv.ne_finish (by simp [hsym]) (by simp [hsym]) p hp⟩

/-- The tokens of a derived text and its end are a stream. -/
theorem stream_of_spells {text : List (Terminal × Token)} (htext : Endless text) {last : Token}
    (hlast : last.Stands .finish) {d : Nat} {body : List Node}
    (h : SpellsProgram d (text.map Prod.snd ++ [last]) body) : Stream (text.map Prod.snd ++ [last]) where
  known := by
    intro t ht
    rcases List.mem_append.mp ht with ht | ht
    · obtain ⟨p, hp, rfl⟩ := List.mem_map.mp ht
      exact ⟨p.1, (htext p hp).1⟩
    · exact ⟨.finish, List.mem_singleton.mp ht ▸ hlast⟩
  ended := by
    refine ⟨_, last, rfl, hlast.kind rfl, fun t ht hk => ?_⟩
    obtain ⟨p, hp, rfl⟩ := List.mem_map.mp ht
    refine (htext p hp).2 (Option.some.inj ((htext p hp).1.symm.trans ?_))
    simp [Terminal.ofToken?, hk]
  ordered := by
    obtain ⟨ts, last', hall, -, hbody⟩ := h
    rw [hall]
    rcases hbody with ⟨rfl, -⟩ | hbody
    · exact List.isChain_singleton _
    · obtain ⟨hord, front, end', rfl, hend⟩ := hbody.ended id
      exact (hord.closed hend).chain

/-- From some depth on the descent returns a program for a derived text whose literals can be read. -/
theorem Grammar.Tree.Derives.returned {t : Tree} {text : List (Terminal × Token)} (h : t.Derives text)
    (hread : ∀ p ∈ text, p.2.Readable) {last : Token} (hlast : last.Stands .finish) :
    ∃ p limit, ∀ depth, limit ≤ depth → Parse.programTo depth (text.map Prod.snd ++ [last]) = .ok p := by
  obtain ⟨body, d, -, hspell⟩ := h.spells hread hlast
  have hs := stream_of_spells h.endless hlast hspell
  exact ⟨_, d, fun depth hd => (Parse.programTo_iff hs).mpr ⟨body, rfl, hspell.mono hd⟩⟩

/-- The start of some statements is viable. -/
theorem viable_of_phrased {front : List (Terminal × Token)} (hfront : ∀ p ∈ front, Terminal.ofToken? p.2 = some p.1)
    {us : List Token} (h : front.map Prod.snd ++ us = [] ∨ Phrased .statements (front.map Prod.snd ++ us)) :
    Viable (front.map Prod.fst) := by
  obtain ⟨d, body, hbody⟩ : ∃ d body, front.map Prod.snd ++ us = [] ∧ body = [] ∨
      Spells d .statements (front.map Prod.snd ++ us) body := by
    rcases h with h | ⟨d, ns, h⟩
    · exact ⟨0, [], .inl ⟨h, rfl⟩⟩
    · exact ⟨d, ns, .inr h⟩
  obtain ⟨t, hv, hsym, htok, -⟩ := Grammar.hasTree_start hbody
  obtain ⟨as, bs, hyield, has, -⟩ := List.map_eq_append_iff.mp htok
  have hmem : ∀ p ∈ as, Terminal.ofToken? p.2 = some p.1 := fun p hp =>
    hv.ofToken_of_mem p (hyield ▸ List.mem_append_left _ hp)
  obtain rfl := Grammar.text_of_tokens hmem hfront has
  refine ⟨bs.map Prod.fst ++ [.finish], Grammar.sentence_iff.mpr ⟨t, hv, hsym, ?_⟩⟩
  rw [hyield, List.map_append, List.append_assoc]

/-- A token that the descent blames, whatever follows it, is the start of no sentence. -/
theorem not_viable_of_blame {front : List (Terminal × Token)} (hfront : Endless front)
    (hread : ∀ p ∈ front, p.2.Readable) {u : Token} {x : Terminal} (hu : u.Stands x) (hureads : u.Readable)
    {fault : Parse.Fault}
    (hblame : ∀ others depth, (front.map Prod.snd ++ u :: others).length ≤ depth →
      Parse.programTo depth (front.map Prod.snd ++ u :: others) = .error fault) :
    ¬ Viable (front.map Prod.fst ++ [x]) := by
  -- a derivation over the tokens and others behind them would be returned and blamed
  have hnone : ∀ others p limit, ¬ ∀ depth, limit ≤ depth →
      Parse.programTo depth (front.map Prod.snd ++ u :: others) = .ok p := by
    intro others p limit hok
    have hfail := hblame others _ (Nat.le_max_right limit _)
    rw [hok _ (Nat.le_max_left _ _)] at hfail
    cases hfail
  rintro ⟨ys, hs⟩
  rw [List.append_assoc, List.singleton_append] at hs
  by_cases hx : x = .finish
  · subst hx
    obtain ⟨t, ht⟩ := Grammar.exists_whole_derivation hfront hs
    obtain ⟨p, limit, hok⟩ := Tree.Derives.returned ht hread hu
    exact hnone [] p limit hok
  · have hall : Endless (front ++ [(x, u)]) := by
      intro q hq
      rcases List.mem_append.mp hq with hq | hq
      · exact hfront q hq
      · rw [List.mem_singleton.mp hq]
        exact ⟨hu, hx⟩
    obtain ⟨t, zs, ht⟩ := Grammar.exists_derivation hall (by simpa using hs)
    have hreads : ∀ q ∈ front ++ (x, u) :: zs.map (fun z => (z, sample z)), q.2.Readable := by
      intro q hq
      rcases List.mem_append.mp hq with hq | hq
      · exact hread q hq
      · rcases List.mem_cons.mp hq with rfl | hq
        · exact hureads
        · obtain ⟨z, -, rfl⟩ := List.mem_map.mp hq
          exact sample_readable z
    obtain ⟨p, limit, hok⟩ := Tree.Derives.returned ht hreads (Parse.sample_stands .finish)
    refine hnone (zs.map sample ++ [sample .finish]) p limit fun depth hd => ?_
    have := hok depth hd
    simpa [List.map_map, Function.comp_def] using this

/-! ## One place -/

/-- A text stops being the start of a sentence at one place only. -/
theorem stops_once {as bs cs ds : List (Terminal × Token)} {a b : Terminal × Token} (h : as ++ a :: bs = cs ++ b :: ds)
    (hva : Viable (as.map Prod.fst)) (hna : ¬ Viable (as.map Prod.fst ++ [a.1])) (hvc : Viable (cs.map Prod.fst))
    (hnc : ¬ Viable (cs.map Prod.fst ++ [b.1])) : as = cs ∧ a = b := by
  rcases List.append_eq_append_iff.mp h with ⟨es, rfl, hes⟩ | ⟨es, rfl, hes⟩
  · cases es with
    | nil => exact ⟨by simp, (List.cons.inj hes).1⟩
    | cons e es =>
      obtain rfl : a = e := (List.cons.inj hes).1
      rw [List.map_append, List.map_cons, List.append_cons] at hvc
      exact absurd hvc.of_append hna
  · cases es with
    | nil => exact ⟨by simp, (List.cons.inj hes).1.symm⟩
    | cons e es =>
      obtain rfl : b = e := (List.cons.inj hes).1
      rw [List.map_append, List.map_cons, List.append_cons] at hva
      exact absurd hva.of_append hnc

/-- Tokens that a sentence starts with. -/
def StartsSentence (ts : List Token) : Prop := ∃ xs, ts.map Terminal.ofToken? = xs.map some ∧ Viable xs

theorem startsSentence_iff {text : List (Terminal × Token)} (h : ∀ p ∈ text, Terminal.ofToken? p.2 = some p.1) :
    StartsSentence (text.map Prod.snd) ↔ Viable (text.map Prod.fst) := by
  have hmap : (text.map Prod.snd).map Terminal.ofToken? = (text.map Prod.fst).map some := by
    rw [List.map_map, List.map_map]
    exact List.map_congr_left h
  constructor
  · rintro ⟨xs, hxs, hv⟩
    rw [hmap] at hxs
    rwa [List.map_injective_iff.mpr (fun _ _ => Option.some.inj) hxs]
  · exact fun hv => ⟨_, hmap, hv⟩

/-! ## The same token -/

/-- Where the table places its error at a token. -/
def tablePlace (u : Token) : Location := if u.kind = .eof then Grammar.finishLocation else u.location

/-- The table refuses a text at the first token that is the start of no sentence. -/
theorem derive_blames {text : List (Terminal × Token)} {last : Token}
    (hterminals : Grammar.terminals (text.map Prod.snd ++ [last]) = .ok text) (htext : Endless text)
    (hlast : last.Stands .finish) (hno : ∀ t : Tree, ¬ t.Derives text) :
    ∃ front p rest expected, text ++ [(.finish, last)] = front ++ p :: rest ∧ Viable (front.map Prod.fst) ∧
      ¬ Viable (front.map Prod.fst ++ [p.1]) ∧ Grammar.derive (text.map Prod.snd ++ [last]) =
        .error (.rejected ⟨expected, Grammar.describeFound p.1 p.2, some (tablePlace p.2)⟩) := by
  obtain ⟨front, rest, state, rfl, hderive, hviable, hstop⟩ := Grammar.derive_refuses hterminals htext hno
  cases rest with
  | nil =>
    refine ⟨front, (.finish, last), [], Grammar.describeExpected state, by simp, hviable, hstop, ?_⟩
    rw [hderive, tablePlace, if_pos (hlast.kind (k := .eof) rfl)]
    rfl
  | cons p rest =>
    obtain ⟨hp, hne⟩ := htext p (by simp)
    refine ⟨front, p, rest ++ [(.finish, last)], Grammar.describeExpected state, by simp, hviable, hstop, ?_⟩
    rw [hderive, tablePlace, if_neg (Parse.kind_ne_eof hp hne)]
    rfl

/-- Both parsers of a token list without a program blame one token, the first that is the start of no sentence. -/
theorem parsers_blame_alike {tokens : List Token} (hs : Stream tokens) (hread : ∀ t ∈ tokens, t.Readable)
    (hno : ∀ depth p, Parse.programTo depth tokens ≠ .ok p) :
    ∃ front u rest x expected expected', tokens = front ++ u :: rest ∧ u.Stands x ∧
      StartsSentence front ∧ ¬ StartsSentence (front ++ [u]) ∧
      (∀ depth, tokens.length ≤ depth → Parse.programTo depth tokens = .error (Parse.unexpected expected u)) ∧
      Grammar.derive tokens =
        .error (.rejected ⟨expected', Grammar.describeFound x u, some (tablePlace u)⟩) := by
  obtain ⟨text, last, rfl, hlast, hterminals, htext⟩ := Grammar.terminals_of_stream hs
  have hreads : ∀ p ∈ text, p.2.Readable := fun p hp => hread p.2 (List.mem_append_left _ (List.mem_map_of_mem hp))
  have hall : ∀ p ∈ text ++ [(.finish, last)], Terminal.ofToken? p.2 = some p.1 := by
    intro p hp
    rcases List.mem_append.mp hp with hp | hp
    · exact (htext p hp).1
    · exact List.mem_singleton.mp hp ▸ hlast
  obtain ⟨front', p', rest', expected', hsplit', hviable', hstop', hderive⟩ :=
    derive_blames hterminals htext hlast fun t ht => by
      obtain ⟨p, limit, hok⟩ := ht.returned hreads hlast
      exact hno limit p (hok limit (Nat.le_refl _))
  obtain ⟨p, hp⟩ | ⟨ts, u, us, more, expected, hsplit, hphrased, hblame⟩ := Parse.programTo_decides hs hread
  · exact absurd (hp _ (Nat.le_refl _)) (hno _ p)
  -- the tokens with their terminals, split where the descent blames
  have hpairs : (text ++ [(Terminal.finish, last)]).map Prod.snd = ts ++ u :: us := by simpa using hsplit
  obtain ⟨front, others, hfront, rfl, hothers⟩ := List.map_eq_append_iff.mp hpairs
  obtain ⟨⟨x, u⟩, rest, rfl, rfl, rfl⟩ := List.map_eq_cons_iff.mp hothers
  have hfrontOf : text = front ++ ((x, u) :: rest).dropLast := by
    rw [← List.dropLast_append_of_ne_nil (by simp), ← hfront, List.dropLast_concat]
  have hendless : Endless front := fun q hq => htext q (hfrontOf ▸ List.mem_append_left _ hq)
  have hfrontReads : ∀ q ∈ front, q.2.Readable := fun q hq => hreads q (hfrontOf ▸ List.mem_append_left _ hq)
  have hu : u.Stands x := hall (x, u) (hfront ▸ by simp)
  have hviable : Viable (front.map Prod.fst) := viable_of_phrased (fun q hq => (hendless q hq).1) hphrased
  have hstop : ¬ Viable (front.map Prod.fst ++ [x]) :=
    not_viable_of_blame hendless hfrontReads hu (hread u (hsplit ▸ by simp)) hblame
  obtain ⟨rfl, rfl⟩ := stops_once (hfront.symm.trans hsplit') hviable hstop hviable' hstop'
  refine ⟨front.map Prod.snd, u, _, x, expected, expected', hsplit, hu, ?_, ?_, fun depth hd => ?_, hderive⟩
  · exact (startsSentence_iff fun q hq => (hendless q hq).1).mpr hviable
  · have hmore : ∀ q ∈ front ++ [(x, u)], Terminal.ofToken? q.2 = some q.1 := by
      intro q hq
      rcases List.mem_append.mp hq with hq | hq
      · exact (hendless q hq).1
      · exact List.mem_singleton.mp hq ▸ hu
    have hiff := startsSentence_iff hmore
    rw [List.map_append, List.map_append] at hiff
    exact fun h => hstop (hiff.mp h)
  · rw [hsplit] at hd ⊢
    exact hblame _ depth hd

/-! ## The front ends -/

theorem not_isDepth {e : Parse.Error} (h : e.expected ≠ (Parse.Error.tooDeep none).expected) :
    ¬ (Parse.Fault.rejected e).isDepth := by
  rintro ⟨location, rfl⟩
  exact h rfl

/-- An error at a token, within any depth, is the answer for a text besides the one that it nests too deep. -/
theorem rejected_always {tokens : List Token} {n : Nat} {fault : Parse.Fault}
    (h : Parse.programTo n tokens = .error fault) (hf : ¬ fault.isDepth) (depth : Nat) (p : Node) :
    Parse.programTo depth tokens ≠ .ok p := by
  intro hp
  rcases Nat.le_total depth n with hle | hle
  · rcases Parse.programTo_within hle tokens with ⟨f, hd, -⟩ | heq
    · cases hp.symm.trans hd
    · cases hp.symm.trans (heq.trans h)
  · rcases Parse.programTo_within hle tokens with ⟨f, hd, hdepth⟩ | heq
    · exact hf (Except.error.inj (h.symm.trans hd) ▸ hdepth)
    · cases hp.symm.trans (heq.symm.trans h)

/-- The front end by the table rejects a text that has no derivation, at every depth. -/
theorem parseTo_table_error {source : String} {tokens : List Token} (h : tokenize source = .ok tokens)
    {fault : Parse.Fault} (hderive : Grammar.derive tokens = .error fault) (depth : Nat) :
    parseTo .table depth source = .error (.parse fault) := by
  rw [parseTo, h]
  show (Grammar.programTo depth tokens).mapError Error.parse = _
  rw [Grammar.programTo, hderive]
  rfl

/-- A source text that one of the front ends rejects at every depth is rejected by both for the same token: the
first such that the tokens up to it are the start of no sentence. The descent reports it at its own place, unless
the text nests too deep first. The table does so as well, and reports the end of the text at the start. -/
theorem frontends_blame_alike {source : String} {tokens : List Token} (h : tokenize source = .ok tokens)
    {frontend : Frontend} (hno : ∀ depth p, parseTo frontend depth source ≠ .ok p) :
    ∃ front u rest x expected expected', tokens = front ++ u :: rest ∧ u.Stands x ∧
      StartsSentence front ∧ ¬ StartsSentence (front ++ [u]) ∧
      (∀ depth, tokens.length ≤ depth →
        parseTo .descent depth source = .error (.parse (.rejected ⟨expected, Parse.describe u, some u.location⟩))) ∧
      (∀ depth, (∃ fault, fault.isDepth ∧ parseTo .descent depth source = .error (.parse fault)) ∨
        parseTo .descent depth source = .error (.parse (.rejected ⟨expected, Parse.describe u, some u.location⟩))) ∧
      ∀ depth, parseTo .table depth source = .error (.parse (.rejected ⟨expected', Grammar.describeFound x u,
        some (if u.kind = .eof then Grammar.finishLocation else u.location)⟩)) := by
  have hs := Token.tokenize_stream h
  have hdescent : ∀ depth p, Parse.programTo depth tokens ≠ .ok p := by
    intro depth p hp
    have hp := (parseTo_descent h).mpr hp
    cases frontend with
    | descent => exact hno depth p hp
    | table =>
      obtain ⟨limit, htable⟩ := table_of_descent hp
      exact hno limit p (htable limit (Nat.le_refl _)).1
  obtain ⟨front, u, rest, x, expected, expected', hsplit, hu, hviable, hstop, hblame, hderive⟩ :=
    parsers_blame_alike hs (Token.tokenize_readable h) hdescent
  have hsource : ∀ depth, parseTo .descent depth source = (Parse.programTo depth tokens).mapError Error.parse := by
    intro depth
    rw [parseTo, h]
    rfl
  refine ⟨front, u, rest, x, expected, expected', hsplit, hu, hviable, hstop, fun depth hd => ?_, fun depth => ?_,
    fun depth => ?_⟩
  · rw [hsource, hblame depth hd]
    rfl
  · rw [hsource]
    rcases Parse.programTo_within (Nat.le_max_left depth tokens.length) tokens with ⟨fault, hfault, hdepth⟩ | heq
    · exact .inl ⟨fault, hdepth, by rw [hfault]; rfl⟩
    · refine .inr ?_
      rw [heq, hblame _ (Nat.le_max_right _ _)]
      rfl
  · exact parseTo_table_error h hderive depth

/-- A text with an operator that has no right operand, in a block. -/
def danglingSource : String :=
  "if true\n" ++
  "    display 1 +\n"

/-- The tokens of a text, and the fault of the descent within a depth. -/
def faultOf (depth : Nat) (source : String) : Option Parse.Fault :=
  match tokenize source with
  | .ok tokens => match Parse.programTo depth tokens with
    | .error fault => some fault
    | .ok _ => none
  | .error _ => none

theorem of_faultOf {depth : Nat} {source : String} {fault : Parse.Fault} (h : faultOf depth source = some fault) :
    ∃ tokens, tokenize source = .ok tokens ∧ Parse.programTo depth tokens = .error fault := by
  unfold faultOf at h
  split at h
  · rename_i tokens ht
    split at h
    · rename_i fault' hf
      exact ⟨tokens, ht, Option.some.inj h ▸ hf⟩
    · cases h
  · cases h

theorem danglingSource_blamed : ∃ tokens, tokenize danglingSource = .ok tokens ∧
    (∀ depth p, parseTo .descent depth danglingSource ≠ .ok p) ∧
    ∃ front u rest, tokens = front ++ u :: rest ∧ StartsSentence front ∧ ¬ StartsSentence (front ++ [u]) ∧
      ∀ depth, tokens.length ≤ depth → ∃ expected expected' found,
        parseTo .descent depth danglingSource =
          .error (.parse (.rejected ⟨expected, Parse.describe u, some u.location⟩)) ∧
        parseTo .table depth danglingSource = .error (.parse (.rejected ⟨expected', found,
          some (if u.kind = .eof then Grammar.finishLocation else u.location)⟩)) := by
  have hfault : faultOf 20 danglingSource = some (.rejected ⟨"expression", "end of line", some ⟨2, 16⟩⟩) := by
    decide +kernel
  obtain ⟨tokens, ht, hp⟩ := of_faultOf hfault
  have hno : ∀ depth p, parseTo .descent depth danglingSource ≠ .ok p := by
    intro depth p hok
    exact rejected_always hp (not_isDepth (by decide)) depth p ((parseTo_descent ht).mp hok)
  obtain ⟨front, u, rest, x, expected, expected', hsplit, -, hviable, hstop, hdescent, -, htable⟩ :=
    frontends_blame_alike ht hno
  exact ⟨tokens, ht, hno, front, u, rest, hsplit, hviable, hstop, fun depth hd =>
    ⟨expected, expected', _, hdescent depth hd, htable depth⟩⟩

/-- A text that ends where a block is due. -/
def unfinishedSource : String := "if true\n"

/-- The end of the text is the first token that is the start of no sentence. The table does not report it at the
token in front of it, a line end with a place of its own. -/
theorem end_reported_at_start : ∃ front before last, tokenize unfinishedSource = .ok (front ++ [before, last]) ∧
    last.kind = .eof ∧ StartsSentence (front ++ [before]) ∧ ¬ StartsSentence (front ++ [before, last]) ∧
    before.location = ⟨1, 8⟩ ∧ ∀ depth, ∃ expected found,
      parseTo .table depth unfinishedSource = .error (.parse (.rejected ⟨expected, found, some ⟨1, 1⟩⟩)) := by
  have ht : tokenize unfinishedSource = .ok ([⟨.keyword, "if", 1, 1, 0⟩, ⟨.bool, "true", 1, 4, 3⟩] ++
      [⟨.newline, "", 1, 8, 7⟩, ⟨.eof, "", 2, 1, 9⟩]) := by cbv
  have hfault : faultOf 20 unfinishedSource = some (.rejected ⟨"indented block", "end of input", some ⟨2, 1⟩⟩) := by
    decide +kernel
  obtain ⟨tokens, ht', hp⟩ := of_faultOf hfault
  obtain rfl := Except.ok.inj (ht'.symm.trans ht)
  have hno := rejected_always hp (not_isDepth (by decide))
  obtain ⟨front, u, rest, x, expected, expected', hsplit, -, hviable, hstop, hblame, hderive⟩ :=
    parsers_blame_alike (Token.tokenize_stream ht) (Token.tokenize_readable ht) hno
  -- the descent blames a token of the second line, which only the last one is
  have hline : u.line = 2 := by
    have hplace := Except.error.inj (hp.symm.trans (hblame 20 (by simp)))
    simp only [Parse.unexpected, Parse.Fault.rejected.injEq, Parse.Error.mk.injEq, Option.some.injEq] at hplace
    exact (congrArg Location.line hplace.2.2).symm
  obtain ⟨rfl, rfl⟩ : front = [⟨.keyword, "if", 1, 1, 0⟩, ⟨.bool, "true", 1, 4, 3⟩, ⟨.newline, "", 1, 8, 7⟩] ∧
      u = ⟨.eof, "", 2, 1, 9⟩ := by
    rcases front with _ | ⟨a, _ | ⟨b, _ | ⟨c, _ | ⟨d, front⟩⟩⟩⟩
    all_goals simp at hsplit
    · simp [← hsplit.1] at hline
    · simp [← hsplit.2.1] at hline
    · simp [← hsplit.2.2.1] at hline
    · obtain ⟨rfl, rfl, rfl, rfl, -⟩ := hsplit
      exact ⟨rfl, rfl⟩
  refine ⟨_, _, _, ht, rfl, hviable, hstop, rfl, fun depth =>
    ⟨expected', Grammar.describeFound x ⟨.eof, "", 2, 1, 9⟩, ?_⟩⟩
  exact parseTo_table_error ht hderive depth

end TillLang
