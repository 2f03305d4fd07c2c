/-
  TillLang.Proofs.Grammar.Existence — what is spelled has a derivation.

  The other direction of `Meaning`: for the tokens of every phrase there is a valid tree that
  leaves the nodes of the phrase. Trees are built rule by rule (`hasTree_rule`); the helper
  nonterminals, which recurse on the left, by adding one item at the end (`hasTree_tail`).
-/

import Mathlib.Data.List.Induction
import TillLang.Proofs.Grammar.Meaning

namespace TillLang.Grammar

open Parse (Phrase Spells SpellsParams SpellsParamList SpellsReturns operatorAt layerCount programPosition)

/-! ## Trees by rules -/

/-- There is a tree of a symbol above these tokens that leaves these parts. -/
def HasTree (s : Symbol) (ts : List Token) (ps : List Part) : Prop :=
  ∃ t : Tree, t.Valid ∧ t.symbol = s ∧ t.tokens = ts ∧ t.parts = .ok ps

/-- There are trees of the symbols, one after the other. -/
def HasTrees (ss : List Symbol) (ts : List Token) (ps : List Part) : Prop :=
  ∃ us : List Tree, us.map Tree.symbol = ss ∧ (∀ u ∈ us, u.Valid) ∧ us.flatMap Tree.tokens = ts ∧
    Tree.partsOf us = .ok ps

theorem hasTree_leaf {t : Token} {x : Terminal} (h : t.Stands x) : HasTree (.terminal x) [t] (leafParts x t) :=
  ⟨.leaf x t, h, rfl, rfl, rfl⟩

theorem hasTrees_nil : HasTrees [] [] [] := ⟨[], rfl, by simp, rfl, rfl⟩

theorem HasTree.cons {s : Symbol} {ss : List Symbol} {ts us : List Token} {ps qs : List Part}
    (h : HasTree s ts ps) (hs : HasTrees ss us qs) : HasTrees (s :: ss) (ts ++ us) (ps ++ qs) := by
  obtain ⟨t, hv, rfl, rfl, hp⟩ := h
  obtain ⟨vs, rfl, hvs, rfl, hq⟩ := hs
  refine ⟨t :: vs, rfl, fun u hu => ?_, by simp, Tree.partsOf_cons_iff.mpr ⟨ps, qs, hp, hq, rfl⟩⟩
  rcases List.mem_cons.mp hu with rfl | hu
  · exact hv
  · exact hvs u hu

theorem HasTree.last {s : Symbol} {ts : List Token} {ps : List Part} (h : HasTree s ts ps) : HasTrees [s] ts ps := by
  have := h.cons hasTrees_nil
  rwa [List.append_nil, List.append_nil] at this

theorem hasTree_rule {r : Rule} {ts : List Token} {inner ps : List Part} (h : HasTrees r.rhs ts inner)
    (hl : Leaves r inner ps) : HasTree r.lhs ts ps := by
  obtain ⟨us, hsym, hv, rfl, hp⟩ := h
  exact ⟨.node r us, Tree.valid_node_iff.mpr ⟨hsym, hv⟩, rfl, Tree.tokens_node r us,
    Tree.parts_node_iff.mpr ⟨inner, hp, hl⟩⟩

/-- A rule that hands on the parts of the one symbol it derives. -/
theorem hasTree_unit {r : Rule} {s : Symbol} {ts : List Token} {ps : List Part} (hr : r.rhs = [s])
    (ht : r.isTransparent = true) (h : HasTree s ts ps) : HasTree r.lhs ts ps := by
  have hs : HasTrees r.rhs ts ps := hr ▸ h.last
  refine hasTree_rule hs ?_
  rw [Leaves, if_pos ht]

/-- A rule that makes a node of its parts. -/
theorem hasTree_construct {r : Rule} {ts : List Token} {inner : List Part} {q : Part} (h : HasTrees r.rhs ts inner)
    (ht : r.isTransparent = false) (hc : construct r inner = .ok q) : HasTree r.lhs ts [q] := by
  refine hasTree_rule h ?_
  rw [Leaves, ht]
  exact ⟨q, hc, rfl⟩

/-! ## Tails -/

/-- Separators and items are derived from a helper nonterminal, one item at a time. -/
theorem hasTree_tail {m i : Nonterminal} {sep : Terminal} {a b : Rule}
    (ha : a.sides = (m, [.terminal sep, .nonterminal i]))
    (hb : b.sides = (m, [.nonterminal m, .terminal sep, .nonterminal i]))
    (ht : a.isTransparent = true ∧ b.isTransparent = true) {xs : Tail} (hne : xs ≠ [])
    (hxs : xs.Spelled sep fun ts n => HasTree (.nonterminal i) ts [.node n]) :
    HasTree (.nonterminal m) xs.tokens (xs.parts sep) := by
  induction xs using List.reverseRecOn with
  | nil => exact absurd rfl hne
  | append_singleton xs x ih =>
    obtain ⟨t, ts, n⟩ := x
    obtain ⟨hst, htree⟩ := hxs (t, ts, n) (by simp)
    have hlast := (hasTree_leaf hst).cons htree.last
    by_cases hx : xs = []
    · subst hx
      have h : HasTree a.lhs ([t] ++ ts) (leafParts sep t ++ [.node n]) :=
        hasTree_rule (show HasTrees a.sides.2 _ _ by rw [ha]; exact hlast) (by rw [Leaves, if_pos ht.1])
      rw [Rule.lhs, ha] at h
      simpa [Tail.tokens, Tail.parts] using h
    · have hrest := ih hx fun x hx => hxs x (List.mem_append_left _ hx)
      have h := hasTree_rule (r := b) (show HasTrees b.sides.2 _ _ by rw [hb]; exact hrest.cons hlast)
        (by rw [Leaves, if_pos ht.2])
      rw [Rule.lhs, hb] at h
      simpa [Tail.tokens, Tail.parts] using h

/-- The rules of a layer: for one operand and for several, for one operator and for more. -/
def layerRules : Nat → Rule × Rule × Rule × Rule
  | 0 => (.multiplicativeOne, .multiplicativeMany, .moreMultiplicativeOne, .moreMultiplicativeMore)
  | 1 => (.additiveOne, .additiveMany, .moreAdditiveOne, .moreAdditiveMore)
  | 2 => (.relationalOne, .relationalMany, .moreRelationalOne, .moreRelationalMore)
  | _ => (.equalityOne, .equalityMany, .moreEqualityOne, .moreEqualityMore)

theorem joinLeft_snoc {l m r : Node} {ps : List Part} {op : Token} (h : joinLeft l ps = .ok m) :
    joinLeft l (ps ++ [.token op, .node r]) = .ok (.binary op.lexeme m r (positionOf op)) := by
  fun_induction joinLeft l ps with
  | case1 l =>
    obtain rfl := Except.ok.inj h
    rfl
  | case2 l o right rest ih => exact ih h
  | case3 => cases h

/-- A first operand, operators and operands are derived from the nonterminal of their layer. -/
theorem hasTree_layer {k : Nat} (hk : k < layerCount) {ls : List Token} {l n : Node} {xs : Tail}
    (hl : HasTree (layerOf k) ls [.node l])
    (hxs : xs.Spelled (operatorAt k) fun ts n => HasTree (layerOf k) ts [.node n])
    (hn : joinLeft l (xs.parts (operatorAt k)) = .ok n) : HasTree (layerOf (k + 1)) (ls ++ xs.tokens) [.node n] := by
  have hone : ∀ k < layerCount, (layerRules k).1.sides = (layerOf (k + 1), [.nonterminal (layerOf k)]) ∧
      (layerRules k).1.isTransparent = true := by decide
  have hmany : ∀ k < layerCount, (layerRules k).2.1.sides =
      (layerOf (k + 1), [.nonterminal (layerOf k), .nonterminal (moreOf k)]) ∧
      (layerRules k).2.1.isTransparent = false := by decide
  have hmore : ∀ k < layerCount, (layerRules k).2.2.1.sides =
      (moreOf k, [.terminal (operatorAt k), .nonterminal (layerOf k)]) ∧
      (layerRules k).2.2.2.sides =
        (moreOf k, [.nonterminal (moreOf k), .terminal (operatorAt k), .nonterminal (layerOf k)]) ∧
      (layerRules k).2.2.1.isTransparent = true ∧ (layerRules k).2.2.2.isTransparent = true := by decide
  have hconstruct : ∀ k l rest, construct (layerRules k).2.1 (.node l :: rest) = .node <$> joinLeft l rest := by
    intro k l rest
    unfold layerRules
    split <;> rfl
  by_cases hx : xs = []
  · subst hx
    obtain rfl : l = n := Except.ok.inj hn
    have h := hasTree_unit (r := (layerRules k).1) (by rw [Rule.rhs, (hone k hk).1]) (hone k hk).2 hl
    rw [Rule.lhs, (hone k hk).1] at h
    simpa [Tail.tokens] using h
  · obtain ⟨h₁, h₂, ht⟩ := hmore k hk
    have htail := hasTree_tail h₁ h₂ ht hx hxs
    have h := hasTree_construct (r := (layerRules k).2.1) (q := .node n)
      (by rw [Rule.rhs, (hmany k hk).1]; exact hl.cons htail.last) (hmany k hk).2
      (by rw [List.singleton_append, hconstruct, hn]; rfl)
    rwa [Rule.lhs, (hmany k hk).1] at h

/-! ## Trees of phrases -/

/-- What is known of the derivations of a phrase. Layers and lists are kept apart into their first
item and the others, so that one more item can be added. -/
def Derives : Phrase → List Token → List Node → Prop
  | .layer 0, ts, ns => ∃ n, ns = [n] ∧ HasTree (layerOf 0) ts [.node n]
  | .layer (k + 1), ts, ns => ∃ n l ls, ∃ xs : Tail, ns = [n] ∧ ts = ls ++ xs.tokens ∧
      HasTree (layerOf k) ls [.node l] ∧
      xs.Spelled (operatorAt k) (fun ts n => HasTree (layerOf k) ts [.node n]) ∧
      joinLeft l (xs.parts (operatorAt k)) = .ok n ∧ k < layerCount
  | .arguments, ts, ns => ∃ n us, ∃ xs : Tail, ns = n :: xs.nodes ∧ ts = us ++ xs.tokens ∧
      HasTree Nonterminal.expr us [.node n] ∧ xs.Spelled .comma fun ts n => HasTree Nonterminal.expr ts [.node n]
  | .statement, ts, ns => ∃ n, ns = [n] ∧ HasTree Nonterminal.statement ts [.node n]
  | .statements, ts, ns => ∃ xs : List (List Token × Node), xs ≠ [] ∧ ts = xs.flatMap (·.1) ∧ ns = xs.map (·.2) ∧
      ∀ x ∈ xs, HasTree Nonterminal.statement x.1 [.node x.2]
  | .block, ts, ns => ∃ n, ns = [n] ∧ HasTree Nonterminal.block ts [.node n]

theorem Derives.layer {k : Nat} {ts : List Token} {n : Node} (h : Derives (.layer k) ts [n]) :
    HasTree (layerOf k) ts [.node n] := by
  cases k with
  | zero =>
    obtain ⟨n', hn, htree⟩ := h
    obtain rfl := List.singleton_inj.mp hn
    exact htree
  | succ k =>
    obtain ⟨n', l, ls, xs, hn, rfl, hl, hxs, hjoin, hk⟩ := h
    obtain rfl := List.singleton_inj.mp hn
    exact hasTree_layer hk hl hxs hjoin

theorem Derives.expr {ts : List Token} {n : Node} (h : Derives (.layer layerCount) ts [n]) :
    HasTree Nonterminal.expr ts [.node n] :=
  hasTree_unit (r := .expr) rfl rfl h.layer

theorem derives_binary {k : Nat} {ls rs : List Token} {op : Token} {l r : Node}
    (hl : Derives (.layer (k + 1)) ls [l]) (hop : op.Stands (operatorAt k)) (hr : Derives (.layer k) rs [r]) :
    Derives (.layer (k + 1)) (ls ++ op :: rs) [.binary op.lexeme l r op.place] := by
  obtain ⟨n, first, us, xs, hn, rfl, hfirst, hxs, hjoin, hk⟩ := hl
  obtain rfl := List.singleton_inj.mp hn
  refine ⟨_, first, us, xs ++ [(op, rs, r)], rfl, by simp [Tail.tokens], hfirst, fun x hx => ?_, ?_, hk⟩
  · rcases List.mem_append.mp hx with hx | hx
    · exact hxs x hx
    · obtain rfl := List.mem_singleton.mp hx
      exact ⟨hop, hr.layer⟩
  · have hleaf : leafParts (operatorAt k) op = [.token op] := by
      unfold operatorAt leafParts
      split <;> rfl
    have hparts : Tail.parts (operatorAt k) (xs ++ [(op, rs, r)]) =
        Tail.parts (operatorAt k) xs ++ [.token op, .node r] := by simp [Tail.parts, hleaf]
    rw [hparts]
    exact joinLeft_snoc hjoin

/-- A primary is an operand. -/
theorem derives_primary {ts : List Token} {n : Node} (h : HasTree Nonterminal.primary ts [.node n]) :
    Derives (.layer 0) ts [n] :=
  ⟨n, rfl, hasTree_unit (r := .unaryPrimary) rfl rfl h⟩

theorem derives_unary {ts : List Token} {op : Token} {n : Node} (hop : op.Stands .unaryOp)
    (h : Derives (.layer 0) ts [n]) : Derives (.layer 0) (op :: ts) [.unary op.lexeme n op.place] :=
  ⟨_, rfl, hasTree_construct (r := .unaryOp) ((hasTree_leaf hop).cons h.layer.last) rfl rfl⟩

theorem derives_literal {t : Token} {v : Literal} (h : Parse.literalOf? t = some (.ok v)) :
    Derives (.layer 0) [t] [.literal v t.place] := by
  apply derives_primary
  obtain ⟨x, hx, hst⟩ := Parse.stands_of_literal h
  have hleaf := (hasTree_leaf hst).last
  simp only [Parse.literalTerminals, List.mem_cons, List.not_mem_nil, or_false] at hx
  rcases hx with rfl | rfl | rfl | rfl | rfl
  · rw [Parse.literalOf?, hst.kind rfl] at h
    refine hasTree_construct (r := .number) hleaf rfl ?_
    exact Success.bind_iff.mpr ⟨v, Option.some.inj h, rfl⟩
  · rw [Parse.literalOf?, hst.kind rfl] at h
    obtain ⟨s, hs, rfl⟩ := Success.map_iff.mp (Option.some.inj h)
    refine hasTree_construct (r := .string) hleaf rfl ?_
    exact Success.bind_iff.mpr ⟨s, hs, rfl⟩
  · rw [Parse.literalOf?, hst.kind rfl] at h
    obtain ⟨s, hs, rfl⟩ := Success.map_iff.mp (Option.some.inj h)
    refine hasTree_construct (r := .char) hleaf rfl ?_
    exact Success.bind_iff.mpr ⟨s, hs, rfl⟩
  · obtain ⟨hk, htrue⟩ := hst.bool (Or.inl rfl)
    rw [Parse.literalOf?, hk, htrue] at h
    obtain rfl := Except.ok.inj (Option.some.inj h)
    exact hasTree_construct (r := .litTrue) hleaf rfl rfl
  · obtain ⟨hk, hfalse⟩ := hst.bool (Or.inr rfl)
    rw [Parse.literalOf?, hk, hfalse] at h
    obtain rfl := Except.ok.inj (Option.some.inj h)
    exact hasTree_construct (r := .litFalse) hleaf rfl rfl

theorem derives_call {t lp rp : Token} {ts : List Token} {args : List Node} (ht : t.Stands .name)
    (hlp : lp.Stands .lpar) (h : Derives .arguments ts args) (hrp : rp.Stands .rpar) :
    Derives (.layer 0) (t :: lp :: (ts ++ [rp])) [.call t.lexeme args t.place] := by
  apply derives_primary
  obtain ⟨n, us, xs, rfl, rfl, hfirst, hxs⟩ := h
  have hargs : HasTree Nonterminal.args (us ++ xs.tokens) [.nodes (n :: xs.nodes)] := by
    by_cases hx : xs = []
    · subst hx
      rw [show us ++ Tail.tokens [] = us from List.append_nil us]
      exact hasTree_construct (r := .argsOne) hfirst.last rfl rfl
    · have htail := hasTree_tail (a := .moreArgsOne) (b := .moreArgsMore) rfl rfl ⟨rfl, rfl⟩ hx hxs
      refine hasTree_construct (r := .argsMany) (hfirst.cons htail.last) rfl ?_
      rw [← Tail.nodesOf_parts .comma]
      rfl
  exact hasTree_construct (r := .callArgs)
    ((hasTree_leaf ht).cons ((hasTree_leaf hlp).cons (hargs.cons (hasTree_leaf hrp).last))) rfl rfl

/-! ## Trees of statements -/

/-- A statement without a block, from its tree and a line end. -/
theorem derives_line {r : Rule} {s : Nonterminal} {f : List Token} {n : Node} {eol : Token}
    (hr : r.sides = (.simple, [.nonterminal s])) (ht : r.isTransparent = true) (h : HasTree s f [.node n])
    (he : eol.Stands .newline) : Derives .statement (f ++ [eol]) [n] := by
  have hsimple : HasTree Nonterminal.simple f [.node n] := by
    have := hasTree_unit (r := r) (by rw [Rule.rhs, hr]) ht h
    rwa [Rule.lhs, hr] at this
  exact ⟨n, rfl, hasTree_rule (r := .statementSimple) (hsimple.cons (hasTree_leaf he).last) rfl⟩

/-- A statement with a block, from its tree. -/
theorem derives_compound {r : Rule} {s : Nonterminal} {ts : List Token} {n : Node}
    (hr : r.sides = (.compound, [.nonterminal s])) (ht : r.isTransparent = true) (h : HasTree s ts [.node n]) :
    Derives .statement ts [n] := by
  have hcompound : HasTree Nonterminal.compound ts [.node n] := by
    have := hasTree_unit (r := r) (by rw [Rule.rhs, hr]) ht h
    rwa [Rule.lhs, hr] at this
  exact ⟨n, rfl, hasTree_unit (r := .statementCompound) rfl rfl hcompound⟩

theorem derives_guarded {kw : Token} {x : Terminal} {build : Node → Node → Option Position → Node}
    {ts us : List Token} {n b : Node} (hk : kw.Stands x) (hx : Parse.guardOf? x = some build)
    (h : Derives (.layer layerCount) ts [n]) (hb : HasTree Nonterminal.block us [.node b]) :
    Derives .statement (kw :: (ts ++ us)) [build n b kw.place] := by
  have htrees := (hasTree_leaf hk).cons (h.expr.cons hb.last)
  unfold Parse.guardOf? at hx
  split at hx
  · obtain rfl := Option.some.inj hx
    exact derives_compound (r := .compoundIf) rfl rfl (hasTree_construct (r := .ifStmt) htrees rfl rfl)
  · obtain rfl := Option.some.inj hx
    exact derives_compound (r := .compoundWhile) rfl rfl (hasTree_construct (r := .whileStmt) htrees rfl rfl)
  · cases hx

theorem params_tail {ts : List Token} {ns : List Node} (h : SpellsParams ts ns) :
    ∃ n us, ∃ xs : Tail, ns = n :: xs.nodes ∧ ts = us ++ xs.tokens ∧ SpellsParam us n ∧
      xs.Spelled .comma SpellsParam := by
  induction h with
  | one ht hn => exact ⟨_, _, [], rfl, rfl, ⟨_, _, ht, hn, rfl, rfl⟩, by simp [Tail.Spelled]⟩
  | more ht hn hc _ ih =>
    rename_i type name comma ts ns _
    obtain ⟨n, us, xs, rfl, rfl, hfirst, hxs⟩ := ih
    refine ⟨_, [type, name], (comma, us, n) :: xs, rfl, by simp, ⟨_, _, ht, hn, rfl, rfl⟩, fun x hx => ?_⟩
    rcases List.mem_cons.mp hx with rfl | hx
    · exact ⟨hc, hfirst⟩
    · exact hxs x hx

theorem hasTree_param {ts : List Token} {n : Node} (h : SpellsParam ts n) :
    HasTree Nonterminal.param ts [.node n] := by
  obtain ⟨type, name, ht, hn, rfl, rfl⟩ := h
  exact hasTree_construct (r := .param) ((hasTree_leaf ht).cons (hasTree_leaf hn).last) rfl rfl

theorem hasTree_params {ts : List Token} {ns : List Node} (h : SpellsParams ts ns) :
    HasTree Nonterminal.params ts [.nodes ns] := by
  obtain ⟨n, us, xs, rfl, rfl, hfirst, hxs⟩ := params_tail h
  by_cases hx : xs = []
  · subst hx
    rw [show us ++ Tail.tokens [] = us from List.append_nil us]
    exact hasTree_construct (r := .paramsOne) (hasTree_param hfirst).last rfl rfl
  · have htail := hasTree_tail (a := .moreParamsOne) (b := .moreParamsMore) (i := .param) rfl rfl ⟨rfl, rfl⟩ hx
      fun x hm => ⟨(hxs x hm).1, hasTree_param (hxs x hm).2⟩
    refine hasTree_construct (r := .paramsMany) ((hasTree_param hfirst).cons htail.last) rfl ?_
    rw [← Tail.nodesOf_parts .comma]
    rfl

theorem derives_function {name lp rp : Token} {ps rs us : List Token} {params : List Node}
    {returns : Option String} {b : Node} (hn : name.Stands .name) (hlp : lp.Stands .lpar)
    (hps : SpellsParamList ps params) (hrp : rp.Stands .rpar) (hrs : SpellsReturns rs returns)
    (hb : HasTree Nonterminal.block us [.node b]) :
    Derives .statement
      (name :: lp :: (ps ++ rp :: (rs ++ us))) [.function name.lexeme params returns b name.place] := by
  refine derives_compound (r := .compoundFunction) (s := .function) rfl rfl ?_
  have hname := hasTree_leaf hn
  have hopen := hasTree_leaf hlp
  have hclose := hasTree_leaf hrp
  cases hrs with
  | none =>
    rcases hps with ⟨rfl, rfl⟩ | hps
    · exact hasTree_construct (r := .functionPlain) (hname.cons (hopen.cons (hclose.cons hb.last))) rfl rfl
    · exact hasTree_construct (r := .functionParams)
        (hname.cons (hopen.cons ((hasTree_params hps).cons (hclose.cons hb.last)))) rfl rfl
  | some ha ht =>
    have htype := hasTree_construct (r := .returnType) ((hasTree_leaf ha).cons (hasTree_leaf ht).last) rfl rfl
    rcases hps with ⟨rfl, rfl⟩ | hps
    · exact hasTree_construct (r := .functionReturn)
        (hname.cons (hopen.cons (hclose.cons (htype.cons hb.last)))) rfl rfl
    · exact hasTree_construct (r := .functionFull)
        (hname.cons (hopen.cons ((hasTree_params hps).cons (hclose.cons (htype.cons hb.last))))) rfl rfl

theorem hasTree_statements {xs : List (List Token × Node)} (hne : xs ≠ [])
    (hxs : ∀ x ∈ xs, HasTree Nonterminal.statement x.1 [.node x.2]) :
    HasTree Nonterminal.statements (xs.flatMap (·.1)) (xs.map (.node ·.2)) := by
  induction xs using List.reverseRecOn with
  | nil => exact absurd rfl hne
  | append_singleton xs x ih =>
    have hlast := hxs x (by simp)
    by_cases hx : xs = []
    · subst hx
      have h : HasTree Nonterminal.statements x.1 [.node x.2] := hasTree_unit (r := .statementsOne) rfl rfl hlast
      simpa using h
    · have hrest := ih hx fun x hx => hxs x (List.mem_append_left _ hx)
      have h : HasTree Nonterminal.statements (xs.flatMap (·.1) ++ x.1) (xs.map (.node ·.2) ++ [.node x.2]) :=
        hasTree_rule (r := .statementsMore) (hrest.cons hlast.last) rfl
      simpa using h

theorem derives_block {eol ind ded : Token} {ts : List Token} {n : Node} {ns : List Node}
    (he : eol.Stands .newline) (hi : ind.Stands .indent) (h : Derives .statements ts (n :: ns))
    (hd : ded.Stands .dedent) :
    Derives .block (eol :: ind :: (ts ++ [ded])) [.block (n :: ns) (n.position?.getD none)] := by
  obtain ⟨xs, hne, rfl, hns, hxs⟩ := h
  refine ⟨_, rfl, hasTree_construct (r := .block) ((hasTree_leaf he).cons ((hasTree_leaf hi).cons
    ((hasTree_statements hne hxs).cons (hasTree_leaf hd).last))) rfl (construct_block ?_)⟩
  show nodesOf (xs.map (.node ·.2) ++ []) = n :: ns
  rw [List.append_nil, nodesOf_nodes, hns]

/-- What is spelled has a derivation. -/
theorem derives_of_spells {d : Nat} {p : Phrase} {ts : List Token} {ns : List Node} (h : Spells d p ts ns) :
    Derives p ts ns := by
  induction h with
  | lift hk _ ih => exact ⟨_, _, _, [], rfl, (List.append_nil _).symm, ih.layer, by simp [Tail.Spelled], rfl, hk⟩
  | binary _ _ hop _ ihl ihr => exact derives_binary ihl hop ihr
  | unary hop _ ih => exact derives_unary hop ih
  | literal hv => exact derives_literal hv
  | identifier ht => exact derives_primary (hasTree_construct (r := .identifier) (hasTree_leaf ht).last rfl rfl)
  | callPlain ht hlp hrp =>
    exact derives_primary (hasTree_construct (r := .callPlain)
      ((hasTree_leaf ht).cons ((hasTree_leaf hlp).cons (hasTree_leaf hrp).last)) rfl rfl)
  | callArgs ht hlp _ hrp ih => exact derives_call ht hlp ih hrp
  | parens hlp _ hrp ih =>
    exact derives_primary (hasTree_rule (r := .parens)
      ((hasTree_leaf hlp).cons (ih.expr.cons (hasTree_leaf hrp).last)) rfl)
  | argsOne _ ih => exact ⟨_, _, [], rfl, (List.append_nil _).symm, ih.expr, by simp [Tail.Spelled]⟩
  | argsMore _ hc _ ih ihs =>
    rename_i comma n ns _ _
    obtain ⟨m, vs, xs, rfl, rfl, hfirst, hxs⟩ := ihs
    refine ⟨_, _, (comma, vs, m) :: xs, rfl, by simp, ih.expr, fun x hx => ?_⟩
    rcases List.mem_cons.mp hx with rfl | hx
    · exact ⟨hc, hfirst⟩
    · exact hxs x hx
  | varDeclPlain ht hn he =>
    exact derives_line (r := .simpleVarDecl) (f := [_, _]) rfl rfl (hasTree_construct (r := .varDeclPlain)
      ((hasTree_leaf ht).cons (hasTree_leaf hn).last) rfl rfl) he
  | varDeclInit ht hn hq _ he ih =>
    exact derives_line (r := .simpleVarDecl) (f := _ :: _ :: _ :: _) rfl rfl (hasTree_construct (r := .varDeclInit)
      ((hasTree_leaf ht).cons ((hasTree_leaf hn).cons ((hasTree_leaf hq).cons ih.expr.last))) rfl rfl) he
  | assignment hn hq _ he ih =>
    exact derives_line (r := .simpleAssignment) (f := _ :: _ :: _) rfl rfl (hasTree_construct (r := .assignment)
      ((hasTree_leaf hn).cons ((hasTree_leaf hq).cons ih.expr.last)) rfl rfl) he
  | returnPlain hk he =>
    exact derives_line (r := .simpleReturn) (f := [_]) rfl rfl (hasTree_construct (r := .returnPlain)
      (hasTree_leaf hk).last rfl rfl) he
  | returnValue hk _ he ih =>
    exact derives_line (r := .simpleReturn) (f := _ :: _) rfl rfl (hasTree_construct (r := .returnValue)
      ((hasTree_leaf hk).cons ih.expr.last) rfl rfl) he
  | display hk _ he ih =>
    exact derives_line (r := .simpleDisplay) (f := _ :: _) rfl rfl (hasTree_construct (r := .displayStmt)
      ((hasTree_leaf hk).cons ih.expr.last) rfl rfl) he
  | guarded hk hx _ _ ih ihb =>
    obtain ⟨b, hb, htree⟩ := ihb
    obtain rfl := List.singleton_inj.mp hb
    exact derives_guarded hk hx ih htree
  | function hn hlp hps hrp hrs _ ihb =>
    obtain ⟨b, hb, htree⟩ := ihb
    obtain rfl := List.singleton_inj.mp hb
    exact derives_function hn hlp hps hrp hrs htree
  | one _ ih =>
    rename_i ts _ _
    obtain ⟨n, hn, htree⟩ := ih
    exact ⟨[(ts, n)], by simp, by simp, by simp [hn], by simpa using htree⟩
  | more _ _ ih ihs =>
    rename_i ts _ m _ _ _
    obtain ⟨n, hn, htree⟩ := ih
    obtain rfl := List.singleton_inj.mp hn
    obtain ⟨xs, -, rfl, rfl, hxs⟩ := ihs
    refine ⟨(ts, m) :: xs, by simp, by simp, by simp, fun x hx => ?_⟩
    rcases List.mem_cons.mp hx with rfl | hx
    · exact htree
    · exact hxs x hx
  | block he hi _ hd ih => exact derives_block he hi ih hd

end TillLang.Grammar
