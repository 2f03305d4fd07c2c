/-
  TillLang.Proofs.Grammar.Meaning — derivations stand for what their tokens spell.

  `Means` says for each symbol of the grammar which tokens and parts belong together, in terms
  of spelled phrases. Two small lemmas carry everything: each rule makes a meaning of its
  left side out of meanings of its right side (`means_rule`), and with them a tree means what
  its tokens spell (`Tree.Valid.means`).

  The helper nonterminals of the grammar recurse on the left where phrases recurse on the
  right. Their meaning is a plain list of separators and items (`Tail`), which both kinds of
  recursion can be read off.
-/

import TillLang.Proofs.Grammar.Derivation
import TillLang.Proofs.Parse.Spelling

namespace TillLang.Grammar

open Parse (Phrase Spells SpellsParams SpellsParamList SpellsReturns operatorAt layerCount programPosition)

/-! ## Tails -/

/-- What a terminal leaves for the rule above it. -/
def leafParts (x : Terminal) (t : Token) : List Part := if x.isStructural then [] else [.token t]

/-- Items with a separator in front of each: the separator, the tokens of the item, its node. -/
abbrev Tail := List (Token × List Token × Node)

namespace Tail

def tokens (xs : Tail) : List Token := xs.flatMap fun x => x.1 :: x.2.1

def parts (sep : Terminal) (xs : Tail) : List Part := xs.flatMap fun x => leafParts sep x.1 ++ [.node x.2.2]

def nodes (xs : Tail) : List Node := xs.map (·.2.2)

/-- Every separator stands for a terminal, and the tokens of every item for its node. -/
def Spelled (sep : Terminal) (item : List Token → Node → Prop) (xs : Tail) : Prop :=
  ∀ x ∈ xs, x.1.Stands sep ∧ item x.2.1 x.2.2

@[simp] theorem tokens_cons (x : Token × List Token × Node) (xs : Tail) :
    tokens (x :: xs) = x.1 :: (x.2.1 ++ tokens xs) := by simp [tokens]

@[simp] theorem parts_cons (sep : Terminal) (x : Token × List Token × Node) (xs : Tail) :
    parts sep (x :: xs) = leafParts sep x.1 ++ .node x.2.2 :: parts sep xs := by simp [parts]

theorem nodesOf_parts (sep : Terminal) (xs : Tail) : nodesOf (parts sep xs) = nodes xs := by
  induction xs with
  | nil => rfl
  | cons x xs ih =>
    have hleaf : nodesOf (leafParts sep x.1) = [] := by
      unfold leafParts
      split <;> rfl
    have happend : ∀ a b : List Part, nodesOf (a ++ b) = nodesOf a ++ nodesOf b := by simp [nodesOf]
    rw [parts_cons, happend, hleaf, List.nil_append, nodes, List.map_cons]
    exact congrArg _ ih

end Tail

/-! ## Layers -/

/-- The nonterminal of a layer. -/
def layerOf : Nat → Nonterminal
  | 0 => .unary
  | 1 => .multiplicative
  | 2 => .additive
  | 3 => .relational
  | _ => .equality

/-- The nonterminal of the operators and operands behind the first operand of a layer. -/
def moreOf : Nat → Nonterminal
  | 0 => .moreMultiplicative
  | 1 => .moreAdditive
  | 2 => .moreRelational
  | _ => .moreEquality

/-- Operators and operands behind an expression of their layer, joined to the left. -/
theorem spells_joinLeft {d k : Nat} (hk : k < layerCount) {xs : Tail}
    (hxs : xs.Spelled (operatorAt k) fun ts n => Spells d (.layer k) ts [n]) {ls : List Token} {l : Node}
    (hl : Spells d (.layer (k + 1)) ls [l]) :
    ∃ n, joinLeft l (xs.parts (operatorAt k)) = .ok n ∧ Spells d (.layer (k + 1)) (ls ++ xs.tokens) [n] := by
  induction xs generalizing ls l with
  | nil => exact ⟨l, rfl, by simpa [Tail.tokens] using hl⟩
  | cons x xs ih =>
    obtain ⟨op, ts, r⟩ := x
    obtain ⟨hop, hr⟩ := hxs (op, ts, r) (by simp)
    obtain ⟨n, hn, hspell⟩ := ih (fun x hx => hxs x (List.mem_cons_of_mem _ hx)) (.binary hk hl hop hr)
    refine ⟨n, ?_, by simpa using hspell⟩
    have hleaf : leafParts (operatorAt k) op = [.token op] := by
      unfold operatorAt leafParts
      split <;> rfl
    rw [Tail.parts_cons, hleaf]
    exact hn

theorem spells_arguments {d : Nat} {xs : Tail}
    (hxs : xs.Spelled .comma fun ts n => Spells d (.layer layerCount) ts [n]) {ls : List Token} {l : Node}
    (hl : Spells d (.layer layerCount) ls [l]) : Spells d .arguments (ls ++ xs.tokens) (l :: xs.nodes) := by
  induction xs generalizing ls l with
  | nil => simpa [Tail.tokens, Tail.nodes] using Spells.argsOne hl
  | cons x xs ih =>
    obtain ⟨hc, hx⟩ := hxs x (by simp)
    rw [Tail.tokens_cons]
    exact .argsMore hl hc (ih (fun x hx => hxs x (List.mem_cons_of_mem _ hx)) hx)

/-- One parameter. -/
def SpellsParam (ts : List Token) (n : Node) : Prop :=
  ∃ type name : Token, type.Stands .name ∧ name.Stands .name ∧ ts = [type, name] ∧
    n = .param (some type.lexeme) name.lexeme type.place

theorem spells_params {xs : Tail} (hxs : xs.Spelled .comma SpellsParam) {ls : List Token} {l : Node}
    (hl : SpellsParam ls l) : SpellsParams (ls ++ xs.tokens) (l :: xs.nodes) := by
  induction xs generalizing ls l with
  | nil =>
    obtain ⟨type, name, ht, hn, rfl, rfl⟩ := hl
    exact .one ht hn
  | cons x xs ih =>
    obtain ⟨hc, hx⟩ := hxs x (by simp)
    obtain ⟨type, name, ht, hn, rfl, rfl⟩ := hl
    rw [Tail.tokens_cons]
    exact .more ht hn hc (ih (fun x hx => hxs x (List.mem_cons_of_mem _ hx)) hx)

/-- Statements one after the other. -/
theorem spells_statements {d : Nat} {xs : List (List Token × Node)} (hne : xs ≠ [])
    (hxs : ∀ x ∈ xs, Spells d .statement x.1 [x.2]) :
    Spells d .statements (xs.flatMap (·.1)) (xs.map (·.2)) := by
  induction xs with
  | nil => exact absurd rfl hne
  | cons x xs ih =>
    have hx := hxs x (by simp)
    cases xs with
    | nil => simpa using Spells.one hx
    | cons y ys => exact .more hx (ih (by simp) fun x hx => hxs x (List.mem_cons_of_mem _ hx))

/-! ## Meanings of symbols -/

/-- The tokens spell a phrase that leaves one node. -/
def MeansPhrase (d : Nat) (p : Phrase) (ts : List Token) (ps : List Part) : Prop :=
  ∃ n, ps = [.node n] ∧ Spells d p ts [n]

/-- The tokens and a line end spell a statement. -/
def MeansLine (d : Nat) (ts : List Token) (ps : List Part) : Prop :=
  ∃ n, ps = [.node n] ∧ ∀ eol : Token, eol.Stands .newline → Spells d .statement (ts ++ [eol]) [n]

def MeansTail (sep : Terminal) (item : List Token → Node → Prop) (ts : List Token) (ps : List Part) : Prop :=
  ∃ xs : Tail, xs.Spelled sep item ∧ ts = xs.tokens ∧ ps = xs.parts sep

/-- Which tokens and parts belong together under a nonterminal. -/
def MeansNonterminal (d : Nat) (ts : List Token) (ps : List Part) : Nonterminal → Prop
  | .root => True
  | .start => ∃ body, ps = [.node (.program body programPosition)] ∧
      (ts = [] ∧ body = [] ∨ Spells d .statements ts body)
  | .statements => ∃ xs : List (List Token × Node), xs ≠ [] ∧ ts = xs.flatMap (·.1) ∧
      ps = xs.map (.node ·.2) ∧ ∀ x ∈ xs, Spells d .statement x.1 [x.2]
  | .statement | .compound | .ifStmt | .whileStmt | .function => MeansPhrase d .statement ts ps
  | .simple | .varDecl | .assignment | .returnStmt | .displayStmt => MeansLine d ts ps
  | .params => ∃ ns, ps = [.nodes ns] ∧ SpellsParams ts ns
  | .moreParams => MeansTail .comma SpellsParam ts ps
  | .param => ∃ n, ps = [.node n] ∧ SpellsParam ts n
  | .returnType => ∃ type, ps = [.type type] ∧ SpellsReturns ts (some type)
  | .block => MeansPhrase d .block ts ps
  | .expr | .equality => MeansPhrase d (.layer layerCount) ts ps
  | .relational => MeansPhrase d (.layer 3) ts ps
  | .additive => MeansPhrase d (.layer 2) ts ps
  | .multiplicative => MeansPhrase d (.layer 1) ts ps
  | .unary | .primary => MeansPhrase d (.layer 0) ts ps
  | .moreEquality => MeansTail .eqOp (fun ts n => Spells d (.layer 3) ts [n]) ts ps
  | .moreRelational => MeansTail .relOp (fun ts n => Spells d (.layer 2) ts [n]) ts ps
  | .moreAdditive => MeansTail .addOp (fun ts n => Spells d (.layer 1) ts [n]) ts ps
  | .moreMultiplicative => MeansTail .mulOp (fun ts n => Spells d (.layer 0) ts [n]) ts ps
  | .args => ∃ ns, ps = [.nodes ns] ∧ Spells d .arguments ts ns
  | .moreArgs => MeansTail .comma (fun ts n => Spells d (.layer layerCount) ts [n]) ts ps

/-- Which tokens and parts belong together under a symbol. -/
def Means (d : Nat) (ts : List Token) (ps : List Part) : Symbol → Prop
  | .terminal x => ∃ t : Token, t.Stands x ∧ ts = [t] ∧ ps = leafParts x t
  | .nonterminal n => MeansNonterminal d ts ps n

/-- Tokens and parts that belong together under symbols one after the other. -/
def MeansAll (d : Nat) : List Symbol → List Token → List Part → Prop
  | [], ts, ps => ts = [] ∧ ps = []
  | s :: rest, ts, ps => ∃ ts₁ ts₂ ps₁ ps₂, Means d ts₁ ps₁ s ∧ MeansAll d rest ts₂ ps₂ ∧
      ts = ts₁ ++ ts₂ ∧ ps = ps₁ ++ ps₂

/-! ## Meanings of rules -/

theorem MeansPhrase.mono {d : Nat} {p : Phrase} {ts : List Token} {ps : List Part} (h : MeansPhrase d p ts ps) :
    MeansPhrase (d + 1) p ts ps := by
  obtain ⟨n, rfl, hn⟩ := h
  exact ⟨n, rfl, hn.mono (Nat.le_succ d)⟩

theorem MeansLine.mono {d : Nat} {ts : List Token} {ps : List Part} (h : MeansLine d ts ps) :
    MeansLine (d + 1) ts ps := by
  obtain ⟨n, rfl, hn⟩ := h
  exact ⟨n, rfl, fun eol he => (hn eol he).mono (Nat.le_succ d)⟩

/-- The parts a rule leaves, given those of its right side. -/
def Leaves (r : Rule) (inner ps : List Part) : Prop :=
  if r.isTransparent then ps = inner else ∃ part, construct r inner = .ok part ∧ ps = [part]

section Layers

variable {d k : Nat} {ts ls : List Token} {ps inner : List Part}

theorem means_layerOne (hk : k < layerCount) (h : MeansPhrase d (.layer k) ts ps) :
    MeansPhrase (d + 1) (.layer (k + 1)) ts ps := by
  obtain ⟨n, rfl, hn⟩ := h
  exact ⟨n, rfl, .lift hk (hn.mono (Nat.le_succ d))⟩

theorem means_layerMany (hk : k < layerCount) (hl : MeansPhrase d (.layer k) ls ps)
    (hm : MeansTail (operatorAt k) (fun ts n => Spells d (.layer k) ts [n]) ts inner) {part : Part}
    (h : ∀ l rest, ps ++ inner = .node l :: rest → .node <$> joinLeft l rest = .ok part) :
    MeansPhrase (d + 1) (.layer (k + 1)) (ls ++ ts) [part] := by
  obtain ⟨l, rfl, hl⟩ := hl
  obtain ⟨xs, hxs, rfl, rfl⟩ := hm
  obtain ⟨n, hn, hspell⟩ := spells_joinLeft hk hxs (.lift hk hl)
  have hpart := h l (xs.parts (operatorAt k)) rfl
  rw [hn] at hpart
  exact ⟨n, by rw [← Except.ok.inj hpart], hspell.mono (Nat.le_succ d)⟩

end Layers

section Tails

variable {sep : Terminal} {item item' : List Token → Node → Prop} {t : Token} {ts us : List Token} {n : Node}
  {ps : List Part}

theorem meansTail_one (hi : ∀ ts n, item ts n → item' ts n) (ht : t.Stands sep) (hn : item ts n) :
    MeansTail sep item' (t :: ts) (leafParts sep t ++ [.node n]) := by
  refine ⟨[(t, ts, n)], ?_, by simp [Tail.tokens], by simp [Tail.parts]⟩
  intro x hx
  obtain rfl := List.mem_singleton.mp hx
  exact ⟨ht, hi _ _ hn⟩

theorem meansTail_more (hi : ∀ ts n, item ts n → item' ts n) (h : MeansTail sep item us ps) (ht : t.Stands sep)
    (hn : item ts n) : MeansTail sep item' (us ++ t :: ts) (ps ++ (leafParts sep t ++ [.node n])) := by
  obtain ⟨xs, hxs, rfl, rfl⟩ := h
  refine ⟨xs ++ [(t, ts, n)], ?_, by simp [Tail.tokens], by simp [Tail.parts]⟩
  intro x hx
  rcases List.mem_append.mp hx with hx | hx
  · exact ⟨(hxs x hx).1, hi _ _ (hxs x hx).2⟩
  · obtain rfl := List.mem_singleton.mp hx
    exact ⟨ht, hi _ _ hn⟩

end Tails

section Rules

variable {d : Nat} {ts : List Token} {ps inner : List Part}

theorem meansAll_terminal {x : Terminal} {rest : List Symbol} (h : MeansAll d (.terminal x :: rest) ts ps) :
    ∃ t ts' ps', Token.Stands t x ∧ MeansAll d rest ts' ps' ∧ ts = t :: ts' ∧ ps = leafParts x t ++ ps' := by
  obtain ⟨_, ts', _, ps', ⟨t, ht, rfl, rfl⟩, hrest, rfl, rfl⟩ := h
  exact ⟨t, ts', ps', ht, hrest, rfl, rfl⟩

theorem meansAll_last {n : Nonterminal} (h : MeansAll d [.nonterminal n] ts ps) : MeansNonterminal d ts ps n := by
  obtain ⟨ts₁, _, ps₁, _, hn, ⟨rfl, rfl⟩, rfl, rfl⟩ := h
  rw [List.append_nil, List.append_nil]
  exact hn

theorem means_varDecl {r : Rule} (hr : r = .varDeclInit ∨ r = .varDeclPlain) (hm : MeansAll d r.rhs ts inner)
    (hl : Leaves r inner ps) : MeansLine (d + 1) ts ps := by
  rcases hr with rfl | rfl
  · obtain ⟨type, _, _, ht, hm₁, rfl, rfl⟩ := meansAll_terminal hm
    obtain ⟨name, _, _, hn, hm₂, rfl, rfl⟩ := meansAll_terminal hm₁
    obtain ⟨eq, _, _, hq, hm₃, rfl, rfl⟩ := meansAll_terminal hm₂
    obtain ⟨n, rfl, hv⟩ := meansAll_last hm₃
    obtain ⟨part, hpart, rfl⟩ := hl
    obtain rfl := Except.ok.inj hpart
    exact ⟨_, rfl, fun eol he => .varDeclInit ht hn hq hv he⟩
  · obtain ⟨type, _, _, ht, hm₁, rfl, rfl⟩ := meansAll_terminal hm
    obtain ⟨name, _, _, hn, ⟨rfl, rfl⟩, rfl, rfl⟩ := meansAll_terminal hm₁
    obtain ⟨part, hpart, rfl⟩ := hl
    obtain rfl := Except.ok.inj hpart
    exact ⟨_, rfl, fun eol he => .varDeclPlain ht hn he⟩

theorem means_assignment (hm : MeansAll d Rule.assignment.rhs ts inner) (hl : Leaves .assignment inner ps) :
    MeansLine (d + 1) ts ps := by
  obtain ⟨name, _, _, hn, hm₁, rfl, rfl⟩ := meansAll_terminal hm
  obtain ⟨eq, _, _, hq, hm₂, rfl, rfl⟩ := meansAll_terminal hm₁
  obtain ⟨n, rfl, hv⟩ := meansAll_last hm₂
  obtain ⟨part, hpart, rfl⟩ := hl
  obtain rfl := Except.ok.inj hpart
  exact ⟨_, rfl, fun eol he => .assignment hn hq hv he⟩

theorem means_return {r : Rule} (hr : r = .returnValue ∨ r = .returnPlain) (hm : MeansAll d r.rhs ts inner)
    (hl : Leaves r inner ps) : MeansLine (d + 1) ts ps := by
  rcases hr with rfl | rfl
  · obtain ⟨kw, _, _, hk, hm₁, rfl, rfl⟩ := meansAll_terminal hm
    obtain ⟨n, rfl, hv⟩ := meansAll_last hm₁
    obtain ⟨part, hpart, rfl⟩ := hl
    obtain rfl := Except.ok.inj hpart
    exact ⟨_, rfl, fun eol he => .returnValue hk hv he⟩
  · obtain ⟨kw, _, _, hk, ⟨rfl, rfl⟩, rfl, rfl⟩ := meansAll_terminal hm
    obtain ⟨part, hpart, rfl⟩ := hl
    obtain rfl := Except.ok.inj hpart
    exact ⟨_, rfl, fun eol he => .returnPlain hk he⟩

theorem means_display (hm : MeansAll d Rule.displayStmt.rhs ts inner) (hl : Leaves .displayStmt inner ps) :
    MeansLine (d + 1) ts ps := by
  obtain ⟨kw, _, _, hk, hm₁, rfl, rfl⟩ := meansAll_terminal hm
  obtain ⟨n, rfl, hv⟩ := meansAll_last hm₁
  obtain ⟨part, hpart, rfl⟩ := hl
  obtain rfl := Except.ok.inj hpart
  exact ⟨_, rfl, fun eol he => .display hk hv he⟩

theorem means_guarded {r : Rule} (hr : r = .ifStmt ∨ r = .whileStmt) (hm : MeansAll d r.rhs ts inner)
    (hl : Leaves r inner ps) : MeansPhrase (d + 1) .statement ts ps := by
  rcases hr with rfl | rfl
  all_goals
    obtain ⟨kw, _, _, hk, hm₁, rfl, rfl⟩ := meansAll_terminal hm
    obtain ⟨ts₁, _, _, _, ⟨n, rfl, hn⟩, hm₂, rfl, rfl⟩ := hm₁
    obtain ⟨b, rfl, hb⟩ := meansAll_last hm₂
    obtain ⟨part, hpart, rfl⟩ := hl
    obtain rfl := Except.ok.inj hpart
    exact ⟨_, rfl, .guarded hk rfl hn hb⟩

/-- A function with or without parameters and a return type. -/
theorem means_function {r : Rule}
    (hr : r = .functionFull ∨ r = .functionParams ∨ r = .functionReturn ∨ r = .functionPlain)
    (hm : MeansAll d r.rhs ts inner) (hl : Leaves r inner ps) : MeansPhrase (d + 1) .statement ts ps := by
  rcases hr with rfl | rfl | rfl | rfl
  all_goals
    obtain ⟨name, _, _, hn, hm₁, rfl, rfl⟩ := meansAll_terminal hm
    obtain ⟨lp, _, _, hlp, hm₂, rfl, rfl⟩ := meansAll_terminal hm₁
  · obtain ⟨_, _, _, _, ⟨params, rfl, hparams⟩, hm₃, rfl, rfl⟩ := hm₂
    obtain ⟨rp, _, _, hrp, hm₄, rfl, rfl⟩ := meansAll_terminal hm₃
    obtain ⟨_, _, _, _, ⟨type, rfl, htype⟩, hm₅, rfl, rfl⟩ := hm₄
    obtain ⟨b, rfl, hb⟩ := meansAll_last hm₅
    obtain ⟨part, hpart, rfl⟩ := hl
    obtain rfl := Except.ok.inj hpart
    exact ⟨_, rfl, .function hn hlp (Or.inr hparams) hrp htype hb⟩
  · obtain ⟨_, _, _, _, ⟨params, rfl, hparams⟩, hm₃, rfl, rfl⟩ := hm₂
    obtain ⟨rp, _, _, hrp, hm₄, rfl, rfl⟩ := meansAll_terminal hm₃
    obtain ⟨b, rfl, hb⟩ := meansAll_last hm₄
    obtain ⟨part, hpart, rfl⟩ := hl
    obtain rfl := Except.ok.inj hpart
    exact ⟨_, rfl, .function hn hlp (Or.inr hparams) hrp .none hb⟩
  · obtain ⟨rp, _, _, hrp, hm₃, rfl, rfl⟩ := meansAll_terminal hm₂
    obtain ⟨_, _, _, _, ⟨type, rfl, htype⟩, hm₄, rfl, rfl⟩ := hm₃
    obtain ⟨b, rfl, hb⟩ := meansAll_last hm₄
    obtain ⟨part, hpart, rfl⟩ := hl
    obtain rfl := Except.ok.inj hpart
    exact ⟨_, rfl, .function hn hlp (show SpellsParamList [] [] from Or.inl ⟨rfl, rfl⟩) hrp htype hb⟩
  · obtain ⟨rp, _, _, hrp, hm₃, rfl, rfl⟩ := meansAll_terminal hm₂
    obtain ⟨b, rfl, hb⟩ := meansAll_last hm₃
    obtain ⟨part, hpart, rfl⟩ := hl
    obtain rfl := Except.ok.inj hpart
    exact ⟨_, rfl, .function hn hlp (show SpellsParamList [] [] from Or.inl ⟨rfl, rfl⟩) hrp .none hb⟩

theorem nodesOf_nodes (xs : List (List Token × Node)) : nodesOf (xs.map (.node ·.2)) = xs.map (·.2) := by
  induction xs with
  | nil => rfl
  | cons x xs ih => exact congrArg (x.2 :: ·) ih

theorem construct_block {parts : List Part} {n : Node} {ns : List Node} (h : nodesOf parts = n :: ns) :
    construct .block parts = .ok (.node (.block (n :: ns) (n.position?.getD none))) := by
  simp only [construct, h]

theorem means_block (hm : MeansAll d Rule.block.rhs ts inner) (hl : Leaves .block inner ps) :
    MeansPhrase (d + 1) .block ts ps := by
  obtain ⟨eol, _, _, he, hm₁, rfl, rfl⟩ := meansAll_terminal hm
  obtain ⟨ind, _, _, hi, hm₂, rfl, rfl⟩ := meansAll_terminal hm₁
  obtain ⟨_, _, _, _, ⟨xs, hne, rfl, rfl, hxs⟩, hm₃, rfl, rfl⟩ := hm₂
  obtain ⟨ded, _, _, hd, ⟨rfl, rfl⟩, rfl, rfl⟩ := meansAll_terminal hm₃
  obtain ⟨part, hpart, rfl⟩ := hl
  have hspell := spells_statements hne hxs
  cases xs with
  | nil => exact absurd rfl hne
  | cons x xs =>
    have hnodes : nodesOf ((x :: xs).map (.node ·.2) ++ []) = x.2 :: xs.map (·.2) := by
      rw [List.append_nil, nodesOf_nodes, List.map_cons]
    obtain rfl := Except.ok.inj ((construct_block hnodes).symm.trans hpart)
    exact ⟨_, rfl, (Spells.block he hi hspell hd).mono (Nat.le_succ d)⟩

theorem means_start {r : Rule} (hr : r = .startBody ∨ r = .startEmpty) (hm : MeansAll d r.rhs ts inner)
    (hl : Leaves r inner ps) : MeansNonterminal (d + 1) ts ps .start := by
  rcases hr with rfl | rfl
  · obtain ⟨xs, hne, rfl, rfl, hxs⟩ := meansAll_last hm
    obtain ⟨part, hpart, rfl⟩ := hl
    obtain rfl := Except.ok.inj hpart
    refine ⟨xs.map (·.2), by rw [nodesOf_nodes], Or.inr ?_⟩
    exact (spells_statements hne hxs).mono (Nat.le_succ d)
  · obtain ⟨rfl, rfl⟩ := hm
    obtain ⟨part, hpart, rfl⟩ := hl
    obtain rfl := Except.ok.inj hpart
    exact ⟨[], rfl, Or.inl ⟨rfl, rfl⟩⟩

theorem means_statements {r : Rule} (hr : r = .statementsOne ∨ r = .statementsMore) (hm : MeansAll d r.rhs ts inner)
    (hl : Leaves r inner ps) : MeansNonterminal (d + 1) ts ps .statements := by
  rcases hr with rfl | rfl
  · obtain rfl : ps = inner := hl
    obtain ⟨n, rfl, hn⟩ := meansAll_last hm
    refine ⟨[(ts, n)], by simp, by simp, rfl, fun x hx => ?_⟩
    obtain rfl := List.mem_singleton.mp hx
    exact hn.mono (Nat.le_succ d)
  · obtain rfl : ps = inner := hl
    obtain ⟨_, us, _, _, ⟨xs, hne, rfl, rfl, hxs⟩, hm₁, rfl, rfl⟩ := hm
    obtain ⟨n, rfl, hn⟩ := meansAll_last hm₁
    refine ⟨xs ++ [(us, n)], by simp, by simp, by simp, fun x hx => ?_⟩
    rcases List.mem_append.mp hx with hx | hx
    · exact (hxs x hx).mono (Nat.le_succ d)
    · obtain rfl := List.mem_singleton.mp hx
      exact hn.mono (Nat.le_succ d)

theorem means_params {r : Rule} (hr : r = .paramsMany ∨ r = .paramsOne) (hm : MeansAll d r.rhs ts inner)
    (hl : Leaves r inner ps) : MeansNonterminal (d + 1) ts ps .params := by
  rcases hr with rfl | rfl
  · obtain ⟨_, _, _, _, ⟨n, rfl, hn⟩, hm₁, rfl, rfl⟩ := hm
    obtain ⟨xs, hxs, rfl, rfl⟩ := meansAll_last hm₁
    obtain ⟨part, hpart, rfl⟩ := hl
    obtain rfl := Except.ok.inj hpart
    refine ⟨n :: xs.nodes, ?_, spells_params hxs hn⟩
    rw [← Tail.nodesOf_parts .comma]
    rfl
  · obtain ⟨n, rfl, hn⟩ := meansAll_last hm
    obtain ⟨part, hpart, rfl⟩ := hl
    obtain rfl := Except.ok.inj hpart
    exact ⟨[n], rfl, by
      simpa [Tail.tokens, Tail.nodes] using
        spells_params (show Tail.Spelled .comma SpellsParam [] by simp [Tail.Spelled]) hn⟩

theorem means_args {r : Rule} (hr : r = .argsMany ∨ r = .argsOne) (hm : MeansAll d r.rhs ts inner)
    (hl : Leaves r inner ps) : MeansNonterminal (d + 1) ts ps .args := by
  rcases hr with rfl | rfl
  · obtain ⟨_, _, _, _, ⟨n, rfl, hn⟩, hm₁, rfl, rfl⟩ := hm
    obtain ⟨xs, hxs, rfl, rfl⟩ := meansAll_last hm₁
    obtain ⟨part, hpart, rfl⟩ := hl
    obtain rfl := Except.ok.inj hpart
    refine ⟨n :: xs.nodes, ?_, (spells_arguments hxs hn).mono (Nat.le_succ d)⟩
    rw [← Tail.nodesOf_parts .comma]
    rfl
  · obtain ⟨n, rfl, hn⟩ := meansAll_last hm
    obtain ⟨part, hpart, rfl⟩ := hl
    obtain rfl := Except.ok.inj hpart
    exact ⟨[n], rfl, .argsOne (hn.mono (Nat.le_succ d))⟩

theorem means_returnType (hm : MeansAll d Rule.returnType.rhs ts inner) (hl : Leaves .returnType inner ps) :
    MeansNonterminal (d + 1) ts ps .returnType := by
  obtain ⟨arrow, _, _, ha, hm₁, rfl, rfl⟩ := meansAll_terminal hm
  obtain ⟨type, _, _, ht, ⟨rfl, rfl⟩, rfl, rfl⟩ := meansAll_terminal hm₁
  obtain ⟨part, hpart, rfl⟩ := hl
  obtain rfl := Except.ok.inj hpart
  exact ⟨_, rfl, .some ha ht⟩

theorem means_param (hm : MeansAll d Rule.param.rhs ts inner) (hl : Leaves .param inner ps) :
    MeansNonterminal (d + 1) ts ps .param := by
  obtain ⟨type, _, _, ht, hm₁, rfl, rfl⟩ := meansAll_terminal hm
  obtain ⟨name, _, _, hn, ⟨rfl, rfl⟩, rfl, rfl⟩ := meansAll_terminal hm₁
  obtain ⟨part, hpart, rfl⟩ := hl
  obtain rfl := Except.ok.inj hpart
  exact ⟨_, rfl, type, name, ht, hn, rfl, rfl⟩

theorem means_unaryOp (hm : MeansAll d Rule.unaryOp.rhs ts inner) (hl : Leaves .unaryOp inner ps) :
    MeansPhrase (d + 1) (.layer 0) ts ps := by
  obtain ⟨op, _, _, hop, hm₁, rfl, rfl⟩ := meansAll_terminal hm
  obtain ⟨n, rfl, hn⟩ := meansAll_last hm₁
  obtain ⟨part, hpart, rfl⟩ := hl
  obtain rfl := Except.ok.inj hpart
  exact ⟨_, rfl, .unary hop hn⟩

/-- The token of a literal stands for what the rule makes of it. -/
theorem means_literal {r : Rule} {x : Terminal} (hr : (r, x) ∈ [(Rule.number, Terminal.number), (.string, .string),
    (.char, .char), (.litTrue, .litTrue), (.litFalse, .litFalse)]) (hm : MeansAll d [.terminal x] ts inner)
    (hl : Leaves r inner ps) : MeansPhrase (d + 1) (.layer 0) ts ps := by
  obtain ⟨t, _, _, ht, ⟨rfl, rfl⟩, rfl, rfl⟩ := meansAll_terminal hm
  simp only [List.mem_cons, Prod.mk.injEq, List.not_mem_nil, or_false] at hr
  rcases hr with ⟨rfl, rfl⟩ | ⟨rfl, rfl⟩ | ⟨rfl, rfl⟩ | ⟨rfl, rfl⟩ | ⟨rfl, rfl⟩
  all_goals obtain ⟨part, hpart, rfl⟩ := hl
  · obtain ⟨v, hv, hpart⟩ := Success.bind_iff.mp hpart
    obtain rfl := Except.ok.inj hpart
    exact ⟨_, rfl, .literal (by rw [Parse.literalOf?, ht.kind rfl]; exact congrArg some hv)⟩
  · obtain ⟨v, hv, hpart⟩ := Success.bind_iff.mp hpart
    obtain rfl := Except.ok.inj hpart
    refine ⟨_, rfl, .literal ?_⟩
    rw [Parse.literalOf?, ht.kind rfl]
    exact congrArg some (Success.map_iff.mpr ⟨v, hv, rfl⟩)
  · obtain ⟨v, hv, hpart⟩ := Success.bind_iff.mp hpart
    obtain rfl := Except.ok.inj hpart
    refine ⟨_, rfl, .literal ?_⟩
    rw [Parse.literalOf?, ht.kind rfl]
    exact congrArg some (Success.map_iff.mpr ⟨v, hv, rfl⟩)
  · obtain rfl := Except.ok.inj hpart
    obtain ⟨hk, htrue⟩ := ht.bool (Or.inl rfl)
    exact ⟨_, rfl, .literal (by rw [Parse.literalOf?, hk, htrue]; rfl)⟩
  · obtain rfl := Except.ok.inj hpart
    obtain ⟨hk, hfalse⟩ := ht.bool (Or.inr rfl)
    exact ⟨_, rfl, .literal (by rw [Parse.literalOf?, hk, hfalse]; rfl)⟩

theorem means_call {r : Rule} (hr : r = .callArgs ∨ r = .callPlain) (hm : MeansAll d r.rhs ts inner)
    (hl : Leaves r inner ps) : MeansPhrase (d + 1) (.layer 0) ts ps := by
  rcases hr with rfl | rfl
  all_goals
    obtain ⟨name, _, _, hn, hm₁, rfl, rfl⟩ := meansAll_terminal hm
    obtain ⟨lp, _, _, hlp, hm₂, rfl, rfl⟩ := meansAll_terminal hm₁
  · obtain ⟨_, _, _, _, ⟨args, rfl, hargs⟩, hm₃, rfl, rfl⟩ := hm₂
    obtain ⟨rp, _, _, hrp, ⟨rfl, rfl⟩, rfl, rfl⟩ := meansAll_terminal hm₃
    obtain ⟨part, hpart, rfl⟩ := hl
    obtain rfl := Except.ok.inj hpart
    exact ⟨_, rfl, .callArgs hn hlp hargs hrp⟩
  · obtain ⟨rp, _, _, hrp, ⟨rfl, rfl⟩, rfl, rfl⟩ := meansAll_terminal hm₂
    obtain ⟨part, hpart, rfl⟩ := hl
    obtain rfl := Except.ok.inj hpart
    exact ⟨_, rfl, .callPlain hn hlp hrp⟩

theorem means_parens (hm : MeansAll d Rule.parens.rhs ts inner) (hl : Leaves .parens inner ps) :
    MeansPhrase (d + 1) (.layer 0) ts ps := by
  obtain rfl : ps = inner := hl
  obtain ⟨lp, _, _, hlp, hm₁, rfl, rfl⟩ := meansAll_terminal hm
  obtain ⟨_, _, _, _, ⟨n, rfl, hn⟩, hm₂, rfl, rfl⟩ := hm₁
  obtain ⟨rp, _, _, hrp, ⟨rfl, rfl⟩, rfl, rfl⟩ := meansAll_terminal hm₂
  exact ⟨_, rfl, .parens hlp hn hrp⟩

theorem means_identifier (hm : MeansAll d Rule.identifier.rhs ts inner) (hl : Leaves .identifier inner ps) :
    MeansPhrase (d + 1) (.layer 0) ts ps := by
  obtain ⟨name, _, _, hn, ⟨rfl, rfl⟩, rfl, rfl⟩ := meansAll_terminal hm
  obtain ⟨part, hpart, rfl⟩ := hl
  obtain rfl := Except.ok.inj hpart
  exact ⟨_, rfl, .identifier hn⟩

theorem means_statementSimple (hm : MeansAll d Rule.statementSimple.rhs ts inner)
    (hl : Leaves .statementSimple inner ps) : MeansPhrase (d + 1) .statement ts ps := by
  obtain rfl : ps = inner := hl
  obtain ⟨_, _, _, _, ⟨n, rfl, hn⟩, hm₁, rfl, rfl⟩ := hm
  obtain ⟨eol, _, _, he, ⟨rfl, rfl⟩, rfl, rfl⟩ := meansAll_terminal hm₁
  exact ⟨n, rfl, (hn eol he).mono (Nat.le_succ d)⟩

end Rules

/-- The tail of a list under a rule for its first item. -/
theorem meansAll_tailOne {d : Nat} {ts : List Token} {ps : List Part} {sep : Terminal} {n : Nonterminal}
    {i j : List Token → Node → Prop}
    (hm : MeansAll d [.terminal sep, .nonterminal n] ts ps)
    (hitem : ∀ ts ps, MeansNonterminal d ts ps n → ∃ node, ps = [.node node] ∧ i ts node)
    (hi : ∀ ts n, i ts n → j ts n) : MeansTail sep j ts ps := by
  obtain ⟨t, us, qs, ht, hm₁, rfl, rfl⟩ := meansAll_terminal hm
  obtain ⟨node, rfl, hnode⟩ := hitem _ _ (meansAll_last hm₁)
  exact meansTail_one hi ht hnode

/-- The tail of a list under a rule for one more item. -/
theorem meansAll_tailMore {d : Nat} {ts : List Token} {ps : List Part} {sep : Terminal} {m n : Nonterminal}
    {i j : List Token → Node → Prop}
    (hm : MeansAll d [.nonterminal m, .terminal sep, .nonterminal n] ts ps)
    (hmore : ∀ ts ps, MeansNonterminal d ts ps m → MeansTail sep i ts ps)
    (hitem : ∀ ts ps, MeansNonterminal d ts ps n → ∃ node, ps = [.node node] ∧ i ts node)
    (hi : ∀ ts n, i ts n → j ts n) : MeansTail sep j ts ps := by
  obtain ⟨_, _, _, _, htail, hm₁, rfl, rfl⟩ := hm
  obtain ⟨t, us, qs, ht, hm₂, rfl, rfl⟩ := meansAll_terminal hm₁
  obtain ⟨node, rfl, hnode⟩ := hitem _ _ (meansAll_last hm₂)
  exact meansTail_more hi (hmore _ _ htail) ht hnode

/-- A rule makes a meaning of its left side out of meanings of its right side. -/
theorem means_rule {d : Nat} {r : Rule} {ts : List Token} {inner ps : List Part} (hm : MeansAll d r.rhs ts inner)
    (hl : Leaves r inner ps) : Means (d + 1) ts ps r.lhs := by
  have raise : ∀ p ts n, Spells d p ts [n] → Spells (d + 1) p ts [n] := fun _ _ _ h => h.mono (Nat.le_succ d)
  cases r with
  | root => trivial
  | startBody => exact means_start (Or.inl rfl) hm hl
  | startEmpty => exact means_start (Or.inr rfl) hm hl
  | statementsOne => exact means_statements (Or.inl rfl) hm hl
  | statementsMore => exact means_statements (Or.inr rfl) hm hl
  | statementSimple => exact means_statementSimple hm hl
  | varDeclInit => exact means_varDecl (Or.inl rfl) hm hl
  | varDeclPlain => exact means_varDecl (Or.inr rfl) hm hl
  | assignment => exact means_assignment hm hl
  | returnValue => exact means_return (Or.inl rfl) hm hl
  | returnPlain => exact means_return (Or.inr rfl) hm hl
  | displayStmt => exact means_display hm hl
  | ifStmt => exact means_guarded (Or.inl rfl) hm hl
  | whileStmt => exact means_guarded (Or.inr rfl) hm hl
  | functionFull => exact means_function (Or.inl rfl) hm hl
  | functionParams => exact means_function (Or.inr (Or.inl rfl)) hm hl
  | functionReturn => exact means_function (Or.inr (Or.inr (Or.inl rfl))) hm hl
  | functionPlain => exact means_function (Or.inr (Or.inr (Or.inr rfl))) hm hl
  | paramsMany => exact means_params (Or.inl rfl) hm hl
  | paramsOne => exact means_params (Or.inr rfl) hm hl
  | param => exact means_param hm hl
  | returnType => exact means_returnType hm hl
  | block => exact means_block hm hl
  | unaryOp => exact means_unaryOp hm hl
  | number => exact means_literal (x := .number) (by decide) hm hl
  | string => exact means_literal (x := .string) (by decide) hm hl
  | char => exact means_literal (x := .char) (by decide) hm hl
  | litTrue => exact means_literal (x := .litTrue) (by decide) hm hl
  | litFalse => exact means_literal (x := .litFalse) (by decide) hm hl
  | callArgs => exact means_call (Or.inl rfl) hm hl
  | callPlain => exact means_call (Or.inr rfl) hm hl
  | identifier => exact means_identifier hm hl
  | parens => exact means_parens hm hl
  | argsMany => exact means_args (Or.inl rfl) hm hl
  | argsOne => exact means_args (Or.inr rfl) hm hl
  | moreParamsOne =>
    obtain rfl : ps = inner := hl
    exact meansAll_tailOne (i := SpellsParam) hm (fun _ _ h => h) (fun _ _ h => h)
  | moreParamsMore =>
    obtain rfl : ps = inner := hl
    exact meansAll_tailMore (i := SpellsParam) hm (fun _ _ h => h) (fun _ _ h => h) (fun _ _ h => h)
  | moreArgsOne | moreEqualityOne | moreRelationalOne | moreAdditiveOne | moreMultiplicativeOne =>
    obtain rfl : ps = inner := hl
    exact meansAll_tailOne hm (fun _ _ h => h) (raise _)
  | moreArgsMore | moreEqualityMore | moreRelationalMore | moreAdditiveMore | moreMultiplicativeMore =>
    obtain rfl : ps = inner := hl
    exact meansAll_tailMore hm (fun _ _ h => h) (fun _ _ h => h) (raise _)
  | multiplicativeOne =>
    obtain rfl : ps = inner := hl
    exact means_layerOne (k := 0) (by decide) (meansAll_last hm)
  | additiveOne =>
    obtain rfl : ps = inner := hl
    exact means_layerOne (k := 1) (by decide) (meansAll_last hm)
  | relationalOne =>
    obtain rfl : ps = inner := hl
    exact means_layerOne (k := 2) (by decide) (meansAll_last hm)
  | equalityOne =>
    obtain rfl : ps = inner := hl
    exact means_layerOne (k := 3) (by decide) (meansAll_last hm)
  | multiplicativeMany =>
    obtain ⟨part, hpart, rfl⟩ := hl
    obtain ⟨_, _, _, _, hfirst, hmore, rfl, rfl⟩ := hm
    exact means_layerMany (k := 0) (by decide) hfirst (meansAll_last hmore) fun l rest h => by
      rw [h] at hpart; exact hpart
  | additiveMany =>
    obtain ⟨part, hpart, rfl⟩ := hl
    obtain ⟨_, _, _, _, hfirst, hmore, rfl, rfl⟩ := hm
    exact means_layerMany (k := 1) (by decide) hfirst (meansAll_last hmore) fun l rest h => by
      rw [h] at hpart; exact hpart
  | relationalMany =>
    obtain ⟨part, hpart, rfl⟩ := hl
    obtain ⟨_, _, _, _, hfirst, hmore, rfl, rfl⟩ := hm
    exact means_layerMany (k := 2) (by decide) hfirst (meansAll_last hmore) fun l rest h => by
      rw [h] at hpart; exact hpart
  | equalityMany =>
    obtain ⟨part, hpart, rfl⟩ := hl
    obtain ⟨_, _, _, _, hfirst, hmore, rfl, rfl⟩ := hm
    exact means_layerMany (k := 3) (by decide) hfirst (meansAll_last hmore) fun l rest h => by
      rw [h] at hpart; exact hpart
  | simpleVarDecl | simpleAssignment | simpleReturn | simpleDisplay =>
    obtain rfl : ps = inner := hl
    exact MeansLine.mono (meansAll_last hm)
  | statementCompound | compoundIf | compoundWhile | compoundFunction | expr | unaryPrimary =>
    obtain rfl : ps = inner := hl
    exact MeansPhrase.mono (meansAll_last hm)

/-! ## Meanings of trees -/

namespace Tree

/-- Trees side by side mean something if each of them does. -/
theorem meansAll_of_means {ts : List Tree}
    (hts : ∀ t ∈ ts, ∀ d, t.size ≤ d → ∀ ps, t.parts = .ok ps → Means d t.tokens ps t.symbol) {d : Nat}
    (hd : sizeAll ts ≤ d) {ps : List Part} (hp : partsOf ts = .ok ps) :
    MeansAll d (ts.map symbol) (ts.flatMap tokens) ps := by
  induction ts generalizing ps with
  | nil =>
    obtain rfl := Except.ok.inj hp
    exact ⟨rfl, rfl⟩
  | cons t ts ih =>
    obtain ⟨p, q, hfirst, hq, rfl⟩ := partsOf_cons_iff.mp hp
    rw [sizeAll] at hd
    refine ⟨t.tokens, ts.flatMap tokens, p, q, ?_, ?_, by simp, rfl⟩
    · exact hts t (by simp) d (by omega) p hfirst
    · exact ih (fun u hu => hts u (List.mem_cons_of_mem _ hu)) (by omega) hq

/-- A tree means what its tokens spell. -/
theorem Valid.means {t : Tree} (h : t.Valid) {d : Nat} (hd : t.size ≤ d) {ps : List Part} (hp : t.parts = .ok ps) :
    Means d t.tokens ps t.symbol := by
  induction t using Tree.induction generalizing d ps with
  | leaf x token =>
    obtain rfl := Except.ok.inj hp
    exact ⟨token, h, rfl, rfl⟩
  | node rule children ih =>
    obtain ⟨hsym, hv⟩ := valid_node_iff.mp h
    obtain ⟨inner, hinner, hl⟩ := parts_node_iff.mp hp
    rw [size] at hd
    obtain ⟨d, rfl⟩ : ∃ e, d = e + 1 := ⟨d - 1, by omega⟩
    rw [tokens_node]
    refine means_rule ?_ hl
    rw [← hsym]
    exact meansAll_of_means (fun t ht d hd p hp => ih t ht (hv t ht) hd hp) (by omega) hinner

/-- Trees side by side mean what their tokens spell. -/
theorem meansAll_of_parts {ts : List Tree} (hv : ∀ t ∈ ts, t.Valid) {d : Nat} (hd : sizeAll ts ≤ d) {ps : List Part}
    (hp : partsOf ts = .ok ps) : MeansAll d (ts.map symbol) (ts.flatMap tokens) ps :=
  meansAll_of_means (fun t ht _ hd _ hp => (hv t ht).means hd hp) hd hp

end Tree

end TillLang.Grammar
