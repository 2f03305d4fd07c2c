/-
  TillLang.Proofs.Grammar.Viable — where a text stops being the start of a sentence.

  The sentences are the texts derived from the root, the end of the text included, and what
  they start with is viable. Parsing by a certified table refuses a text at the first terminal
  that is not viable behind the ones before it (`refuses_first`), and never gets stuck:
  - the trees on the stack and what is due in an item of the state on top can be completed to
    a sentence, rule by rule down the stack (`completes`), so what was read is viable;
  - what the run does up to a terminal depends on no more than that terminal (`Steps.locally`),
    so on a sentence that starts alike it would be refused as well.
-/

import TillLang.Proofs.Grammar.Acceptance

namespace TillLang

namespace Grammar

/-! ## Sentences -/

/-- The terminals of a whole text, its end included. -/
def Sentence (xs : List Terminal) : Prop :=
  ∃ t : Tree, t.Valid ∧ t.symbol = .nonterminal .root ∧ t.yield.map Prod.fst = xs

/-- Terminals that a sentence starts with. -/
def Viable (xs : List Terminal) : Prop := ∃ ys, Sentence (xs ++ ys)

theorem Viable.of_append {xs ys : List Terminal} (h : Viable (xs ++ ys)) : Viable xs := by
  obtain ⟨zs, hz⟩ := h
  exact ⟨ys ++ zs, by rwa [← List.append_assoc]⟩

/-! ## Every symbol derives something -/

/-- A token of a terminal. -/
def sample (x : Terminal) : Token :=
  let (kind, lexeme) : Token.Kind × String := match x with
    | .name => (.name, "x")
    | .number => (.number, "1")
    | .string => (.string, "\"\"")
    | .char => (.char, "' '")
    | .litTrue => (.bool, "true")
    | .litFalse => (.bool, "false")
    | .kwIf => (.keyword, "if")
    | .kwWhile => (.keyword, "while")
    | .kwReturn => (.keyword, "return")
    | .kwDisplay => (.keyword, "display")
    | .eqOp => (.op, "==")
    | .relOp => (.op, "<")
    | .addOp => (.op, "+")
    | .mulOp => (.op, "*")
    | .unaryOp => (.op, "!")
    | .lpar => (.op, "(")
    | .rpar => (.op, ")")
    | .comma => (.op, ",")
    | .arrow => (.op, "->")
    | .assign => (.op, "=")
    | .newline => (.newline, "")
    | .indent => (.indent, "")
    | .dedent => (.dedent, "")
    | .finish => (.eof, "")
  ⟨kind, lexeme, 1, 1, 0⟩

theorem ofToken_sample (x : Terminal) : Terminal.ofToken? (sample x) = some x := by
  cases x <;> decide

/-- A rule that leads to a text of a nonterminal. -/
def exampleRule : Nonterminal → Rule
  | .root => .root
  | .start => .startEmpty
  | .statements => .statementsOne
  | .statement => .statementSimple
  | .simple => .simpleReturn
  | .compound => .compoundFunction
  | .varDecl => .varDeclPlain
  | .assignment => .assignment
  | .returnStmt => .returnPlain
  | .displayStmt => .displayStmt
  | .ifStmt => .ifStmt
  | .whileStmt => .whileStmt
  | .function => .functionPlain
  | .params => .paramsOne
  | .moreParams => .moreParamsOne
  | .param => .param
  | .returnType => .returnType
  | .block => .block
  | .expr => .expr
  | .equality => .equalityOne
  | .moreEquality => .moreEqualityOne
  | .relational => .relationalOne
  | .moreRelational => .moreRelationalOne
  | .additive => .additiveOne
  | .moreAdditive => .moreAdditiveOne
  | .multiplicative => .multiplicativeOne
  | .moreMultiplicative => .moreMultiplicativeOne
  | .unary => .unaryPrimary
  | .primary => .identifier
  | .args => .argsOne
  | .moreArgs => .moreArgsOne

/-- How many such rules stand one below the other. -/
def height : Symbol → Nat
  | .terminal _ => 0
  | .nonterminal n => match n with
    | .start | .returnStmt | .param | .returnType | .primary | .varDecl => 1
    | .unary | .simple | .root | .params | .moreParams => 2
    | .multiplicative | .moreMultiplicative | .statement => 3
    | .additive | .moreAdditive | .statements => 4
    | .relational | .moreRelational | .block => 5
    | .equality | .moreEquality | .function => 6
    | .expr | .compound => 7
    | .assignment | .displayStmt | .ifStmt | .whileStmt | .args | .moreArgs => 8

theorem lhs_exampleRule (n : Nonterminal) : (exampleRule n).lhs = n := by cases n <;> rfl

theorem height_exampleRule (n : Nonterminal) : ∀ x ∈ (exampleRule n).rhs, height x < height n := by
  cases n <;> decide

theorem exists_trees_of {xs : List Symbol} (h : ∀ x ∈ xs, ∃ t : Tree, t.Valid ∧ t.symbol = x) :
    ∃ ts : List Tree, ts.map Tree.symbol = xs ∧ ∀ t ∈ ts, t.Valid := by
  induction xs with
  | nil => exact ⟨[], rfl, by simp⟩
  | cons x xs ih =>
    obtain ⟨t, ht, rfl⟩ := h x List.mem_cons_self
    obtain ⟨ts, rfl, hts⟩ := ih fun y hy => h y (List.mem_cons_of_mem _ hy)
    exact ⟨t :: ts, rfl, List.forall_mem_cons.mpr ⟨ht, hts⟩⟩

theorem exists_tree (x : Symbol) : ∃ t : Tree, t.Valid ∧ t.symbol = x := by
  induction hn : height x using Nat.strongRecOn generalizing x with
  | _ n ih =>
    subst hn
    cases x with
    | terminal x => exact ⟨.leaf x (sample x), ofToken_sample x, rfl⟩
    | nonterminal n =>
      obtain ⟨ts, hsym, hv⟩ := exists_trees_of fun x hx => ih _ (height_exampleRule n x hx) x rfl
      exact ⟨.node (exampleRule n) ts, Tree.valid_node_iff.mpr ⟨hsym, hv⟩, by rw [Tree.symbol, lhs_exampleRule]⟩

theorem exists_trees (xs : List Symbol) : ∃ ts : List Tree, ts.map Tree.symbol = xs ∧ ∀ t ∈ ts, t.Valid :=
  exists_trees_of fun x _ => exists_tree x

/-! ## Other tokens of the same terminals -/

/-- A text with the terminals of a derived one is derived. -/
theorem Tree.Valid.relabel {t : Tree} (h : t.Valid) {text : List (Terminal × Token)}
    (hx : text.map Prod.fst = t.yield.map Prod.fst) (htext : ∀ p ∈ text, Terminal.ofToken? p.2 = some p.1) :
    ∃ u : Tree, u.Valid ∧ u.symbol = t.symbol ∧ u.yield = text := by
  induction t using Tree.induction generalizing text with
  | leaf x token =>
    obtain ⟨p, rfl, rfl⟩ : ∃ p, text = [p] ∧ p.1 = x := by
      obtain ⟨p, rest, rfl, hp, hrest⟩ := List.map_eq_cons_iff.mp hx
      exact ⟨p, by rw [List.map_eq_nil_iff.mp hrest], hp⟩
    exact ⟨.leaf p.1 p.2, htext p List.mem_cons_self, rfl, rfl⟩
  | node rule children ih =>
    obtain ⟨hsym, hv⟩ := Tree.valid_node_iff.mp h
    have hall : ∀ ts : List Tree, (∀ t ∈ ts, t ∈ children) → ∀ text : List (Terminal × Token),
        text.map Prod.fst = (Tree.yieldAll ts).map Prod.fst → (∀ p ∈ text, Terminal.ofToken? p.2 = some p.1) →
        ∃ us : List Tree, (∀ u ∈ us, u.Valid) ∧ us.map Tree.symbol = ts.map Tree.symbol ∧ Tree.yieldAll us = text := by
      intro ts hts
      induction ts with
      | nil =>
        intro text hx _
        exact ⟨[], by simp, rfl, (List.map_eq_nil_iff.mp hx).symm⟩
      | cons t ts iht =>
        intro text hx htext
        rw [Tree.yieldAll, List.map_append] at hx
        obtain ⟨front, rest, rfl, hfront, hrest⟩ := List.map_eq_append_iff.mp hx
        obtain ⟨u, hu, husym, hyield⟩ := ih t (hts t List.mem_cons_self) (hv t (hts t List.mem_cons_self)) hfront
          fun p hp => htext p (List.mem_append_left _ hp)
        obtain ⟨us, hus, hussym, hyields⟩ := iht (fun v hm => hts v (List.mem_cons_of_mem _ hm)) rest hrest
          fun p hp => htext p (List.mem_append_right _ hp)
        refine ⟨u :: us, List.forall_mem_cons.mpr ⟨hu, hus⟩, by simp [husym, hussym], ?_⟩
        rw [Tree.yieldAll, hyield, hyields]
    obtain ⟨us, hus, hussym, hyield⟩ := hall children (fun _ => id) text hx htext
    exact ⟨.node rule us, Tree.valid_node_iff.mpr ⟨hussym.trans hsym, hus⟩, rfl, hyield⟩

theorem finish_of_rule (r : Rule) (h : r ≠ .root) :
    ∀ x ∈ r.rhs, x ≠ .terminal .finish ∧ x ≠ .nonterminal .root := by
  cases r <;> first | exact absurd rfl h | decide

/-- The end of the text stands below the root only. -/
theorem Tree.Valid.ne_finish {t : Tree} (h : t.Valid) (hf : t.symbol ≠ .terminal .finish)
    (hr : t.symbol ≠ .nonterminal .root) : ∀ p ∈ t.yield, p.1 ≠ .finish := by
  induction t using Tree.induction with
  | leaf x token =>
    intro p hp
    obtain rfl := List.mem_singleton.mp hp
    rintro rfl
    exact hf rfl
  | node rule children ih =>
    intro p hp
    obtain ⟨hsym, hv⟩ := Tree.valid_node_iff.mp h
    rw [Tree.yield, Tree.yieldAll_eq] at hp
    obtain ⟨t, ht, hp⟩ := List.mem_flatMap.mp hp
    have hrule : rule ≠ .root := by
      rintro rfl
      exact hr rfl
    obtain ⟨hf', hr'⟩ := finish_of_rule rule hrule t.symbol (hsym ▸ List.mem_map_of_mem ht)
    exact ih t ht (hv t ht) hf' hr' p hp

/-- A sentence is a text of the start symbol and its end. -/
theorem sentence_iff {xs : List Terminal} : Sentence xs ↔ ∃ t : Tree, t.Valid ∧ t.symbol = .nonterminal .start ∧
    t.yield.map Prod.fst ++ [.finish] = xs := by
  constructor
  · rintro ⟨t, hv, hsym, rfl⟩
    cases t with
    | leaf x token => cases hsym
    | node rule children =>
      obtain rfl : rule = .root := by
        revert hsym
        cases rule <;> first | exact fun _ => rfl | exact fun h => by cases h
      obtain ⟨hchildren, hv⟩ := Tree.valid_node_iff.mp hv
      obtain ⟨t, last, rfl⟩ : ∃ t last, children = [t, last] := by
        obtain ⟨t, rest, rfl, -, hrest⟩ := List.map_eq_cons_iff.mp hchildren
        obtain ⟨last, rest, rfl, -, hrest⟩ := List.map_eq_cons_iff.mp hrest
        exact ⟨t, last, by rw [List.map_eq_nil_iff.mp hrest]⟩
      simp only [List.map_cons, List.map_nil, Rule.rhs, Rule.sides, List.cons.injEq, and_true] at hchildren
      obtain ⟨hstart, hlast⟩ := hchildren
      refine ⟨t, hv t (by simp), hstart, ?_⟩
      cases last with
      | node r ts => cases hlast
      | leaf x token =>
        cases hlast
        simp [Tree.yield, Tree.yieldAll]
  · rintro ⟨t, hv, hsym, rfl⟩
    refine ⟨.node .root [t, .leaf .finish (sample .finish)], ?_, rfl, by simp [Tree.yield, Tree.yieldAll]⟩
    refine Tree.valid_node_iff.mpr ⟨by rw [List.map_cons, hsym]; rfl, ?_⟩
    intro u hu
    simp only [List.mem_cons, List.not_mem_nil, or_false] at hu
    rcases hu with rfl | rfl
    · exact hv
    · exact ofToken_sample .finish

/-! ## Completing a stack -/

/-- A nonterminal is due in some items: behind the mark of one that has moved, of the root, or at the start of
a rule that is due itself. -/
inductive Due (items : List Item) : Nonterminal → Prop
  | behind {i : Item} {n : Nonterminal} (hi : i ∈ items) (hd : i.dot ≠ 0 ∨ i.rule = .root)
      (hn : i.next? = some (.nonterminal n)) : Due items n
  | corner {r : Rule} {n : Nonterminal} (h : Due items r.lhs) (hn : Item.next? ⟨r, 0⟩ = some (.nonterminal n)) :
      Due items n

/-- A rule starts in a state only if its nonterminal is due there. The state is the first one or behind a move. -/
def OpensDue (entry : Nat → Entry) (items : Nat → List Item) : Prop :=
  ∀ n, (n = 0 ∨ ∃ m x, (entry m).move? x = some n) → ∀ r, ⟨r, 0⟩ ∈ items n → r = .root ∨ Due (items n) r.lhs

section Stack

variable {entry : Nat → Entry} {items : Nat → List Item} {ahead : Nat → Item → Terminal → Prop} {stack : List Frame}

/-- The text of the trees on a stack. -/
def textOf (stack : List Frame) : List (Terminal × Token) := Tree.yieldAll ((stack.map Frame.tree).reverse)

/-- The stack and the texts of some trees are the start of a sentence. -/
def Completes (stack : List Frame) (ts : List Tree) : Prop :=
  ∃ (t : Tree) (us : List (Terminal × Token)), t.Valid ∧ t.symbol = .nonterminal .root ∧
    t.yield = textOf stack ++ (Tree.yieldAll ts ++ us)

theorem Completes.front {ts us : List Tree} (h : Completes stack (ts ++ us)) : Completes stack ts := by
  obtain ⟨t, rest, hv, hsym, hy⟩ := h
  exact ⟨t, Tree.yieldAll us ++ rest, hv, hsym, by rw [hy, Tree.yieldAll_append, List.append_assoc]⟩

/-- What is due in an item and begins with a symbol. -/
theorem Item.drop_of_next {i : Item} {x : Symbol} (h : i.next? = some x) :
    i.rule.rhs.drop i.dot = x :: i.following := by
  obtain ⟨hlt, hget⟩ := List.getElem?_eq_some_iff.mp h
  rw [List.drop_eq_getElem_cons hlt, hget]
  rfl

/-- A stack is completed by any trees of the symbols that are due in an item of its state. -/
def CompletesAll (items : Nat → List Item) (stack : List Frame) (i : Item) : Prop :=
  i ∈ items (stateOf stack) → ∀ ts : List Tree, ts.map Tree.symbol = i.rule.rhs.drop i.dot → (∀ t ∈ ts, t.Valid) →
    Completes stack ts

/-- What an item needs besides its next symbol can be added. -/
theorem CompletesAll.next {i : Item} (h : CompletesAll items stack i) (hi : i ∈ items (stateOf stack)) {t : Tree}
    (ht : t.Valid) (hn : i.next? = some t.symbol) : Completes stack [t] := by
  obtain ⟨ts, hsym, hts⟩ := exists_trees i.following
  have hdue : (t :: ts).map Tree.symbol = i.rule.rhs.drop i.dot := by
    rw [Item.drop_of_next hn, List.map_cons, hsym]
  have hall : Completes stack ([t] ++ ts) := h hi _ hdue (List.forall_mem_cons.mpr ⟨ht, hts⟩)
  exact hall.front

/-- An item whose mark has moved: its rule started further down, and its symbols up to the mark are on top. -/
theorem completesAll_moved (hc : Certified entry items ahead) (hpath : Path entry stack)
    (hvalid : ∀ f ∈ stack, f.tree.Valid) {i : Item}
    (hbelow : CompletesAll items (stack.drop i.dot) ⟨i.rule, 0⟩) : CompletesAll items stack i := by
  intro hi ts hts hv
  obtain ⟨-, -, hsym, hstart⟩ := hpath.symbols_of_item hc hi
  obtain ⟨t, us, ht, hroot, hy⟩ := hbelow hstart (((stack.take i.dot).map Frame.tree).reverse ++ ts)
    (by rw [List.map_append, List.map_reverse, List.map_map, hts, List.drop_zero]
        refine (congrArg (· ++ _) ?_).trans (List.take_append_drop i.dot i.rule.rhs)
        exact hsym)
    (by
      intro t ht
      rcases List.mem_append.mp ht with ht | ht
      · obtain ⟨f, hf, rfl⟩ := List.mem_map.mp (List.mem_reverse.mp ht)
        exact hvalid f (List.mem_of_mem_take hf)
      · exact hv t ht)
  refine ⟨t, us, ht, hroot, ?_⟩
  have hstack :
    textOf stack = textOf (stack.drop i.dot) ++ Tree.yieldAll ((stack.take i.dot).map Frame.tree).reverse := by
    rw [textOf, textOf, ← Tree.yieldAll_append, ← List.reverse_append, ← List.map_append, List.take_append_drop]
  rw [hy, hstack, Tree.yieldAll_append]
  simp only [List.append_assoc]

/-- Where a nonterminal is due, a tree of it can be completed. -/
theorem Due.completes {n : Nonterminal} (h : Due (items (stateOf stack)) n)
    (hmoved : ∀ i ∈ items (stateOf stack), i.dot ≠ 0 ∨ i.rule = .root → CompletesAll items stack i) {t : Tree}
    (ht : t.Valid) (hsym : t.symbol = .nonterminal n) : Completes stack [t] := by
  induction h generalizing t with
  | behind hi hd hn => exact (hmoved _ hi hd).next hi ht (hsym ▸ hn)
  | @corner r n _ hn ih =>
    obtain ⟨ts, htsym, hts⟩ := exists_trees (Item.following ⟨r, 0⟩)
    have hnode : (Tree.node r (t :: ts)).Valid := by
      refine Tree.valid_node_iff.mpr ⟨?_, List.forall_mem_cons.mpr ⟨ht, hts⟩⟩
      rw [List.map_cons, htsym, hsym, ← Item.drop_of_next hn, List.drop_zero]
    obtain ⟨u, us, hu, hroot, hy⟩ := ih hnode rfl
    refine ⟨u, Tree.yieldAll ts ++ us, hu, hroot, ?_⟩
    rw [hy]
    simp [Tree.yieldAll, Tree.yield]

theorem Path.reached (h : Path entry stack) : stateOf stack = 0 ∨ ∃ m x, (entry m).move? x = some (stateOf stack) := by
  cases h with
  | nil => exact .inl rfl
  | cons _ hm => exact .inr ⟨_, _, hm⟩

/-- The trees on a stack and what is due in an item of its state are the start of a sentence. -/
theorem completes (hc : Certified entry items ahead) (hopens : OpensDue entry items) (hpath : Path entry stack)
    (hvalid : ∀ f ∈ stack, f.tree.Valid) (i : Item) : CompletesAll items stack i := by
  induction hn : stack.length using Nat.strongRecOn generalizing stack i with
  | _ n ih =>
    subst hn
    -- the root starts in front of the text
    have hroot : CompletesAll items stack ⟨.root, 0⟩ := by
      intro hi ts hts hv
      obtain rfl := hpath.eq_nil hc (hc.rootOnce _ hi)
      exact ⟨.node .root ts, [], Tree.valid_node_iff.mpr ⟨hts, hv⟩, rfl, by simp [textOf, Tree.yieldAll, Tree.yield]⟩
    -- an item that has moved started on a shorter stack
    have hmoved : ∀ i ∈ items (stateOf stack), i.dot ≠ 0 ∨ i.rule = .root → CompletesAll items stack i := by
      intro i hi hd
      by_cases h0 : i.dot = 0
      · obtain ⟨rule, dot⟩ := i
        obtain rfl : dot = 0 := h0
        obtain rfl : rule = .root := hd.resolve_left fun h => h rfl
        exact hroot
      · obtain ⟨-, hle, -, -⟩ := hpath.symbols_of_item hc hi
        refine completesAll_moved hc hpath hvalid (ih _ ?_ (hpath.drop _) (fun f hf => ?_) _ rfl)
        · rw [List.length_drop]
          omega
        · exact hvalid f (List.mem_of_mem_drop hf)
    intro hi ts hts hv
    by_cases h0 : i.dot = 0
    · obtain ⟨rule, dot⟩ := i
      obtain rfl : dot = 0 := h0
      rcases hopens _ hpath.reached rule hi with rfl | hdue
      · exact hroot hi ts hts hv
      · have hnode : (Tree.node rule ts).Valid := Tree.valid_node_iff.mpr ⟨hts, hv⟩
        obtain ⟨t, us, ht, hsym, hy⟩ := hdue.completes hmoved hnode rfl
        exact ⟨t, us, ht, hsym, by rw [hy]; simp [Tree.yieldAll, Tree.yield]⟩
    · exact hmoved i hi (.inl h0) hi ts hts hv

/-- Some item describes what has been read. -/
theorem Path.exists_item (hc : Certified entry items ahead) (h : Path entry stack) :
    ∃ i, i ∈ items (stateOf stack) := by
  cases h with
  | nil => exact ⟨_, hc.rootFirst⟩
  | cons _ hm =>
    obtain ⟨-, ⟨i, hi, -⟩, -⟩ := hc.moveBack _ _ _ hm
    exact ⟨i, hi⟩

/-- What has been read is viable. -/
theorem viable_of_path (hc : Certified entry items ahead) (hopens : OpensDue entry items) (hpath : Path entry stack)
    (hvalid : ∀ f ∈ stack, f.tree.Valid) : Viable ((textOf stack).map Prod.fst) := by
  obtain ⟨i, hi⟩ := hpath.exists_item hc
  obtain ⟨ts, hts, hv⟩ := exists_trees (i.rule.rhs.drop i.dot)
  obtain ⟨t, us, ht, hsym, hy⟩ := completes hc hopens hpath hvalid i hi ts hts hv
  exact ⟨(Tree.yieldAll ts ++ us).map Prod.fst, t, ht, hsym, by rw [hy, List.map_append]⟩

end Stack

/-! ## Runs that are refused -/

/-- A run comes from one configuration to another. -/
inductive Steps (entry : Nat → Entry) : Configuration → Configuration → Prop
  | refl {c : Configuration} : Steps entry c c
  | next {c c₁ c₂ : Configuration} (hs : step entry c = .next c₁) (h : Steps entry c₁ c₂) : Steps entry c c₂

section Runs

variable {entry : Nat → Entry} {items : Nat → List Item} {ahead : Nat → Item → Terminal → Prop}
  {text : List (Terminal × Token)} {c c' : Configuration}

theorem Steps.derived (hc : Certified entry items ahead) (h : Steps entry c c') (hd : Derived entry text c) :
    Derived entry text c' := by
  induction h with
  | refl => exact hd
  | next hs _ ih => exact ih (step_keeps hc hd hs)

theorem Steps.of_refused {steps : Nat} {state : Nat} {found : Option (Terminal × Token)}
    (h : run entry steps c = .refused state found) : ∃ c', Steps entry c c' ∧ step entry c' = .refused state found := by
  induction steps generalizing c with
  | zero => cases h
  | succ steps ih =>
    rw [run] at h
    split at h
    · rename_i c₁ hs
      obtain ⟨c', hsteps, hlast⟩ := ih h
      exact ⟨c', .next hs hsteps, hlast⟩
    · cases h
    · rename_i hs
      cases h
      exact ⟨c, .refl, hs⟩
    · cases h

/-- A run that comes to a place where it is refused accepts nothing. -/
theorem Steps.not_accepted (h : Steps entry c c') {state : Nat} {found : Option (Terminal × Token)}
    (hlast : step entry c' = .refused state found) (steps : Nat) (t : Tree) : run entry steps c ≠ .accepted t := by
  induction h generalizing steps with
  | refl =>
    cases steps with
    | zero => simp [run]
    | succ steps => simp [run, hlast]
  | next hs _ ih =>
    cases steps with
    | zero => simp [run]
    | succ steps =>
      rw [run, hs]
      exact ih hlast steps

theorem step_reduce {r : Rule} (ha : (entry c.state).action? c.ahead = some (.reduce r)) :
    step entry c = reduce entry r c := by
  rw [step, ha]

theorem rest_of_reduce {r : Rule} (h : reduce entry r c = .next c') : c'.rest = c.rest ∧
    ∀ rest, reduce entry r ⟨c.stack, rest⟩ = .next ⟨c'.stack, rest⟩ := by
  unfold reduce at h ⊢
  simp only at h ⊢
  split at h
  · cases h
  · rename_i hlen
    split at h
    · cases h
    · rename_i state hm
      cases h
      refine ⟨rfl, fun rest => ?_⟩
      rw [if_neg hlen,
        show (entry (Configuration.state ⟨c.stack.drop r.rhs.length, rest⟩)).move? r.lhs = some state from hm]

/-- A run looks no further ahead than to the next terminal. -/
theorem Steps.locally (h : Steps entry c c') : ∃ front, c.rest = front ++ c'.rest ∧
    ∀ rest, aheadOfText rest = aheadOfText c'.rest → Steps entry ⟨c.stack, front ++ rest⟩ ⟨c'.stack, rest⟩ := by
  induction h with
  | refl => exact ⟨[], rfl, fun _ _ => .refl⟩
  | @next c c₁ c' hs _ ih =>
    obtain ⟨front, hfront, hsteps⟩ := ih
    cases ha : (entry c.state).action? c.ahead with
    | none =>
      simp only [step, ha] at hs
      cases hs
    | some action =>
      cases action with
      | reduce r =>
        rw [step_reduce ha] at hs
        obtain ⟨hrest, hreduce⟩ := rest_of_reduce hs
        rw [hrest] at hfront
        refine ⟨front, hfront, fun rest hahead => .next ?_ (hsteps rest hahead)⟩
        have hsame : Configuration.ahead ⟨c.stack, front ++ rest⟩ = c.ahead := by
          cases front with
          | nil =>
            simp only [Configuration.ahead, hfront]
            exact hahead
          | cons p front => simp [Configuration.ahead, hfront]
        rw [step_reduce (r := r) (by rw [hsame]; exact ha)]
        exact hreduce _
      | shift m =>
        obtain ⟨stack, all⟩ := c
        cases all with
        | nil =>
          cases stack with
          | nil =>
            simp only [step, ha] at hs
            cases hs
          | cons f stack =>
            simp only [step, ha] at hs
            cases hs
        | cons p tail =>
          simp only [step, ha] at hs
          cases hs
          refine ⟨p :: front, by rw [List.cons_append, ← hfront], fun rest hahead => .next ?_ (hsteps rest hahead)⟩
          have hshift : (entry (Configuration.state ⟨stack, p :: (front ++ rest)⟩)).action?
              (Configuration.ahead ⟨stack, p :: (front ++ rest)⟩) = some (.shift m) := ha
          simp only [List.cons_append, step, hshift]

/-! ## Runs end -/

/-- The steps that have led to a stack. -/
def stepsDone (stack : List Frame) : Nat := stepsOfAll ((stack.map Frame.tree).reverse)

theorem stepsOfAll_append (ts us : List Tree) : stepsOfAll (ts ++ us) = stepsOfAll ts + stepsOfAll us := by
  induction ts with
  | nil => simp [stepsOfAll, Tree.yieldAll, Tree.sizeAll]
  | cons t ts ih =>
    simp only [stepsOfAll, Tree.yieldAll, Tree.sizeAll, List.cons_append, List.length_append] at ih ⊢
    omega

theorem stepsDone_cons (f : Frame) (stack : List Frame) :
    stepsDone (f :: stack) = stepsDone stack + stepsOf f.tree := by
  rw [stepsDone, List.map_cons, List.reverse_cons, stepsOfAll_append]
  simp [stepsDone, stepsOfAll, stepsOf, Tree.yieldAll, Tree.sizeAll]

theorem stepsDone_next (hs : step entry c = .next c') : stepsDone c'.stack = stepsDone c.stack + 1 := by
  unfold step at hs
  split at hs
  · cases hs
  · rename_i r _
    unfold reduce at hs
    simp only at hs
    split at hs
    · cases hs
    split at hs
    · cases hs
    · cases hs
      have hsplit : stepsDone c.stack = stepsDone (c.stack.drop r.rhs.length) +
          stepsOfAll ((c.stack.take r.rhs.length).map Frame.tree).reverse := by
        rw [stepsDone, stepsDone, ← stepsOfAll_append, ← List.reverse_append, ← List.map_append,
          List.take_append_drop]
      rw [stepsDone_cons, hsplit]
      simp only [stepsOf, stepsOfAll, Tree.yield, Tree.size]
      omega
  · split at hs
    · cases hs
      rw [stepsDone_cons]
      simp [stepsOf, Tree.yield, Tree.size]
    · cases hs
    · cases hs

/-- The start of the text stands in one rule only. -/
theorem root_of_start {r : Rule} {d : Nat} (h : r.rhs[d]? = some (.nonterminal .start)) : r = .root ∧ d = 0 := by
  have hr : r = .root := by
    have hmem := List.mem_of_getElem? h
    revert hmem
    cases r <;> decide
  subst hr
  match d with
  | 0 => exact ⟨rfl, rfl⟩
  | 1 => cases h
  | d + 2 => cases h

theorem slack_nonneg {x : Symbol} (hs : x ≠ .nonterminal .start) (hr : x ≠ .nonterminal .root) : 0 ≤ Tree.slack x := by
  cases x with
  | terminal t => simp [Tree.slack]
  | nonterminal n => cases n <;> first | exact absurd rfl hs | exact absurd rfl hr | decide

/-- A tree of the start symbol is the only one on the stack, and none of the root is on it. -/
theorem Path.start_below {f : Frame} {stack : List Frame} (hc : Certified entry items ahead)
    (h : Path entry (f :: stack)) :
    f.tree.symbol ≠ .nonterminal .root ∧ (f.tree.symbol = .nonterminal .start → stack = []) := by
  cases h with
  | cons h hm =>
    obtain ⟨-, ⟨i, hi, d, hd⟩, hback⟩ := hc.moveBack _ _ _ hm
    obtain ⟨hx, hitem⟩ := hback i hi d hd
    refine ⟨fun hroot => ?_, fun hstart => ?_⟩
    · have hmem := List.mem_of_getElem? (hroot ▸ hx)
      revert hmem
      cases i.rule <;> decide
    · obtain ⟨hrule, rfl⟩ := root_of_start (hstart ▸ hx)
      rw [hrule] at hitem
      exact h.eq_nil hc (hc.rootOnce _ hitem)

theorem textOf_cons (f : Frame) (stack : List Frame) : textOf (f :: stack) = textOf stack ++ f.tree.yield := by
  rw [textOf, List.map_cons, List.reverse_cons, Tree.yieldAll_append]
  simp [textOf, Tree.yieldAll]

/-- For each terminal there are at most sixteen rules on the stack, one of the start symbol apart. -/
theorem stepsDone_le (hc : Certified entry items ahead) {stack : List Frame} (hpath : Path entry stack)
    (hvalid : ∀ f ∈ stack, f.tree.Valid) : stepsDone stack ≤ 17 * (textOf stack).length + 1 := by
  induction stack with
  | nil => simp [stepsDone, stepsOfAll, Tree.yieldAll, Tree.sizeAll]
  | cons f stack ih =>
    have hsize := (hvalid f List.mem_cons_self).size_le
    obtain ⟨hroot, hstart⟩ := hpath.start_below hc
    rw [stepsDone_cons, textOf_cons, List.length_append, stepsOf]
    by_cases hs : f.tree.symbol = .nonterminal .start
    · obtain rfl := hstart hs
      rw [hs] at hsize
      simp only [Tree.slack] at hsize
      simp only [stepsDone, stepsOfAll, Tree.yieldAll, Tree.sizeAll, List.map_nil, List.reverse_nil, List.length_nil]
      omega
    · have hslack := slack_nonneg hs hroot
      have hbelow : Path entry stack := by
        cases hpath with
        | cons h _ => exact h
      have hrest := ih hbelow fun g hg => hvalid g (List.mem_cons_of_mem _ hg)
      omega

/-- A text without an end in its middle. -/
def Endless (text : List (Terminal × Token)) : Prop := ∀ p ∈ text, Terminal.ofToken? p.2 = some p.1 ∧ p.1 ≠ .finish

/-- A nonterminal that is due is the next symbol of an item. -/
theorem Due.exists_item (hc : Certified entry items ahead) {state : Nat} {n : Nonterminal} (h : Due (items state) n) :
    ∃ i ∈ items state, i.next? = some (.nonterminal n) := by
  induction h with
  | behind hi _ hn => exact ⟨_, hi, hn⟩
  | @corner r n _ hn ih =>
    obtain ⟨j, hj, hnext⟩ := ih
    exact ⟨⟨r, 0⟩, (hc.opens _ j hj r hnext).1, hn⟩

theorem Derived.ne_finish (htext : Endless text) (h : Derived entry text c) :
    ∀ f ∈ c.stack, f.tree.symbol ≠ .terminal .finish := by
  intro f hf hsym
  obtain ⟨state, tree⟩ := f
  cases tree with
  | node r ts => cases hsym
  | leaf x token =>
    cases hsym
    have hmem : (Terminal.finish, token) ∈ textOf c.stack := by
      rw [textOf, Tree.yieldAll_eq]
      exact List.mem_flatMap.mpr ⟨_, List.mem_reverse.mpr (List.mem_map_of_mem hf), List.mem_singleton_self _⟩
    exact (htext _ (h.text_eq ▸ List.mem_append_left _ hmem)).2 rfl

/-- A step is never stuck. -/
theorem step_ne_stuck (hc : Certified entry items ahead) (hopens : OpensDue entry items) (htext : Endless text)
    (h : Derived entry text c) : step entry c ≠ .stuck := by
  intro hs
  unfold step at hs
  split at hs
  · cases hs
  · rename_i r ha
    obtain ⟨i, hi, rfl, hnext⟩ := hc.reduceBack _ _ _ ha
    obtain ⟨hle, hlen, hsym, hstart⟩ := h.path.symbols_of_item hc hi
    have hdot : i.dot = i.rule.rhs.length := by
      have : i.rule.rhs.length ≤ i.dot := by simpa [Item.next?] using hnext
      omega
    rw [hdot] at hlen hsym hstart
    simp only [reduce, Nat.not_lt.mpr hlen, if_false] at hs
    split at hs
    · rename_i hmove
      -- where the rule started its nonterminal is due, and can be read
      rcases hopens _ (h.path.drop _).reached _ hstart with hroot | hdue
      · rw [hroot, List.take_length] at hsym
        have hmem :
          (.terminal .finish : Symbol) ∈ ((c.stack.take Rule.root.rhs.length).map (·.tree.symbol)).reverse := by
          rw [hsym]
          decide
        obtain ⟨f, hf, hfinish⟩ := List.mem_map.mp (List.mem_reverse.mp hmem)
        exact h.ne_finish htext f (List.mem_of_mem_take hf) hfinish
      · obtain ⟨j, hj, hnext⟩ := hdue.exists_item hc
        obtain ⟨m, hm, -⟩ := hc.leadsOn _ j hj _ hnext
        cases hmove.symm.trans hm
    · cases hs
  · rename_i m ha
    split at hs
    · cases hs
    · cases hs
    · rename_i hrest hstack
      -- the end of the text is not due in front of it
      have hstate : c.state = 0 := by simp [Configuration.state, hstack]
      have hahead : c.ahead = .finish := by simp [Configuration.ahead, hrest]
      rw [hstate, hahead] at ha
      obtain ⟨-, ⟨i, hi, d, hd⟩, hback⟩ := hc.moveBack _ _ _ (move_of_shift ha)
      obtain ⟨hx, hitem⟩ := hback i hi d hd
      obtain ⟨-, rfl⟩ := root_of_finish hx
      cases hc.firstUnmoved _ hitem

/-- A run with enough steps is not stuck. -/
theorem run_ne_stuck (hc : Certified entry items ahead) (hopens : OpensDue entry items) (htext : Endless text)
    (h : Derived entry text c) {steps : Nat} (hsteps : 17 * text.length + 1 < stepsDone c.stack + steps) :
    run entry steps c ≠ .stuck := by
  induction steps generalizing c with
  | zero =>
    have hle := stepsDone_le hc h.path h.valid
    have hlen : (textOf c.stack).length ≤ text.length := by
      rw [← h.text_eq, List.length_append]
      exact Nat.le_add_right _ _
    omega
  | succ steps ih =>
    rw [run]
    split
    · rename_i c' hs
      refine ih (step_keeps hc h hs) ?_
      rw [stepsDone_next hs]
      omega
    · simp
    · simp
    · rename_i hs
      exact absurd hs (step_ne_stuck hc hopens htext h)

/-! ## The first terminal that is not viable -/

theorem refused_iff {state : Nat} {found : Option (Terminal × Token)} : step entry c = .refused state found ↔
    (entry c.state).action? c.ahead = none ∧ state = c.state ∧ found = c.rest.head? := by
  constructor
  · intro h
    unfold step at h
    split at h
    · rename_i ha
      cases h
      exact ⟨ha, rfl, rfl⟩
    · unfold reduce at h
      simp only at h
      repeat' split at h
      all_goals cases h
    · split at h <;> cases h
  · rintro ⟨ha, rfl, rfl⟩
    rw [step, ha]

theorem eq_of_append_singleton {as bs cs : List Terminal} {a : Terminal} (ha : a ∉ as) (h : as ++ [a] = bs ++ a :: cs) :
    as = bs := by
  rcases List.append_eq_append_iff.mp h with ⟨es, rfl, hes⟩ | ⟨es, rfl, hes⟩
  · cases es with
    | nil => simp
    | cons e es => simp at hes
  · cases es with
    | nil => simp
    | cons e es =>
      obtain rfl : a = e := (List.cons.inj hes).1
      exact absurd (by simp) ha

/-- A sentence that goes on behind a text with a terminal is derived from the start symbol over the tokens of
the text and samples. -/
theorem exists_derivation {front : List (Terminal × Token)} {p : Terminal × Token} {ys : List Terminal}
    (hfront : Endless (front ++ [p])) (h : Sentence ((front ++ [p]).map Prod.fst ++ ys)) :
    ∃ (t : Tree) (zs : List Terminal), t.Valid ∧ t.symbol = .nonterminal .start ∧
      t.yield = front ++ p :: zs.map fun x => (x, sample x) := by
  obtain ⟨t, hv, hsym, hyield⟩ := sentence_iff.mp h
  have hlast : ∃ zs, ys = zs ++ [.finish] := by
    rcases List.eq_nil_or_concat ys with rfl | ⟨zs, z, rfl⟩
    · rw [List.append_nil, List.map_append] at hyield
      obtain ⟨-, hp⟩ := List.append_inj' hyield rfl
      exact absurd (List.cons.inj hp).1.symm (hfront p (by simp)).2
    · rw [List.concat_eq_append, ← List.append_assoc] at hyield
      obtain ⟨-, hz⟩ := List.append_inj' hyield rfl
      exact ⟨zs, by rw [List.concat_eq_append, hz]⟩
  obtain ⟨zs, rfl⟩ := hlast
  rw [← List.append_assoc] at hyield
  obtain ⟨hterminals, -⟩ := List.append_inj' hyield rfl
  let rest : List (Terminal × Token) := zs.map fun x => (x, sample x)
  have hrest : rest.map Prod.fst = zs := by
    rw [List.map_map]
    exact List.map_id _
  have hlabels : (front ++ [p] ++ rest).map Prod.fst = t.yield.map Prod.fst := by
    rw [List.map_append, hterminals, hrest]
  have htokens : ∀ q ∈ front ++ [p] ++ rest, Terminal.ofToken? q.2 = some q.1 := by
    intro q hq
    rcases List.mem_append.mp hq with hq | hq
    · exact (hfront q hq).1
    · obtain ⟨x, -, rfl⟩ := List.mem_map.mp hq
      exact ofToken_sample x
  obtain ⟨u, hu, husym, huy⟩ := hv.relabel hlabels htokens
  exact ⟨u, zs, hu, husym.trans hsym, by simpa using huy⟩

/-- A sentence that ends behind a text is derived from the start symbol over its tokens. -/
theorem exists_whole_derivation {text : List (Terminal × Token)} {ys : List Terminal} (htext : Endless text)
    (h : Sentence (text.map Prod.fst ++ .finish :: ys)) :
    ∃ t : Tree, t.Valid ∧ t.symbol = .nonterminal .start ∧ t.yield = text := by
  obtain ⟨t, hv, hsym, hyield⟩ := sentence_iff.mp h
  have hends : Terminal.finish ∉ t.yield.map Prod.fst := by
    intro hmem
    obtain ⟨p, hp, hfinish⟩ := List.mem_map.mp hmem
    exact hv.ne_finish (by simp [hsym]) (by simp [hsym]) p hp hfinish
  have hsame := eq_of_append_singleton hends hyield
  obtain ⟨u, hu, husym, huy⟩ := hv.relabel hsame.symm fun p hp => (htext p hp).1
  exact ⟨u, hu, husym.trans hsym, huy⟩

/-- A text that is no sentence is refused at the first terminal that is not viable behind those before it. -/
theorem refuses_first (hc : Certified entry items ahead) (hopens : OpensDue entry items) (htext : Endless text)
    (hno : ∀ t : Tree, ¬ (t.Valid ∧ t.symbol = .nonterminal .start ∧ t.yield = text)) :
    ∃ front rest state, text = front ++ rest ∧
      run entry (stepBound text.length) ⟨[], text⟩ = .refused state rest.head? ∧ Viable (front.map Prod.fst) ∧
      ¬ Viable (front.map Prod.fst ++ [aheadOfText rest]) := by
  have hstart : Derived entry text ⟨[], text⟩ :=
    ⟨.nil, by simp, fun p hp => (htext p hp).1, by simp [Tree.yieldAll]⟩
  cases hrun : run entry (stepBound text.length) ⟨[], text⟩ with
  | accepted t => exact absurd ((accepts_iff hc fun p hp => (htext p hp).1).mp hrun) (hno t)
  | stuck =>
    refine absurd hrun (run_ne_stuck hc hopens htext hstart ?_)
    simp only [stepBound]
    omega
  | refused state found =>
    obtain ⟨c, hsteps, hlast⟩ := Steps.of_refused hrun
    obtain ⟨haction, rfl, rfl⟩ := refused_iff.mp hlast
    have hd := hsteps.derived hc hstart
    obtain ⟨front, hfront, hlocal⟩ := hsteps.locally
    have hfront : text = front ++ c.rest := hfront
    have hread : textOf c.stack = front := List.append_cancel_right (hd.text_eq.trans hfront)
    refine ⟨front, c.rest, c.state, hfront, rfl, hread ▸ viable_of_path hc hopens hd.path hd.valid, ?_⟩
    rintro ⟨ys, hsentence⟩
    cases hrest : c.rest with
    | nil =>
      -- the text itself would be a sentence
      rw [hrest, List.append_nil] at hfront
      subst hfront
      rw [hrest] at hsentence
      obtain ⟨t, ht⟩ := exists_whole_derivation htext (by simpa [aheadOfText] using hsentence)
      exact hno t ht
    | cons p tail =>
      -- a sentence that goes on behind the terminal would be accepted and refused
      have hp : Endless (front ++ [p]) := by
        intro q hq
        refine htext q (hfront ▸ ?_)
        rw [hrest]
        rcases List.mem_append.mp hq with hq | hq
        · exact List.mem_append_left _ hq
        · exact List.mem_append_right _ (List.mem_singleton.mp hq ▸ List.mem_cons_self)
      rw [hrest, show aheadOfText (p :: tail) = p.1 from rfl] at hsentence
      obtain ⟨t, zs, hv, hsym, hyield⟩ := exists_derivation hp (by simpa using hsentence)
      have hother := hlocal (p :: zs.map fun x => (x, sample x)) (by rw [hrest]; rfl)
      refine hother.not_accepted (refused_iff.mpr ⟨?_, rfl, rfl⟩) _ t
        ((accepts_iff hc (hyield ▸ hv.ofToken_of_mem)).mpr ⟨hv, hsym, hyield⟩)
      have hahead : Configuration.ahead ⟨c.stack, p :: zs.map fun x => (x, sample x)⟩ = c.ahead := by
        simp [Configuration.ahead, hrest]
      rw [hahead]
      exact haction

end Runs

end Grammar

end TillLang
