/-
  TillLang.Proofs.Grammar.Acceptance — parsing by a certified table finds exactly the
  derivations.

  The entries of the states, their items and the lookaheads of the items are arbitrary here
  and only have to fit together (`Certified`). Then `run` accepts a tree on a text if and
  only if the tree is a derivation of the text from the start symbol (`accepts_iff`), and
  the bound on the steps is never reached. The two directions:
  - the states on the stack are a path, so the symbols on top of it are those a rule needs
    (`Path.symbols_of_item`), and what one step keeps (`step_keeps`) a run keeps;
  - a derivation is followed by the run rule by rule (`run_tree`): wherever a symbol is due,
    the text of a tree of that symbol is read and leaves the tree on the stack.
-/

import TillLang.Proofs.Grammar.Derivation

namespace TillLang.Grammar

/-- The items of the states and their lookaheads fit the entries. -/
structure Certified (entry : Nat → Entry) (items : Nat → List Item)
    (ahead : Nat → Item → Terminal → Prop) : Prop where
  emptyClosed : ∀ r : Rule, allEmpty emptyNonterminals r.rhs = true → emptyNonterminals.contains r.lhs = true
  firstsClosed : ∀ (r : Rule) (t : Terminal), (firstOf firsts r.rhs).has t = true →
    (firsts.get r.lhs).has t = true
  rootFirst : ⟨.root, 0⟩ ∈ items 0
  firstUnmoved : ∀ i ∈ items 0, i.dot = 0
  rootOnce : ∀ n, ⟨.root, 0⟩ ∈ items n → n = 0
  /-- A move is over the symbol that the items behind it have just read. -/
  moveBack : ∀ n m x, (entry n).move? x = some m → m ≠ 0 ∧ (∃ i ∈ items m, ∃ d, i.dot = d + 1) ∧
    ∀ i ∈ items m, ∀ d, i.dot = d + 1 → i.rule.rhs[d]? = some x ∧ ⟨i.rule, d⟩ ∈ items n
  /-- A rule is reduced only where all its symbols were read. -/
  reduceBack : ∀ n t r, (entry n).action? t = some (.reduce r) →
    ∃ i ∈ items n, i.rule = r ∧ i.next? = none
  /-- A symbol that is due can be read, and its item goes on. -/
  leadsOn : ∀ n, ∀ i ∈ items n, ∀ x, i.next? = some x → ∃ m, (entry n).move? x = some m ∧
    i.advance ∈ items m ∧ ∀ t, ahead n i t → ahead m i.advance t
  /-- The rules of a nonterminal that is due start there, and what can follow the
  nonterminal is in their lookahead. -/
  opens : ∀ n, ∀ i ∈ items n, ∀ r : Rule, i.next? = some (.nonterminal r.lhs) → ⟨r, 0⟩ ∈ items n ∧
    ∀ t, ((firstOf firsts i.following).has t = true ∨
      allEmpty emptyNonterminals i.following = true ∧ ahead n i t) → ahead n ⟨r, 0⟩ t
  reduces : ∀ n, ∀ i ∈ items n, i.next? = none → ∀ t, ahead n i t →
    (entry n).action? t = some (.reduce i.rule)

variable {entry : Nat → Entry} {items : Nat → List Item} {ahead : Nat → Item → Terminal → Prop}

/-! ## Looking on -/

theorem TerminalSet.has_union (a b : TerminalSet) (t : Terminal) :
    (a.union b).has t = (a.has t || b.has t) := by
  simp [TerminalSet.union, TerminalSet.has]

theorem TerminalSet.has_single (t : Terminal) : (TerminalSet.single t).has t = true := by
  simp [TerminalSet.single, TerminalSet.has, Nat.testBit_shiftLeft]

/-- The terminal a text starts with; a text that is empty is at its end. -/
def aheadOfText (text : List (Terminal × Token)) : Terminal := (text.head?.map (·.1)).getD .finish

/-- A text derived from some symbols starts with one of their first terminals, or is empty
and all the symbols can be. -/
def Starts (symbols : List Symbol) : List (Terminal × Token) → Prop
  | [] => allEmpty emptyNonterminals symbols = true
  | p :: _ => (firstOf firsts symbols).has p.1 = true

theorem Starts.append {x : Symbol} {xs : List Symbol} {text rest : List (Terminal × Token)}
    (h : Starts [x] text) (h' : Starts xs rest) : Starts (x :: xs) (text ++ rest) := by
  cases text with
  | nil =>
    simp only [Starts, allEmpty, List.all_cons, List.all_nil, Bool.and_true] at h
    cases x with
    | terminal t => simp at h
    | nonterminal n =>
      cases rest with
      | nil => simpa only [Starts, List.append_nil, allEmpty, List.all_cons, h, Bool.true_and] using h'
      | cons p rest =>
        simp only [Starts, List.nil_append, firstOf, h, if_true, TerminalSet.has_union, Bool.or_eq_true] at h' ⊢
        exact Or.inr h'
  | cons p text =>
    simp only [Starts, List.cons_append] at h ⊢
    cases x with
    | terminal t => exact h
    | nonterminal n =>
      simp only [firstOf] at h ⊢
      split at h
      · rename_i he
        have h0 : TerminalSet.has 0 p.1 = false := by simp [TerminalSet.has]
        rw [TerminalSet.has_union, h0, Bool.or_false] at h
        rw [if_pos he, TerminalSet.has_union, h, Bool.true_or]
      · rename_i he
        rw [if_neg he]
        exact h

theorem starts_yield (hc : Certified entry items ahead) {t : Tree} (h : t.Valid) :
    Starts [t.symbol] t.yield := by
  induction t using Tree.induction with
  | leaf terminal token => exact TerminalSet.has_single terminal
  | node rule children ih =>
    obtain ⟨hs, hv⟩ := Tree.valid_node_iff.mp h
    have hall : ∀ ts : List Tree, (∀ t ∈ ts, t ∈ children) → Starts (ts.map Tree.symbol) (Tree.yieldAll ts) := by
      intro ts hts
      induction ts with
      | nil => rfl
      | cons t ts iht =>
        exact (ih t (hts t (by simp)) (hv t (hts t (by simp)))).append
          (iht fun u hu => hts u (by simp [hu]))
    have hstart := hall children fun _ => id
    rw [hs] at hstart
    simp only [Tree.yield, Tree.symbol]
    cases hy : Tree.yieldAll children with
    | nil =>
      rw [hy] at hstart
      simpa [Starts, allEmpty] using hc.emptyClosed rule hstart
    | cons p rest =>
      rw [hy] at hstart
      have hf := hc.firstsClosed rule p.1 hstart
      simp only [Starts, firstOf]
      split
      · rw [TerminalSet.has_union, hf, Bool.true_or]
      · exact hf

/-! ## Looking back -/

/-- The state on top of a stack. -/
def stateOf (stack : List Frame) : Nat := (stack.head?.map Frame.state).getD 0

/-- Each frame of a stack is reached from the one below it by a move over its symbol. -/
inductive Path (entry : Nat → Entry) : List Frame → Prop
  | nil : Path entry []
  | cons {f : Frame} {stack : List Frame} : Path entry stack →
      (entry (stateOf stack)).move? f.tree.symbol = some f.state → Path entry (f :: stack)

theorem Path.drop {stack : List Frame} (h : Path entry stack) (n : Nat) : Path entry (stack.drop n) := by
  induction n generalizing stack with
  | zero => exact h
  | succ n ih =>
    cases h with
    | nil => exact .nil
    | cons h _ => exact ih h

theorem Path.eq_nil (hc : Certified entry items ahead) {stack : List Frame} (h : Path entry stack)
    (h0 : stateOf stack = 0) : stack = [] := by
  cases h with
  | nil => rfl
  | cons h hm => exact absurd h0 (hc.moveBack _ _ _ hm).1

/-- On top of a path stand the symbols that an item of its state has read, and below them
the state in which its rule starts. -/
theorem Path.symbols_of_item (hc : Certified entry items ahead) {stack : List Frame}
    (h : Path entry stack) {i : Item} (hi : i ∈ items (stateOf stack)) :
    (i.dot = 0 ∨ i.dot ≤ i.rule.rhs.length) ∧ i.dot ≤ stack.length ∧
      ((stack.take i.dot).map (·.tree.symbol)).reverse = i.rule.rhs.take i.dot ∧
      ⟨i.rule, 0⟩ ∈ items (stateOf (stack.drop i.dot)) := by
  obtain ⟨rule, dot⟩ := i
  -- the mark is moved back one frame at a time
  induction dot generalizing stack with
  | zero => exact ⟨Or.inl rfl, Nat.zero_le _, rfl, hi⟩
  | succ d ih =>
    cases h with
    | nil => exact absurd (hc.firstUnmoved _ hi) (by simp)
    | @cons f stack h hm =>
      obtain ⟨hx, hprev⟩ := (hc.moveBack _ _ _ hm).2.2 _ hi d rfl
      obtain ⟨-, h2, h3, h4⟩ := ih h hprev
      have hlt : d < rule.rhs.length := (List.getElem?_eq_some_iff.mp hx).1
      have hget : rule.rhs[d] = f.tree.symbol := by
        simpa [List.getElem?_eq_getElem hlt] using hx
      refine ⟨Or.inr hlt, by simpa using h2, ?_, h4⟩
      simp only at h3
      rw [List.take_succ_cons, List.map_cons, List.reverse_cons, h3, List.take_succ_eq_append_getElem hlt, hget]

/-! ## What a step keeps -/

/-- The stack is a path of derivations, whose texts and what is to come make up the text. -/
structure Derived (entry : Nat → Entry) (text : List (Terminal × Token)) (c : Configuration) : Prop where
  path : Path entry c.stack
  valid : ∀ f ∈ c.stack, f.tree.Valid
  ahead : ∀ p ∈ c.rest, Terminal.ofToken? p.2 = some p.1
  text_eq : Tree.yieldAll ((c.stack.map Frame.tree).reverse) ++ c.rest = text

theorem move_of_shift {e : Entry} {m : Nat} {t : Terminal} (h : e.action? t = some (.shift m)) :
    e.move? t = some m := by
  rw [Entry.action?] at h
  split at h
  · rename_i k hk
    rw [hk]
    simpa using h
  · simp at h

theorem shift_of_move {e : Entry} {m : Nat} {t : Terminal} (h : e.move? t = some m) :
    e.action? t = some (.shift m) := by
  rw [Entry.action?, h]

theorem reduce_keeps (hc : Certified entry items ahead) {text : List (Terminal × Token)}
    {c c' : Configuration} (h : Derived entry text c) {t : Terminal} {r : Rule}
    (ha : (entry c.state).action? t = some (.reduce r)) (hr : reduce entry r c = .next c') :
    Derived entry text c' := by
  obtain ⟨i, hi, rfl, hnext⟩ := hc.reduceBack _ _ _ ha
  obtain ⟨hle, hlen, hsym, -⟩ := h.path.symbols_of_item hc hi
  have hdot : i.dot = i.rule.rhs.length := by
    have : i.rule.rhs.length ≤ i.dot := by simpa [Item.next?] using hnext
    omega
  rw [hdot, List.take_length] at hsym
  rw [hdot] at hlen
  simp only [reduce, Nat.not_lt.mpr hlen, if_false] at hr
  split at hr
  · cases hr
  · rename_i state hmove
    injection hr with hr
    subst hr
    have hchildren : (((c.stack.take i.rule.rhs.length).map Frame.tree).reverse).map Tree.symbol =
        i.rule.rhs := by
      rw [List.map_reverse, List.map_map]
      exact hsym
    refine ⟨.cons (h.path.drop _) hmove, ?_, h.ahead, ?_⟩
    · intro f hf
      rcases List.mem_cons.mp hf with rfl | hf
      · refine Tree.valid_node_iff.mpr ⟨hchildren, fun u hu => ?_⟩
        obtain ⟨g, hg, rfl⟩ := List.mem_map.mp (List.mem_reverse.mp hu)
        exact h.valid g (List.mem_of_mem_take hg)
      · exact h.valid f (List.mem_of_mem_drop hf)
    · have hsplit : (c.stack.map Frame.tree).reverse =
          ((c.stack.drop i.rule.rhs.length).map Frame.tree).reverse ++
            ((c.stack.take i.rule.rhs.length).map Frame.tree).reverse := by
        rw [← List.reverse_append, ← List.map_append, List.take_append_drop]
      rw [← h.text_eq, hsplit, List.map_cons, List.reverse_cons, Tree.yieldAll_append, Tree.yieldAll_append]
      simp only [Tree.yieldAll, Tree.yield, List.append_nil]

theorem step_keeps (hc : Certified entry items ahead) {text : List (Terminal × Token)}
    {c c' : Configuration} (h : Derived entry text c) (hs : step entry c = .next c') :
    Derived entry text c' := by
  unfold step at hs
  split at hs
  · cases hs
  · rename_i r ha
    exact reduce_keeps hc h ha hs
  · rename_i m ha
    split at hs
    · rename_i x token rest hr
      injection hs with hs
      subst hs
      have hx : c.ahead = x := by simp [Configuration.ahead, hr]
      have htok : Terminal.ofToken? token = some x := h.ahead (x, token) (by simp [hr])
      refine ⟨.cons h.path (by rw [← hx]; exact move_of_shift ha), ?_, ?_, ?_⟩
      · intro f hf
        rcases List.mem_cons.mp hf with rfl | hf
        · exact htok
        · exact h.valid f hf
      · intro p hp
        exact h.ahead p (by simp [hr, hp])
      · rw [← h.text_eq, hr]
        simp [Tree.yieldAll_append, Tree.yieldAll, Tree.yield]
    · cases hs
    · cases hs

/-- The end of the text stands in one rule only. -/
theorem root_of_finish {r : Rule} {d : Nat} (h : r.rhs[d]? = some (.terminal .finish)) :
    r = .root ∧ d = 1 := by
  have hr : r = .root := by
    have hmem := List.mem_of_getElem? h
    revert hmem
    cases r <;> decide
  subst hr
  match d with
  | 0 => cases h
  | 1 => exact ⟨rfl, rfl⟩
  | d + 2 => cases h

/-- A tree is accepted when it is all there is on the stack and nothing is to come. -/
theorem accepted_of_step (hc : Certified entry items ahead) {text : List (Terminal × Token)}
    {c : Configuration} (h : Derived entry text c) {t : Tree} (hs : step entry c = .accepted t) :
    t.Valid ∧ t.symbol = .nonterminal .start ∧ t.yield = text := by
  unfold step at hs
  split at hs
  · cases hs
  · rename_i r ha
    unfold reduce at hs
    simp only at hs
    repeat' split at hs
    all_goals cases hs
  · rename_i m ha
    split at hs
    · cases hs
    · rename_i top below hrest hstack
      injection hs with hs
      subst hs
      have hfin : c.ahead = .finish := by simp [Configuration.ahead, hrest]
      rw [hfin] at ha
      obtain ⟨-, ⟨i, hi, d, hd⟩, hback⟩ := hc.moveBack _ _ _ (move_of_shift ha)
      obtain ⟨hx, hitem⟩ := hback i hi d hd
      obtain ⟨hrule, rfl⟩ := root_of_finish hx
      rw [hrule] at hitem
      obtain ⟨-, -, hsym, hr0⟩ := h.path.symbols_of_item hc hitem
      have hnil := (h.path.drop 1).eq_nil hc (hc.rootOnce _ hr0)
      rw [hstack] at hnil hsym
      obtain rfl : below = [] := hnil
      refine ⟨h.valid top (by simp [hstack]), ?_, ?_⟩
      · simpa [Rule.rhs, Rule.sides] using hsym
      · have := h.text_eq
        simpa [hstack, hrest, Tree.yieldAll] using this
    · cases hs

theorem run_sound (hc : Certified entry items ahead) {text : List (Terminal × Token)} {steps : Nat}
    {c : Configuration} (h : Derived entry text c) {t : Tree} (hr : run entry steps c = .accepted t) :
    t.Valid ∧ t.symbol = .nonterminal .start ∧ t.yield = text := by
  induction steps generalizing c with
  | zero => cases hr
  | succ steps ih =>
    unfold run at hr
    split at hr
    · rename_i c' hs
      exact ih (step_keeps hc h hs) hr
    · rename_i t' hs
      injection hr with hr
      subst hr
      exact accepted_of_step hc h hs
    · cases hr
    · cases hr

/-! ## Following a derivation -/

/-- What can come after the next symbol of an item whose lookahead is `after`. -/
def Follows (i : Item) (after : Terminal → Prop) (t : Terminal) : Prop :=
  (firstOf firsts i.following).has t = true ∨ allEmpty emptyNonterminals i.following = true ∧ after t

theorem follows_of_starts {i : Item} {text rest : List (Terminal × Token)} {after : Terminal → Prop}
    (h : Starts i.following text) (ha : after (aheadOfText rest)) :
    Follows i after (aheadOfText (text ++ rest)) := by
  cases text with
  | nil => exact Or.inr ⟨h, ha⟩
  | cons p text => exact Or.inl h

/-- The steps in which the text of a tree is read: one for each terminal and each rule. -/
def stepsOf (t : Tree) : Nat := t.yield.length + t.size

def stepsOfAll (ts : List Tree) : Nat := (Tree.yieldAll ts).length + Tree.sizeAll ts

/-- The text of a tree is read wherever its symbol is due, and leaves the tree on the stack. -/
def Reads (entry : Nat → Entry) (items : Nat → List Item) (ahead : Nat → Item → Terminal → Prop)
    (t : Tree) : Prop :=
  ∀ (stack : List Frame) (rest : List (Terminal × Token)) (i : Item), i ∈ items (stateOf stack) →
    i.next? = some t.symbol → Follows i (ahead (stateOf stack) i) (aheadOfText rest) →
    ∃ m, i.advance ∈ items m ∧ (∀ u, ahead (stateOf stack) i u → ahead m i.advance u) ∧
      ∀ fuel, run entry (fuel + stepsOf t) ⟨stack, t.yield ++ rest⟩ = run entry fuel ⟨⟨m, t⟩ :: stack, rest⟩

/-- The texts of the trees that are due in an item are read one after the other. -/
theorem run_trees (hc : Certified entry items ahead) {ts : List Tree} (hr : ∀ t ∈ ts, Reads entry items ahead t)
    (hv : ∀ t ∈ ts, t.Valid) (stack : List Frame) (rest : List (Terminal × Token)) (i : Item)
    (hi : i ∈ items (stateOf stack)) (hdue : i.rule.rhs.drop i.dot = ts.map Tree.symbol)
    (ha : ahead (stateOf stack) i (aheadOfText rest)) :
    ∃ frames, frames.map Frame.tree = ts.reverse ∧
      ⟨i.rule, i.dot + ts.length⟩ ∈ items (stateOf (frames ++ stack)) ∧
      ahead (stateOf (frames ++ stack)) ⟨i.rule, i.dot + ts.length⟩ (aheadOfText rest) ∧
      ∀ fuel, run entry (fuel + stepsOfAll ts) ⟨stack, Tree.yieldAll ts ++ rest⟩ =
        run entry fuel ⟨frames ++ stack, rest⟩ := by
  induction ts generalizing stack i with
  | nil => exact ⟨[], rfl, hi, ha, fun _ => rfl⟩
  | cons t ts ih =>
    have hlt : i.dot < i.rule.rhs.length := by
      have := congrArg List.length hdue
      simp only [List.length_drop, List.length_map, List.length_cons] at this
      omega
    have hnext : i.next? = some t.symbol := by
      have := congrArg List.head? hdue
      simpa [Item.next?] using this
    have hfollowing : i.following = ts.map Tree.symbol := by
      have := congrArg List.tail hdue
      simpa [Item.following] using this
    have hstarts : Starts i.following (Tree.yieldAll ts) := by
      rw [hfollowing]
      clear ih hr hdue hfollowing
      induction ts with
      | nil => rfl
      | cons u us ihu =>
        exact (starts_yield hc (hv u (by simp))).append
          (ihu fun w hw => hv w (by rcases List.mem_cons.mp hw with rfl | hw <;> simp_all))
    obtain ⟨m, him, hahead, hrun⟩ := hr t (by simp) stack (Tree.yieldAll ts ++ rest) i hi hnext
      (follows_of_starts hstarts ha)
    obtain ⟨frames, htrees, hlast, hlastAhead, hrest⟩ :=
      ih (fun u hu => hr u (by simp [hu])) (fun u hu => hv u (by simp [hu])) (⟨m, t⟩ :: stack) i.advance him
        (by simpa [Item.advance, Item.following] using hfollowing) (hahead _ ha)
    have hdot : i.dot + (t :: ts).length = i.advance.dot + ts.length := by
      simp only [Item.advance, List.length_cons]
      omega
    refine ⟨frames ++ [⟨m, t⟩], by simp [htrees], ?_, ?_, fun fuel => ?_⟩
    · rw [hdot, List.append_assoc]
      exact hlast
    · rw [hdot, List.append_assoc]
      exact hlastAhead
    · have hsum : stepsOfAll (t :: ts) = stepsOfAll ts + stepsOf t := by
        simp only [stepsOfAll, stepsOf, Tree.yieldAll, Tree.sizeAll, List.length_append]
        omega
      rw [Tree.yieldAll, List.append_assoc, hsum, ← Nat.add_assoc, hrun, hrest]
      simp

theorem run_tree (hc : Certified entry items ahead) {t : Tree} (h : t.Valid) : Reads entry items ahead t := by
  induction t using Tree.induction with
  | leaf terminal token =>
    intro stack rest i hi hnext _
    obtain ⟨m, hm, him, hahead⟩ := hc.leadsOn _ i hi _ hnext
    refine ⟨m, him, hahead, fun fuel => ?_⟩
    have hs : step entry ⟨stack, (terminal, token) :: rest⟩ =
        .next ⟨⟨m, .leaf terminal token⟩ :: stack, rest⟩ := by
      have : (entry (stateOf stack)).action? terminal = some (.shift m) := shift_of_move hm
      simp only [step, Configuration.state, Configuration.ahead, List.head?_cons, Option.map_some, Option.getD_some]
      rw [show ((stack.head?.map Frame.state).getD 0) = stateOf stack from rfl, this]
    simp only [stepsOf, Tree.yield, Tree.size, List.length_singleton, List.singleton_append, Nat.add_zero]
    rw [run, hs]
  | node rule children ih =>
    intro stack rest i hi hnext hfollows
    obtain ⟨hsym, hv⟩ := Tree.valid_node_iff.mp h
    obtain ⟨hopen, hopenAhead⟩ := hc.opens _ i hi rule hnext
    obtain ⟨frames, htrees, hlast, hlastAhead, hrun⟩ := run_trees hc (fun t ht => ih t ht (hv t ht)) hv stack rest
      ⟨rule, 0⟩ hopen (by simpa using hsym.symm) (hopenAhead _ hfollows)
    obtain ⟨m, hm, him, hahead⟩ := hc.leadsOn _ i hi _ hnext
    refine ⟨m, him, hahead, fun fuel => ?_⟩
    have hcount : frames.length = rule.rhs.length := by
      have h1 := congrArg List.length htrees
      have h2 := congrArg List.length hsym
      simp only [List.length_map, List.length_reverse] at h1 h2
      omega
    have hdone : Item.next? ⟨rule, 0 + children.length⟩ = none := by
      have h2 := congrArg List.length hsym
      simp only [List.length_map] at h2
      simp [Item.next?, h2]
    have hact : (entry (stateOf (frames ++ stack))).action? (aheadOfText rest) = some (.reduce rule) :=
      hc.reduces _ _ hlast hdone _ hlastAhead
    have hs : step entry ⟨frames ++ stack, rest⟩ = .next ⟨⟨m, .node rule children⟩ :: stack, rest⟩ := by
      have hred : step entry ⟨frames ++ stack, rest⟩ = reduce entry rule ⟨frames ++ stack, rest⟩ := by
        unfold step
        rw [show (entry (Configuration.state ⟨frames ++ stack, rest⟩)).action?
          (Configuration.ahead ⟨frames ++ stack, rest⟩) = some (.reduce rule) from hact]
      rw [hred, reduce]
      have hlen : ¬ (frames ++ stack).length < frames.length := by simp
      simp only [← hcount, hlen, if_false, List.drop_left, List.take_left, htrees, List.reverse_reverse]
      rw [show (entry (Configuration.state ⟨stack, rest⟩)).move? rule.lhs = some m from hm]
    have hsteps : stepsOf (.node rule children) = stepsOfAll children + 1 := by
      simp only [stepsOf, stepsOfAll, Tree.yield, Tree.size]
      omega
    rw [hsteps, Tree.yield, show fuel + (stepsOfAll children + 1) = fuel + 1 + stepsOfAll children by omega, hrun,
      run, hs]

theorem run_complete (hc : Certified entry items ahead) {t : Tree} (h : t.Valid)
    (hs : t.symbol = .nonterminal .start) (fuel : Nat) :
    run entry (fuel + 1 + stepsOf t) ⟨[], t.yield⟩ = .accepted t := by
  have hfollows : Follows ⟨.root, 0⟩ (ahead (stateOf []) ⟨.root, 0⟩) (aheadOfText []) :=
    Or.inl (TerminalSet.has_single .finish)
  obtain ⟨m, him, -, hrun⟩ := run_tree hc h [] [] ⟨.root, 0⟩ hc.rootFirst (by rw [hs]; rfl) hfollows
  obtain ⟨k, hk, -, -⟩ := hc.leadsOn m _ him (.terminal .finish) rfl
  have hact : (entry m).action? .finish = some (.shift k) := shift_of_move hk
  have hstep : step entry ⟨[⟨m, t⟩], []⟩ = .accepted t := by
    unfold step
    rw [show (entry (Configuration.state ⟨[⟨m, t⟩], []⟩)).action?
      (Configuration.ahead ⟨[⟨m, t⟩], []⟩) = some (.shift k) from hact]
  rw [List.append_nil] at hrun
  rw [hrun, run, hstep]

/-! ## Acceptance -/

theorem steps_le {t : Tree} (h : t.Valid) (hs : t.symbol = .nonterminal .start) :
    stepsOf t + 1 ≤ stepBound t.yield.length := by
  have := h.size_le
  rw [hs] at this
  simp only [Tree.slack] at this
  simp only [stepsOf, stepBound]
  omega

/-- A text is accepted with a tree exactly when the tree derives it from the start symbol. -/
theorem accepts_iff (hc : Certified entry items ahead) {text : List (Terminal × Token)}
    (htext : ∀ p ∈ text, Terminal.ofToken? p.2 = some p.1) {t : Tree} :
    run entry (stepBound text.length) ⟨[], text⟩ = .accepted t ↔
      t.Valid ∧ t.symbol = .nonterminal .start ∧ t.yield = text := by
  constructor
  · intro h
    exact run_sound hc ⟨.nil, by simp, htext, by simp [Tree.yieldAll]⟩ h
  · rintro ⟨hv, hs, rfl⟩
    have hle := steps_le hv hs
    have := run_complete hc hv hs (stepBound t.yield.length - (stepsOf t + 1))
    rwa [show stepBound t.yield.length - (stepsOf t + 1) + 1 + stepsOf t = stepBound t.yield.length by omega] at this

end TillLang.Grammar
