/-
  TillLang.Proofs.Eval.Plain — chains of operators by plain recursion.

  The machine takes a chain of binary operators apart and folds it in a loop. By plain recursion a
  binary operator has its left operand evaluated, then its right one, and then is applied. Two
  machines do so. One charges nothing for the left operand of an operator (`Machine.leaningAtDepth`):
  at every nesting depth it is the machine of the loop (`leaningAtDepth_eq`). The other knows nothing
  of chains, and every operator nests (`Machine.plainAtDepth`): it stops earlier at the limit, and
  does the same otherwise (`plainAtDepth_within`), and whatever the loop does within a limit it does
  within some higher one (`atDepth_within`).

  `Run.Within` says that a run stops at its limit or is done alike by all but some of other runs. One
  lemma for each way in which runs are put together carries it through a machine, at one depth and
  along all of them.
-/

import Mathlib.Order.Filter.AtTopBot.Basic
import TillLang.Pipeline
import TillLang.Proofs.Eval.Ends

namespace TillLang.Eval

open Filter (Eventually)

/-! ## Runs up to the limit -/

namespace Run

variable {α β : Type}

theorem bind_bind {γ : Type} (m : Run α) (f : α → Run β) (g : β → Run γ) :
    (m >>= f) >>= g = m >>= fun a => f a >>= g := by
  funext w
  change Run.bind (Run.bind m f) g w = Run.bind m (fun a => Run.bind (f a) g) w
  unfold Run.bind
  rcases m w with ⟨_ | _, _⟩ <;> rfl

theorem bind_pure_self (m : Run α) : m >>= Run.pure = m := by
  funext w
  change Run.bind m Run.pure w = m w
  unfold Run.bind
  rcases m w with ⟨_ | _, _⟩ <;> rfl

/-- A run stops at its limit, or runs along a filter do what it does. -/
def Within (l : Filter Nat) (m : Run α) (ms : Nat → Run α) : Prop :=
  ∀ w, (m w).1 = .error .tooDeep ∨ ∀ᶠ d in l, ms d w = m w

variable {l : Filter Nat} {m : Run α} {ms : Nat → Run α}

theorem Within.refl (m : Run α) : Within l m fun _ => m := fun _ => .inr (.of_forall fun _ => rfl)

theorem Within.trans [l.NeBot] {m' : Run α} (h : Within l m fun _ => m') (h' : Within l m' ms) : Within l m ms := by
  intro w
  rcases h w with hdeep | hsame
  · exact .inl hdeep
  · obtain ⟨_, hsame⟩ := hsame.exists
    exact hsame ▸ h' w

/-- Along all depths the first one does not count. -/
theorem Within.ofSucc (h : Within .atTop m fun d => ms (d + 1)) : Within .atTop m ms := by
  refine fun w => (h w).imp_right fun hsame => ?_
  obtain ⟨limit, hlimit⟩ := Filter.eventually_atTop.mp hsame
  refine Filter.eventually_atTop.mpr ⟨limit + 1, fun d hd => ?_⟩
  obtain ⟨d, rfl⟩ := Nat.exists_eq_add_of_le' (Nat.le_trans (Nat.le_add_left 1 limit) hd)
  exact hlimit d (Nat.le_of_succ_le_succ hd)

theorem Within.bind {f : α → Run β} {fs : Nat → α → Run β} (h : Within l m ms)
    (hf : ∀ a, Within l (f a) fun d => fs d a) : Within l (m >>= f) fun d => ms d >>= fs d := by
  intro w
  change (Run.bind m f w).1 = _ ∨ ∀ᶠ d in l, Run.bind (ms d) (fs d) w = Run.bind m f w
  unfold Run.bind
  rcases h w with hdeep | hsame
  · left
    rcases hm : m w with ⟨cause | a, w'⟩ <;> rw [hm] at hdeep
    · exact congrArg Except.error (Except.error.inj hdeep)
    · cases hdeep
  · rcases hm : m w with ⟨cause | a, w'⟩ <;> rw [hm] at hsame
    · exact .inr (hsame.mono fun d hd => by rw [hd])
    · rcases hf a w' with hdeep | hnext
      · exact .inl hdeep
      · refine .inr ((hsame.and hnext).mono fun d hd => ?_)
        simp only [hd.1, hd.2]

theorem Within.inChild {parent : Nat} {body : Nat → Run α} {bodies : Nat → Nat → Run α}
    (h : ∀ handle, Within l (body handle) fun d => bodies d handle) :
    Within l (Run.inChild parent body) fun d => Run.inChild parent (bodies d) := by
  intro w
  unfold Run.inChild
  rcases h (w.arena.push parent).2 { w with arena := (w.arena.push parent).1 } with hdeep | hsame
  · exact .inl hdeep
  · exact .inr (hsame.mono fun d hd => by simp only [hd])

theorem Within.catchReturn {m : Run Unit} {ms : Nat → Run Unit} (h : Within l m ms) :
    Within l (Run.catchReturn m) fun d => Run.catchReturn (ms d) := by
  intro w
  unfold Run.catchReturn
  rcases h w with hdeep | hsame
  · left
    rcases hm : m w with ⟨cause | a, w'⟩ <;> rw [hm] at hdeep
    · cases hdeep
      rfl
    · cases hdeep
  · exact .inr (hsame.mono fun d hd => by simp only [hd])

theorem Within.loop {condition : Run Bool} {body : Run Unit} {conditions : Nat → Run Bool} {bodies : Nat → Run Unit}
    (hcondition : Within l condition conditions) (hbody : Within l body bodies) (rounds : Nat) :
    Within l (Machine.loop condition body rounds) fun d => Machine.loop (conditions d) (bodies d) rounds := by
  induction rounds with
  | zero => exact .refl _
  | succ rounds ih =>
    refine hcondition.bind fun holds => ?_
    cases holds with
    | false => exact .refl _
    | true => exact hbody.bind fun _ => ih

end Run

/-! ## Plain recursion -/

namespace Machine

/-- Evaluates both operands of an operator, the left one first, and applies it. Anything else is left to `m`, and so is
every right operand. -/
def evaluateOperands (m : Machine) (scope : Nat) : Node → Run Value
  | .binary op left right position => do
    let a ← m.evaluateOperands scope left
    let b ← m.evaluate right scope
    applyBinary op a b position
  | node => m.evaluate node scope

/-- The machine one level above another, by recursion on left operands. -/
def leaning (settings : Settings) (m : Machine) : Machine where
  evaluate node scope :=
    match node with
    | .binary .. => m.evaluateOperands scope node
    | node => m.evaluateNode settings node scope
  execute := m.executeNode settings

/-- The machine for a nesting depth, by recursion on left operands. -/
def leaningAtDepth (settings : Settings) : Nat → Machine
  | 0 => exhausted
  | depth + 1 => (leaningAtDepth settings depth).leaning settings

/-- The machine one level above another, by recursion on both operands. -/
def plain (settings : Settings) (m : Machine) : Machine where
  evaluate node scope :=
    match node with
    | .binary op left right position => do
      let a ← m.evaluate left scope
      let b ← m.evaluate right scope
      applyBinary op a b position
    | node => m.evaluateNode settings node scope
  execute := m.executeNode settings

/-- The machine for a nesting depth, by recursion on both operands. -/
def plainAtDepth (settings : Settings) : Nat → Machine
  | 0 => exhausted
  | depth + 1 => (plainAtDepth settings depth).plain settings

/-! ## The loop over a chain -/

/-- With more operators behind a chain, the loop over all of them does what recursion does on the chain, and then applies
those behind it. -/
theorem foldJoints_spineOnto (m : Machine) (scope : Nat) : ∀ (later : List Joint) (node : Node),
    (m.evaluate (node.spineOnto later).1 scope >>= fun value => m.foldJoints scope value (node.spineOnto later).2) =
      m.evaluateOperands scope node >>= fun value => m.foldJoints scope value later
  | later, .binary op left right position => by
    rw [Node.spineOnto, foldJoints_spineOnto m scope _ left, evaluateOperands, Run.bind_bind]
    simp only [Run.bind_bind]
    rfl
  -- The first operand of a chain is no chain itself.
  | _, .absent | _, .program .. | _, .block .. | _, .varDecl .. | _, .param .. | _, .function .. | _, .ifStmt ..
  | _, .whileStmt .. | _, .assignment .. | _, .returnStmt .. | _, .display .. | _, .unary .. | _, .literal ..
  | _, .identifier .. | _, .call .. => rfl

/-- The loop over a chain of operators does what recursion on their left operands does. -/
theorem evaluateNode_binary (m : Machine) (settings : Settings) (op : String) (left right : Node)
    (position : Option Position) (scope : Nat) :
    m.evaluateNode settings (.binary op left right position) scope =
      m.evaluateOperands scope (.binary op left right position) :=
  (foldJoints_spineOnto m scope [] (.binary op left right position)).trans (Run.bind_pure_self _)

theorem atDepth_binary (settings : Settings) (depth : Nat) (op : String) (left right : Node)
    (position : Option Position) (scope : Nat) :
    (atDepth settings (depth + 1)).evaluate (.binary op left right position) scope =
      (atDepth settings depth).evaluateOperands scope (.binary op left right position) :=
  evaluateNode_binary _ settings ..

theorem leaning_eq (settings : Settings) (m : Machine) : m.leaning settings = m.above settings := by
  have hevaluate : (m.leaning settings).evaluate = m.evaluateNode settings := by
    funext node scope
    cases node with
    | binary op left right position => exact (evaluateNode_binary m settings op left right position scope).symm
    | _ => rfl
  simp only [above, ← hevaluate]
  rfl

/-- At every nesting depth recursion on left operands gives the machine of the loop. -/
theorem leaningAtDepth_eq (settings : Settings) (depth : Nat) :
    leaningAtDepth settings depth = atDepth settings depth := by
  induction depth with
  | zero => rfl
  | succ depth ih => rw [leaningAtDepth, ih, leaning_eq, atDepth]

/-! ## Machines up to the limit -/

/-- Whatever a machine carries out, it stops at its limit, or machines along a filter do the same. -/
structure Within (l : Filter Nat) (m : Machine) (ms : Nat → Machine) : Prop where
  evaluate (node : Node) (scope : Nat) : Run.Within l (m.evaluate node scope) fun d => (ms d).evaluate node scope
  execute (node : Node) (scope : Nat) : Run.Within l (m.execute node scope) fun d => (ms d).execute node scope

theorem within_exhausted (l : Filter Nat) (ms : Nat → Machine) : Within l exhausted ms :=
  ⟨fun _ _ _ => .inl rfl, fun _ _ _ => .inl rfl⟩

section Parts

open Run (Within.refl)

variable {l : Filter Nat} {m : Machine} {ms : Nat → Machine} (h : Within l m ms) (settings : Settings)
include h

theorem evaluateAll_within (scope : Nat) (nodes : List Node) :
    Run.Within l (m.evaluateAll scope nodes) fun d => (ms d).evaluateAll scope nodes := by
  induction nodes with
  | nil => exact .refl _
  | cons node rest ih => exact (h.evaluate node scope).bind fun value => ih.bind fun values => .refl _

theorem executeAll_within (scope : Nat) (nodes : List Node) :
    Run.Within l (m.executeAll scope nodes) fun d => (ms d).executeAll scope nodes := by
  induction nodes with
  | nil => exact .refl _
  | cons node rest ih => exact (h.execute node scope).bind fun _ => ih

theorem executeBlock_within (body : Node) (scope : Nat) :
    Run.Within l (m.executeBlock body scope) fun d => (ms d).executeBlock body scope := by
  unfold executeBlock
  cases body.statements? with
  | none => exact .refl _
  | some statements => exact executeAll_within h scope statements

theorem call_within (callee : String) (function : Value) (args : List Value) (position : Option Position) :
    Run.Within l (m.call settings callee function args position) fun d =>
      (ms d).call settings callee function args position := by
  cases function with
  | function closure =>
    unfold call
    by_cases hcount : args.length ≠ closure.params.length
    · simp only [if_pos hcount]
      exact .refl _
    · simp only [if_neg hcount]
      refine (Within.refl _).bind fun _ => Run.Within.bind (.inChild fun scope => ?_) fun value => .refl _
      exact (Within.refl _).bind fun _ => (executeBlock_within h closure.body scope).catchReturn
  | _ => exact .refl _

theorem foldJoints_within (scope : Nat) (value : Value) (joints : List Joint) :
    Run.Within l (m.foldJoints scope value joints) fun d => (ms d).foldJoints scope value joints := by
  induction joints generalizing value with
  | nil => exact .refl _
  | cons joint rest ih =>
    exact (h.evaluate joint.right scope).bind fun right => (Within.refl _).bind fun value => ih value

theorem evaluateNode_within (node : Node) (scope : Nat) :
    Run.Within l (m.evaluateNode settings node scope) fun d => (ms d).evaluateNode settings node scope := by
  cases node with
  | unary op operand position => exact (h.evaluate operand scope).bind fun value => .refl _
  | binary op left right position =>
    exact (h.evaluate _ scope).bind fun value => foldJoints_within h scope value _
  | call callee args position =>
    refine (Within.refl _).bind fun function => ?_
    exact (evaluateAll_within h scope args).bind fun values => call_within h settings callee function values position
  | _ => exact .refl _

theorem evaluateOr_within (missing : Value) (node : Node) (scope : Nat) :
    Run.Within l (m.evaluateOr missing node scope) fun d => (ms d).evaluateOr missing node scope := by
  unfold evaluateOr
  cases node.isAbsent with
  | true => exact .refl _
  | false => exact h.evaluate node scope

theorem loggedCondition_within (keyword : String) (node : Node) (scope : Nat) :
    Run.Within l (m.loggedCondition settings keyword node scope) fun d =>
      (ms d).loggedCondition settings keyword node scope := by
  refine Run.Within.bind ?_ fun holds => .refl _
  exact (h.evaluate node scope).bind fun value => .refl _

theorem executeNode_within (node : Node) (scope : Nat) :
    Run.Within l (m.executeNode settings node scope) fun d => (ms d).executeNode settings node scope := by
  cases node with
  | varDecl type name initializer position =>
    exact (evaluateOr_within h .none initializer scope).bind fun value => .refl _
  | assignment name value position => exact (h.evaluate value scope).bind fun value => .refl _
  | ifStmt condition body position =>
    refine (loggedCondition_within h settings "if" condition scope).bind fun holds => ?_
    cases holds with
    | true => exact .inChild (executeBlock_within h body)
    | false => exact .refl _
  | whileStmt condition body position =>
    exact .loop (loggedCondition_within h settings "while" condition scope) (.inChild (executeBlock_within h body)) _
  | returnStmt value position => exact (evaluateOr_within h .unit value scope).bind fun value => .refl _
  | display value position => exact (h.evaluate value scope).bind fun value => .refl _
  | _ => exact .refl _

theorem above_within : Within l (m.above settings) fun d => (ms d).above settings :=
  ⟨evaluateNode_within h settings, executeNode_within h settings⟩

end Parts

/-! ## Both machines -/

section Both

variable (settings : Settings) (depth : Nat)

/-- The machine one level higher stops no earlier. -/
theorem atDepth_within_succ (l : Filter Nat) :
    Within l (atDepth settings depth) fun _ => atDepth settings (depth + 1) := by
  induction depth with
  | zero => exact within_exhausted l _
  | succ depth ih => exact above_within ih settings

/-- A left operand is charged for, or it is not. -/
theorem evaluate_within_operands (l : Filter Nat) (node : Node) (scope : Nat) :
    Run.Within l ((atDepth settings depth).evaluate node scope) fun _ =>
      (atDepth settings depth).evaluateOperands scope node := by
  cases node with
  | binary op left right position =>
    rw [← evaluateNode_binary _ settings]
    exact (atDepth_within_succ settings depth l).evaluate _ scope
  | _ => exact .refl _

/-- Recursion on both operands does what the loop does, as long as it does not stop at the limit. -/
theorem plainAtDepth_within (l : Filter Nat) [l.NeBot] :
    Within l (plainAtDepth settings depth) fun _ => atDepth settings depth := by
  induction depth with
  | zero => exact within_exhausted l _
  | succ depth ih =>
    refine ⟨fun node scope => ?_, executeNode_within ih settings⟩
    cases node with
    | binary op left right position =>
      rw [atDepth_binary]
      refine ((ih.evaluate left scope).trans (evaluate_within_operands settings depth l left scope)).bind fun a => ?_
      exact (ih.evaluate right scope).bind fun b => .refl _
    | _ => exact evaluateNode_within ih settings _ scope

/-- From some depth on, recursion on both operands does what recursion on left operands does. -/
theorem evaluateOperands_within {m : Machine} (h : Within .atTop m (plainAtDepth settings)) (scope : Nat) :
    ∀ node : Node, Run.Within .atTop (m.evaluateOperands scope node) fun d =>
      (plainAtDepth settings d).evaluate node scope
  | .binary _ left right _ =>
    .ofSucc ((evaluateOperands_within h scope left).bind fun _ => (h.evaluate right scope).bind fun _ => .refl _)
  | .absent | .program .. | .block .. | .varDecl .. | .param .. | .function .. | .ifStmt .. | .whileStmt ..
  | .assignment .. | .returnStmt .. | .display .. | .unary .. | .literal .. | .identifier .. | .call .. =>
    h.evaluate _ scope

/-- From some depth on, recursion on both operands does what the loop does, unless the loop stops at its limit. -/
theorem atDepth_within : Within .atTop (atDepth settings depth) (plainAtDepth settings) := by
  induction depth with
  | zero => exact within_exhausted _ _
  | succ depth ih =>
    refine ⟨fun node scope => ?_, fun node scope => .ofSucc (executeNode_within ih settings node scope)⟩
    cases node with
    | binary op left right position =>
      rw [atDepth_binary]
      exact evaluateOperands_within settings ih scope _
    | _ => exact .ofSucc (evaluateNode_within ih settings _ scope)

end Both

/-- The loop over chains of operators is plain recursion. At every nesting depth, recursion on left operands that charges
nothing for them does exactly what the loop does. Recursion on both operands, which charges for each, gives the same
result or the same cause at the same position, and leaves the same world with the same scopes and displayed texts, as the
loop within the same limit, unless it stops at this limit; and from some limit on it does so for all that the loop does
within its own. -/
theorem evaluate_by_plain_recursion (settings : Settings) (depth : Nat) (node : Node) (scope : Nat) (w : World) :
    (leaningAtDepth settings depth).evaluate node scope w = (atDepth settings depth).evaluate node scope w ∧
    (((plainAtDepth settings depth).evaluate node scope w).1 = .error .tooDeep ∨
      (plainAtDepth settings depth).evaluate node scope w = (atDepth settings depth).evaluate node scope w) ∧
    (((atDepth settings depth).evaluate node scope w).1 = .error .tooDeep ∨
      ∃ limit, ∀ d, limit ≤ d →
        (plainAtDepth settings d).evaluate node scope w = (atDepth settings depth).evaluate node scope w) := by
  refine ⟨by rw [leaningAtDepth_eq], ?_, ?_⟩
  · refine ((plainAtDepth_within settings depth (pure 0)).evaluate node scope w).imp_right fun hsame => ?_
    exact (Filter.eventually_pure.mp hsame).symm
  · exact ((atDepth_within settings depth).evaluate node scope w).imp_right Filter.eventually_atTop.mp

/-- What the statements of a text display, by recursion on both operands. -/
def plainlyDisplayed (source : String) : List String :=
  match parseTo .descent 20 source with
  | .ok (.program body _) =>
    ((plainAtDepth ⟨0, 1⟩ 20).executeAll Arena.global body World.start).2.displayed.toList.map Json.text
  | _ => []

/-- Operands that display texts and assign a variable are evaluated from left to right. -/
example : plainlyDisplayed
    "Str s = \"a\"\nf(Str t) -> Str\n  display s\n  s = t\n  return t\ndisplay (f(\"b\") == s) == (f(\"c\") == s)\ndisplay s\n" =
      ["a", "b", "true", "c"] := by decide +kernel

end Machine

end TillLang.Eval
