/-
  TillLang.Proofs.Parse.Depth — what more depth changes.

  The depth of nesting is only a limit: whatever the descent does within it, a program or an
  error at a token, it does with a greater one as well (`programTo_within`). So there is one
  answer for a text besides the one that it nests too deep.
-/

import TillLang.Parse.Descent

namespace TillLang.Parse

/-- The errors at the limit of nesting. -/
def Fault.isDepth : Fault → Prop
  | .tooDeep => True
  | .rejected e => ∃ location, e = Error.tooDeep location
  | _ => False

/-- A result that is another one, or stopped at the limit of nesting. -/
def Within {α : Type} (r r' : Except Fault α) : Prop := (∃ fault, r = .error fault ∧ fault.isDepth) ∨ r = r'

section Within

variable {α β : Type}

theorem Within.same {r : Except Fault α} : Within r r := .inr rfl

theorem Within.tooDeep {r : Except Fault α} : Within (.error .tooDeep) r := .inl ⟨_, rfl, trivial⟩

theorem Within.bind {r r' : Except Fault α} {f g : α → Except Fault β}
    (h : Within r r') (hf : ∀ a, Within (f a) (g a)) :
    Within (r >>= f) (r' >>= g) := by
  rcases h with ⟨fault, rfl, hd⟩ | rfl
  · exact .inl ⟨fault, rfl, hd⟩
  · cases r with
    | error fault => exact .same
    | ok a => exact hf a

theorem Within.ite {p : Prop} [Decidable p] {r r' s s' : Except Fault α} (hr : Within r r') (hs : Within s s') :
    Within (if p then r else s) (if p then r' else s') := by
  split
  · exact hr
  · exact hs

theorem Within.trans {r s t : Except Fault α} (h : Within r s) (h' : Within s t) : Within r t := by
  rcases h with h | rfl
  · exact .inl h
  · exact h'

theorem Within.blame {start : Token} {r r' : Except Fault α} (h : Within r r') :
    Within (blame start r) (blame start r') := by
  rcases h with ⟨fault, rfl, hd⟩ | rfl
  · cases fault with
    | tooDeep => exact .inl ⟨_, rfl, _, rfl⟩
    | rejected e => exact .inl ⟨_, rfl, hd⟩
    | _ => exact hd.elim
  · exact .same

end Within

/-- A parser that does what another one does, unless it stops at the limit. -/
def WithinAll {α : Type} (p q : Parser α) : Prop := ∀ c, Within (p c) (q c)

section Parsers

variable {p q e e' : Parser Node}

theorem chain_within (h : WithinAll p q) (ops : List String) (steps : Nat) (left : Node) :
    WithinAll (chain ops p steps left) (chain ops q steps left) := by
  intro c
  induction steps generalizing left c with
  | zero => exact .same
  | succ steps ih => exact .ite ((h _).bind fun r => ih _ _) .same

theorem layer_within (h : WithinAll p q) (ops : List String) : WithinAll (layer ops p) (layer ops q) := by
  intro c
  exact (h c).bind fun r => chain_within h ops _ _ _

theorem layers_within (h : WithinAll p q) : WithinAll (layers p) (layers q) :=
  layer_within (layer_within (layer_within (layer_within h _) _) _) _

theorem moreArguments_within (h : WithinAll e e') (steps : Nat) :
    WithinAll (moreArguments e steps) (moreArguments e' steps) := by
  intro c
  induction steps generalizing c with
  | zero => exact .same
  | succ steps ih => exact .ite ((h _).bind fun r => (ih _).bind fun _ => .same) .same

theorem arguments_within (h : WithinAll e e') : WithinAll (arguments e) (arguments e') := by
  intro c
  refine Within.bind .same fun r => .ite .same ((h _).bind fun a => ?_)
  exact (moreArguments_within h _ _).bind fun _ => .same

theorem primary_within (h : WithinAll e e') : WithinAll (primary e) (primary e') := by
  intro c
  unfold primary
  simp only
  split
  · exact .same
  · exact .ite (.ite ((arguments_within h _).bind fun _ => .same) .same) (.ite ((h _).bind fun _ => .same) .same)

theorem operand_within (d : Nat) : WithinAll (operand d) (operand (d + 1)) := by
  induction d with
  | zero => exact fun c => .tooDeep
  | succ d ih =>
    intro c
    exact .ite ((ih _).bind fun _ => .same) (primary_within (layers_within ih) c)

theorem expression_within (d : Nat) : WithinAll (expression d) (expression (d + 1)) := layers_within (operand_within d)

theorem statementsTo_within (h : WithinAll p q) (stops : List String) (steps : Nat) :
    WithinAll (statementsTo stops p steps) (statementsTo stops q steps) := by
  intro c
  induction steps generalizing c with
  | zero => exact .same
  | succ steps ih => exact .ite .same ((h _).bind fun r => (ih _).bind fun _ => .same)

theorem block_within (h : WithinAll p q) : WithinAll (block p) (block q) := by
  intro c
  exact Within.bind .same fun _ => Within.bind .same fun _ => (statementsTo_within h _ _ _).bind fun _ => .same

theorem dispatch_within (he : WithinAll e e') (h : WithinAll p q) : WithinAll (dispatch e p) (dispatch e' q) := by
  intro c
  have hguarded : ∀ build, Within (guarded build e p c) (guarded build e' q c) := fun build =>
    (he _).bind fun _ => (block_within h _).bind fun _ => .same
  have hreturning : Within (returning e c) (returning e' c) := .ite .same ((he _).bind fun _ => .same)
  have hdisplaying : Within (displaying e c) (displaying e' c) := (he _).bind fun _ => .same
  have hdeclaration : Within (declaration e c) (declaration e' c) :=
    Within.bind .same fun _ => Within.bind .same fun _ => .ite ((he _).bind fun _ => .same) .same
  have hassignment : Within (assignment e c) (assignment e' c) :=
    Within.bind .same fun _ => Within.bind .same fun _ => (he _).bind fun _ => .same
  have hfunction : Within (function p c) (function q c) :=
    Within.bind .same fun _ => Within.bind .same fun _ => Within.bind .same fun _ => Within.bind .same fun _ =>
      Within.bind .same fun _ => (block_within h _).bind fun _ => .same
  exact .ite (hguarded _) (.ite (hguarded _) (.ite hreturning (.ite hdisplaying
    (.ite (.ite hfunction (.ite hdeclaration (.ite hassignment .same))) .same))))

theorem statement_within (d : Nat) : WithinAll (statement d) (statement (d + 1)) := by
  induction d with
  | zero => exact fun c => .tooDeep
  | succ d ih => exact fun c => (dispatch_within (expression_within d) ih c).blame

end Parsers

/-- What a parser does within a depth it does within every greater one. -/
theorem within_of_le {α : Type} {p : Nat → Parser α} (h : ∀ d, WithinAll (p d) (p (d + 1))) {d e : Nat} (hde : d ≤ e) :
    WithinAll (p d) (p e) := by
  intro c
  induction hde with
  | refl => exact .same
  | step _ ih => exact ih.trans (h _ c)

/-- What the descent does within a depth it does within every greater one. -/
theorem programTo_within {d e : Nat} (h : d ≤ e) (tokens : List Token) :
    Within (programTo d tokens) (programTo e tokens) := by
  unfold programTo
  split
  · exact .same
  · exact (statementsTo_within (within_of_le statement_within h) _ _ _).bind fun _ => .same

end TillLang.Parse
