/-
  TillLang.Proofs.Eval.Moment — the moments of a run.

  A run is one function from world to world, and what happens on the way cannot be seen from
  outside. This module says it: a moment is something about to be carried out, in a scope of
  a world, by the machine of a depth. `Moment.Part` relates a moment to those that the machine
  leads to directly, one rule for each place where it hands something on, with the worlds that
  the machine itself has reached by then. The moments of a run are the statements of the
  program and their parts, the parts of those, and so on (`Reaches`); an interpreter that runs
  program after program passes through the worlds of a `Session`.
-/

import TillLang.Proofs.Eval.Ends

namespace TillLang.Eval

/-- What a machine carries out: an expression, a statement, or the binding of the parameters of a call
to its arguments. -/
inductive Task where
  | evaluate (node : Node)
  | execute (node : Node)
  | bind (params : List Node) (args : List Value)

structure Moment where
  depth : Nat
  task : Task
  scope : Nat
  world : World

/-- How a moment ends: with or without a cause to stop, and in which world. -/
def Moment.outcome (settings : Settings) (m : Moment) : Except Stop Unit × World :=
  let machine := Machine.atDepth settings m.depth
  match m.task with
  | .evaluate node => (machine.evaluate node m.scope >>= fun _ => Run.pure ()) m.world
  | .execute node => machine.execute node m.scope m.world
  | .bind params args => Machine.bindParams m.scope params args m.world

/-! ## One after the other -/

/-- Nodes are carried out one after the other up to one of them, which begins in the second world. -/
inductive Run.Begins {α : Type} (f : Node → Run α) : List Node → World → Node → World → Prop
  | head {node : Node} {rest : List Node} {w : World} : Begins f (node :: rest) w node w
  | tail {node other : Node} {rest : List Node} {w w₁ w₂ : World} {a : α} (h : f node w = (.ok a, w₁))
      (hrest : Begins f rest w₁ other w₂) : Begins f (node :: rest) w other w₂

/-- The operators of a chain are applied up to one of them, whose right operand begins in the second world. -/
inductive Machine.BeginsJoint (m : Machine) (scope : Nat) : Value → List Joint → World → Node → World → Prop
  | head {v : Value} {joint : Joint} {rest : List Joint} {w : World} :
      BeginsJoint m scope v (joint :: rest) w joint.right w
  | tail {v r v' : Value} {joint : Joint} {rest : List Joint} {w w₁ w₂ w₃ : World} {node : Node}
      (h : m.evaluate joint.right scope w = (.ok r, w₁))
      (hop : applyBinary joint.op v r joint.position w₁ = (.ok v', w₂))
      (hrest : BeginsJoint m scope v' rest w₂ node w₃) : BeginsJoint m scope v (joint :: rest) w node w₃

/-- A loop goes round until so many rounds are left, and the next begins in a world. -/
inductive Machine.Again (condition : Run Bool) (body : Run Unit) (rounds : Nat) (w : World) : Nat → World → Prop
  | first : Again condition body rounds w rounds w
  | next {left : Nat} {w₁ w₂ w₃ : World} (h : Again condition body rounds w (left + 1) w₁)
      (hcond : condition w₁ = (.ok true, w₂)) (hbody : body w₂ = (.ok (), w₃)) : Again condition body rounds w left w₃

section Preserved

variable {α : Type} {P : World → Prop} {m : Machine} {w w' : World}

/-- A part of a run that comes to a result leads from worlds with a property to worlds with it. -/
def Run.Preserves (m : Run α) (P : World → Prop) : Prop := ∀ ⦃w a w'⦄, P w → m w = (.ok a, w') → P w'

theorem Run.Begins.preserves {f : Node → Run α} {nodes : List Node} (hf : ∀ x ∈ nodes, (f x).Preserves P) {x : Node}
    (h : Run.Begins f nodes w x w') (hw : P w) : x ∈ nodes ∧ P w' := by
  induction h with
  | head => exact ⟨List.mem_cons_self, hw⟩
  | tail hfirst _ ih =>
    obtain ⟨hnode, hrest⟩ := List.forall_mem_cons.mp hf
    obtain ⟨hmem, hw'⟩ := ih hrest (hnode hw hfirst)
    exact ⟨List.mem_cons_of_mem _ hmem, hw'⟩

theorem Machine.BeginsJoint.preserves {h : Nat} {v : Value} {joints : List Joint}
    (hright : ∀ joint ∈ joints, (m.evaluate joint.right h).Preserves P)
    (hop : ∀ op l r p, (applyBinary op l r p).Preserves P) {x : Node} (hjoint : m.BeginsJoint h v joints w x w')
    (hw : P w) : (∃ joint ∈ joints, joint.right = x) ∧ P w' := by
  induction hjoint with
  | head => exact ⟨⟨_, List.mem_cons_self, rfl⟩, hw⟩
  | tail hfirst happly _ ih =>
    obtain ⟨hnode, hrest⟩ := List.forall_mem_cons.mp hright
    obtain ⟨⟨joint, hmem, hx⟩, hw'⟩ := ih hrest (hop _ _ _ _ (hnode hw hfirst) happly)
    exact ⟨⟨joint, List.mem_cons_of_mem _ hmem, hx⟩, hw'⟩

theorem Machine.Again.preserves {condition : Run Bool} {body : Run Unit} (hcond : condition.Preserves P)
    (hbody : body.Preserves P) {rounds left : Nat} (hround : Machine.Again condition body rounds w left w') (hw : P w) :
    P w' := by
  induction hround with
  | first => exact hw
  | next _ hc hb ih => exact hbody (hcond ih hc) hb

end Preserved

/-- A world with one more scope, inside another one. -/
def World.enter (w : World) (parent : Nat) : World := { w with arena := (w.arena.push parent).1 }

def World.next (w : World) : Nat := w.arena.scopes.length

/-- A call has read its function, evaluated its arguments and logged itself. -/
def Machine.Calls (m : Machine) (settings : Settings) (callee : String) (args : List Node) (scope : Nat) (w : World)
    (c : Closure) (values : List Value) (w' : World) : Prop :=
  w.arena.get scope callee = .ok (.function c) ∧ values.length = c.params.length ∧
    ∃ w₁, m.evaluateAll scope args w = (.ok values, w₁) ∧ Machine.logCall settings c values w₁ = (.ok (), w')

/-! ## Parts -/

section Parts

variable (settings : Settings)

/-- What the machine leads to directly from a moment. -/
inductive Moment.Part : Moment → Moment → Prop
  | operand {d h : Nat} {w : World} {op : String} {x : Node} {p : Option Position} :
      Part ⟨d + 1, .evaluate (.unary op x p), h, w⟩ ⟨d, .evaluate x, h, w⟩
  | first {d h : Nat} {w : World} {op : String} {l r : Node} {p : Option Position} :
      Part ⟨d + 1, .evaluate (.binary op l r p), h, w⟩ ⟨d, .evaluate (Node.binary op l r p).spine.1, h, w⟩
  | joint {d h : Nat} {w w₁ w₂ : World} {op : String} {l r x : Node} {p : Option Position} {v : Value}
      (hfirst : (Machine.atDepth settings d).evaluate (Node.binary op l r p).spine.1 h w = (.ok v, w₁))
      (hjoint : (Machine.atDepth settings d).BeginsJoint h v (Node.binary op l r p).spine.2 w₁ x w₂) :
      Part ⟨d + 1, .evaluate (.binary op l r p), h, w⟩ ⟨d, .evaluate x, h, w₂⟩
  | argument {d h : Nat} {w w₁ : World} {callee : String}
      {args : List Node} {x : Node} {p : Option Position} {f : Value}
      (hget : w.arena.get h callee = .ok f)
      (hargs : Run.Begins (fun x => (Machine.atDepth settings d).evaluate x h) args w x w₁) :
      Part ⟨d + 1, .evaluate (.call callee args p), h, w⟩ ⟨d, .evaluate x, h, w₁⟩
  | parameters {d h : Nat} {w w₁ : World} {callee : String} {args : List Node} {p : Option Position} {c : Closure}
      {values : List Value}
      (hcall : (Machine.atDepth settings d).Calls settings callee args h w c values w₁) :
      Part ⟨d + 1, .evaluate (.call callee args p), h, w⟩
        ⟨d, .bind c.params values, w₁.next, w₁.enter c.scope⟩
  | parameter {d h : Nat} {w : World} {arena : Arena} {param : Node} {params : List Node} {arg : Value}
      {args : List Value} {type : Option String} {name : String} (hparam : param.declared? = some (type, name))
      (hdeclare : w.arena.declare h name type arg = .ok arena) :
      Part ⟨d, .bind (param :: params) (arg :: args), h, w⟩ ⟨d, .bind params args, h, { w with arena }⟩
  | body {d h : Nat} {w w₁ w₂ w₃ : World} {callee : String} {args : List Node} {p : Option Position} {c : Closure}
      {values : List Value} {statements : List Node} {x : Node}
      (hcall : (Machine.atDepth settings d).Calls settings callee args h w c values w₁)
      (hbind : Machine.bindParams w₁.next c.params values (w₁.enter c.scope) = (.ok (), w₂))
      (hbody : c.body.statements? = some statements)
      (hx : Run.Begins (fun x => (Machine.atDepth settings d).execute x w₁.next) statements w₂ x w₃) :
      Part ⟨d + 1, .evaluate (.call callee args p), h, w⟩ ⟨d, .execute x, w₁.next, w₃⟩
  | initializer {d h : Nat} {w : World} {type : Option String} {name : String} {x : Node} {p : Option Position}
      (hx : x.isAbsent = false) : Part ⟨d + 1, .execute (.varDecl type name x p), h, w⟩ ⟨d, .evaluate x, h, w⟩
  | assigned {d h : Nat} {w : World} {name : String} {x : Node} {p : Option Position} :
      Part ⟨d + 1, .execute (.assignment name x p), h, w⟩ ⟨d, .evaluate x, h, w⟩
  | returned {d h : Nat} {w : World} {x : Node} {p : Option Position} (hx : x.isAbsent = false) :
      Part ⟨d + 1, .execute (.returnStmt x p), h, w⟩ ⟨d, .evaluate x, h, w⟩
  | displayed {d h : Nat} {w : World} {x : Node} {p : Option Position} :
      Part ⟨d + 1, .execute (.display x p), h, w⟩ ⟨d, .evaluate x, h, w⟩
  | ifCondition {d h : Nat} {w : World} {x body : Node} {p : Option Position} :
      Part ⟨d + 1, .execute (.ifStmt x body p), h, w⟩ ⟨d, .evaluate x, h, w⟩
  | ifBody {d h : Nat} {w w₁ w₂ : World} {condition body x : Node} {statements : List Node} {p : Option Position}
      (hcond : (Machine.atDepth settings d).loggedCondition settings "if" condition h w = (.ok true, w₁))
      (hbody : body.statements? = some statements)
      (hx : Run.Begins (fun x => (Machine.atDepth settings d).execute x w₁.next) statements (w₁.enter h) x w₂) :
      Part ⟨d + 1, .execute (.ifStmt condition body p), h, w⟩ ⟨d, .execute x, w₁.next, w₂⟩
  | whileCondition {d h left : Nat} {w w₁ : World} {condition body : Node} {p : Option Position}
      (hround : Machine.Again ((Machine.atDepth settings d).loggedCondition settings "while" condition h)
        (Run.inChild h ((Machine.atDepth settings d).executeBlock body)) settings.rounds w (left + 1) w₁) :
      Part ⟨d + 1, .execute (.whileStmt condition body p), h, w⟩ ⟨d, .evaluate condition, h, w₁⟩
  | whileBody {d h left : Nat} {w w₁ w₂ w₃ : World} {condition body x : Node} {statements : List Node}
      {p : Option Position}
      (hround : Machine.Again ((Machine.atDepth settings d).loggedCondition settings "while" condition h)
        (Run.inChild h ((Machine.atDepth settings d).executeBlock body)) settings.rounds w (left + 1) w₁)
      (hcond : (Machine.atDepth settings d).loggedCondition settings "while" condition h w₁ = (.ok true, w₂))
      (hbody : body.statements? = some statements)
      (hx : Run.Begins (fun x => (Machine.atDepth settings d).execute x w₂.next) statements (w₂.enter h) x w₃) :
      Part ⟨d + 1, .execute (.whileStmt condition body p), h, w⟩ ⟨d, .execute x, w₂.next, w₃⟩

/-- The moments of a run of a program from a world, nested at most `depth` deep. -/
inductive Reaches (depth : Nat) (program : Node) (w : World) : Moment → Prop
  | statement {body : List Node} {x : Node} {w' : World} (hbody : program.programBody = .ok body)
      (hx : Run.Begins (fun x => (Machine.atDepth settings depth).execute x Arena.global) body w x w') :
      Reaches depth program w ⟨depth, .execute x, Arena.global, w'⟩
  | part {m m' : Moment} (h : Reaches depth program w m) (hpart : m.Part settings m') : Reaches depth program w m'

end Parts

/-- The worlds that an interpreter passes through from program to program. -/
inductive Session : World → Prop
  | start : Session World.start
  | run {w : World} (h : Session w) (settings : Settings) (depth : Nat) (program : Node) :
      Session (runTo settings depth program w).2

end TillLang.Eval
