/-
  TillLang.Proofs.Eval.Unplaced — running does not look at positions.

  Positions reach a world in the bodies of declared functions, and leave it in the failures of a
  run; nothing else depends on them. `Follows` says of two parts of a run that in a world without
  positions the second ends as the first does in the world, up to positions. Every part of the
  machine is followed by itself on bare trees (`Machine.atDepth_unplaced`), by induction on the
  nesting depth, so programs that differ in positions only display the same texts and end the
  same way (`run_of_bare`).
-/

import TillLang.Proofs.Typing.Unplaced
import TillLang.Proofs.Store.Binding
import TillLang.Eval.Machine

namespace TillLang

open Node (bares)

/-! ## Worlds without positions -/

/-- A function whose parameters and body have no positions. -/
def Closure.unplaced (c : Closure) : Closure := ⟨c.name, bares id c.params, c.returns, c.body.bare id, c.scope⟩

namespace Value

def unplaced : Value → Value
  | .function closure => .function closure.unplaced
  | v => v

variable (v w : Value)

@[simp] theorem typeName_unplaced : v.unplaced.typeName = v.typeName := by cases v <;> rfl

@[simp] theorem shown_unplaced : v.unplaced.shown = v.shown := by cases v <;> rfl

@[simp] theorem inspect_unplaced : v.unplaced.inspect = v.inspect := by cases v <;> rfl

@[simp] theorem isUnit_unplaced : v.unplaced.isUnit = v.isUnit := by cases v <;> rfl

@[simp] theorem isNone_unplaced : v.unplaced.isNone = v.isNone := by cases v <;> rfl

@[simp] theorem check_unplaced (type : String) : v.unplaced.check type = v.check type := by
  unfold Value.check
  rw [typeName_unplaced]

@[simp] theorem same_unplaced : v.unplaced.same w.unplaced = v.same w := by
  cases v <;> cases w <;> rfl

theorem unplaced_ofLiteral (value : Literal) : (ofLiteral value).unplaced = ofLiteral value := by
  cases value with
  | num x => rfl
  | other kind value _ =>
    simp only [ofLiteral]
    split
    · rfl
    · cases value <;> rfl

theorem unplaced_zero (type : String) : unplaced <$> zero type = zero type := by
  unfold zero
  split
  · rfl
  split
  · rfl
  split
  · rfl
  split <;> rfl

end Value

def Store.Scope.unplaced (s : Store.Scope) : Store.Scope :=
  { s with values := s.values.map fun e => (e.1, e.2.unplaced) }

def Arena.unplaced (a : Arena) : Arena := ⟨a.scopes.map Store.Scope.unplaced⟩

/-! ## The store -/

namespace Store.Scope

theorem binds_unplaced (s : Scope) (name : String) : s.unplaced.binds name = s.binds name := by
  rw [binds, binds, unplaced, lookup_map, Option.isSome_map]

theorem setValue_unplaced (s : Scope) (name : String) (value : Value) :
    s.unplaced.setValue name value.unplaced = (s.setValue name value).unplaced := by
  simp only [setValue, unplaced, put_map]

theorem add_unplaced (s : Scope) (name : String) (type : Option String) (value : Value) :
    s.unplaced.add name type value.unplaced = (s.add name type value).unplaced := by
  simp only [add, unplaced, put_map]

end Store.Scope

namespace Arena

open Success
open Store (Scope)

variable (a : Arena) (handle : Nat) (name : String)

theorem scope_unplaced : a.unplaced.scope handle = Scope.unplaced <$> a.scope handle := by
  unfold Arena.scope Arena.unplaced
  rw [List.getElem?_map]
  cases a.scopes[handle]? <;> rfl

theorem resolveIn_unplaced (steps : Nat) : a.unplaced.resolveIn name steps handle = a.resolveIn name steps handle := by
  induction steps generalizing handle with
  | zero => rfl
  | succ steps ih =>
    rw [resolveIn, resolveIn, scope_unplaced]
    cases a.scope handle with
    | error cause => rfl
    | ok s =>
      simp only [ok_map, ok_bind, Scope.binds_unplaced]
      split
      · rfl
      · have hparent : s.unplaced.parent = s.parent := rfl
        rw [hparent]
        cases s.parent with
        | none => rfl
        | some parent => exact ih parent

theorem resolve_unplaced : a.unplaced.resolve handle name = a.resolve handle name := by
  have hlength : a.unplaced.scopes.length = a.scopes.length := List.length_map _
  rw [resolve, resolve, resolveIn_unplaced, hlength]

theorem get_unplaced : a.unplaced.get handle name = Value.unplaced <$> a.get handle name := by
  unfold Arena.get
  rw [resolve_unplaced]
  cases a.resolve handle name with
  | error cause => rfl
  | ok found =>
    cases found with
    | none => rfl
    | some found =>
      simp only [ok_bind, scope_unplaced]
      cases a.scope found with
      | error cause => rfl
      | ok s =>
        simp only [ok_map, ok_bind, Scope.unplaced, Store.lookup_map]
        cases s.values.lookup name <;> rfl

theorem replace_unplaced (s : Scope) : a.unplaced.replace handle s.unplaced = (a.replace handle s).unplaced := by
  simp [replace, Arena.unplaced, List.map_set]

theorem set_unplaced (value : Value) :
    a.unplaced.set handle name value.unplaced = Arena.unplaced <$> a.set handle name value := by
  unfold Arena.set
  rw [resolve_unplaced]
  cases a.resolve handle name with
  | error cause => rfl
  | ok found =>
    cases found with
    | none => rfl
    | some found =>
      simp only [ok_bind, scope_unplaced]
      cases a.scope found with
      | error cause => rfl
      | ok s =>
        have htypes : s.unplaced.types = s.types := rfl
        simp only [ok_map, ok_bind, htypes, Value.check_unplaced]
        match s.types.lookup name with
        | none => rfl
        | some none => rfl
        | some (some type) =>
          simp only
          cases value.check type with
          | error cause => rfl
          | ok => simp only [ok_map, pure_eq, Scope.setValue_unplaced, replace_unplaced]

theorem initial_unplaced (type : String) (value : Value) :
    initial type value.unplaced = Value.unplaced <$> initial type value := by
  have hchecked : ∀ v : Value, (do v.unplaced.check type; return v.unplaced : Except Value.Mismatch Value) =
      Value.unplaced <$> (do v.check type; return v) := fun v => by
    rw [Value.check_unplaced]
    cases v.check type <;> rfl
  unfold initial
  rw [Value.isNone_unplaced]
  by_cases hnone : value.isNone = true
  · have hzero := Value.unplaced_zero type
    simp only [if_pos hnone]
    cases hz : Value.zero type with
    | error cause => rfl
    | ok v =>
      rw [hz] at hzero
      have hv := hchecked v
      rwa [Except.ok.inj hzero] at hv
  · simp only [if_neg hnone]
    exact hchecked value

theorem declare_unplaced (type : Option String) (value : Value) :
    a.unplaced.declare handle name type value.unplaced = Arena.unplaced <$> a.declare handle name type value := by
  unfold Arena.declare
  rw [scope_unplaced]
  cases a.scope handle with
  | error cause => rfl
  | ok s =>
    simp only [ok_map, ok_bind, Scope.binds_unplaced]
    split
    · rfl
    · cases type with
      | none => rfl
      | some type =>
        simp only [initial_unplaced]
        cases initial type value with
        | error cause => rfl
        | ok value =>
          simp only [ok_map, pure_eq]
          rw [← replace_unplaced, ← Scope.add_unplaced]

theorem declareFunction_unplaced (closure : Closure) :
    a.unplaced.declareFunction handle name closure.unplaced =
      Arena.unplaced <$> a.declareFunction handle name closure := by
  unfold Arena.declareFunction
  rw [scope_unplaced]
  cases a.scope handle with
  | error cause => rfl
  | ok s =>
    simp only [ok_map, ok_bind, Scope.binds_unplaced]
    split
    · rfl
    · rw [pure_eq, pure_eq, ok_map, ← replace_unplaced, ← Scope.add_unplaced]
      rfl

theorem push_unplaced (parent : Nat) :
    a.unplaced.push parent = ((a.push parent).1.unplaced, (a.push parent).2) := by
  simp [push, Arena.unplaced, Scope.unplaced]

theorem release_unplaced : a.unplaced.release handle = (a.release handle).unplaced := by
  simp [release, Arena.unplaced, List.map_take]

end Arena

namespace Eval

/-- A cause without the position of a failure. -/
def Stop.unplaced : Stop → Stop
  | .failure reason _ => .failure reason none
  | .returned value => .returned value.unplaced
  | stop => stop

def World.unplaced (w : World) : World := { w with arena := w.arena.unplaced }

variable {α β γ δ : Type}

/-- How a part of a run ends, without positions; `f` drops them from its result. -/
def unplacedEnd (f : α → β) (r : Except Stop α × World) : Except Stop β × World :=
  ((f <$> r.1).mapError Stop.unplaced, r.2.unplaced)

/-! ## Parts of a run -/

namespace Run

/-- In a world without positions the second part ends as the first does in the world. -/
def Follows (f : α → β) (m : Run α) (m' : Run β) : Prop := ∀ w : World, m' w.unplaced = unplacedEnd f (m w)

variable {f : α → β} {g : γ → δ} {m : Run α} {m' : Run β}

theorem Follows.pure (a : α) : Follows f (Run.pure a) (Run.pure (f a)) := fun _ => rfl

theorem Follows.stop (cause : Stop) : Follows f (Run.stop cause) (Run.stop cause.unplaced) := fun _ => rfl

theorem Follows.fail (reason : Reason) (position position' : Option Position) (hposition : position' = none) :
    Follows f (Run.fail reason position) (Run.fail reason position') := by
  subst hposition
  exact fun _ => rfl

theorem Follows.bind {k : α → Run γ} {k' : β → Run δ} (h : Follows f m m') (hk : ∀ a, Follows g (k a) (k' (f a))) :
    Follows g (m >>= k) (m' >>= k') := by
  intro w
  change Run.bind m' k' w.unplaced = unplacedEnd g (Run.bind m k w)
  unfold Run.bind
  rw [h w]
  obtain ⟨result, w'⟩ := m w
  cases result with
  | ok a => exact hk a w'
  | error cause => rfl

theorem storeStop_unplaced (cause : Store.Fault) : (storeStop cause).unplaced = storeStop cause := by
  cases cause <;> rfl

theorem Follows.read {r : Arena → Except Store.Fault α} {r' : Arena → Except Store.Fault β}
    (h : ∀ a : Arena, r' a.unplaced = f <$> r a) : Follows f (Run.read r) (Run.read r') := by
  intro w
  unfold Run.read
  rw [show r' w.unplaced.arena = f <$> r w.arena from h w.arena]
  cases r w.arena with
  | ok a => rfl
  | error cause => exact congrArg (fun c => (Except.error c, w.unplaced)) (storeStop_unplaced cause).symm

theorem Follows.write {r r' : Arena → Except Store.Fault Arena}
    (h : ∀ a : Arena, r' a.unplaced = Arena.unplaced <$> r a) : Follows id (Run.write r) (Run.write r') := by
  intro w
  unfold Run.write
  rw [show r' w.unplaced.arena = Arena.unplaced <$> r w.arena from h w.arena]
  cases r w.arena with
  | ok a => rfl
  | error cause => exact congrArg (fun c => (Except.error c, w.unplaced)) (storeStop_unplaced cause).symm

theorem Follows.log (line : String) : Follows id (Run.log line) (Run.log line) := by
  intro w
  unfold Run.log
  rw [show w.unplaced.logOpen = w.logOpen from rfl]
  split <;> rfl

theorem Follows.debug {level threshold : Nat} {line line' : Run String} (h : Follows id line line') :
    Follows id (Run.debug level threshold line) (Run.debug level threshold line') := by
  unfold Run.debug
  split
  · exact h.bind Follows.log
  · exact Follows.pure ()

theorem Follows.display (shown : Json) : Follows id (Run.display shown) (Run.display shown) := fun _ => rfl

theorem Follows.inChild {parent : Nat} {body : Nat → Run α} {body' : Nat → Run β}
    (h : ∀ handle, Follows f (body handle) (body' handle)) :
    Follows f (Run.inChild parent body) (Run.inChild parent body') := by
  intro w
  unfold Run.inChild
  have hpush : w.unplaced.arena.push parent = ((w.arena.push parent).1.unplaced, (w.arena.push parent).2) :=
    w.arena.push_unplaced parent
  rw [hpush]
  obtain ⟨arena, handle⟩ := w.arena.push parent
  have hbody := h handle { w with arena }
  simp only [World.unplaced] at hbody ⊢
  rw [hbody]
  simp only [unplacedEnd, World.unplaced, Arena.release_unplaced]

theorem Follows.catchReturn {m m' : Run Unit} (h : Follows id m m') :
    Follows Value.unplaced (Run.catchReturn m) (Run.catchReturn m') := by
  intro w
  unfold Run.catchReturn
  rw [h w]
  obtain ⟨result, w'⟩ := m w
  cases result with
  | ok => rfl
  | error cause => cases cause <;> rfl

end Run

/-! ## Expressions -/

open Run (Follows)

theorem applyUnary_follows (op : String) (operand : Value) (position : Option Position) :
    Follows Value.unplaced (applyUnary op operand position) (applyUnary op operand.unplaced none) := by
  unfold applyUnary
  split
  · cases operand <;> first | exact Follows.pure _ | exact Follows.fail _ _ _ rfl
  split
  · cases operand <;> first | exact Follows.pure _ | exact Follows.fail _ _ _ rfl
  · exact Follows.fail _ _ _ rfl

theorem applyArithmetic_follows (op : String) (x y : Float) (position : Option Position) :
    Follows Value.unplaced (applyArithmetic op x y position) (applyArithmetic op x y none) := by
  unfold applyArithmetic
  split
  · exact Follows.pure _
  split
  · exact Follows.pure _
  split
  · exact Follows.pure _
  split
  · split
    · exact Follows.fail _ _ _ rfl
    · exact Follows.pure _
  split
  · exact Follows.pure _
  split
  · exact Follows.pure _
  · exact Follows.fail _ _ _ rfl

theorem applyBinary_follows (op : String) (left right : Value) (position : Option Position) :
    Follows Value.unplaced (applyBinary op left right position) (applyBinary op left.unplaced right.unplaced none) := by
  unfold applyBinary
  rw [Value.same_unplaced, Value.typeName_unplaced, Value.typeName_unplaced]
  split
  · exact Follows.pure _
  · cases left with
    | num x =>
      cases right with
      | num y => exact applyArithmetic_follows op x y position
      | _ => exact Follows.fail _ _ _ rfl
    | _ => exact Follows.fail _ _ _ rfl

theorem joinShown_follows (index : Nat) (items : List Json) :
    Follows id (joinShown index items) (joinShown index items) := by
  induction items generalizing index with
  | nil => exact Follows.pure _
  | cons item items ih =>
    cases item with
    | str s => exact (ih (index + 1)).bind fun _ => Follows.pure _
    | _ => exact Follows.stop _

namespace Machine

/-- A machine does on bare trees what it does on trees. -/
structure Unplaced (m : Machine) : Prop where
  evaluate (n : Node) (scope : Nat) : Follows Value.unplaced (m.evaluate n scope) (m.evaluate (n.bare id) scope)
  execute (n : Node) (scope : Nat) : Follows id (m.execute n scope) (m.execute (n.bare id) scope)

variable {m : Machine} (h : m.Unplaced) {settings : Settings}

theorem unplaced_exhausted : exhausted.Unplaced := ⟨fun _ _ => Follows.stop _, fun _ _ => Follows.stop _⟩

theorem bindParams_follows (scope : Nat) (params : List Node) (args : List Value) :
    Follows id (bindParams scope params args) (bindParams scope (bares id params) (args.map Value.unplaced)) := by
  induction params generalizing args with
  | nil => cases args <;> exact Follows.pure _
  | cons param params ih =>
    cases args with
    | nil => exact Follows.pure _
    | cons arg args =>
      simp only [bares, List.map_cons, bindParams, Node.declared?_bare]
      split
      · exact (Follows.write fun a => a.declare_unplaced _ _ _ _).bind fun _ => ih args
      · exact Follows.stop _

theorem resultOf_follows (closure : Closure) (value : Value) (position : Option Position) :
    Follows Value.unplaced (resultOf closure value position) (resultOf closure.unplaced value.unplaced none) := by
  unfold resultOf
  rw [Value.isUnit_unplaced]
  simp only [Closure.unplaced, Value.check_unplaced]
  split
  · exact Follows.pure _
  split
  · exact Follows.fail _ _ _ rfl
  split
  · exact Follows.pure _
  · exact Follows.fail _ _ _ rfl

theorem logCall_follows (closure : Closure) (args : List Value) :
    Follows id (logCall settings closure args) (logCall settings closure.unplaced (args.map Value.unplaced)) := by
  have hshown : (args.map Value.unplaced).map Value.shown = args.map Value.shown := by
    simp [Function.comp_def]
  unfold logCall
  rw [hshown]
  exact Follows.debug ((joinShown_follows 0 _).bind fun _ => Follows.pure _)

theorem loop_follows {condition condition' : Run Bool} {body body' : Run Unit}
    (hcondition : Follows id condition condition')
    (hbody : Follows id body body') (rounds : Nat) :
    Follows id (loop condition body rounds) (loop condition' body' rounds) := by
  induction rounds with
  | zero => exact Follows.stop _
  | succ rounds ih =>
    refine hcondition.bind fun holds => ?_
    cases holds with
    | true => exact hbody.bind fun _ => ih
    | false => exact Follows.pure _

section Parts

include h

theorem evaluateAll_follows (scope : Nat) (ns : List Node) :
    Follows (List.map Value.unplaced) (m.evaluateAll scope ns) (m.evaluateAll scope (bares id ns)) := by
  induction ns with
  | nil => exact Follows.pure _
  | cons n ns ih => exact (h.evaluate n scope).bind fun _ => ih.bind fun _ => Follows.pure _

theorem executeAll_follows (scope : Nat) (ns : List Node) :
    Follows id (m.executeAll scope ns) (m.executeAll scope (bares id ns)) := by
  induction ns with
  | nil => exact Follows.pure _
  | cons n ns ih => exact (h.execute n scope).bind fun _ => ih

theorem executeBlock_follows (body : Node) (scope : Nat) :
    Follows id (m.executeBlock body scope) (m.executeBlock (body.bare id) scope) := by
  unfold executeBlock
  rw [Node.statements?_bare]
  cases body.statements? with
  | none => exact Follows.stop _
  | some statements => exact executeAll_follows h scope statements

theorem call_follows (callee : String) (function : Value) (args : List Value) (position : Option Position) :
    Follows Value.unplaced (m.call settings callee function args position)
      (m.call settings callee function.unplaced (args.map Value.unplaced) none) := by
  cases function with
  | function closure =>
    simp only [Value.unplaced, call, List.length_map]
    rw [show closure.unplaced.params.length = closure.params.length from Node.length_bares id closure.params]
    split
    · exact Follows.fail _ _ _ rfl
    · refine (logCall_follows closure args).bind fun _ => ?_
      refine Follows.bind (Follows.inChild fun scope => ?_) fun value => resultOf_follows closure value position
      exact (bindParams_follows scope closure.params args).bind fun _ =>
        (executeBlock_follows h closure.body scope).catchReturn
  | _ => exact Follows.fail _ _ _ rfl

theorem foldJoints_follows (scope : Nat) (joints : List Joint) (value : Value) :
    Follows Value.unplaced (m.foldJoints scope value joints)
      (m.foldJoints scope value.unplaced (joints.map (Joint.bare id))) := by
  induction joints generalizing value with
  | nil => exact Follows.pure _
  | cons joint joints ih =>
    refine (h.evaluate joint.right scope).bind fun right => ?_
    exact (applyBinary_follows joint.op value right joint.position).bind fun value => ih value

theorem evaluateNode_follows (n : Node) (scope : Nat) :
    Follows Value.unplaced (m.evaluateNode settings n scope) (m.evaluateNode settings (n.bare id) scope) := by
  cases n with
  | literal value position =>
    have hvalue := Follows.pure (f := Value.unplaced) (Value.ofLiteral value)
    rwa [Value.unplaced_ofLiteral] at hvalue
  | identifier name position =>
    refine (Follows.read fun a => a.get_unplaced scope name).bind fun value => ?_
    cases value <;> first | exact Follows.pure _ | exact Follows.fail _ _ _ rfl
  | unary op operand position =>
    exact (h.evaluate operand scope).bind fun value => applyUnary_follows op value position
  | binary op left right position =>
    have hspine := Node.spine_bare id (.binary op left right position)
    rw [Node.bare] at hspine ⊢
    simp only [evaluateNode, hspine]
    exact (h.evaluate _ scope).bind fun value => foldJoints_follows h scope _ value
  | call callee args position =>
    refine (Follows.read fun a => a.get_unplaced scope callee).bind fun function => ?_
    exact (evaluateAll_follows h scope args).bind fun values => call_follows h callee function values position
  | _ => exact Follows.stop _

/-! ## Statements -/

theorem evaluateOr_follows {missing : Value} (hmissing : missing.unplaced = missing) (n : Node) (scope : Nat) :
    Follows Value.unplaced (m.evaluateOr missing n scope) (m.evaluateOr missing (n.bare id) scope) := by
  unfold evaluateOr
  rw [Node.isAbsent_bare]
  split
  · have hpure := Follows.pure (f := Value.unplaced) missing
    rwa [hmissing] at hpure
  · exact h.evaluate n scope

theorem condition_follows (n : Node) (scope : Nat) :
    Follows id (m.condition n scope) (m.condition (n.bare id) scope) := by
  have hposition : ((n.bare id).position?.getD none : Option Position) = none := by
    rw [Node.position?_bare]
    cases n.position? <;> rfl
  refine (h.evaluate n scope).bind fun value => ?_
  cases value <;> first | exact Follows.pure _ | exact Follows.fail _ _ _ hposition

theorem loggedCondition_follows (keyword : String) (n : Node) (scope : Nat) :
    Follows id (m.loggedCondition settings keyword n scope) (m.loggedCondition settings keyword (n.bare id) scope) := by
  refine (condition_follows h n scope).bind fun holds => ?_
  exact (Follows.debug (Follows.pure _)).bind fun _ => Follows.pure _

theorem executeNode_follows (n : Node) (scope : Nat) :
    Follows id (m.executeNode settings n scope) (m.executeNode settings (n.bare id) scope) := by
  cases n with
  | varDecl type name initializer position =>
    refine (evaluateOr_follows h rfl initializer scope).bind fun value => ?_
    refine (Follows.write fun a => a.declare_unplaced scope name type value).bind fun _ => Follows.debug ?_
    refine (Follows.read fun a => a.get_unplaced scope name).bind fun stored => ?_
    rw [Value.inspect_unplaced]
    exact Follows.pure _
  | assignment name value position =>
    refine (h.evaluate value scope).bind fun value => ?_
    refine (Follows.write fun a => a.set_unplaced scope name value).bind fun _ => Follows.debug ?_
    rw [Value.inspect_unplaced]
    exact Follows.pure _
  | function name params returns body position =>
    refine (Follows.write fun a =>
      a.declareFunction_unplaced scope name ⟨name, params, returns, body, scope⟩).bind fun _ => ?_
    exact Follows.debug (Follows.pure _)
  | ifStmt condition body position =>
    refine (loggedCondition_follows h "if" condition scope).bind fun holds => ?_
    cases holds with
    | true => exact Follows.inChild (executeBlock_follows h body)
    | false => exact Follows.pure _
  | whileStmt condition body position =>
    exact loop_follows (loggedCondition_follows h "while" condition scope)
      (Follows.inChild (executeBlock_follows h body)) _
  | returnStmt value position =>
    exact (evaluateOr_follows h rfl value scope).bind fun value => Follows.stop (.returned value)
  | display value position =>
    refine (h.evaluate value scope).bind fun value => ?_
    rw [Value.shown_unplaced]
    exact (Follows.debug (Follows.pure _)).bind fun _ => Follows.display _
  | _ => exact Follows.stop _

end Parts

/-- At every nesting depth the machine does on bare trees what it does on trees. -/
theorem atDepth_unplaced (settings : Settings) (depth : Nat) : (atDepth settings depth).Unplaced := by
  induction depth with
  | zero => exact unplaced_exhausted
  | succ depth ih => exact ⟨evaluateNode_follows ih, executeNode_follows ih⟩

end Machine

/-! ## Programs -/

theorem settle_unplaced (result : Except Stop Unit) :
    settle (result.mapError Stop.unplaced) = (settle result).mapError Stop.unplaced := by
  cases result with
  | ok => rfl
  | error cause => cases cause <;> rfl

theorem runTo_follows (settings : Settings) (depth : Nat) (p : Node) :
    Follows id (runTo settings depth p) (runTo settings depth (p.bare id)) := by
  intro w
  unfold runTo
  rw [Node.programBody_bare]
  cases p.programBody with
  | error cause => rfl
  | ok body =>
    have hbody := Machine.executeAll_follows (Machine.atDepth_unplaced settings depth) Arena.global body w
    simp only [Success.ok_map, hbody]
    obtain ⟨result, w'⟩ := (Machine.atDepth settings depth).executeAll Arena.global body w
    simp only [unplacedEnd, id_map, settle_unplaced]
    rfl

/-- Programs that differ in positions only end alike in every world, up to positions. -/
theorem runTo_of_bare {p q : Node} (h : p.bare id = q.bare id) (settings : Settings) (depth : Nat) (w : World) :
    unplacedEnd id (runTo settings depth p w) = unplacedEnd id (runTo settings depth q w) := by
  rw [← runTo_follows settings depth p w, ← runTo_follows settings depth q w, h]

end Eval

end TillLang
