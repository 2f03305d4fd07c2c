/-
  TillLang.Proofs.Typing.Reach — the statements, expressions and lookups a check comes to.

  On its way through a program the checker comes by declarations. `Trail` holds them scope by
  scope; the scopes of the checker are what they bind. `Checks` holds of a list of statements
  together with the trail and the function in which the checker comes to it, `Infers` of an
  expression, and `Looks` of a name that is looked up for an occurrence at a position. In a
  program that passes, whatever the checker comes to passes.

  `Node.noLateShadow` says that no body declares, after a function declared directly in it, a name
  that is visible from around it.
-/

import TillLang.Pipeline
import TillLang.Proofs.Typing.Accept

namespace TillLang

open Success

/-- The condition and the body of an `if` or a `while`. -/
def Node.guarded? : Node → Option (Node × Node)
  | .ifStmt condition body _ | .whileStmt condition body _ => some (condition, body)
  | _ => none

namespace Typing

/-- The declarations and parameters that the checker has come by, scope by scope. -/
structure Trail where
  inner : List Node
  /-- The declarations of the enclosing scopes, from the nearest outward. -/
  outer : List (List Node)

namespace Trail

def start : Trail := ⟨[], []⟩

def toList (t : Trail) : List (List Node) := t.inner :: t.outer

def push (t : Trail) : Trail := ⟨[], t.toList⟩

/-- More declarations in the innermost scope. -/
def add (t : Trail) (ds : List Node) : Trail := { t with inner := t.inner ++ ds }

/-- The scopes of the checker. -/
def scopes (t : Trail) : Scopes := ⟨t.inner.map Node.static, t.outer.map (·.map Node.static)⟩

theorem scopes_toList (t : Trail) : t.scopes.toList = t.toList.map (·.map Node.static) := rfl

@[simp] theorem scopes_push (t : Trail) : t.push.scopes = t.scopes.push := rfl

@[simp] theorem scopes_add (t : Trail) (ds : List Node) : (t.add ds).scopes = t.scopes.add (ds.map Node.static) := by
  simp [add, scopes, Scopes.add]

@[simp] theorem add_nil (t : Trail) : t.add [] = t := by simp [add]

end Trail

/-- The checker comes to a list of statements, in a function and behind declarations. -/
inductive Checks (program : Node) : Option Enclosing → Nat → Trail → List Node → Prop
  | program {body : List Node} (hb : program.programBody = .ok body) :
      Checks program none Node.nestingLimit .start body
  | next {enclosing : Option Enclosing} {depth : Nat} {trail : Trail} {node : Node} {rest : List Node}
      (h : Checks program enclosing depth trail (node :: rest)) :
      Checks program enclosing depth (trail.add node.declarations) rest
  | guarded {enclosing : Option Enclosing} {depth : Nat} {trail : Trail} {node condition body : Node}
      {rest statements : List Node} (h : Checks program enclosing (depth + 1) trail (node :: rest))
      (hg : node.guarded? = some (condition, body)) (hb : body.statements? = some statements) :
      Checks program enclosing depth trail.push statements
  | function {enclosing : Option Enclosing} {depth : Nat} {trail : Trail} {name : String} {params : List Node}
      {returns : Option String} {body : Node} {position : Option Position} {rest statements : List Node}
      (h : Checks program enclosing (depth + 1) trail (.function name params returns body position :: rest))
      (hb : body.statements? = some statements) :
      Checks program (some ⟨name, returns⟩) depth
        ((trail.add [.function name params returns body position]).push.add params) statements

/-- The checker comes to an expression, behind declarations. -/
inductive Infers (program : Node) : Nat → Trail → Node → Prop
  | initializer {enclosing : Option Enclosing} {depth : Nat} {trail : Trail} {type : Option String}
      {name : String} {value : Node} {position : Option Position} {rest : List Node}
      (h : Checks program enclosing (depth + 1) trail (.varDecl type name value position :: rest))
      (hv : value.isAbsent = false) : Infers program depth trail value
  | assigned {enclosing : Option Enclosing} {depth : Nat} {trail : Trail} {name : String} {value : Node}
      {position : Option Position} {rest : List Node}
      (h : Checks program enclosing (depth + 1) trail (.assignment name value position :: rest)) :
      Infers program depth trail value
  | condition {enclosing : Option Enclosing} {depth : Nat} {trail : Trail} {node condition body : Node}
      {rest : List Node} (h : Checks program enclosing (depth + 1) trail (node :: rest))
      (hg : node.guarded? = some (condition, body)) : Infers program depth trail condition
  | returned {enclosing : Option Enclosing} {depth : Nat} {trail : Trail} {value : Node}
      {position : Option Position} {rest : List Node}
      (h : Checks program enclosing (depth + 1) trail (.returnStmt value position :: rest))
      (hv : value.isAbsent = false) : Infers program depth trail value
  | displayed {enclosing : Option Enclosing} {depth : Nat} {trail : Trail} {value : Node}
      {position : Option Position} {rest : List Node}
      (h : Checks program enclosing (depth + 1) trail (.display value position :: rest)) :
      Infers program depth trail value
  | operand {depth : Nat} {trail : Trail} {op : String} {operand : Node} {position : Option Position}
      (h : Infers program (depth + 1) trail (.unary op operand position)) :
      Infers program depth trail operand
  | first {depth : Nat} {trail : Trail} {op : String} {left right : Node} {position : Option Position}
      (h : Infers program (depth + 1) trail (.binary op left right position)) :
      Infers program depth trail (Node.binary op left right position).spine.1
  | right {depth : Nat} {trail : Trail} {op : String} {left right : Node} {position : Option Position}
      {joint : Joint} (h : Infers program (depth + 1) trail (.binary op left right position))
      (hj : joint ∈ (Node.binary op left right position).spine.2) : Infers program depth trail joint.right
  | argument {depth : Nat} {trail : Trail} {callee : String} {args : List Node} {arg : Node}
      {position : Option Position} (h : Infers program (depth + 1) trail (.call callee args position))
      (ha : arg ∈ args) : Infers program depth trail arg

/-- The checker looks up a name for its occurrence at a position, behind declarations. -/
inductive Looks (program : Node) : Trail → String → Option Position → Prop
  | read {depth : Nat} {trail : Trail} {name : String} {position : Option Position}
      (h : Infers program depth trail (.identifier name position)) : Looks program trail name position
  | callee {depth : Nat} {trail : Trail} {callee : String} {args : List Node} {position : Option Position}
      (h : Infers program depth trail (.call callee args position)) : Looks program trail callee position
  | target {enclosing : Option Enclosing} {depth : Nat} {trail : Trail} {name : String} {value : Node}
      {position : Option Position} {rest : List Node}
      (h : Checks program enclosing depth trail (.assignment name value position :: rest)) :
      Looks program trail name position

/-- A lookup of a name in nested scopes goes outward over a number of links to the scope that
binds it. -/
inductive Walk (name : String) : List Scope → Nat → Scope → Prop
  | here {scope : Scope} {outer : List Scope} {entry : Entry} (hl : scope.lookup name = some entry) :
      Walk name (scope :: outer) 0 scope
  | outward {scope found : Scope} {outer : List Scope} {k : Nat} (hl : scope.lookup name = none)
      (hw : Walk name outer k found) : Walk name (scope :: outer) (k + 1) found

theorem mem_of_lookup {scope : Scope} {name : String} {entry : Entry} (h : scope.lookup name = some entry) :
    (name, entry) ∈ scope := by
  obtain ⟨before, after, rfl, -⟩ := List.lookup_eq_some_iff.mp h
  simp

/-- Where a walk ends, the name is bound. -/
theorem Walk.target {name : String} {scopes : List Scope} {k : Nat} {scope : Scope} (hw : Walk name scopes k scope) :
    scope ∈ scopes ∧ ∃ entry, (name, entry) ∈ scope := by
  induction hw with
  | here hl => exact ⟨List.mem_cons_self, _, mem_of_lookup hl⟩
  | outward _ _ ih => exact ⟨List.mem_cons_of_mem _ ih.1, ih.2⟩

theorem Walk.getElem? {name : String} {scopes : List Scope} {k : Nat} {scope : Scope} (hw : Walk name scopes k scope) :
    scopes[k]? = some scope := by
  induction hw with
  | here => rfl
  | outward _ _ ih => exact ih

/-- A lookup gives what the scope at the end of the walk says. -/
theorem walk_of_lookup {scopes : Scopes} {name : String} {entry : Entry} (h : scopes.lookup? name = some entry) :
    ∃ k scope, Walk name scopes.toList k scope ∧ scope.lookup name = some entry := by
  unfold Scopes.lookup? at h
  generalize scopes.toList = all at h ⊢
  induction all with
  | nil => cases h
  | cons scope outer ih =>
    rw [List.findSome?_cons] at h
    cases hl : scope.lookup name with
    | some found =>
      rw [hl] at h
      cases h
      exact ⟨0, scope, .here hl, hl⟩
    | none =>
      rw [hl] at h
      obtain ⟨k, found, hw, hf⟩ := ih h
      exact ⟨k + 1, found, .outward hl hw, hf⟩

theorem Walk.unique {name : String} {scopes : List Scope} {k k' : Nat} {scope scope' : Scope}
    (hw : Walk name scopes k scope) (hw' : Walk name scopes k' scope') : k = k' ∧ scope = scope' := by
  induction hw generalizing k' with
  | here hl =>
    cases hw' with
    | here => exact ⟨rfl, rfl⟩
    | outward hl' => cases hl.symm.trans hl'
  | outward hl _ ih =>
    cases hw' with
    | here hl' => cases hl.symm.trans hl'
    | outward _ hw' =>
      obtain ⟨rfl, rfl⟩ := ih hw'
      exact ⟨rfl, rfl⟩

/-! ## Whatever a check comes to passes -/

variable {program : Node}

theorem checkGuarded_of_guarded {depth : Nat} {enclosing : Option Enclosing} {scopes scopes' : Scopes}
    {node condition body : Node} (hg : node.guarded? = some (condition, body))
    (h : checkStatement (depth + 1) enclosing scopes node = (scopes', .ok ())) :
    infer scopes depth condition = .ok "Bool" ∧
      checkBlock (checkStatement depth enclosing) scopes body = (scopes', .ok ()) := by
  cases node with
  | ifStmt c b position =>
    obtain ⟨rfl, rfl⟩ := Prod.mk.inj (Option.some.inj hg)
    exact checkGuarded_iff.mp h
  | whileStmt c b position =>
    obtain ⟨rfl, rfl⟩ := Prod.mk.inj (Option.some.inj hg)
    exact checkGuarded_iff.mp h
  | _ => cases hg

theorem Checks.passes (hpass : checkProgram program = .ok ()) {enclosing : Option Enclosing} {depth : Nat}
    {trail : Trail} {nodes : List Node} (h : Checks program enclosing depth trail nodes) :
    ∃ scopes', checkEach (checkStatement depth enclosing) trail.scopes nodes = (scopes', .ok ()) := by
  induction h with
  | program hb =>
    unfold checkProgram check at hpass
    rw [hb, mapError_iff] at hpass
    exact ⟨_, Prod.ext rfl hpass⟩
  | next _ ih =>
    obtain ⟨scopes', hall⟩ := ih
    obtain ⟨scopes₁, hnode, hrest⟩ := checkEach_cons_iff.mp hall
    rw [checkStatement_scopes hnode, ← Trail.scopes_add] at hrest
    exact ⟨scopes', hrest⟩
  | guarded _ hg hb ih =>
    obtain ⟨scopes', hall⟩ := ih
    obtain ⟨scopes₁, hnode, -⟩ := checkEach_cons_iff.mp hall
    obtain ⟨statements, inner, hb', hblock, -⟩ := checkBlock_iff.mp (checkGuarded_of_guarded hg hnode).2
    cases hb.symm.trans hb'
    exact ⟨inner, hblock⟩
  | function _ hb ih =>
    obtain ⟨scopes', hall⟩ := ih
    obtain ⟨scopes₀, hnode, -⟩ := checkEach_cons_iff.mp hall
    obtain ⟨types, scopes₁, inner, ht, -, hn, hbody, -⟩ := checkFunction_iff.mp hnode
    obtain ⟨scopes₂, statements, hp, hb', hbody⟩ := checkBody_iff.mp hbody
    cases hb.symm.trans hb'
    obtain ⟨-, rfl⟩ := declare_iff.mp hn
    obtain rfl := checkEach_params hp
    rw [(resolveParams ht).1] at hbody
    exact ⟨inner, by simpa using hbody⟩

/-- The first of the statements that a check comes to passes. -/
theorem Checks.head (hpass : checkProgram program = .ok ()) {enclosing : Option Enclosing} {depth : Nat}
    {trail : Trail} {node : Node} {rest : List Node}
    (h : Checks program enclosing depth trail (node :: rest)) :
    ∃ scopes', checkStatement depth enclosing trail.scopes node = (scopes', .ok ()) := by
  obtain ⟨scopes', hall⟩ := h.passes hpass
  obtain ⟨scopes₁, hnode, -⟩ := checkEach_cons_iff.mp hall
  exact ⟨scopes₁, hnode⟩

theorem exists_type_of_argument {infer : Node → Except Fault String} {args : List Node} {types : List String}
    (h : List.Forall₂ (fun arg type => infer arg = .ok type) args types) {arg : Node} (ha : arg ∈ args) :
    ∃ t, infer arg = .ok t := by
  induction h with
  | nil => cases ha
  | cons hi _ ih =>
    rcases List.mem_cons.mp ha with rfl | ha
    · exact ⟨_, hi⟩
    · exact ih ha

theorem Infers.passes (hpass : checkProgram program = .ok ()) {depth : Nat} {trail : Trail} {node : Node}
    (h : Infers program depth trail node) : ∃ t, infer trail.scopes depth node = .ok t := by
  induction h with
  | initializer h hv =>
    obtain ⟨scopes', hn⟩ := h.head hpass
    obtain ⟨t, -, -, hi, -⟩ := checkVariable_iff.mp hn
    exact ⟨t, hi hv⟩
  | assigned h =>
    obtain ⟨scopes', hn⟩ := h.head hpass
    obtain ⟨t, -, hi⟩ := checkAssignment_iff.mp (Prod.mk.inj hn).2
    exact ⟨t, hi⟩
  | condition h hg =>
    obtain ⟨scopes', hn⟩ := h.head hpass
    exact ⟨"Bool", (checkGuarded_of_guarded hg hn).1⟩
  | returned h hv =>
    obtain ⟨scopes', hn⟩ := h.head hpass
    obtain ⟨function, -, hr⟩ := checkReturn_iff.mp (Prod.mk.inj hn).2
    cases hret : function.returns with
    | none =>
      rw [hret] at hr
      exact absurd (hr.symm.trans hv) (by decide)
    | some t =>
      rw [hret] at hr
      exact ⟨t, hr.2⟩
  | displayed h =>
    obtain ⟨scopes', hn⟩ := h.head hpass
    obtain ⟨t, hi, -⟩ := map_iff.mp (Prod.mk.inj hn).2
    exact ⟨t, hi⟩
  | operand _ ih =>
    obtain ⟨t, ht⟩ := ih
    exact ⟨t, (infer_unary_iff.mp ht).2⟩
  | first _ ih =>
    obtain ⟨t, ht⟩ := ih
    obtain ⟨t₀, hfirst, -⟩ := infer_binary ht
    exact ⟨t₀, hfirst⟩
  | right _ hj ih =>
    obtain ⟨t, ht⟩ := ih
    obtain ⟨t₀, -, hjoints⟩ := infer_binary ht
    exact hjoints.right hj
  | argument _ ha ih =>
    obtain ⟨t, ht⟩ := ih
    obtain ⟨params, -, hargs⟩ := infer_call_iff.mp ht
    exact exists_type_of_argument hargs ha

/-- A name that a passing check looks up is bound. -/
theorem Looks.passes (hpass : checkProgram program = .ok ()) {trail : Trail} {name : String}
    {position : Option Position} (h : Looks program trail name position) :
    ∃ entry, trail.scopes.lookup? name = some entry := by
  cases h with
  | @read depth _ _ _ h =>
    obtain ⟨t, ht⟩ := h.passes hpass
    cases depth with
    | zero => cases ht
    | succ depth => exact ⟨_, infer_identifier_iff.mp ht⟩
  | @callee depth _ _ _ _ h =>
    obtain ⟨t, ht⟩ := h.passes hpass
    cases depth with
    | zero => cases ht
    | succ depth =>
      obtain ⟨params, hl, -⟩ := infer_call_iff.mp ht
      exact ⟨_, hl⟩
  | @target _ depth _ _ _ _ _ h =>
    obtain ⟨scopes', hn⟩ := h.head hpass
    cases depth with
    | zero => cases hn
    | succ depth =>
      obtain ⟨t, hl, -⟩ := checkAssignment_iff.mp (Prod.mk.inj hn).2
      exact ⟨_, hl⟩

end Typing

/-! ## Late shadowing -/

/-- The name that a statement declares. -/
def Node.declaredNames (node : Node) : List String := node.declarations.map Node.boundName

def Node.isFunction : Node → Bool
  | .function .. => true
  | _ => false

mutual

/-- No body in a statement declares, after a function declared directly in it, a name that is
visible from around it. The statement stands in a scope that binds the names `own`, inside scopes
that bind the names `outer`. -/
def Node.noLateShadow (outer own : List String) : Node → Bool
  | .ifStmt _ body _ | .whileStmt _ body _ => body.noLateShadowBody (own ++ outer) []
  | .function name params _ body _ => body.noLateShadowBody (own ++ [name] ++ outer) (params.map Node.boundName)
  | .program body _ => noLateShadowAll [] [] false body
  | _ => true

/-- The same for the statements of a body. -/
def Node.noLateShadowBody (outer own : List String) : Node → Bool
  | .block statements _ => noLateShadowAll outer own false statements
  | _ => true

/-- The same for the rest of a body; `late` says that a function has been declared in it. -/
def noLateShadowAll (outer own : List String) (late : Bool) : List Node → Bool
  | [] => true
  | node :: rest =>
    node.noLateShadow outer own && (!late || node.declaredNames.all (!outer.contains ·)) &&
      noLateShadowAll outer (own ++ node.declaredNames) (late || node.isFunction) rest

end

namespace Typing

namespace Trail

/-- The names that the innermost scope binds. -/
def ownNames (t : Trail) : List String := t.inner.map Node.boundName

/-- The names that the scopes around the innermost one bind. -/
def outerNames (t : Trail) : List String := t.outer.flatMap (·.map Node.boundName)

/-- Whether the innermost scope binds a function. -/
def hasFunction (t : Trail) : Bool := t.inner.any Node.isFunction

@[simp] theorem outerNames_push (t : Trail) : t.push.outerNames = t.ownNames ++ t.outerNames := rfl

@[simp] theorem ownNames_push (t : Trail) : t.push.ownNames = [] := rfl

@[simp] theorem hasFunction_push (t : Trail) : t.push.hasFunction = false := rfl

@[simp] theorem outerNames_add (t : Trail) (ds : List Node) : (t.add ds).outerNames = t.outerNames := rfl

@[simp] theorem ownNames_add (t : Trail) (ds : List Node) :
    (t.add ds).ownNames = t.ownNames ++ ds.map Node.boundName := by
  simp [ownNames, add]

@[simp] theorem hasFunction_add (t : Trail) (ds : List Node) :
    (t.add ds).hasFunction = (t.hasFunction || ds.any Node.isFunction) := by
  simp [hasFunction, add]

end Trail

theorem any_declarations (node : Node) : node.declarations.any Node.isFunction = node.isFunction := by
  cases node <;> rfl

theorem noLateShadowBody_of_statements {outer own : List String} {body : Node} {statements : List Node}
    (hb : body.statements? = some statements) (h : body.noLateShadowBody outer own = true) :
    noLateShadowAll outer own false statements = true := by
  cases body with
  | block ss position =>
    cases hb
    exact h
  | _ => cases hb

/-- The parameters of a checked function are variables. -/
theorem not_function_of_param {params : List Node} {scopes scopes' : Scopes}
    (h : checkEach declareParam scopes params = (scopes', .ok ())) : ∀ param ∈ params, param.isFunction = false := by
  induction params generalizing scopes with
  | nil => simp
  | cons param rest ih =>
    obtain ⟨scopes₁, hparam, hrest⟩ := checkEach_cons_iff.mp h
    obtain ⟨type, name, hd, -⟩ := declareParam_iff.mp hparam
    refine List.forall_mem_cons.mpr ⟨?_, ih hrest⟩
    cases param <;> first | rfl | cases hd

variable {program : Node}

/-- The function that a check comes to has been given parameters and a body that pass. -/
theorem Checks.params (hpass : checkProgram program = .ok ()) {enclosing : Option Enclosing} {depth : Nat}
    {trail : Trail} {name : String} {params : List Node} {returns : Option String} {body : Node}
    {position : Option Position} {rest : List Node}
    (h : Checks program enclosing (depth + 1) trail (.function name params returns body position :: rest)) :
    checkEach declareParam (trail.add [.function name params returns body position]).push.scopes params =
      (((trail.add [.function name params returns body position]).push.add params).scopes, .ok ()) ∧
    (∃ statements, body.statements? = some statements) ∧ (returns.isSome → endsByReturn body = true) := by
  obtain ⟨scopes', hnode⟩ := h.head hpass
  obtain ⟨types, scopes₁, inner, ht, -, hn, hbody, -, hret⟩ := checkFunction_iff.mp hnode
  obtain ⟨scopes₂, statements, hp, hb, -⟩ := checkBody_iff.mp hbody
  obtain ⟨-, rfl⟩ := declare_iff.mp hn
  obtain rfl := checkEach_params hp
  rw [(resolveParams ht).1] at hp
  exact ⟨by simpa using hp, ⟨statements, hb⟩, hret⟩

/-- What the checker comes to in a program without late shadowing has none. -/
theorem Checks.noLateShadow (hpass : checkProgram program = .ok ()) (hquiet : program.noLateShadow [] [] = true)
    {enclosing : Option Enclosing} {depth : Nat} {trail : Trail} {nodes : List Node}
    (h : Checks program enclosing depth trail nodes) :
    noLateShadowAll trail.outerNames trail.ownNames trail.hasFunction nodes = true := by
  induction h with
  | program hb =>
    cases program with
    | program body position =>
      cases hb
      exact hquiet
    | _ => cases hb
  | next _ ih =>
    rw [noLateShadowAll, Bool.and_eq_true] at ih
    simpa [Node.declaredNames, any_declarations] using ih.2
  | @guarded _ _ _ node condition body _ _ _ hg hb ih =>
    simp only [noLateShadowAll, Bool.and_eq_true] at ih
    refine noLateShadowBody_of_statements hb ?_
    cases node with
    | ifStmt c b position =>
      cases hg
      exact ih.1.1
    | whileStmt c b position =>
      cases hg
      exact ih.1.1
    | _ => cases hg
  | @function _ _ _ _ params _ _ _ _ _ h hb ih =>
    simp only [noLateShadowAll, Bool.and_eq_true] at ih
    have hbody := noLateShadowBody_of_statements hb ih.1.1
    have hparams : params.any Node.isFunction = false := by
      simpa using not_function_of_param (h.params hpass).1
    simpa [hparams, Node.boundName] using hbody

/-- A name that is declared after a function in the same body is bound nowhere around it. -/
theorem Checks.fits (hpass : checkProgram program = .ok ()) (hquiet : program.noLateShadow [] [] = true)
    {enclosing : Option Enclosing} {depth : Nat} {trail : Trail} {node : Node} {rest : List Node}
    (h : Checks program enclosing depth trail (node :: rest)) (hf : trail.hasFunction = true) :
    ∀ d ∈ node.declarations, d.boundName ∉ trail.outerNames := by
  have hnode := h.noLateShadow hpass hquiet
  simp only [noLateShadowAll, hf, Bool.not_true, Bool.false_or, Bool.and_eq_true, List.all_eq_true,
    Bool.not_eq_true', List.contains_eq_mem, decide_eq_false_iff_not, Node.declaredNames, List.mem_map] at hnode
  exact fun d hd => hnode.1.2 _ ⟨d, hd, rfl⟩

end Typing

end TillLang
