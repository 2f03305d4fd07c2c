/-
  TillLang.Proofs.Typing.Accept — what a check that succeeds has found.

  One lemma for each function of the checker says when its answer is good. A checked statement
  changes the scopes only by the name it declares itself (`checkStatement_scopes`).
-/

import TillLang.Typing.Check
import TillLang.Proofs.Store.Outline

namespace TillLang.Typing

open Success

theorem report_ne_ok {α : Type} {reason : Reason} {node : Node} {a : α} : report reason node ≠ .ok a := by
  unfold report
  cases node.position? <;> simp

theorem require_iff {context : Context} {expected got : String} {node : Node} {u : Unit} :
    require context expected got node = .ok u ↔ expected = got := by
  unfold require
  by_cases h : expected = got
  · simp [h]
  · simp [h, report_ne_ok]

theorem require_of_ne (context : Context) (node : Node) {expected got : String} (h : expected ≠ got) :
    ∃ fault, require context expected got node = .error fault := by
  cases hr : require context expected got node with
  | error fault => exact ⟨fault, rfl⟩
  | ok u => exact absurd (require_iff.mp hr) h

theorem require_bind_iff {context : Context} {expected got : String} {node : Node} {β : Type}
    {f : Unit → Except Fault β} {b : β} :
    (require context expected got node >>= f) = .ok b ↔ expected = got ∧ f () = .ok b := by
  simp only [bind_iff, require_iff, exists_and_left]
  exact and_congr_right fun _ => ⟨fun ⟨⟨⟩, h⟩ => h, fun h => ⟨(), h⟩⟩

theorem resolveType_iff {type : Option String} {node : Node} {t : String} :
    resolveType type node = .ok t ↔ type = some t ∧ isPrimitive t = true := by
  unfold resolveType
  cases type with
  | none => simp
  | some type =>
    by_cases h : isPrimitive type
    · simp only [h, if_true, Except.ok.injEq, Option.some.injEq]
      constructor
      · rintro rfl
        exact ⟨rfl, h⟩
      · exact fun h => h.1
    · simp only [h, Bool.false_eq_true, if_false, report_ne_ok, Option.some.injEq, false_iff, not_and]
      rintro rfl
      exact h

/-! ## Expressions -/

theorem inferIdentifier_iff {scopes : Scopes} {name : String} {node : Node} {t : String} :
    inferIdentifier scopes name node = .ok t ↔ scopes.lookup? name = some (.variable t) := by
  unfold inferIdentifier
  cases scopes.lookup? name with
  | none => simp [report_ne_ok]
  | some entry =>
    cases entry with
    | «variable» type => simp
    | function params returns => simp [report_ne_ok]

/-- The types of the operand and the result of a prefix operator. -/
def unaryType (op : String) : Option String :=
  if op = "!" then some "Bool" else if op = "~" then some "Num" else none

theorem inferUnary_iff {op got : String} {operand node : Node} {t : String} :
    inferUnary op got operand node = .ok t ↔ unaryType op = some t ∧ got = t := by
  unfold inferUnary unaryType
  by_cases h : op = "!"
  · simp only [if_pos h, require_bind_iff, pure_eq, Except.ok.injEq, Option.some.injEq]
    aesop
  · by_cases h' : op = "~"
    · simp only [if_neg h, if_pos h', require_bind_iff, pure_eq, Except.ok.injEq, Option.some.injEq]
      aesop
    · simp [h, h', report_ne_ok]

/-- When operands of types `left` and `right` may be joined, and the type of the result. -/
def binaryType (op left right : String) : Option String :=
  if isArithmetic op || isOrdering op then
    if left = "Num" ∧ right = "Num" then some (if isArithmetic op then "Num" else "Bool") else none
  else if op = "==" ∧ left = right then some "Bool"
  else none

theorem inferBinary_iff {joint : Joint} {left right t : String} :
    inferBinary joint left right = .ok t ↔ binaryType joint.op left right = some t := by
  unfold inferBinary binaryType
  by_cases h : isArithmetic joint.op || isOrdering joint.op
  · simp only [if_pos h, require_bind_iff, pure_eq, Except.ok.injEq]
    aesop
  · by_cases h' : joint.op = "=="
    · simp only [if_neg h, if_pos h', require_bind_iff, pure_eq, Except.ok.injEq]
      aesop
    · simp [h, h', report_ne_ok]

theorem inferArguments_iff {infer : Node → Except Fault String} {callee : String} {index : Nat}
    {args : List Node} {types : List String} (hlen : args.length = types.length) :
    inferArguments infer callee index args types = .ok () ↔
      List.Forall₂ (fun arg type => infer arg = .ok type) args types := by
  induction args generalizing index types with
  | nil =>
    cases types with
    | nil => simp [inferArguments]
    | cons => cases hlen
  | cons arg args ih =>
    cases types with
    | nil => cases hlen
    | cons type types =>
      have hlen' : args.length = types.length := Nat.succ.inj hlen
      simp only [inferArguments, bind_iff (α := String), require_bind_iff, ih hlen', List.forall₂_cons]
      aesop

theorem inferCall_iff {infer : Node → Except Fault String} {scopes : Scopes} {callee : String}
    {args : List Node} {node : Node} {t : String} :
    inferCall infer scopes callee args node = .ok t ↔
      ∃ params, scopes.lookup? callee = some (.function params (some t)) ∧
        List.Forall₂ (fun arg type => infer arg = .ok type) args params := by
  unfold inferCall
  cases scopes.lookup? callee with
  | none => simp [report_ne_ok]
  | some entry =>
    cases entry with
    | «variable» type => simp [report_ne_ok]
    | function params returns =>
      by_cases hlen : args.length = params.length
      · simp only [hlen, ne_eq, not_true_eq_false, if_false, bind_iff, inferArguments_iff hlen]
        cases returns with
        | none => simp [report_ne_ok]
        | some type =>
          simp only [pure_eq, Except.ok.injEq, Option.some.injEq, Entry.function.injEq]
          aesop
      · simp only [ne_eq, hlen, not_false_eq_true, if_true, report_ne_ok, false_iff, not_exists, not_and,
          Option.some.injEq, Entry.function.injEq]
        rintro params' ⟨rfl, -⟩ hargs
        exact hlen hargs.length_eq

/-- The types that the operators of a chain hand on. -/
inductive Joined (infer : Node → Except Fault String) : String → List Joint → String → Prop
  | done {t : String} : Joined infer t [] t
  | step {left right t t' : String} {joint : Joint} {rest : List Joint} (hr : infer joint.right = .ok right)
      (ht : binaryType joint.op left right = some t) (h : Joined infer t rest t') :
      Joined infer left (joint :: rest) t'

theorem joined_of_foldlM {infer : Node → Except Fault String} {left t : String} {joints : List Joint}
    (h : joints.foldlM (fun left joint => do
      let right ← infer joint.right
      inferBinary joint left right) left = .ok t) : Joined infer left joints t := by
  induction joints generalizing left with
  | nil =>
    cases h
    exact .done
  | cons joint rest ih =>
    simp only [List.foldlM_cons, bind_iff] at h
    obtain ⟨t₁, ⟨right, hr, hb⟩, h⟩ := h
    exact .step hr (inferBinary_iff.mp hb) (ih h)

theorem Joined.right {infer : Node → Except Fault String} {left t : String} {joints : List Joint}
    (h : Joined infer left joints t) {joint : Joint} (hj : joint ∈ joints) :
    ∃ right, infer joint.right = .ok right := by
  induction h with
  | done => cases hj
  | step hr _ _ ih =>
    rcases List.mem_cons.mp hj with rfl | hj
    · exact ⟨_, hr⟩
    · exact ih hj

variable {scopes : Scopes} {depth : Nat} {position : Option Position} {t : String}

theorem infer_identifier_iff {name : String} :
    infer scopes (depth + 1) (.identifier name position) = .ok t ↔ scopes.lookup? name = some (.variable t) :=
  inferIdentifier_iff

theorem infer_unary_iff {op : String} {operand : Node} :
    infer scopes (depth + 1) (.unary op operand position) = .ok t ↔
      unaryType op = some t ∧ infer scopes depth operand = .ok t := by
  simp only [infer, bind_iff, inferUnary_iff]
  aesop

theorem infer_binary {op : String} {left right : Node}
    (h : infer scopes (depth + 1) (.binary op left right position) = .ok t) :
    ∃ t₀, infer scopes depth (Node.binary op left right position).spine.1 = .ok t₀ ∧
      Joined (infer scopes depth) t₀ (Node.binary op left right position).spine.2 t := by
  simp only [infer, bind_iff] at h
  obtain ⟨t₀, hfirst, hjoints⟩ := h
  exact ⟨t₀, hfirst, joined_of_foldlM hjoints⟩

theorem infer_call_iff {callee : String} {args : List Node} :
    infer scopes (depth + 1) (.call callee args position) = .ok t ↔
      ∃ params, scopes.lookup? callee = some (.function params (some t)) ∧
        List.Forall₂ (fun arg type => infer scopes depth arg = .ok type) args params :=
  inferCall_iff

/-! ## Statements -/

/-- Scopes with one more binding in the innermost one. -/
def Scopes.add (scopes : Scopes) (bindings : Scope) : Scopes := { scopes with inner := scopes.inner ++ bindings }

@[simp] theorem Scopes.add_nil (scopes : Scopes) : scopes.add [] = scopes := by simp [Scopes.add]

theorem Scopes.add_add (scopes : Scopes) (bs cs : Scope) : (scopes.add bs).add cs = scopes.add (bs ++ cs) := by
  simp [Scopes.add]

@[simp] theorem Scopes.add_outer (scopes : Scopes) (bs : Scope) : (scopes.add bs).outer = scopes.outer := rfl

@[simp] theorem Scopes.add_inner (scopes : Scopes) (bs : Scope) : (scopes.add bs).inner = scopes.inner ++ bs := rfl

/-- Leaving a scope forgets its bindings. -/
@[simp] theorem Scopes.pop_push_add (scopes : Scopes) (bs : Scope) : (scopes.push.add bs).pop = scopes := rfl

theorem declare_iff {scopes scopes' : Scopes} {name : String} {entry : Entry} {node : Node} :
    declare scopes name entry node = (scopes', .ok ()) ↔
      scopes.inner.lookup name = none ∧ scopes' = scopes.add [(name, entry)] := by
  unfold declare Scopes.define?
  cases h : scopes.inner.lookup name with
  | none => simp [Scopes.add, eq_comm]
  | some found => simp [report_ne_ok]

theorem checkEach_nil_iff {check : Scopes → Node → Verdict} {scopes scopes' : Scopes} :
    checkEach check scopes [] = (scopes', .ok ()) ↔ scopes' = scopes := by
  simp [checkEach, eq_comm]

theorem checkEach_cons_iff {check : Scopes → Node → Verdict} {scopes scopes' : Scopes} {node : Node}
    {rest : List Node} :
    checkEach check scopes (node :: rest) = (scopes', .ok ()) ↔
      ∃ scopes₁, check scopes node = (scopes₁, .ok ()) ∧ checkEach check scopes₁ rest = (scopes', .ok ()) := by
  rw [checkEach]
  rcases check scopes node with ⟨scopes₁, fault | ⟨⟨⟩⟩⟩
  · cases fault <;> simp [report_ne_ok]
  · simp

theorem declareParam_iff {scopes scopes' : Scopes} {param : Node} :
    declareParam scopes param = (scopes', .ok ()) ↔
      ∃ type name, param.declared? = some (some type, name) ∧ scopes.inner.lookup name = none ∧
        scopes' = scopes.add [(name, .variable type)] := by
  unfold declareParam
  rcases param.declared? with _ | ⟨_ | type, name⟩
  · simp
  · simp
  · simp [declare_iff]

/-- Parameters bind their names. -/
theorem checkEach_params {scopes scopes' : Scopes} {params : List Node}
    (h : checkEach declareParam scopes params = (scopes', .ok ())) :
    scopes' = scopes.add (params.map Node.static) := by
  induction params generalizing scopes with
  | nil => simpa using checkEach_nil_iff.mp h
  | cons param rest ih =>
    obtain ⟨scopes₁, hparam, hrest⟩ := checkEach_cons_iff.mp h
    obtain ⟨type, name, hd, -, rfl⟩ := declareParam_iff.mp hparam
    rw [ih hrest, Scopes.add_add]
    simp [Node.static, Node.outline_of_declared hd, Outline.static, Outline.entry]

theorem resolveParam_iff {param : Node} {t : String} :
    resolveParam param = .ok t ↔ ∃ name, param.declared? = some (some t, name) ∧ isPrimitive t = true := by
  unfold resolveParam
  rcases param.declared? with _ | ⟨type, name⟩
  · simp
  · simp only [resolveType_iff, Option.some.injEq, Prod.mk.injEq]
    constructor
    · rintro ⟨rfl, h⟩
      exact ⟨name, ⟨rfl, rfl⟩, h⟩
    · rintro ⟨name', ⟨rfl, -⟩, h⟩
      exact ⟨rfl, h⟩

/-- The types of parameters are those that are written. -/
theorem resolveParams {params : List Node} {types : List String} (h : params.mapM resolveParam = .ok types) :
    types = params.map Node.writtenType ∧ ∀ t ∈ types, isPrimitive t = true := by
  induction params generalizing types with
  | nil =>
    cases h
    simp
  | cons param rest ih =>
    simp only [List.mapM_cons, bind_iff, pure_eq, Except.ok.injEq] at h
    obtain ⟨t, ht, ts, hts, rfl⟩ := h
    obtain ⟨name, hd, hp⟩ := resolveParam_iff.mp ht
    obtain ⟨rfl, hprim⟩ := ih hts
    simp only [List.map_cons, Node.writtenType, hd, List.mem_cons, forall_eq_or_imp]
    exact ⟨trivial, hp, hprim⟩

theorem checkVariable_iff {infer : Node → Except Fault String} {scopes scopes' : Scopes} {type : Option String}
    {name : String} {initializer node : Node} :
    checkVariable infer scopes type name initializer node = (scopes', .ok ()) ↔
      ∃ t, type = some t ∧ isPrimitive t = true ∧ (initializer.isAbsent = false → infer initializer = .ok t) ∧
        scopes.inner.lookup name = none ∧ scopes' = scopes.add [(name, .variable t)] := by
  unfold checkVariable
  cases hr : resolveType type node with
  | error fault =>
    simp only [error_bind, Prod.mk.injEq, reduceCtorEq, and_false, false_iff]
    rintro ⟨t, rfl, hp, -⟩
    rw [resolveType_iff.mpr ⟨rfl, hp⟩] at hr
    cases hr
  | ok t =>
    obtain ⟨rfl, hp⟩ := resolveType_iff.mp hr
    cases ha : initializer.isAbsent with
    | true => simp [declare_iff, hp]
    | false =>
      cases hi : infer initializer with
      | error fault => simp
      | ok got =>
        by_cases hg : t = got
        · simp [require, hg, declare_iff, hg ▸ hp]
        · obtain ⟨fault, hf⟩ := require_of_ne (.initializer name) initializer hg
          simp [hf, Ne.symm hg]

theorem checkAssignment_iff {infer : Node → Except Fault String} {scopes : Scopes} {name : String}
    {value node : Node} :
    checkAssignment infer scopes name value node = .ok () ↔
      ∃ t, scopes.lookup? name = some (.variable t) ∧ infer value = .ok t := by
  unfold checkAssignment
  cases scopes.lookup? name with
  | none => simp [report_ne_ok]
  | some entry =>
    cases entry with
    | «variable» type =>
      simp only [bind_iff, require_iff, Option.some.injEq, Entry.variable.injEq]
      aesop
    | function params returns => simp [report_ne_ok]

theorem checkReturn_iff {infer : Node → Except Fault String} {enclosing : Option Enclosing} {value node : Node} :
    checkReturn infer enclosing value node = .ok () ↔
      ∃ function, enclosing = some function ∧
        match function.returns with
        | none => value.isAbsent = true
        | some t => value.isAbsent = false ∧ infer value = .ok t := by
  unfold checkReturn
  cases enclosing with
  | none => simp [report_ne_ok]
  | some function =>
    simp only [Option.some.injEq, exists_eq_left']
    cases function.returns with
    | none => cases value.isAbsent <;> simp [report_ne_ok]
    | some t =>
      cases value.isAbsent with
      | true => simp [report_ne_ok]
      | false =>
        simp only [Bool.false_eq_true, if_false, bind_iff, require_iff, true_and]
        aesop

theorem checkBlock_iff {check : Scopes → Node → Verdict} {scopes scopes' : Scopes} {body : Node} :
    checkBlock check scopes body = (scopes', .ok ()) ↔
      ∃ statements inner, body.statements? = some statements ∧
        checkEach check scopes.push statements = (inner, .ok ()) ∧ scopes' = inner.pop := by
  unfold checkBlock
  cases body.statements? with
  | none => simp
  | some statements =>
    rcases h : checkEach check scopes.push statements with ⟨inner, answer⟩
    simp only [Prod.mk.injEq, Option.some.injEq, h]
    aesop

theorem checkGuarded_iff {infer : Node → Except Fault String} {check : Scopes → Node → Verdict}
    {scopes scopes' : Scopes} {keyword : String} {condition body : Node} :
    checkGuarded infer check scopes keyword condition body = (scopes', .ok ()) ↔
      infer condition = .ok "Bool" ∧ checkBlock check scopes body = (scopes', .ok ()) := by
  unfold checkGuarded
  cases infer condition with
  | error fault => simp
  | ok got =>
    by_cases h : "Bool" = got
    · simp [require, h]
    · obtain ⟨fault, hf⟩ := require_of_ne (.condition keyword) condition h
      simp [hf, Ne.symm h]

theorem resolveReturns_iff {returns types : Option String} {node : Node} :
    (returns.mapM fun type => resolveType (some type) node) = .ok types ↔
      types = returns ∧ ∀ t, returns = some t → isPrimitive t = true := by
  cases returns with
  | none =>
    simp only [Option.mapM_none, pure_eq, Except.ok.injEq, reduceCtorEq, false_implies, implies_true, and_true]
    exact eq_comm
  | some t =>
    simp only [Option.mapM_some, map_iff, resolveType_iff, Option.some.injEq, forall_eq']
    aesop

theorem checkBody_iff {check : Scopes → Node → Verdict} {scopes scopes' : Scopes} {params : List Node}
    {body : Node} :
    checkBody check scopes params body = (scopes', .ok ()) ↔
      ∃ scopes₁ statements, checkEach declareParam scopes params = (scopes₁, .ok ()) ∧
        body.statements? = some statements ∧ checkEach check scopes₁ statements = (scopes', .ok ()) := by
  unfold checkBody
  rcases checkEach declareParam scopes params with ⟨scopes₁, fault | ⟨⟨⟩⟩⟩
  · simp
  · cases body.statements? with
    | none => simp
    | some statements => simp

/-- What a checked function is: its types are known, its name is new, and its body passes with
its name and then its parameters bound; it has a return if it has to return something. -/
theorem checkFunction_iff {check : Option Enclosing → Scopes → Node → Verdict} {scopes scopes' : Scopes}
    {name : String} {params : List Node} {returns : Option String} {body node : Node} :
    checkFunction check scopes name params returns body node = (scopes', .ok ()) ↔
      ∃ types scopes₁ inner, params.mapM resolveParam = .ok types ∧
        (∀ t, returns = some t → isPrimitive t = true) ∧
        declare scopes name (.function types returns) node = (scopes₁, .ok ()) ∧
        checkBody (check (some ⟨name, returns⟩)) scopes₁.push params body = (inner, .ok ()) ∧
        scopes' = inner.pop ∧ (returns.isSome → endsByReturn body = true) := by
  unfold checkFunction
  cases hp : params.mapM resolveParam with
  | error fault => simp
  | ok types =>
    cases hr : returns.mapM fun type => resolveType (some type) node with
    | error fault =>
      simp only [Prod.mk.injEq, reduceCtorEq, and_false, false_iff]
      rintro ⟨types', scopes₁, inner, -, hprim, -⟩
      rw [resolveReturns_iff.mpr ⟨rfl, hprim⟩] at hr
      cases hr
    | ok returns' =>
      obtain ⟨rfl, hprim⟩ := resolveReturns_iff.mp hr
      rcases hd : declare scopes name (.function types returns') node with ⟨scopes₁, fault | ⟨⟨⟩⟩⟩
      · simp [hd]
      · rcases hb : checkBody (check (some ⟨name, returns'⟩)) scopes₁.push params body with ⟨inner, fault | ⟨⟨⟩⟩⟩
        · simp [hd, hb]
        · simp only [hd, hb]
          constructor
          · intro h
            obtain ⟨rfl, hret⟩ := Prod.mk.inj h
            refine ⟨types, scopes₁, inner, rfl, hprim, hd, hb, rfl, fun hsome => ?_⟩
            obtain ⟨t, rfl⟩ := Option.isSome_iff_exists.mp hsome
            by_contra hno
            simp only [if_neg hno] at hret
            exact report_ne_ok hret
          · rintro ⟨types', scopes₁', inner', htypes, -, hd', hb', rfl, hret⟩
            cases htypes
            cases hd.symm.trans hd'
            cases hb.symm.trans hb'
            cases returns' with
            | none => rfl
            | some t => simp [hret rfl]

/-! ## The scopes after a check -/

theorem checkEach_scopes {check : Scopes → Node → Verdict}
    (hcheck : ∀ {scopes scopes' : Scopes} {node : Node}, check scopes node = (scopes', .ok ()) →
      scopes' = scopes.add (node.declarations.map Node.static))
    {scopes scopes' : Scopes} {nodes : List Node} (hall : checkEach check scopes nodes = (scopes', .ok ())) :
    scopes' = scopes.add ((nodes.flatMap Node.declarations).map Node.static) := by
  induction nodes generalizing scopes with
  | nil => simpa using checkEach_nil_iff.mp hall
  | cons node rest ih =>
    obtain ⟨scopes₁, hnode, hrest⟩ := checkEach_cons_iff.mp hall
    rw [ih hrest, hcheck hnode, Scopes.add_add, List.flatMap_cons, List.map_append]

/-- A checked block leaves the scopes as they were. -/
theorem checkBlock_scopes {check : Scopes → Node → Verdict}
    (hcheck : ∀ {scopes scopes' : Scopes} {node : Node}, check scopes node = (scopes', .ok ()) →
      scopes' = scopes.add (node.declarations.map Node.static))
    {scopes scopes' : Scopes} {body : Node} (h : checkBlock check scopes body = (scopes', .ok ())) :
    scopes' = scopes := by
  obtain ⟨statements, inner, -, hall, rfl⟩ := checkBlock_iff.mp h
  rw [checkEach_scopes hcheck hall]
  rfl

/-- A checked statement binds what it declares itself, in the scope it stands in, and leaves the
scopes as they were otherwise. -/
theorem checkStatement_scopes {depth : Nat} {enclosing : Option Enclosing} {scopes scopes' : Scopes} {node : Node}
    (hcheck : checkStatement depth enclosing scopes node = (scopes', .ok ())) :
    scopes' = scopes.add (node.declarations.map Node.static) := by
  induction depth generalizing enclosing scopes scopes' node with
  | zero => simp [checkStatement] at hcheck
  | succ depth ih =>
    unfold checkStatement at hcheck
    cases node with
    | varDecl type name initializer position =>
      obtain ⟨t, rfl, -, -, -, rfl⟩ := checkVariable_iff.mp hcheck
      rfl
    | function name params returns body position =>
      obtain ⟨types, scopes₁, inner, hp, -, hd, hb, rfl, -⟩ := checkFunction_iff.mp hcheck
      obtain ⟨-, rfl⟩ := declare_iff.mp hd
      obtain ⟨scopes₂, statements, hparams, -, hall⟩ := checkBody_iff.mp hb
      obtain rfl := checkEach_params hparams
      rw [checkEach_scopes ih hall]
      rw [(resolveParams hp).1]
      rfl
    | ifStmt condition body position =>
      rw [checkBlock_scopes ih (checkGuarded_iff.mp hcheck).2]
      exact (Scopes.add_nil scopes).symm
    | whileStmt condition body position =>
      rw [checkBlock_scopes ih (checkGuarded_iff.mp hcheck).2]
      exact (Scopes.add_nil scopes).symm
    | _ => exact (Prod.mk.inj hcheck).1.symm.trans (Scopes.add_nil scopes).symm

end TillLang.Typing
