/-
  TillLang.Proofs.Typing.Restored — what a check leaves behind.

  A checker has two things that a check changes on its way: its scopes and the function it is in. It
  opens a scope for a block and enters a function for its body, and goes back however these end
  (`Part.inScope`, `Part.inFunction`). `Checker.check` is the check written so. The running check
  hands the scopes on and the function down instead; both come to the same (`check_eq`), so after a
  check the function is the one it was in before.

  `Binds` says what a check does to the scopes, also if it ends by a fault: it adds bindings behind
  those of the innermost scope, all that the statements declare themselves, or only the first of
  them. Each statement does so (`binds_statement`), and so do all of them (`binds_each`); what this
  says of a checker is `check_restores`.
-/

import TillLang.Proofs.Typing.Accept

namespace TillLang.Typing

/-! ## The check of a checker -/

/-- A checker: its scopes, and the function whose body it is in. -/
structure Checker where
  scopes : Scopes
  function : Option Enclosing

/-- A part of a check leaves a checker behind, whatever its answer. -/
abbrev Part := Checker → Checker × Except Fault Unit

namespace Part

/-- A look at the checker. -/
def look (answer : Checker → Except Fault Unit) : Part := fun c => (c, answer c)

/-- A change of the scopes. -/
def onScopes (change : Scopes → Verdict) : Part := fun c =>
  ({ c with scopes := (change c.scopes).1 }, (change c.scopes).2)

/-- One part after another, if the first one succeeds. -/
def andThen (p q : Part) : Part := fun c =>
  match p c with
  | (c, .ok ()) => q c
  | (c, .error fault) => (c, .error fault)

/-- A part in a scope of its own, which is left however the part ends. -/
def inScope (p : Part) : Part := fun c =>
  let (c, answer) := p { c with scopes := c.scopes.push }
  ({ c with scopes := c.scopes.pop }, answer)

/-- A part in a function. However it ends, the checker is then in the function it was in before. -/
def inFunction (function : Enclosing) (p : Part) : Part := fun c =>
  let (c', answer) := p { c with function := some function }
  ({ c' with function := c.function }, answer)

/-- A part for each of some statements, which is blamed for nesting past the limit. -/
def each (p : Node → Part) : List Node → Part
  | [] => look fun _ => .ok ()
  | node :: rest => fun c =>
    match p node c with
    | (c, .ok ()) => each p rest c
    | (c, .error .tooDeep) => (c, report .tooDeep node)
    | (c, .error fault) => (c, .error fault)

/-- The statements of a block, if it is one. -/
def statements (p : Node → Part) (body : Node) : Part :=
  match body.statements? with
  | none => look fun _ => .error .missingPart
  | some statements => each p statements

/-- A condition, and then the block it guards. -/
def guarded (p : Node → Part) (depth : Nat) (keyword : String) (condition body : Node) : Part :=
  (look fun c => do
    let got ← infer c.scopes depth condition
    require (.condition keyword) "Bool" got condition).andThen (inScope (statements p body))

/-- The declaration of a function: its name, then its parameters and its body, and then whether it ends by a return. -/
def function (p : Node → Part) (name : String) (params : List Node) (returns : Option String) (body node : Node) :
    Part :=
  match params.mapM resolveParam, returns.mapM fun type => resolveType (some type) node with
  | .error fault, _ => look fun _ => .error fault
  | .ok _, .error fault => look fun _ => .error fault
  | .ok types, .ok returns =>
    (onScopes (declare · name (.function types returns) node)).andThen <|
      (inFunction ⟨name, returns⟩ <| inScope <|
        (onScopes (checkEach declareParam · params)).andThen (statements p body)).andThen <|
      look fun _ => match returns with
        | some type => if endsByReturn body then .ok () else report (.mayNotReturn name type) node
        | none => .ok ()

/-- The check of a statement, nested at most so deep. -/
def statement : Nat → Node → Part
  | 0, _ => look fun _ => .error .tooDeep
  | depth + 1, node =>
    match node with
    | .varDecl type name initializer _ => onScopes fun scopes =>
      checkVariable (infer scopes depth) scopes type name initializer node
    | .assignment name value _ => look fun c => checkAssignment (infer c.scopes depth) c.scopes name value node
    | .ifStmt condition body _ => guarded (statement depth) depth "if" condition body
    | .whileStmt condition body _ => guarded (statement depth) depth "while" condition body
    | .function name params returns body _ => function (statement depth) name params returns body node
    | .returnStmt value _ => look fun c => checkReturn (infer c.scopes depth) c.function value node
    | .display value _ => look fun c => (fun _ => ()) <$> infer c.scopes depth value
    | node => look fun _ => report (.unexpectedStatement node.className) node

/-! ## The running check -/

/-- A part does to its checker what a check does to the scopes, and leaves it in its function. -/
def Mirrors (p : Part) (check : Option Enclosing → Scopes → Verdict) : Prop :=
  ∀ c, p c = (⟨(check c.function c.scopes).1, c.function⟩, (check c.function c.scopes).2)

variable {p : Node → Part} {check : Option Enclosing → Scopes → Node → Verdict}

theorem mirrors_each (h : ∀ node, Mirrors (p node) (check · · node)) (nodes : List Node) :
    Mirrors (each p nodes) fun function scopes => checkEach (check function) scopes nodes := by
  induction nodes with
  | nil => exact fun _ => rfl
  | cons node rest ih =>
    intro c
    simp only [each, checkEach, h node c]
    rcases check c.function c.scopes node with ⟨scopes, fault | ⟨⟨⟩⟩⟩
    · cases fault <;> rfl
    · exact ih ⟨scopes, c.function⟩

theorem mirrors_block (h : ∀ node, Mirrors (p node) (check · · node)) (body : Node) :
    Mirrors (inScope (statements p body)) fun function scopes => checkBlock (check function) scopes body := by
  intro c
  unfold inScope statements checkBlock
  cases body.statements? with
  | none => rfl
  | some nodes => simp only [mirrors_each h nodes ⟨c.scopes.push, c.function⟩]

theorem mirrors_guarded (h : ∀ node, Mirrors (p node) (check · · node)) (depth : Nat) (keyword : String)
    (condition body : Node) : Mirrors (guarded p depth keyword condition body) fun function scopes =>
      checkGuarded (infer scopes depth) (check function) scopes keyword condition body := by
  intro c
  unfold guarded andThen look checkGuarded
  simp only
  cases (infer c.scopes depth condition >>= fun got => require (.condition keyword) "Bool" got condition) with
  | error fault => rfl
  | ok u => exact mirrors_block h body c

theorem mirrors_function (h : ∀ node, Mirrors (p node) (check · · node)) (name : String) (params : List Node)
    (returns : Option String) (body node : Node) : Mirrors (function p name params returns body node)
      fun _ scopes => checkFunction check scopes name params returns body node := by
  intro c
  unfold function checkFunction
  cases params.mapM resolveParam with
  | error fault => rfl
  | ok types =>
    cases returns.mapM fun type => resolveType (some type) node with
    | error fault => rfl
    | ok returns =>
      simp only [andThen, onScopes, inFunction, inScope, checkBody, statements]
      rcases hname : declare c.scopes name (.function types returns) node with ⟨scopes, fault | ⟨⟨⟩⟩⟩
      · rfl
      rcases hparams : checkEach declareParam scopes.push params with ⟨inner, fault | ⟨⟨⟩⟩⟩
      · simp only [hparams]
      cases body.statements? with
      | none => simp only [hparams, look]
      | some nodes =>
        simp only [hparams, mirrors_each h nodes ⟨inner, some ⟨name, returns⟩⟩]
        rcases checkEach (check (some ⟨name, returns⟩)) inner nodes with ⟨inner, fault | ⟨⟨⟩⟩⟩ <;> rfl

/-- The check of a statement is the running one. -/
theorem mirrors_statement (depth : Nat) (node : Node) :
    Mirrors (statement depth node) fun function scopes => checkStatement depth function scopes node := by
  induction depth generalizing node with
  | zero => exact fun _ => rfl
  | succ depth ih =>
    cases node with
    | ifStmt condition body position | whileStmt condition body position =>
        exact mirrors_guarded ih depth _ condition body
    | function name params returns body position => exact mirrors_function ih name params returns body _
    | _ => exact fun _ => rfl

end Part

/-! ## The scopes after a check -/

/-- A check that starts with `scopes` adds bindings to the innermost scope, or only the first of them if it ends by a
fault, and leaves everything else as it was. -/
def Binds (scopes : Scopes) (bindings : Scope) (v : Verdict) : Prop :=
  ∃ new, v.1 = scopes.add new ∧ new <+: bindings ∧ (v.2 = .ok () → new = bindings)

section Binds

variable {scopes : Scopes} {bs cs : Scope} {v : Verdict}

theorem binds_of_all (h : v.1 = scopes.add bs) : Binds scopes bs v := ⟨bs, h, List.prefix_refl bs, fun _ => rfl⟩

theorem binds_of_none (h : v.1 = scopes) (hv : v.2 ≠ .ok ()) : Binds scopes bs v :=
  ⟨[], h.trans (Scopes.add_nil scopes).symm, List.nil_prefix, fun hok => absurd hok hv⟩

theorem binds_keep (h : v.1 = scopes) : Binds scopes [] v := binds_of_all (h.trans (Scopes.add_nil scopes).symm)

theorem error_ne_ok {fault : Fault} : (.error fault : Except Fault Unit) ≠ .ok () := nofun

theorem binds_fault (scopes : Scopes) (bs : Scope) (fault : Fault) : Binds scopes bs (scopes, .error fault) :=
  binds_of_none rfl error_ne_ok

/-- A scope that was opened for a check is left as it was found around it. -/
theorem Binds.pop (h : Binds scopes.push bs v) : v.1.pop = scopes := by
  obtain ⟨new, hscopes, -, -⟩ := h
  rw [hscopes, Scopes.pop_push_add]

/-- A check goes on behind one that has added all of its bindings. -/
theorem Binds.append {added : Scope} (h : Binds (scopes.add added) bs v) : Binds scopes (added ++ bs) v := by
  obtain ⟨new, hscopes, hnew, hall⟩ := h
  exact ⟨added ++ new, hscopes.trans (Scopes.add_add ..), (List.prefix_append_right_inj added).mpr hnew,
    fun hok => by rw [hall hok]⟩

theorem binds_declare (scopes : Scopes) (name : String) (entry : Entry) (node : Node) :
    Binds scopes [(name, entry)] (declare scopes name entry node) := by
  unfold declare Scopes.define?
  cases scopes.inner.lookup name with
  | none => exact binds_of_all rfl
  | some found => exact binds_of_none rfl report_ne_ok

theorem binds_declareParam (scopes : Scopes) (param : Node) :
    Binds scopes [param.static] (declareParam scopes param) := by
  unfold declareParam
  split
  · rename_i type name hdeclared
    rw [Node.static, Node.outline_of_declared hdeclared]
    exact binds_declare scopes name _ param
  · exact binds_fault scopes _ _

/-- Statement by statement the bindings are added one behind the other, up to the first fault. -/
theorem binds_each {check : Scopes → Node → Verdict} {f : Node → Scope}
    (h : ∀ scopes node, Binds scopes (f node) (check scopes node)) (scopes : Scopes) (nodes : List Node) :
    Binds scopes (nodes.flatMap f) (checkEach check scopes nodes) := by
  induction nodes generalizing scopes with
  | nil => exact binds_keep rfl
  | cons node rest ih =>
    rw [checkEach, List.flatMap_cons]
    have hfirst := h scopes node
    generalize check scopes node = v at hfirst ⊢
    obtain ⟨scopes₁, fault | ⟨⟨⟩⟩⟩ := v
    · -- A fault of the node ends the check, whether it is blamed on the node or not.
      have hends : ∀ answer : Except Fault Unit, answer ≠ .ok () →
          Binds scopes (f node ++ rest.flatMap f) (scopes₁, answer) := fun answer hanswer => by
        obtain ⟨new, hscopes, hnew, -⟩ := hfirst
        exact ⟨new, hscopes, hnew.trans (List.prefix_append _ _), fun hok => absurd hok hanswer⟩
      cases fault with
      | tooDeep => exact hends _ report_ne_ok
      | _ => exact hends _ error_ne_ok
    · obtain ⟨new, hscopes, -, hall⟩ := hfirst
      obtain rfl : scopes₁ = scopes.add (f node) := hall rfl ▸ hscopes
      exact (ih _).append

section Blocks

variable {check : Scopes → Node → Verdict} {f : Node → Scope}
  (h : ∀ scopes node, Binds scopes (f node) (check scopes node))
include h

theorem binds_block (scopes : Scopes) (body : Node) : Binds scopes [] (checkBlock check scopes body) := by
  unfold checkBlock
  cases body.statements? with
  | none => exact binds_keep rfl
  | some statements => exact binds_keep (binds_each h scopes.push statements).pop

theorem binds_guarded (infer : Node → Except Fault String)
    (scopes : Scopes) (keyword : String) (condition body : Node) :
    Binds scopes [] (checkGuarded infer check scopes keyword condition body) := by
  unfold checkGuarded
  split
  · exact binds_fault scopes [] _
  · exact binds_block h scopes body

/-- Whatever a function binds for its body, it binds in the scope of its own. -/
theorem binds_body (scopes : Scopes) (params : List Node) (body : Node) :
    ∃ bs, Binds scopes bs (checkBody check scopes params body) := by
  unfold checkBody
  have hparams := binds_each binds_declareParam scopes params
  generalize checkEach declareParam scopes params = v at hparams ⊢
  obtain ⟨inner, fault | ⟨⟨⟩⟩⟩ := v
  · exact ⟨_, hparams⟩
  · obtain ⟨new, hinner, -, -⟩ := hparams
    obtain rfl : inner = scopes.add new := hinner
    cases body.statements? with
    | none => exact ⟨new, binds_of_all rfl⟩
    | some statements => exact ⟨_, (binds_each h _ statements).append⟩

end Blocks

theorem binds_variable (infer : Node → Except Fault String) (scopes : Scopes) (type : Option String) (name : String)
    (initializer node : Node) : Binds scopes [(name, .variable (type.getD ""))]
      (checkVariable infer scopes type name initializer node) := by
  unfold checkVariable
  dsimp only
  split
  · exact binds_fault scopes _ _
  · rename_i t hdeclared
    obtain ⟨t', htype, hvalue⟩ := Success.bind_iff.mp hdeclared
    obtain ⟨rfl, -⟩ := resolveType_iff.mp htype
    have ht : t' = t := by
      cases ha : initializer.isAbsent with
      | true => simpa [ha] using hvalue
      | false =>
        simp only [ha, Bool.not_false, if_true, Success.bind_iff, require_iff] at hvalue
        obtain ⟨_, -, _, -, hvalue⟩ := hvalue
        exact Except.ok.inj hvalue
    exact ht ▸ binds_declare scopes name _ node

/-- A function binds its name, whether its body passes or not. -/
theorem binds_function {check : Option Enclosing → Scopes → Node → Verdict} {f : Node → Scope}
    (h : ∀ function scopes node, Binds scopes (f node) (check function scopes node)) (scopes : Scopes) (name : String)
    (params : List Node) (returns : Option String) (body node : Node) :
    Binds scopes [(name, .function (params.map Node.writtenType) returns)]
      (checkFunction check scopes name params returns body node) := by
  unfold checkFunction
  cases hparams : params.mapM resolveParam with
  | error fault => exact binds_fault scopes _ _
  | ok types =>
    cases hreturns : returns.mapM fun type => resolveType (some type) node with
    | error fault => exact binds_fault scopes _ _
    | ok returns' =>
      obtain ⟨rfl, -⟩ := resolveParams hparams
      obtain ⟨rfl, -⟩ := resolveReturns_iff.mp hreturns
      have hname := binds_declare scopes name (.function (params.map Node.writtenType) returns') node
      dsimp only
      generalize declare scopes name (.function (params.map Node.writtenType) returns') node = v at hname ⊢
      obtain ⟨scopes₁, fault | ⟨⟨⟩⟩⟩ := v
      · exact hname
      · obtain ⟨new, hscopes, -, hall⟩ := hname
        obtain rfl := hall rfl
        obtain ⟨bs, hbody⟩ := binds_body (h (some ⟨name, returns'⟩)) scopes₁.push params body
        have hpop := hbody.pop
        dsimp only
        generalize checkBody (check (some ⟨name, returns'⟩)) scopes₁.push params body = v at hpop ⊢
        obtain ⟨inner, fault | ⟨⟨⟩⟩⟩ := v <;>
        exact binds_of_all (hpop.trans hscopes)

/-- A statement adds to the innermost scope at most what it declares itself, and all of it unless it ends by a fault. -/
theorem binds_statement (depth : Nat) (function : Option Enclosing) (scopes : Scopes) (node : Node) :
    Binds scopes (node.declarations.map Node.static) (checkStatement depth function scopes node) := by
  induction depth generalizing function scopes node with
  | zero => exact binds_fault scopes _ _
  | succ depth ih =>
    cases node with
    | varDecl type name initializer position =>
      exact binds_variable (infer scopes depth) scopes type name initializer _
    | function name params returns body position => exact binds_function ih scopes name params returns body _
    | ifStmt condition body position | whileStmt condition body position =>
        exact binds_guarded (ih function) _ scopes _ _ _
    | _ => exact binds_keep rfl

end Binds

/-! ## Statements -/

/-- What statements declare directly, as a scope holds it. -/
def declared (statements : List Node) : Scope := (statements.flatMap Node.declarations).map Node.static

/-- What a check of statements leaves of a checker, and what it adds. -/
structure Restores (c : Checker) (statements : List Node) (after : Checker) (answer : Except Fault Unit) : Prop where
  /-- The checker is in the function it was in. -/
  function : after.function = c.function
  /-- The enclosing scopes are the ones there were, with the bindings they had. -/
  outer : after.scopes.outer = c.scopes.outer
  /-- The current scope has its bindings, and behind them the first ones of what the statements declare, or all. -/
  added : ∃ new, after.scopes.inner = c.scopes.inner ++ new ∧ new <+: declared statements ∧
    (answer = .ok () → new = declared statements)
  /-- A name that the current scope has bound means what it meant. -/
  kept : ∀ name entry, c.scopes.inner.lookup name = some entry → after.scopes.inner.lookup name = some entry
  /-- A name that the statements do not declare directly means what it meant, if anything. -/
  hidden : ∀ name, name ∉ (declared statements).map Prod.fst → after.scopes.lookup? name = c.scopes.lookup? name

/-- The check of statements, nested at most so deep. -/
def Checker.check (c : Checker) (depth : Nat) (statements : List Node) : Checker × Except Fault Unit :=
  Part.each (Part.statement depth) statements c

theorem check_eq (c : Checker) (depth : Nat) (statements : List Node) :
    c.check depth statements = (⟨(checkEach (checkStatement depth c.function) c.scopes statements).1, c.function⟩,
      (checkEach (checkStatement depth c.function) c.scopes statements).2) :=
  Part.mirrors_each (Part.mirrors_statement depth) statements c

theorem lookup_add_of_notMem {scopes : Scopes} {new : Scope} {name : String} (h : name ∉ new.map Prod.fst) :
    (scopes.add new).lookup? name = scopes.lookup? name := by
  have hnew : new.lookup name = none := List.lookup_eq_none_iff.mpr fun b hb => by
    rw [bne_iff_ne]
    exact fun heq => h (heq ▸ List.mem_map_of_mem hb)
  unfold Scopes.lookup? Scopes.toList
  rw [List.findSome?_cons, List.findSome?_cons, Scopes.add_inner, List.lookup_append, hnew, Option.or_none]
  rfl

/-- A checker restores its state. Whatever statements it checks, in whatever state and however the check ends, it does to
its scopes what the running check does, is then in the function and the scopes it was in before, with the bindings these
had, and has added to its current scope what the statements declare directly, or only the first of it if the check ends by
a fault. -/
theorem check_restores (c : Checker) (depth : Nat) (statements : List Node) :
    c.check depth statements = (⟨(checkEach (checkStatement depth c.function) c.scopes statements).1, c.function⟩,
      (checkEach (checkStatement depth c.function) c.scopes statements).2) ∧
    Restores c statements (c.check depth statements).1 (c.check depth statements).2 := by
  refine ⟨check_eq c depth statements, ?_⟩
  obtain ⟨new, hscopes, hnew, hall⟩ := binds_each (binds_statement depth c.function) c.scopes statements
  rw [← List.map_flatMap] at hnew hall
  rw [check_eq, hscopes]
  refine ⟨rfl, rfl, ⟨new, rfl, hnew, hall⟩, fun name entry hname => ?_, fun name hname => ?_⟩
  · rw [Scopes.add_inner, List.lookup_append, hname, Option.some_or]
  · exact lookup_add_of_notMem fun hmem => hname ((hnew.map Prod.fst).subset hmem)

end TillLang.Typing
