/-
  TillLang.Proofs.Typing.Decision — the checker decides the typing rules.

  The scopes of the checker are the finite maps of the rules as lists of bindings (`Scopes.env`).
  The loop over a chain of operators finds for it what recursion on both operands does
  (`infer_chain_iff`), so the type that the checker finds for an expression is the one it has by the
  rules, as far as the checker nests on it (`infer_iff`). Statement by statement, what the checker
  asks is what the rule asks, and it goes on with the scopes of the rule (`checkStatement_iff`); so
  it passes statements exactly if they are accepted and within its limit (`checkEach_iff`).
-/

import TillLang.Pipeline
import TillLang.Proofs.Typing.Rules

namespace TillLang.Typing

open Node (nesting nestings fits allFit)

/-! ## What the rules ask for each form -/

section Forms

variable {Γ : Env} {t : String} {position : Option Position}

theorem hasType_literal_iff {v : Literal} : HasType Γ (.literal v position) t ↔ v.kind = t := by
  constructor
  · rintro ⟨⟩
    rfl
  · rintro rfl
    exact .literal

theorem hasType_identifier_iff {name : String} :
    HasType Γ (.identifier name position) t ↔ Γ.lookup? name = some (.variable t) := by
  constructor
  · intro h
    cases h with
    | identifier hname => exact hname
  · exact .identifier

theorem hasType_unary_iff {op : String} {operand : Node} :
    HasType Γ (.unary op operand position) t ↔ unaryType op = some t ∧ HasType Γ operand t := by
  constructor
  · intro h
    cases h with
    | not h => exact ⟨rfl, h⟩
    | negative h => exact ⟨rfl, h⟩
  · rintro ⟨hop, h⟩
    unfold unaryType at hop
    split at hop
    · rename_i heq
      cases hop
      exact heq ▸ .not h
    · split at hop
      · rename_i heq
        cases hop
        exact heq ▸ .negative h
      · cases hop

theorem hasType_binary_iff {op : String} {left right : Node} :
    HasType Γ (.binary op left right position) t ↔
      ∃ tl tr, HasType Γ left tl ∧ HasType Γ right tr ∧ binaryType op tl tr = some t := by
  constructor
  · intro h
    cases h with
    | arithmetic hop hl hr => exact ⟨"Num", "Num", hl, hr, by simp [binaryType, isArithmetic, hop]⟩
    | ordering hop hl hr =>
      refine ⟨"Num", "Num", hl, hr, ?_⟩
      simp only [List.mem_cons, List.not_mem_nil, or_false] at hop
      rcases hop with rfl | rfl <;> rfl
    | equality hl hr => exact ⟨_, _, hl, hr, by simp [binaryType, isArithmetic, isOrdering]⟩
  · rintro ⟨tl, tr, hl, hr, hop⟩
    unfold binaryType at hop
    split at hop
    · split at hop
      · rename_i hor heq
        obtain ⟨rfl, rfl⟩ := heq
        cases hop
        by_cases harith : isArithmetic op = true
        · rw [if_pos harith]
          exact .arithmetic (by simpa [isArithmetic] using harith) hl hr
        · rw [if_neg harith]
          exact .ordering (by simpa [harith, isOrdering] using hor) hl hr
      · cases hop
    · split at hop
      · rename_i heq
        obtain ⟨rfl, rfl⟩ := heq
        cases hop
        exact .equality hl hr
      · cases hop

theorem hasType_call_iff {callee : String} {args : List Node} :
    HasType Γ (.call callee args position) t ↔
      ∃ params, Γ.lookup? callee = some (.function params (some t)) ∧ List.Forall₂ (HasType Γ) args params := by
  constructor
  · intro h
    cases h with
    | call hcallee hcount hargs => exact ⟨_, hcallee, List.forall₂_iff_zip.mpr ⟨hcount, fun h => hargs _ h⟩⟩
  · rintro ⟨params, hcallee, hargs⟩
    obtain ⟨hcount, hargs⟩ := List.forall₂_iff_zip.mp hargs
    exact .call hcallee hcount fun pair hpair => hargs hpair

theorem HasType.nesting_pos {e : Node} (h : HasType Γ e t) : 0 < e.nesting false := by
  cases h <;> simp [nesting]

variable {rest : List Node}

theorem accepts_varDecl_iff {type : Option String} {name : String} {initializer : Node} :
    Accepts Γ (.varDecl type name initializer position :: rest) ↔
      ∃ t, type = some t ∧ t ∈ primitiveTypes ∧ (initializer.isAbsent = false → HasType Γ initializer t) ∧
        name ∉ Γ.inner ∧ Accepts (Γ.bind name (.variable t)) rest := by
  constructor
  · intro h
    cases h with
    | varDecl htype hname h => exact ⟨_, rfl, htype, nofun, hname, h⟩
    | varInit htype hvalue hname h => exact ⟨_, rfl, htype, fun _ => hvalue, hname, h⟩
  · rintro ⟨t, rfl, htype, hvalue, hname, h⟩
    cases ha : initializer.isAbsent with
    | false => exact .varInit htype (hvalue ha) hname h
    | true =>
      obtain rfl : initializer = .absent := by cases initializer <;> first | rfl | cases ha
      exact .varDecl htype hname h

theorem accepts_assignment_iff {name : String} {value : Node} :
    Accepts Γ (.assignment name value position :: rest) ↔
      (∃ t, Γ.lookup? name = some (.variable t) ∧ HasType Γ value t) ∧ Accepts Γ rest := by
  constructor
  · intro h
    cases h with
    | assign hname hvalue h => exact ⟨⟨_, hname, hvalue⟩, h⟩
  · rintro ⟨⟨t, hname, hvalue⟩, h⟩
    exact .assign hname hvalue h

theorem accepts_ifStmt_iff {condition : Node} {statements : List Node} {around : Option Position} :
    Accepts Γ (.ifStmt condition (.block statements around) position :: rest) ↔
      (HasType Γ condition "Bool" ∧ Accepts Γ.enter statements) ∧ Accepts Γ rest := by
  constructor
  · intro h
    cases h with
    | ifTrue hcondition hbody h => exact ⟨⟨hcondition, hbody⟩, h⟩
  · rintro ⟨⟨hcondition, hbody⟩, h⟩
    exact .ifTrue hcondition hbody h

theorem accepts_whileStmt_iff {condition : Node} {statements : List Node} {around : Option Position} :
    Accepts Γ (.whileStmt condition (.block statements around) position :: rest) ↔
      (HasType Γ condition "Bool" ∧ Accepts Γ.enter statements) ∧ Accepts Γ rest := by
  constructor
  · intro h
    cases h with
    | whileTrue hcondition hbody h => exact ⟨⟨hcondition, hbody⟩, h⟩
  · rintro ⟨⟨hcondition, hbody⟩, h⟩
    exact .whileTrue hcondition hbody h

theorem accepts_return_iff {value : Node} :
    Accepts Γ (.returnStmt value position :: rest) ↔
      (∃ returns, Γ.returns = some returns ∧
        match returns with
        | none => value.isAbsent = true
        | some t => HasType Γ value t) ∧ Accepts Γ rest := by
  constructor
  · intro h
    cases h with
    | returnPlain hreturns h => exact ⟨⟨none, hreturns, rfl⟩, h⟩
    | returnValue hreturns hvalue h => exact ⟨⟨some _, hreturns, hvalue⟩, h⟩
  · rintro ⟨⟨_ | t, hreturns, hvalue⟩, h⟩
    · obtain rfl : value = .absent := by cases value <;> first | rfl | cases hvalue
      exact .returnPlain hreturns h
    · exact .returnValue hreturns hvalue h

theorem accepts_display_iff {value : Node} :
    Accepts Γ (.display value position :: rest) ↔ (∃ t, HasType Γ value t) ∧ Accepts Γ rest := by
  constructor
  · intro h
    cases h with
    | display hvalue h => exact ⟨⟨_, hvalue⟩, h⟩
  · rintro ⟨⟨t, hvalue⟩, h⟩
    exact .display hvalue h

theorem accepts_function_iff {name : String} {params : List Node} {returns : Option String} {statements : List Node}
    {around : Option Position} :
    Accepts Γ (.function name params returns (.block statements around) position :: rest) ↔
      ∃ ps : List Parameter, params = ps.map Parameter.node ∧ (∀ p ∈ ps, p.type ∈ primitiveTypes) ∧
        (ps.map Parameter.name).Nodup ∧ (∀ type ∈ returns, type ∈ primitiveTypes) ∧
        (returns.isSome → ∃ s ∈ statements, s.isReturn = true) ∧ name ∉ Γ.inner ∧
        Accepts ((Γ.bind name (.function (ps.map Parameter.type) returns)).body ps returns) statements ∧
        Accepts (Γ.bind name (.function (ps.map Parameter.type) returns)) rest := by
  constructor
  · intro h
    cases h with
    | function hparams hdistinct hreturns hends hname hbody h =>
      exact ⟨_, rfl, hparams, hdistinct, hreturns, hends, hname, hbody, h⟩
  · rintro ⟨ps, rfl, hparams, hdistinct, hreturns, hends, hname, hbody, h⟩
    exact .function hparams hdistinct hreturns hends hname hbody h

end Forms

/-! ## Scopes as finite maps -/

/-- The bindings of a scope as a finite map. -/
def names (scope : Scope) : Names := (scope.map fun b => (⟨b.1, b.2⟩ : Sigma fun _ : String => Entry)).toFinmap

theorem lookup_names (scope : Scope) (name : String) : (names scope).lookup name = scope.lookup name := by
  rw [names, Finmap.dlookup_list_toFinmap]
  induction scope with
  | nil => rfl
  | cons b rest ih =>
    obtain ⟨first, entry⟩ := b
    rw [List.map_cons, List.lookup_cons]
    by_cases h : name = first
    · subst h
      rw [List.dlookup_cons_eq, beq_self_eq_true]
    · rw [List.dlookup_cons_ne _ _ h, beq_eq_false_iff_ne.mpr h, ih]

theorem notMem_names {scope : Scope} {name : String} : name ∉ names scope ↔ scope.lookup name = none := by
  rw [← Finmap.lookup_eq_none, lookup_names]

theorem names_append {scope : Scope} {name : String} (h : scope.lookup name = none) (entry : Entry) :
    names (scope ++ [(name, entry)]) = (names scope).insert name entry := by
  refine Finmap.ext_lookup fun other => ?_
  rw [lookup_names, List.lookup_append]
  by_cases hother : other = name
  · subst hother
    rw [h, List.lookup_cons_self, Finmap.lookup_insert, Option.none_or]
  · rw [List.lookup_cons, beq_eq_false_iff_ne.mpr hother, List.lookup_nil, Option.or_none,
      Finmap.lookup_insert_of_ne _ hother, lookup_names]

namespace Scopes

/-- Scopes of the checker in a function, as the rules have them. -/
def env (scopes : Scopes) (enclosing : Option Enclosing) : Env :=
  ⟨names scopes.inner, scopes.outer.map names, enclosing.map Enclosing.returns⟩

variable (scopes : Scopes) (enclosing : Option Enclosing)

@[simp] theorem env_lookup (name : String) : (scopes.env enclosing).lookup? name = scopes.lookup? name := by
  have hmap : (scopes.toList.map names).findSome? (·.lookup name) = scopes.toList.findSome? (·.lookup name) := by
    simp only [List.findSome?_map, Function.comp_def, lookup_names]
  exact hmap

@[simp] theorem env_push : scopes.push.env enclosing = (scopes.env enclosing).enter := rfl

theorem env_add {name : String} (h : scopes.inner.lookup name = none) (entry : Entry) :
    (scopes.add [(name, entry)]).env enclosing = (scopes.env enclosing).bind name entry := by
  simp only [env, add, Env.bind, names_append h]

end Scopes

/-! ## Expressions -/

section Expressions

variable {scopes : Scopes} {depth : Nat} {Γ : Env} {t : String}

theorem Joined.foldlM {infer : Node → Except Fault String} {left : String} {joints : List Joint}
    (h : Joined infer left joints t) : joints.foldlM (fun left joint => do
      let right ← infer joint.right
      inferBinary joint left right) left = .ok t := by
  induction h with
  | done => rfl
  | step hr ht _ ih => rw [List.foldlM_cons, hr, Success.ok_bind, inferBinary_iff.mpr ht, Success.ok_bind, ih]

theorem infer_binary_iff {op : String} {left right : Node} {position : Option Position} :
    infer scopes (depth + 1) (.binary op left right position) = .ok t ↔
      ∃ t₀, infer scopes depth (Node.binary op left right position).spine.1 = .ok t₀ ∧
        Joined (infer scopes depth) t₀ (Node.binary op left right position).spine.2 t := by
  refine ⟨infer_binary, fun ⟨t₀, hfirst, hjoints⟩ => ?_⟩
  simp only [infer, hfirst, Success.ok_bind]
  exact hjoints.foldlM

theorem joined_cons_iff {infer : Node → Except Fault String} {left : String} {joint : Joint} {rest : List Joint} :
    Joined infer left (joint :: rest) t ↔
      ∃ right t', infer joint.right = .ok right ∧
        binaryType joint.op left right = some t' ∧ Joined infer t' rest t := by
  constructor
  · rintro (_ | ⟨hr, ht, h⟩)
    exact ⟨_, _, hr, ht, h⟩
  · rintro ⟨right, t', hr, ht, h⟩
    exact .step hr ht h

/-- With more operators behind a chain, the loop over all of them finds what it finds for those behind it when the chain
is taken by recursion on both operands. -/
theorem infer_chain_iff (hinfer : ∀ n t, infer scopes depth n = .ok t ↔ HasType Γ n t ∧ n.nesting false ≤ depth) :
    ∀ (later : List Joint) (node : Node),
      (∃ t₀, infer scopes depth (node.spineOnto later).1 = .ok t₀ ∧
          Joined (infer scopes depth) t₀ (node.spineOnto later).2 t) ↔
        ∃ t₁, (HasType Γ node t₁ ∧ node.nesting true ≤ depth) ∧ Joined (infer scopes depth) t₁ later t
  | later, .binary op left right position => by
    rw [Node.spineOnto, infer_chain_iff hinfer _ left]
    simp only [joined_cons_iff, hinfer, hasType_binary_iff, nesting, if_true, Nat.add_zero, Nat.max_le]
    constructor
    · rintro ⟨tl, ⟨hl, hnl⟩, tr, t', ⟨hr, hnr⟩, hop, h⟩
      exact ⟨t', ⟨⟨tl, tr, hl, hr, hop⟩, hnl, hnr⟩, h⟩
    · rintro ⟨t', ⟨⟨tl, tr, hl, hr, hop⟩, hnl, hnr⟩, h⟩
      exact ⟨tl, ⟨hl, hnl⟩, tr, t', ⟨hr, hnr⟩, hop, h⟩
  -- The first operand of a chain is no chain itself.
  | later, .absent | later, .program .. | later, .block .. | later, .varDecl .. | later, .param ..
  | later, .function .. | later, .ifStmt .. | later, .whileStmt .. | later, .assignment .. | later, .returnStmt ..
  | later, .display .. | later, .unary .. | later, .literal .. | later, .identifier .. | later, .call .. =>
    exists_congr fun t₀ => and_congr_left' (hinfer _ t₀)

/-- The type that the checker finds for an expression is the one that it has by the rules, as far as the checker nests
on it. -/
theorem infer_iff_env (enclosing : Option Enclosing) {e : Node} :
    infer scopes depth e = .ok t ↔ HasType (scopes.env enclosing) e t ∧ e.nesting false ≤ depth := by
  induction depth generalizing e t with
  | zero =>
    simp only [infer, reduceCtorEq, false_iff, not_and]
    exact fun h => Nat.not_le.mpr h.nesting_pos
  | succ depth ih =>
    cases e with
    | literal v position => simp [infer, nesting, hasType_literal_iff]
    | identifier name position => simp [infer_identifier_iff, nesting, hasType_identifier_iff]
    | unary op operand position =>
      rw [infer_unary_iff, hasType_unary_iff, ih, nesting, Nat.add_le_add_iff_right, and_assoc]
    | binary op left right position =>
      rw [infer_binary_iff, Node.spine, infer_chain_iff (fun n t => ih) [] (.binary op left right position)]
      simp only [nesting, if_true, Bool.false_eq_true, if_false, Nat.add_zero, Nat.add_le_add_iff_right]
      constructor
      · rintro ⟨_, h, ⟨⟩⟩
        exact h
      · exact fun h => ⟨t, h, .done⟩
    | call callee args position =>
      rw [infer_call_iff, hasType_call_iff, nesting, Nat.add_le_add_iff_right, Node.nestings_le_iff]
      simp only [ih, Scopes.env_lookup, and_comm (b := _ ≤ depth), List.forall₂_and_left]
      constructor
      · rintro ⟨params, hcallee, hdepth, hargs⟩
        exact ⟨⟨params, hcallee, hargs⟩, hdepth⟩
      · rintro ⟨⟨params, hcallee, hargs⟩, hdepth⟩
        exact ⟨params, hcallee, hdepth, hargs⟩
    | _ =>
      simp only [infer, report_ne_ok, false_iff, not_and]
      rintro ⟨⟩

end Expressions

/-! ## Statements -/

section Statements

variable {scopes : Scopes} {depth : Nat} {enclosing : Option Enclosing} {rest : List Node}

theorem nesting_of_statement {node : Node} (h : node.fits .statement = true) : 0 < node.nesting false := by
  cases node <;> simp_all [fits, nesting]

theorem nesting_of_absent {node : Node} (h : node.isAbsent = true) : node.nesting false ≤ depth := by
  cases node <;> first | exact Nat.zero_le depth | cases h

theorem HasType.not_absent {Γ : Env} {e : Node} {t : String} (h : HasType Γ e t) : e.isAbsent = false := by
  cases h <;> rfl

theorem passes_iff {v : Verdict} : v.2 = .ok () ↔ ∃ scopes, v = (scopes, .ok ()) := by
  constructor
  · exact fun h => ⟨v.1, Prod.ext rfl h⟩
  · rintro ⟨scopes, rfl⟩
    rfl

theorem lookup_add_iff {name other : String} {entry : Entry} :
    (scopes.add [(name, entry)]).inner.lookup other = none ↔ scopes.inner.lookup other = none ∧ other ≠ name := by
  rw [Scopes.add_inner, List.lookup_append, Option.or_eq_none_iff, List.lookup_eq_none_iff]
  simp

theorem isPrimitive_iff {type : String} : isPrimitive type = true ↔ type ∈ primitiveTypes := List.contains_iff_mem

theorem map_writtenType_node (ps : List Parameter) :
    (ps.map Parameter.node).map Node.writtenType = ps.map Parameter.type := by
  rw [List.map_map]
  rfl

/-- The types of parameters are found as they are written. -/
theorem resolveParams_iff {ps : List Parameter} {types : List String} :
    (ps.map Parameter.node).mapM resolveParam = .ok types ↔
      types = ps.map Parameter.type ∧ ∀ p ∈ ps, p.type ∈ primitiveTypes := by
  constructor
  · intro h
    obtain ⟨rfl, hprim⟩ := resolveParams h
    have htypes := map_writtenType_node ps
    exact ⟨htypes, fun p hp => isPrimitive_iff.mp (hprim p.type (htypes ▸ List.mem_map_of_mem hp))⟩
  · rintro ⟨rfl, hprim⟩
    induction ps with
    | nil => rfl
    | cons p rest ih =>
      obtain ⟨hp, hrest⟩ := List.forall_mem_cons.mp hprim
      have hparam : resolveParam p.node = .ok p.type :=
        resolveParam_iff.mpr ⟨p.name, rfl, isPrimitive_iff.mpr hp⟩
      rw [List.map_cons, List.mapM_cons, hparam, ih hrest]
      rfl

/-- Parameters are bound one after the other if their names are distinct and new. -/
theorem declareParams_iff {ps : List Parameter} {scopes' : Scopes} :
    checkEach declareParam scopes (ps.map Parameter.node) = (scopes', .ok ()) ↔
      (ps.map Parameter.name).Nodup ∧ (∀ p ∈ ps, scopes.inner.lookup p.name = none) ∧
        scopes' = scopes.add (ps.map fun p => (p.name, .variable p.type)) := by
  induction ps generalizing scopes with
  | nil => simp [checkEach_nil_iff]
  | cons p rest ih =>
    have hparam : ∀ scopes₁, declareParam scopes p.node = (scopes₁, .ok ()) ↔
        scopes.inner.lookup p.name = none ∧ scopes₁ = scopes.add [(p.name, .variable p.type)] := fun scopes₁ => by
      rw [declareParam_iff]
      constructor
      · rintro ⟨_, _, ⟨⟩, h⟩
        exact h
      · exact fun h => ⟨_, _, rfl, h⟩
    simp only [List.map_cons, checkEach_cons_iff, hparam, List.nodup_cons, List.forall_mem_cons, List.mem_map,
      not_exists, not_and]
    constructor
    · rintro ⟨scopes₁, ⟨hname, rfl⟩, hrest⟩
      obtain ⟨hdistinct, hfresh, rfl⟩ := ih.mp hrest
      simp only [lookup_add_iff] at hfresh
      exact ⟨⟨fun q hq => (hfresh q hq).2, hdistinct⟩, ⟨hname, fun q hq => (hfresh q hq).1⟩, Scopes.add_add ..⟩
    · rintro ⟨⟨hnew, hdistinct⟩, ⟨hname, hfresh⟩, rfl⟩
      refine ⟨_, ⟨hname, rfl⟩, ih.mpr ⟨hdistinct, fun q hq => lookup_add_iff.mpr ⟨hfresh q hq, hnew q hq⟩, ?_⟩⟩
      exact (Scopes.add_add scopes [_] _).symm

theorem env_bindAll {ps : List Parameter} (hdistinct : (ps.map Parameter.name).Nodup)
    (hfresh : ∀ p ∈ ps, scopes.inner.lookup p.name = none) :
    (scopes.add (ps.map fun p => (p.name, .variable p.type))).env enclosing = (scopes.env enclosing).bindAll ps := by
  induction ps generalizing scopes with
  | nil => rw [List.map_nil, Scopes.add_nil, Env.bindAll, List.foldl_nil]
  | cons p rest ih =>
    rw [List.map_cons, List.nodup_cons] at hdistinct
    obtain ⟨hname, hrest⟩ := List.forall_mem_cons.mp hfresh
    have hnew : ∀ q ∈ rest, (scopes.add [(p.name, .variable p.type)]).inner.lookup q.name = none := fun q hq =>
      lookup_add_iff.mpr ⟨hrest q hq, fun heq => hdistinct.1 (heq ▸ List.mem_map_of_mem hq)⟩
    rw [List.map_cons, ← List.singleton_append, ← Scopes.add_add, ih hdistinct.2 hnew, Scopes.env_add _ _ hname]
    rfl

theorem passes_cons_iff {node : Node} :
    (checkEach (checkStatement depth enclosing) scopes (node :: rest)).2 = .ok () ↔
      (checkStatement depth enclosing scopes node).2 = .ok () ∧
        (checkEach (checkStatement depth enclosing) (scopes.add (node.declarations.map Node.static)) rest).2 =
          .ok () := by
  simp only [passes_iff, checkEach_cons_iff]
  constructor
  · rintro ⟨scopes', scopes₁, hnode, hrest⟩
    exact ⟨⟨scopes₁, hnode⟩, scopes', checkStatement_scopes hnode ▸ hrest⟩
  · rintro ⟨⟨scopes₁, hnode⟩, scopes', hrest⟩
    exact ⟨scopes', scopes₁, hnode, checkStatement_scopes hnode ▸ hrest⟩

theorem checkGuarded_passes_iff {infer : Node → Except Fault String} {check : Scopes → Node → Verdict}
    {keyword : String} {condition : Node} {statements : List Node} {around : Option Position} :
    (checkGuarded infer check scopes keyword condition (.block statements around)).2 = .ok () ↔
      infer condition = .ok "Bool" ∧ (checkEach check scopes.push statements).2 = .ok () := by
  simp only [passes_iff, checkGuarded_iff, checkBlock_iff, Node.statements?, Option.some.injEq]
  constructor
  · rintro ⟨_, hcondition, _, inner, rfl, hbody, -⟩
    exact ⟨hcondition, inner, hbody⟩
  · rintro ⟨hcondition, inner, hbody⟩
    exact ⟨inner.pop, hcondition, statements, inner, rfl, hbody, rfl⟩

theorem exists_parameters {params : List Node} (h : allFit .parameter params = true) :
    ∃ ps : List Parameter, params = ps.map Parameter.node := by
  induction params with
  | nil => exact ⟨[], rfl⟩
  | cons param rest ih =>
    rw [allFit, Bool.and_eq_true] at h
    obtain ⟨ps, rfl⟩ := ih h.2
    cases param with
    | param type name position =>
      obtain ⟨type, rfl⟩ := Option.isSome_iff_exists.mp (show type.isSome = true from h.1)
      exact ⟨⟨type, name, position⟩ :: ps, rfl⟩
    | _ => cases h.1

theorem checkFunction_passes_iff {name : String} {ps : List Parameter} {returns : Option String}
    {statements : List Node} {around position : Option Position} :
    (checkFunction (checkStatement depth) scopes name (ps.map Parameter.node) returns (.block statements around)
      (.function name (ps.map Parameter.node) returns (.block statements around) position)).2 = .ok () ↔
      (∀ p ∈ ps, p.type ∈ primitiveTypes) ∧ (ps.map Parameter.name).Nodup ∧ (∀ type ∈ returns, type ∈ primitiveTypes) ∧
        (returns.isSome → ∃ s ∈ statements, s.isReturn = true) ∧ scopes.inner.lookup name = none ∧
        (checkEach (checkStatement depth (some ⟨name, returns⟩))
          ((scopes.add [(name, .function (ps.map Parameter.type) returns)]).push.add
            (ps.map fun p => (p.name, .variable p.type))) statements).2 = .ok () := by
  have hends : endsByReturn (.block statements around) = true ↔ ∃ s ∈ statements, s.isReturn = true := List.any_eq_true
  simp only [passes_iff, checkFunction_iff, resolveParams_iff, declare_iff, checkBody_iff, declareParams_iff,
    Node.statements?, Option.some.injEq, hends, isPrimitive_iff]
  constructor
  · rintro ⟨_, _, _, inner, ⟨rfl, hparams⟩, hreturns, ⟨hname, rfl⟩, ⟨_, _, ⟨hdistinct, -, rfl⟩, rfl, hbody⟩, -, hends⟩
    exact ⟨hparams, hdistinct, hreturns, hends, hname, inner, hbody⟩
  · rintro ⟨hparams, hdistinct, hreturns, hends, hname, inner, hbody⟩
    exact ⟨_, _, _, inner, ⟨rfl, hparams⟩, hreturns, ⟨hname, rfl⟩, ⟨_, _, ⟨hdistinct, fun _ _ => rfl, rfl⟩, rfl, hbody⟩,
      rfl, hends⟩

theorem Parameter.node_injective : Function.Injective Parameter.node := by
  rintro ⟨type, name, position⟩ ⟨type', name', position'⟩ h
  cases h
  rfl

/-- The body of a function is checked with its name and its parameters. -/
theorem env_body {name : String} {ps : List Parameter} {entry : Entry} (enclosing : Option Enclosing)
    (returns : Option String)
    (hname : scopes.inner.lookup name = none) (hdistinct : (ps.map Parameter.name).Nodup) :
    ((scopes.add [(name, entry)]).push.add (ps.map fun p => (p.name, .variable p.type))).env (some ⟨name, returns⟩) =
      ((scopes.env enclosing).bind name entry).body ps returns := by
  rw [env_bindAll hdistinct fun _ _ => rfl, Env.body, ← Scopes.env_add scopes enclosing hname]
  rfl

/-- A statement is checked for what its rule asks, and the statements behind it are checked with the names of the
rule. -/
theorem checkStatement_iff
    (hbody : ∀ {enclosing scopes statements}, allFit .statement statements = true →
      ((checkEach (checkStatement depth enclosing) scopes statements).2 = .ok () ↔
        Accepts (scopes.env enclosing) statements ∧ nestings statements ≤ depth))
    {node : Node} (hnode : node.fits .statement = true) :
    (checkStatement (depth + 1) enclosing scopes node).2 = .ok () ∧
        Accepts ((scopes.add (node.declarations.map Node.static)).env enclosing) rest ↔
      Accepts (scopes.env enclosing) (node :: rest) ∧ node.nesting false ≤ depth + 1 := by
  cases node with
  | varDecl type name initializer position =>
    rw [accepts_varDecl_iff, nesting, Nat.add_le_add_iff_right]
    simp only [checkStatement, passes_iff, checkVariable_iff, infer_iff_env enclosing, isPrimitive_iff]
    constructor
    · rintro ⟨⟨_, t, rfl, htype, hvalue, hname, rfl⟩, hrest⟩
      refine ⟨⟨t, rfl, htype, fun ha => (hvalue ha).1, notMem_names.mpr hname, ?_⟩, ?_⟩
      · rw [← Scopes.env_add _ _ hname]
        exact hrest
      · cases ha : initializer.isAbsent with
        | true => exact nesting_of_absent ha
        | false => exact (hvalue ha).2
    · rintro ⟨⟨t, rfl, htype, hvalue, hname, hrest⟩, hdepth⟩
      have hname := notMem_names.mp hname
      rw [← Scopes.env_add _ _ hname] at hrest
      exact ⟨⟨_, t, rfl, htype, fun ha => ⟨hvalue ha, hdepth⟩, hname, rfl⟩, hrest⟩
  | assignment name value position =>
    rw [accepts_assignment_iff, nesting, Nat.add_le_add_iff_right]
    simp only [checkStatement, Verdict.keep, checkAssignment_iff, infer_iff_env enclosing,
      Scopes.env_lookup, Node.declarations, List.map_nil, Scopes.add_nil]
    constructor
    · rintro ⟨⟨t, hname, hvalue, hdepth⟩, hrest⟩
      exact ⟨⟨⟨t, hname, hvalue⟩, hrest⟩, hdepth⟩
    · rintro ⟨⟨⟨t, hname, hvalue⟩, hrest⟩, hdepth⟩
      exact ⟨⟨t, hname, hvalue, hdepth⟩, hrest⟩
  | ifStmt condition body position | whileStmt condition body position =>
    obtain ⟨statements, around, rfl, hfit⟩ := Node.exists_of_fits_block (Bool.and_eq_true_iff.mp hnode).2
    simp only [accepts_ifStmt_iff, accepts_whileStmt_iff, nesting, Nat.add_le_add_iff_right, Nat.max_le, checkStatement,
      checkGuarded_passes_iff, infer_iff_env enclosing, hbody hfit, Scopes.env_push, Node.declarations,
      List.map_nil, Scopes.add_nil]
    constructor
    · rintro ⟨⟨⟨hcondition, hdepth⟩, hstatements, hdepth'⟩, hrest⟩
      exact ⟨⟨⟨hcondition, hstatements⟩, hrest⟩, hdepth, hdepth'⟩
    · rintro ⟨⟨⟨hcondition, hstatements⟩, hrest⟩, hdepth, hdepth'⟩
      exact ⟨⟨⟨hcondition, hdepth⟩, hstatements, hdepth'⟩, hrest⟩
  | function name params returns body position =>
    obtain ⟨hparams, hblock⟩ := Bool.and_eq_true_iff.mp hnode
    obtain ⟨statements, around, rfl, hfit⟩ := Node.exists_of_fits_block hblock
    obtain ⟨ps, rfl⟩ := exists_parameters hparams
    rw [accepts_function_iff, nesting, nesting, Nat.add_le_add_iff_right, checkStatement, checkFunction_passes_iff,
      hbody hfit, Node.declarations, List.map_singleton, Node.static_function, map_writtenType_node]
    constructor
    · rintro ⟨⟨hparams, hdistinct, hreturns, hends, hname, hstatements, hdepth⟩, hrest⟩
      rw [env_body enclosing returns hname hdistinct] at hstatements
      rw [Scopes.env_add _ _ hname] at hrest
      exact ⟨⟨ps, rfl, hparams, hdistinct, hreturns, hends, notMem_names.mpr hname, hstatements, hrest⟩, hdepth⟩
    · rintro ⟨⟨ps', heq, hparams, hdistinct, hreturns, hends, hname, hstatements, hrest⟩, hdepth⟩
      obtain rfl := Parameter.node_injective.list_map heq
      have hname := notMem_names.mp hname
      rw [← env_body enclosing returns hname hdistinct] at hstatements
      rw [← Scopes.env_add _ _ hname] at hrest
      exact ⟨⟨hparams, hdistinct, hreturns, hends, hname, hstatements, hdepth⟩, hrest⟩
  | returnStmt value position =>
    rw [accepts_return_iff, nesting, Nat.add_le_add_iff_right]
    simp only [checkStatement, Verdict.keep, checkReturn_iff, infer_iff_env enclosing, Node.declarations,
      List.map_nil, Scopes.add_nil]
    constructor
    · rintro ⟨⟨function, rfl, hvalue⟩, hrest⟩
      cases hreturns : function.returns with
      | none =>
        rw [hreturns] at hvalue
        exact ⟨⟨⟨none, congrArg some hreturns, hvalue⟩, hrest⟩, nesting_of_absent hvalue⟩
      | some t =>
        rw [hreturns] at hvalue
        exact ⟨⟨⟨some t, congrArg some hreturns, hvalue.2.1⟩, hrest⟩, hvalue.2.2⟩
    · rintro ⟨⟨⟨returns, henclosing, hvalue⟩, hrest⟩, hdepth⟩
      obtain ⟨function, rfl, rfl⟩ := Option.map_eq_some_iff.mp henclosing
      refine ⟨⟨function, rfl, ?_⟩, hrest⟩
      cases hreturns : function.returns with
      | none =>
        rw [hreturns] at hvalue
        exact hvalue
      | some t =>
        rw [hreturns] at hvalue
        exact ⟨hvalue.not_absent, hvalue, hdepth⟩
  | display value position =>
    rw [accepts_display_iff, nesting, Nat.add_le_add_iff_right]
    simp only [checkStatement, Verdict.keep, Success.map_iff, infer_iff_env enclosing, Node.declarations,
      List.map_nil, Scopes.add_nil]
    constructor
    · rintro ⟨⟨t, ⟨hvalue, hdepth⟩, -⟩, hrest⟩
      exact ⟨⟨⟨t, hvalue⟩, hrest⟩, hdepth⟩
    · rintro ⟨⟨⟨t, hvalue⟩, hrest⟩, hdepth⟩
      exact ⟨⟨t, ⟨hvalue, hdepth⟩, trivial⟩, hrest⟩
  | _ => cases hnode

/-- Statements pass exactly if they are accepted and the checker nests on them within its limit. -/
theorem checkEach_iff {statements : List Node} (hfit : allFit .statement statements = true) :
    (checkEach (checkStatement depth enclosing) scopes statements).2 = .ok () ↔
      Accepts (scopes.env enclosing) statements ∧ nestings statements ≤ depth := by
  induction depth generalizing enclosing scopes statements with
  | zero =>
    cases statements with
    | nil => exact ⟨fun _ => ⟨.done, Nat.le_refl 0⟩, fun _ => rfl⟩
    | cons node rest =>
      refine ⟨fun h => ?_, fun ⟨_, h⟩ => ?_⟩
      · cases (passes_cons_iff.mp h).1
      · rw [allFit, Bool.and_eq_true] at hfit
        rw [nestings] at h
        have := nesting_of_statement hfit.1
        omega
  | succ depth ih =>
    induction statements generalizing scopes with
    | nil => exact ⟨fun _ => ⟨.done, Nat.zero_le _⟩, fun _ => rfl⟩
    | cons node rest ihrest =>
      rw [allFit, Bool.and_eq_true] at hfit
      rw [passes_cons_iff, ihrest hfit.2, ← and_assoc, checkStatement_iff ih hfit.1, nestings, Nat.max_le, and_assoc]

end Statements

/-! ## Programs -/

/-- The checker decides the typing rules. A program with its nodes in their places is passed exactly if it is accepted by
the rules, outside of functions and with no names, as long as the checker does not have to nest past its limit; some
limit is always high enough. The type that is found for an expression, in whatever scopes, is the one that it has by the
rules. -/
theorem check_decides_rules {body : List Node} (h : allFit .statement body = true) :
    (∀ position, checkProgram (.program body position) = .ok () ↔
      Accepts Env.start body ∧ nestings body ≤ Node.nestingLimit) ∧
    (∀ depth, (checkStatements depth Scopes.start body).2 = .ok () ↔ Accepts Env.start body ∧ nestings body ≤ depth) ∧
    ((∃ depth, (checkStatements depth Scopes.start body).2 = .ok ()) ↔ Accepts Env.start body) ∧
    ∀ scopes enclosing depth e type, infer scopes depth e = .ok type ↔
      HasType (scopes.env enclosing) e type ∧ e.nesting false ≤ depth := by
  have hbody : ∀ depth, (checkStatements depth Scopes.start body).2 = .ok () ↔
      Accepts Env.start body ∧ nestings body ≤ depth := fun depth => checkEach_iff h
  refine ⟨fun position => ?_, hbody, ⟨fun ⟨depth, hpass⟩ => ((hbody depth).mp hpass).1, fun haccepts => ?_⟩,
    fun scopes enclosing depth e type => infer_iff_env enclosing⟩
  · rw [checkProgram, Success.mapError_iff]
    exact hbody Node.nestingLimit
  · exact ⟨nestings body, (hbody _).mpr ⟨haccepts, Nat.le_refl _⟩⟩

/-- A function that calls itself, a name that is shadowed behind its use, and a loop. -/
def recursiveSource : String :=
  "Num m = 3\n" ++
  "f(Num n, Bool last) -> Num\n" ++
  "    if last == (n < 1)\n" ++
  "        Num m = m - n * 2 + 1\n" ++
  "        return f(m, !last)\n" ++
  "    return n + m\n" ++
  "Bool more = f(1, true) == ~m\n" ++
  "while more\n" ++
  "    more = false\n" ++
  "    display f(m, more)\n"

theorem recursiveSource_accepted : ∃ body position,
    parseTo .descent Node.nestingLimit recursiveSource = .ok (.program body position) ∧
      allFit .statement body = true ∧ checkProgram (.program body position) = .ok () ∧ Accepts Env.start body := by
  have hgood : ((parseTo .descent Node.nestingLimit recursiveSource).toOption.any fun p =>
      p.programBody.toOption.any (allFit .statement) && (checkProgram p).isOk) = true := by decide +kernel
  cases hparse : parseTo .descent Node.nestingLimit recursiveSource with
  | error e =>
    rw [hparse] at hgood
    cases hgood
  | ok p =>
    rw [hparse] at hgood
    obtain ⟨hfit, hok⟩ := Bool.and_eq_true_iff.mp hgood
    cases p with
    | program body position =>
      obtain ⟨u, hcheck⟩ := Success.exists_of_isOk hok
      exact ⟨body, position, rfl, hfit, hcheck, (((check_decides_rules hfit).1 position).mp hcheck).1⟩
    | _ => cases hfit

end TillLang.Typing
