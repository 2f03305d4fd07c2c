/-
  TillLang.Proofs.Eval.Unchecked — programs that were not checked.

  A parsed program may be run without being checked. Whatever it combines then, it runs to its end,
  goes round a loop for ever, or fails with a reason of the language, and what it evaluates is always a
  number, a character, a truth value, a text or the unit (`unchecked_fails_properly`).

  Scopes hold ordinary values, which pass the check of the store, and functions, whose parameters and
  bodies were parsed (`Arena.Plain`). From such an arena every part of a parsed program gives ordinary
  values and stops for proper causes only (`Machine.atDepth_proper`). That no handle leads out of the
  arena and no name to a missing entry is known of all programs (`runTo_fits`), and is left aside here.
-/

import TillLang.Proofs.Eval.Invariant
import TillLang.Proofs.Eval.Soundness

namespace TillLang

open Success

/-- The values that expressions have. -/
inductive Value.Ordinary : Value → Prop
  | num (x : Float) : Ordinary (.num x)
  | char (s : String) : Ordinary (.char (.str s))
  | bool (b : Bool) : Ordinary (.bool b)
  | str (s : String) : Ordinary (.str s)
  | unit : Ordinary .unit

/-- A function whose parameters and body were parsed. -/
structure Closure.Parsed (c : Closure) : Prop where
  params : ∀ param ∈ c.params, Sane .parameter param
  body : Sane .block c.body

/-- The values that names have. -/
def Value.Stored (v : Value) : Prop := v.Ordinary ∨ ∃ c : Closure, v = .function c ∧ c.Parsed

/-- Every name of an arena has a value that names have. -/
abbrev Arena.Plain (a : Arena) : Prop := a.Every fun b => b.value.Stored

namespace Value

variable {v : Value} {t : String}

theorem Of.ordinary (h : v.Of t) : v.Ordinary := by
  cases h <;> constructor

theorem Ordinary.stored (h : v.Ordinary) : v.Stored := .inl h

/-- What is displayed for an ordinary value is a text. -/
theorem Ordinary.shown (h : v.Ordinary) : ∃ s, v.shown = .str s := by
  cases h <;> exact ⟨_, rfl⟩

theorem Ordinary.isNone (h : v.Ordinary) : v.isNone = false := by
  cases h <;> rfl

/-- A stored value is ordinary unless it is a function. -/
theorem Stored.ordinary (h : v.Stored) (hf : ∀ c, v ≠ .function c) : v.Ordinary := by
  rcases h with h | ⟨c, hc, -⟩
  · exact h
  · exact absurd hc (hf c)

theorem Stored.parsed {c : Closure} (h : (Value.function c).Stored) : c.Parsed := by
  rcases h with h | ⟨c', hc, hparsed⟩
  · cases h
  · cases hc
    exact hparsed

theorem ordinary_zero (h : zero t = .ok v) : v.Ordinary := by
  unfold zero at h
  repeat' split at h
  all_goals
    cases h
    try constructor

end Value

/-! ## The arena -/

namespace Arena

variable {a a' : Arena} {h : Nat} {name : String} {v : Value}

theorem Plain.get (ha : a.Plain) (hr : a.get h name = .ok v) : v.Stored := by
  obtain ⟨g, s, b, hs, hb, rfl⟩ := of_get hr
  exact ha s (List.mem_of_getElem? hs) b (Store.Scope.of_find? hb).1

theorem Plain.set (ha : a.Plain) (hv : v.Ordinary) (hset : a.set h name v = .ok a') : a'.Plain :=
  Every.set ha hset fun _ _ _ _ _ => hv.stored

/-- A declaration stores the given value, or the zero of the type if there is none. -/
theorem Plain.declare (ha : a.Plain) (hv : v.Ordinary ∨ v.isNone = true) {type : Option String}
    (hd : a.declare h name type v = .ok a') : a'.Plain := by
  obtain ⟨s, t, v', hs, hnew, -, hi, rfl⟩ := declare_iff.mp hd
  refine Every.add ha hs hnew ?_
  rcases hv with hv | hv
  · simp only [initial, hv.isNone, Bool.false_eq_true, if_false, pure_eq, ok_bind, bind_iff, Except.ok.injEq] at hi
    obtain ⟨-, -, rfl⟩ := hi
    exact hv.stored
  · simp only [initial, hv, if_true, pure_eq, bind_iff, Except.ok.injEq] at hi
    obtain ⟨z, hz, -, -, rfl⟩ := hi
    exact (Value.ordinary_zero hz).stored

theorem Plain.declareFunction (ha : a.Plain) {c : Closure} (hc : c.Parsed)
    (hd : a.declareFunction h name c = .ok a') : a'.Plain := by
  obtain ⟨s, hs, hnew, rfl⟩ := declareFunction_iff.mp hd
  exact Every.add ha hs hnew (.inr ⟨c, rfl, hc⟩)

/-! Accesses do not fail for want of a type, except declarations that are given none. -/

theorem resolveIn_ne_noType (steps : Nat) : a.resolveIn name steps h ≠ .error .noType := by
  induction steps generalizing h with
  | zero => simp [resolveIn]
  | succ steps ih =>
    rw [resolveIn, scope]
    cases a.scopes[h]? with
    | none => simp
    | some s =>
      simp only [ok_bind]
      split
      · simp
      · split
        · exact ih
        · simp

theorem get_ne_noType : a.get h name ≠ .error .noType := by
  unfold get resolve
  cases hr : a.resolveIn name (a.scopes.length + 1) h with
  | error e =>
    rintro ⟨⟩
    exact resolveIn_ne_noType _ hr
  | ok r =>
    cases r with
    | none => simp
    | some g =>
      simp only [ok_bind, scope]
      cases a.scopes[g]? with
      | none => simp
      | some s =>
        simp only [ok_bind]
        cases s.values.lookup name <;> simp

theorem set_ne_noType : a.set h name v ≠ .error .noType := by
  unfold set resolve
  cases hr : a.resolveIn name (a.scopes.length + 1) h with
  | error e =>
    rintro ⟨⟩
    exact resolveIn_ne_noType _ hr
  | ok r =>
    cases r with
    | none => simp
    | some g =>
      simp only [ok_bind, scope]
      cases a.scopes[g]? with
      | none => simp
      | some s =>
        simp only [ok_bind]
        match s.types.lookup name with
        | none => simp
        | some none => simp
        | some (some t) =>
          simp only
          cases v.check t <;> simp

theorem declare_ne_noType (t : String) : a.declare h name (some t) v ≠ .error .noType := by
  unfold declare
  rw [scope]
  cases a.scopes[h]? with
  | none => simp
  | some s =>
    simp only [ok_bind]
    split
    · simp
    · cases initial t v <;> simp

theorem declareFunction_ne_noType {c : Closure} : a.declareFunction h name c ≠ .error .noType := by
  unfold declareFunction
  rw [scope]
  cases a.scopes[h]? with
  | none => simp
  | some s =>
    simp only [ok_bind]
    split <;> simp

end Arena

namespace Eval

/-- The causes for which a part of a parsed program may stop, if the arena may be broken. -/
def Stop.Proper : Stop → Prop
  | .failure .. | .tooDeep | .endless | .noScope | .missingKey _ => True
  | .returned v => v.Ordinary
  | _ => False

namespace Run

variable {α β : Type}

/-- From a plain arena a part of a run gives results that satisfy `ok` or stops for a proper cause, and leaves the
arena plain. -/
def Proper (ok : α → Prop) (m : Run α) : Prop :=
  ∀ w : World, w.arena.Plain →
    m.Ends w (fun a w' => ok a ∧ w'.arena.Plain) fun cause w' => cause.Proper ∧ w'.arena.Plain

variable {m : Run α} {ok : α → Prop}

theorem Proper.pure {a : α} (h : ok a) : (Run.pure a).Proper ok := fun _ hw => ⟨h, hw⟩

theorem Proper.stop {cause : Stop} (h : cause.Proper) : (Run.stop cause : Run α).Proper ok := fun _ hw => ⟨h, hw⟩

theorem Proper.fail (reason : Reason) (position : Option Position) : (Run.fail reason position : Run α).Proper ok :=
  Proper.stop trivial

theorem Proper.bind {f : α → Run β} {ok' : β → Prop} (hm : m.Proper ok) (hf : ∀ a, ok a → (f a).Proper ok') :
    (m >>= f).Proper ok' := by
  intro w hw
  rw [ends_bind]
  exact (hm w hw).mono (fun a w' ⟨ha, hw'⟩ => hf a ha w' hw') fun _ _ hc => hc

theorem storeStop_proper {cause : Store.Fault} (h : cause ≠ .noType) : (storeStop cause).Proper := by
  cases cause <;> first | exact absurd rfl h | trivial

theorem Proper.get (h : Nat) (name : String) : (Run.read (·.get h name)).Proper Value.Stored := by
  intro w hw
  rw [ends_read]
  cases hget : w.arena.get h name with
  | ok v => exact ⟨hw.get hget, hw⟩
  | error cause =>
    refine ⟨storeStop_proper ?_, hw⟩
    rintro rfl
    exact Arena.get_ne_noType hget

theorem Proper.write {f : Arena → Except Store.Fault Arena} (hok : ∀ a a' : Arena, a.Plain → f a = .ok a' → a'.Plain)
    (hbad : ∀ a : Arena, f a ≠ .error .noType) : (Run.write f).Proper fun _ => True := by
  intro w hw
  rw [ends_write]
  cases hwrite : f w.arena with
  | ok arena => exact ⟨trivial, hok _ _ hw hwrite⟩
  | error cause =>
    refine ⟨storeStop_proper ?_, hw⟩
    rintro rfl
    exact hbad _ hwrite

theorem Proper.log (line : String) : (Run.log line).Proper fun _ => True := by
  intro w hw
  exact Ends.log fun w' hw' => ⟨trivial, hw' ▸ hw⟩

theorem Proper.debug {level threshold : Nat} {line : Run String} (hline : line.Proper fun _ => True) :
    (Run.debug level threshold line).Proper fun _ => True := by
  unfold Run.debug
  by_cases ht : threshold ≤ level
  · rw [if_pos ht]
    exact hline.bind fun _ _ => .log _
  · rw [if_neg ht]
    exact .pure trivial

theorem Proper.display (shown : Json) : (Run.display shown).Proper fun _ => True := fun _ hw => ⟨trivial, hw⟩

theorem Proper.inChild {p : Nat} {body : Nat → Run α} (hbody : ∀ k, (body k).Proper ok) :
    (Run.inChild p body).Proper ok := by
  intro w hw
  rw [ends_inChild]
  refine (hbody _ { w with arena := (w.arena.push p).1 } (hw.push p)).mono (fun _ _ h => ?_) fun _ _ h => ?_
  all_goals exact ⟨h.1, h.2.release _⟩

theorem Proper.catchReturn {m : Run Unit} (hm : m.Proper fun _ => True) :
    (Run.catchReturn m).Proper Value.Ordinary := by
  intro w hw
  rw [ends_catchReturn]
  refine (hm w hw).mono (fun _ _ h => ⟨.unit, h.2⟩) fun cause w' h => ?_
  cases cause <;> exact h

theorem Proper.loop {condition : Run Bool} {body : Run Unit} (hcond : condition.Proper fun _ => True)
    (hbody : body.Proper fun _ => True) (rounds : Nat) : (Machine.loop condition body rounds).Proper fun _ => True := by
  induction rounds with
  | zero => exact .stop trivial
  | succ rounds ih =>
    refine hcond.bind fun holds _ => ?_
    cases holds with
    | true => exact hbody.bind fun _ _ => ih
    | false => exact .pure trivial

end Run

/-! ## Operators -/

theorem applyUnary_proper (op : String) (v : Value) (position : Option Position) :
    (applyUnary op v position).Proper Value.Ordinary := by
  unfold applyUnary
  repeat' split
  all_goals first | exact .fail _ _ | exact .pure (by constructor)

theorem applyBinary_proper (op : String) (v v' : Value) (position : Option Position) :
    (applyBinary op v v' position).Proper Value.Ordinary := by
  unfold applyBinary applyArithmetic
  repeat' split
  all_goals first | exact .fail _ _ | exact .pure (by constructor)

/-- Ordinary values can be logged. -/
theorem joinShown_proper {args : List Value} (h : ∀ v ∈ args, v.Ordinary) (index : Nat) :
    (joinShown index (args.map Value.shown)).Proper fun _ => True := by
  induction args generalizing index with
  | nil => exact .pure trivial
  | cons v args ih =>
    obtain ⟨hv, hargs⟩ := List.forall_mem_cons.mp h
    obtain ⟨s, hs⟩ := hv.shown
    rw [List.map_cons, hs]
    exact (ih hargs (index + 1)).bind fun _ _ => .pure trivial

/-! ## The machine -/

namespace Machine

/-- A machine carries parsed expressions and statements out properly, in whatever scope. -/
structure Proper (m : Machine) : Prop where
  evaluate : ∀ {node : Node}, Sane .expression node → ∀ h, (m.evaluate node h).Proper Value.Ordinary
  execute : ∀ {node : Node}, Sane .statement node → ∀ h, (m.execute node h).Proper fun _ => True

variable {m : Machine}

theorem exhausted_proper : exhausted.Proper := ⟨fun _ _ => .stop trivial, fun _ _ => .stop trivial⟩

theorem Proper.evaluateAll (hm : m.Proper) (h : Nat) {nodes : List Node} (hs : ∀ node ∈ nodes, Sane .expression node) :
    (m.evaluateAll h nodes).Proper fun values => ∀ v ∈ values, v.Ordinary := by
  induction nodes with
  | nil => exact .pure nofun
  | cons node rest ih =>
    obtain ⟨hnode, hrest⟩ := List.forall_mem_cons.mp hs
    refine (hm.evaluate hnode h).bind fun v hv => (ih hrest).bind fun vs hvs => .pure ?_
    exact List.forall_mem_cons.mpr ⟨hv, hvs⟩

theorem Proper.executeAll (hm : m.Proper) (h : Nat) {nodes : List Node} (hs : ∀ node ∈ nodes, Sane .statement node) :
    (m.executeAll h nodes).Proper fun _ => True := by
  induction nodes with
  | nil => exact .pure trivial
  | cons node rest ih =>
    obtain ⟨hnode, hrest⟩ := List.forall_mem_cons.mp hs
    exact (hm.execute hnode h).bind fun _ _ => ih hrest

/-- The statements of a block that was parsed. -/
theorem statements_of_sane {body : Node} (hs : Sane .block body) :
    ∃ statements, body.statements? = some statements ∧ ∀ node ∈ statements, Sane .statement node := by
  cases hs with
  | block _ h => exact ⟨_, rfl, h⟩

theorem Proper.executeBlock (hm : m.Proper) (h : Nat) {body : Node} (hs : Sane .block body) :
    (m.executeBlock body h).Proper fun _ => True := by
  obtain ⟨statements, hbody, hall⟩ := statements_of_sane hs
  rw [Machine.executeBlock, hbody]
  exact hm.executeAll h hall

theorem declare_proper (h : Nat) (name type : String) {v : Value} (hv : v.Ordinary ∨ v.isNone = true) :
    (Run.write (·.declare h name (some type) v)).Proper fun _ => True :=
  .write (fun _ _ ha hd => ha.declare hv hd) fun _ => Arena.declare_ne_noType type

theorem bindParams_proper (h : Nat) {params : List Node} (hp : ∀ param ∈ params, Sane .parameter param)
    {args : List Value} (ha : ∀ v ∈ args, v.Ordinary) : (bindParams h params args).Proper fun _ => True := by
  induction params generalizing args with
  | nil => exact .pure trivial
  | cons param params ih =>
    cases args with
    | nil => exact .pure trivial
    | cons arg args =>
      obtain ⟨hparam, hparams⟩ := List.forall_mem_cons.mp hp
      obtain ⟨harg, hargs⟩ := List.forall_mem_cons.mp ha
      cases hparam with
      | param => exact (declare_proper h _ _ (.inl harg)).bind fun _ _ => ih hparams hargs

theorem resultOf_proper (c : Closure) {v : Value} (hv : v.Ordinary) (position : Option Position) :
    (resultOf c v position).Proper Value.Ordinary := by
  unfold resultOf
  repeat' split
  all_goals first | exact .fail _ _ | exact .pure .unit | exact .pure hv

theorem logCall_proper (settings : Settings) (c : Closure) {args : List Value} (ha : ∀ v ∈ args, v.Ordinary) :
    (logCall settings c args).Proper fun _ => True :=
  .debug ((joinShown_proper ha 0).bind fun _ _ => .pure trivial)

theorem Proper.call (hm : m.Proper) (settings : Settings) (callee : String) {function : Value} (hf : function.Stored)
    {args : List Value} (ha : ∀ v ∈ args, v.Ordinary) (position : Option Position) :
    (m.call settings callee function args position).Proper Value.Ordinary := by
  unfold Machine.call
  cases function with
  | function c =>
    simp only
    by_cases hlen : args.length = c.params.length
    · rw [if_neg (not_not.mpr hlen)]
      refine (logCall_proper settings c ha).bind fun _ _ => ?_
      refine Run.Proper.bind (.inChild fun k => ?_) fun v hv => resultOf_proper c hv position
      refine (bindParams_proper k hf.parsed.params ha).bind fun _ _ => ?_
      exact (hm.executeBlock k hf.parsed.body).catchReturn
    · rw [if_pos hlen]
      exact .fail _ _
  | _ => exact .fail _ _

theorem Proper.foldJoints (hm : m.Proper) (h : Nat) {joints : List Joint}
    (hs : ∀ joint ∈ joints, Sane .expression joint.right) {value : Value} (hv : value.Ordinary) :
    (m.foldJoints h value joints).Proper Value.Ordinary := by
  induction joints generalizing value with
  | nil => exact .pure hv
  | cons joint rest ih =>
    obtain ⟨hjoint, hrest⟩ := List.forall_mem_cons.mp hs
    exact (hm.evaluate hjoint h).bind fun _ _ => (applyBinary_proper _ _ _ _).bind fun v hv => ih hrest hv

theorem Proper.evaluateNode (hm : m.Proper) (settings : Settings) (h : Nat) {node : Node} (hs : Sane .expression node) :
    (m.evaluateNode settings node h).Proper Value.Ordinary := by
  unfold Machine.evaluateNode
  cases hs with
  | literal hv => exact .pure (Value.Of.ordinary hv)
  | identifier =>
    refine (Run.Proper.get h _).bind fun v hv => ?_
    cases v with
    | function c => exact .fail _ _
    | _ => exact .pure (hv.ordinary nofun)
  | unary _ hoperand => exact (hm.evaluate hoperand h).bind fun _ _ => applyUnary_proper _ _ _
  | binary hop hl hr =>
    obtain ⟨hfirst, hjoints⟩ := (Placed.binary hop hl hr).spine
    exact (hm.evaluate hfirst h).bind fun v hv => hm.foldJoints h hjoints hv
  | call _ hargs =>
    refine (Run.Proper.get h _).bind fun function hf => ?_
    exact (hm.evaluateAll h hargs).bind fun values hvalues => hm.call settings _ hf hvalues _

theorem Proper.loggedCondition (hm : m.Proper) (settings : Settings) (h : Nat) (keyword : String) {node : Node}
    (hs : Sane .expression node) : (m.loggedCondition settings keyword node h).Proper fun _ => True := by
  have hcond : (m.condition node h).Proper fun _ => True := by
    refine (hm.evaluate hs h).bind fun v _ => ?_
    cases v <;> first | exact .fail _ _ | exact .pure trivial
  exact hcond.bind fun _ _ => (Run.Proper.debug (.pure trivial)).bind fun _ _ => .pure trivial

theorem Proper.block (hm : m.Proper) (h : Nat) {body : Node} (hs : Sane .block body) :
    (Run.inChild h (m.executeBlock body)).Proper fun _ => True :=
  .inChild fun k => hm.executeBlock k hs

/-- The declaration of a variable, once its initial value is known. -/
theorem declareLogged_proper (settings : Settings) (h : Nat) (name type : String) {v : Value}
    (hv : v.Ordinary ∨ v.isNone = true) :
    (Run.write (·.declare h name (some type) v) >>= fun _ => Run.debug settings.detail 2 do
      let stored ← Run.read (·.get h name)
      return "declare " ++ name ++ ": " ++ (some type).getD "" ++ " = " ++ stored.inspect).Proper fun _ => True :=
  (declare_proper h name type hv).bind fun _ _ => .debug ((Run.Proper.get h name).bind fun _ _ => .pure trivial)

theorem evaluateOr_of_placed {node : Node} (hs : Sane .expression node) (missing : Value) (h : Nat) :
    m.evaluateOr missing node h = m.evaluate node h := by
  rw [Machine.evaluateOr, hs.not_absent]
  rfl

theorem Proper.executeNode (hm : m.Proper) (settings : Settings) (h : Nat) {node : Node} (hs : Sane .statement node) :
    (m.executeNode settings node h).Proper fun _ => True := by
  unfold Machine.executeNode
  cases hs with
  | varDecl =>
    have hnone : (Run.pure Value.none).Proper fun v => v.isNone = true := .pure rfl
    exact hnone.bind fun v hv => declareLogged_proper settings h _ _ (.inr hv)
  | varInit _ _ hvalue =>
    simp only [evaluateOr_of_placed hvalue]
    exact (hm.evaluate hvalue h).bind fun v hv => declareLogged_proper settings h _ _ (.inl hv)
  | assignment _ hvalue =>
    refine (hm.evaluate hvalue h).bind fun v hv => ?_
    refine Run.Proper.bind (.write (fun _ _ ha hset => ?_) fun _ => Arena.set_ne_noType)
      fun _ _ => .debug (.pure trivial)
    exact ha.set hv hset
  | function _ hp _ hb =>
    refine Run.Proper.bind (.write (fun _ _ ha hd => ?_) fun _ => Arena.declareFunction_ne_noType)
      fun _ _ => .debug (.pure trivial)
    exact ha.declareFunction ⟨hp, hb⟩ hd
  | ifStmt hc hb =>
    refine (hm.loggedCondition settings h "if" hc).bind fun holds _ => ?_
    cases holds with
    | true => exact hm.block h hb
    | false => exact .pure trivial
  | whileStmt hc hb => exact .loop (hm.loggedCondition settings h "while" hc) (hm.block h hb) _
  | returnPlain => exact Run.Proper.bind (.pure .unit) fun _ hv => .stop hv
  | returnValue hvalue =>
    simp only [evaluateOr_of_placed hvalue]
    exact (hm.evaluate hvalue h).bind fun _ hv => .stop hv
  | display hvalue =>
    exact (hm.evaluate hvalue h).bind fun _ _ => (Run.Proper.debug (.pure trivial)).bind fun _ _ => .display _

/-- At every nesting depth the machine carries out properly what was parsed. -/
theorem atDepth_proper (settings : Settings) (depth : Nat) : (atDepth settings depth).Proper := by
  induction depth with
  | zero => exact exhausted_proper
  | succ depth ih => exact ⟨fun hs h => ih.evaluateNode settings h hs, fun hs h => ih.executeNode settings h hs⟩

end Machine

/-! ## Moments -/

section Moments

variable {α : Type} {ok : α → Prop} {w w' : World} {m : Machine}

theorem Run.Proper.preserves {m : Run α} (hm : m.Proper ok) : m.Preserves (·.arena.Plain) :=
  fun w _ _ hw h => ((hm w hw).of_ok h).2

/-- A call of a parsed program calls a parsed function with ordinary values. -/
theorem Machine.Calls.plain (hm : m.Proper) {settings : Settings} {callee : String} {args : List Node} {h : Nat}
    {c : Closure} {values : List Value} (hs : ∀ arg ∈ args, Sane .expression arg)
    (hcall : m.Calls settings callee args h w c values w') (hw : w.arena.Plain) :
    c.Parsed ∧ (∀ v ∈ values, v.Ordinary) ∧ w'.arena.Plain := by
  obtain ⟨hget, -, w₁, hargs, hlog⟩ := hcall
  obtain ⟨hordinary, hplain⟩ := (hm.evaluateAll h hs w hw).of_ok hargs
  exact ⟨(hw.get hget).parsed, hordinary, (logCall_proper settings c hordinary).preserves hplain hlog⟩

/-- A task that a parsed program leads to. -/
def Task.Parsed : Task → Prop
  | .evaluate node => Sane .expression node
  | .execute node => Sane .statement node
  | .bind params args => (∀ param ∈ params, Sane .parameter param) ∧ ∀ v ∈ args, v.Ordinary

/-- A moment that a parsed program leads to. -/
structure Moment.Proper (m : Moment) : Prop where
  parsed : m.task.Parsed
  plain : m.world.arena.Plain

/-- A statement of a parsed block. -/
theorem Run.Begins.proper {settings : Settings} {d h : Nat} {body x : Node} {statements : List Node}
    (hx : Run.Begins (fun x => (Machine.atDepth settings d).execute x h) statements w x w') (hs : Sane .block body)
    (hbody : body.statements? = some statements) (hw : w.arena.Plain) : Moment.Proper ⟨d, .execute x, h, w'⟩ := by
  obtain ⟨statements', hstatements, hall⟩ := Machine.statements_of_sane hs
  obtain rfl := Option.some.inj (hbody.symm.trans hstatements)
  have hproper := Machine.atDepth_proper settings d
  obtain ⟨hmem, hplain⟩ := hx.preserves (fun x hx => (hproper.execute (hall x hx) h).preserves) hw
  exact ⟨hall _ hmem, hplain⟩

/-- What the machine leads to from a proper moment is proper. -/
theorem Moment.Part.proper {settings : Settings} {m m' : Moment} (hpart : m.Part settings m') (hm : m.Proper) :
    m'.Proper := by
  have hproper := fun d => Machine.atDepth_proper settings d
  obtain ⟨hparsed, hw⟩ := hm
  cases hpart with
  | operand =>
    cases hparsed with
    | unary _ hoperand => exact ⟨hoperand, hw⟩
  | first => exact ⟨(Placed.spine hparsed).1, hw⟩
  | joint hfirst hjoint =>
    obtain ⟨hsfirst, hsjoints⟩ := Placed.spine hparsed
    have hplain := ((hproper _).evaluate hsfirst _).preserves hw hfirst
    obtain ⟨⟨joint, hmem, rfl⟩, hplain⟩ := hjoint.preserves
      (fun joint hmem => ((hproper _).evaluate (hsjoints joint hmem) _).preserves)
      (fun _ _ _ _ => (applyBinary_proper _ _ _ _).preserves) hplain
    exact ⟨hsjoints joint hmem, hplain⟩
  | argument _ hargs =>
    cases hparsed with
    | call _ hsargs =>
      obtain ⟨hmem, hplain⟩ := hargs.preserves (fun x hx => ((hproper _).evaluate (hsargs x hx) _).preserves) hw
      exact ⟨hsargs _ hmem, hplain⟩
  | parameters hcall =>
    cases hparsed with
    | call _ hsargs =>
      obtain ⟨hc, hvalues, hplain⟩ := hcall.plain (hproper _) hsargs hw
      exact ⟨⟨hc.params, hvalues⟩, hplain.push _⟩
  | parameter hparam hdeclare =>
    obtain ⟨hparams, hargs⟩ := hparsed
    obtain ⟨harg, hargs⟩ := List.forall_mem_cons.mp hargs
    exact ⟨⟨(List.forall_mem_cons.mp hparams).2, hargs⟩, hw.declare (.inl harg) hdeclare⟩
  | body hcall hbind hbody hx =>
    cases hparsed with
    | call _ hsargs =>
      obtain ⟨hc, hvalues, hplain⟩ := hcall.plain (hproper _) hsargs hw
      have hbound := (Machine.bindParams_proper _ hc.params hvalues).preserves (hplain.push _) hbind
      exact hx.proper hc.body hbody hbound
  | initializer hx =>
    cases hparsed with
    | varDecl => cases hx
    | varInit _ _ hvalue => exact ⟨hvalue, hw⟩
  | assigned =>
    cases hparsed with
    | assignment _ hvalue => exact ⟨hvalue, hw⟩
  | returned hx =>
    cases hparsed with
    | returnPlain => cases hx
    | returnValue hvalue => exact ⟨hvalue, hw⟩
  | displayed =>
    cases hparsed with
    | display hvalue => exact ⟨hvalue, hw⟩
  | ifCondition =>
    cases hparsed with
    | ifStmt hc _ => exact ⟨hc, hw⟩
  | ifBody hcond hbody hx =>
    cases hparsed with
    | ifStmt hc hb =>
      have hplain := ((hproper _).loggedCondition settings _ "if" hc).preserves hw hcond
      exact hx.proper hb hbody (hplain.push _)
  | whileCondition hround =>
    cases hparsed with
    | whileStmt hc hb =>
      have hplain := hround.preserves ((hproper _).loggedCondition settings _ "while" hc).preserves
        ((hproper _).block _ hb).preserves hw
      exact ⟨hc, hplain⟩
  | whileBody hround hcond hbody hx =>
    cases hparsed with
    | whileStmt hc hb =>
      have hloop := hround.preserves ((hproper _).loggedCondition settings _ "while" hc).preserves
        ((hproper _).block _ hb).preserves hw
      have hplain := ((hproper _).loggedCondition settings _ "while" hc).preserves hloop hcond
      exact hx.proper hb hbody (hplain.push _)

/-- Every moment of a run of a parsed program is proper. -/
theorem Reaches.proper {settings : Settings} {depth : Nat} {program : Node} {m : Moment}
    (hsane : ∀ body, program.programBody = .ok body → ∀ node ∈ body, Sane .statement node)
    (hreach : Reaches settings depth program w m) (hw : w.arena.Plain) : m.Proper := by
  induction hreach with
  | statement hbody hx =>
    have hall := hsane _ hbody
    have hproper := Machine.atDepth_proper settings depth
    obtain ⟨hmem, hplain⟩ := hx.preserves (fun x hx => (hproper.execute (hall x hx) _).preserves) hw
    exact ⟨hall _ hmem, hplain⟩
  | part _ hpart ih => exact hpart.proper ih

end Moments

/-! ## Programs -/

/-- How a program that was not checked may end: it has run to its end, it goes round a loop for ever, or it fails with
a reason. -/
def FailsProperly (result : Except Stop Unit) : Prop :=
  result = .ok () ∨ result = .error .endless ∨ ∃ reason position, result = .error (.failure reason position)

theorem failsProperly_settle {result : Except Stop Unit} (h : ∀ cause, result = .error cause → cause.Proper)
    (hstore : ∀ cause, settle result = .error cause → ¬ cause.Broken) : FailsProperly (settle result) := by
  cases result with
  | ok u => exact .inl rfl
  | error cause =>
    have hcause := h cause rfl
    cases cause with
    | failure reason position => exact .inr (.inr ⟨reason, position, rfl⟩)
    | returned v => exact .inr (.inr ⟨.returnOutside, none, rfl⟩)
    | tooDeep => exact .inr (.inr ⟨.stackExhausted, none, rfl⟩)
    | endless => exact .inr (.inl rfl)
    | noScope | missingKey => exact absurd trivial (hstore _ rfl)
    | _ => exact hcause.elim

/-- A parsed program that is run without being checked runs to its end, goes round a loop for ever, or fails with a
reason of the language, and every expression that it evaluates has an ordinary value. -/
theorem unchecked_fails_properly {frontend : Frontend} {depth : Nat} {source : String} {program : Node}
    (hparse : parseTo frontend depth source = .ok program) (settings : Settings) (limit : Nat) :
    FailsProperly (runTo settings limit program World.start).1 ∧
      ∀ d node h w v w', Reaches settings limit program World.start ⟨d, .evaluate node, h, w⟩ →
        (Machine.atDepth settings d).evaluate node h w = (.ok v, w') → v.Ordinary := by
  have hsane := sane_of_parse hparse
  refine ⟨?_, fun d node h w v w' hreach hv => ?_⟩
  · have hstart := Session.start.fits Arena.stable_kept Arena.kept_start
    have hfit := (runTo_fits Arena.stable_kept settings limit program hstart).2
    obtain ⟨-, body, -, -, -, rfl, -⟩ := parseTo_spells hparse
    have hends := (Machine.atDepth_proper settings limit).executeAll Arena.global (hsane body rfl) World.start
      Arena.every_start
    exact failsProperly_settle (fun cause hcause => (hends.of_error (Prod.ext hcause rfl)).1) hfit
  · obtain ⟨hparsed, hplain⟩ := hreach.proper hsane Arena.every_start
    exact (((Machine.atDepth_proper settings d).evaluate hparsed h w hplain).of_ok hv).1

/-- A text that adds what a call without a result gives to a truth value. -/
def mixedSource : String :=
  "f()\n" ++
  "    display \"called\"\n" ++
  "display f() + true\n"

theorem mixedSource_fails_properly : ∃ p, parseTo .descent 9 mixedSource = .ok p ∧ checkProgram p ≠ .ok () ∧
    (runTo ⟨0, 1⟩ 9 p World.start).1 ≠ .ok () ∧ FailsProperly (runTo ⟨0, 1⟩ 9 p World.start).1 ∧
    ∀ d node h w v w', Reaches ⟨0, 1⟩ 9 p World.start ⟨d, .evaluate node, h, w⟩ →
      (Machine.atDepth ⟨0, 1⟩ d).evaluate node h w = (.ok v, w') → v.Ordinary := by
  have hmixed : (match parseTo .descent 9 mixedSource with
      | .ok p => !(checkProgram p).isOk && !(runTo ⟨0, 1⟩ 9 p World.start).1.isOk
      | .error _ => false) = true := by decide +kernel
  cases hp : parseTo .descent 9 mixedSource with
  | error e => simp [hp] at hmixed
  | ok p =>
    rw [hp] at hmixed
    obtain ⟨hcheck, hrun⟩ := Bool.and_eq_true_iff.mp hmixed
    obtain ⟨hfails, hvalues⟩ := unchecked_fails_properly hp ⟨0, 1⟩ 9
    refine ⟨p, rfl, fun hok => ?_, fun hok => ?_, hfails, hvalues⟩
    · rw [hok] at hcheck
      cases hcheck
    · rw [hok] at hrun
      cases hrun

end Eval

end TillLang
