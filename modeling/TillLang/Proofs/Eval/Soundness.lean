/-
  TillLang.Proofs.Eval.Soundness — checked programs do not go wrong.

  A parsed program that passes the checker and never shadows a name late ends, if it ends, without
  a fault of types, names or returns: it runs to its end, or it divides by zero, nests too deep, or
  goes round a loop for ever (`checked_runs_well`).

  A step of the proof evaluates one expression or executes one statement, with a machine for the
  parts that is sound already (`Machine.Sound.above`). What a step may rely on about names is
  `Stage`, and what it leaves behind is known from `Machine.Steady`; what is left to show is that
  values have the types that the checker inferred.
-/

import TillLang.Proofs.Agreement
import TillLang.Proofs.Eval.Mirror
import TillLang.Proofs.Parse.Formed
import TillLang.Proofs.Store.Typed

namespace TillLang

open Success

/-- The value of a literal is of the type that its kind names. -/
def Literal.Proper (v : Literal) : Prop := (Value.ofLiteral v).Of v.kind

/-- A parsed node whose literals are proper. -/
abbrev Sane (place : Place) (node : Node) : Prop := Placed Literal.Proper (fun _ => True) place node

namespace Eval

open Typing (Scopes Checks Enclosing infer)

/-! ## Outcomes -/

/-- The causes for which a checked expression may stop. -/
def Stop.Allowed : Stop → Prop
  | .tooDeep | .endless | .failure .divisionByZero _ => True
  | _ => False

/-- The values that a function returns. -/
def Returns (function : Enclosing) (v : Value) : Prop :=
  match function.returns with
  | none => v = .unit
  | some t => v.Of t

/-- The causes for which a checked statement in a function may stop. -/
def Stop.AllowedIn (enclosing : Option Enclosing) : Stop → Prop
  | .returned v => ∃ function, enclosing = some function ∧ Returns function v
  | cause => cause.Allowed

theorem Stop.Allowed.within {cause : Stop} (h : cause.Allowed) (enclosing : Option Enclosing) :
    cause.AllowedIn enclosing := by
  cases cause with
  | returned v => exact h.elim
  | _ => exact h

namespace Run

variable {α β : Type}

/-- A part of a run that starts with given frames and a typed arena ends so, with a result that
satisfies `ok`, or it stops for a cause that satisfies `bad`. -/
def Gives (m : Run α) (fs : List Frame) (ok : α → Prop) (bad : Stop → Prop) : Prop :=
  ∀ w : World, w.arena.frames = fs → w.arena.Typed →
    m.Ends w (fun a w' => ok a ∧ w'.arena.frames = fs ∧ w'.arena.Typed) fun cause w' => bad cause ∧ w'.arena.Typed

variable {m : Run α} {fs : List Frame} {ok ok' : α → Prop} {bad bad' : Stop → Prop}

theorem Gives.pure {a : α} (h : ok a) : (Run.pure a).Gives fs ok bad := fun _ hw ht => ⟨h, hw, ht⟩

theorem Gives.stop {cause : Stop} (h : bad cause) : (Run.stop cause : Run α).Gives fs ok bad := fun _ _ ht => ⟨h, ht⟩

theorem Gives.mono (h : m.Gives fs ok bad) (hok : ∀ a, ok a → ok' a) (hbad : ∀ cause, bad cause → bad' cause) :
    m.Gives fs ok' bad' :=
  fun w hw ht => (h w hw ht).mono (fun a _ ha => ⟨hok a ha.1, ha.2⟩) fun c _ hc => ⟨hbad c hc.1, hc.2⟩

theorem Gives.bind {f : α → Run β} {ok' : β → Prop} (hm : m.Gives fs ok bad)
    (hf : ∀ a, ok a → (f a).Gives fs ok' bad) : (m >>= f).Gives fs ok' bad := by
  intro w hw ht
  rw [ends_bind]
  exact (hm w hw ht).mono (fun a w' ⟨ha, hw', ht'⟩ => hf a ha w' hw' ht') fun _ _ hc => hc

theorem Gives.read {g : Arena → Except Store.Fault α}
    (hg : ∀ arena : Arena, arena.frames = fs → arena.Typed → ∃ a, g arena = .ok a ∧ ok a) :
    (Run.read g).Gives fs ok bad := by
  intro w hw ht
  obtain ⟨a, ha, hok⟩ := hg w.arena hw ht
  exact Ends.read ha ⟨hok, hw, ht⟩

theorem Gives.write {g : Arena → Except Store.Fault Arena}
    (hg : ∀ arena : Arena, arena.frames = fs → arena.Typed →
      ∃ arena', g arena = .ok arena' ∧ arena'.frames = fs ∧ arena'.Typed) :
    (Run.write g).Gives fs (fun _ => True) bad := by
  intro w hw ht
  obtain ⟨arena, ha, hframes, htyped⟩ := hg w.arena hw ht
  exact Ends.write ha ⟨trivial, hframes, htyped⟩

theorem Gives.display (shown : Json) : (Run.display shown).Gives fs (fun _ => True) bad :=
  fun _ hw ht => ⟨trivial, hw, ht⟩

theorem Gives.loop {condition : Run Bool} {body : Run Unit} (hcond : condition.Gives fs (fun _ => True) bad)
    (hbody : body.Gives fs (fun _ => True) bad) (hend : bad .endless) (rounds : Nat) :
    (Machine.loop condition body rounds).Gives fs (fun _ => True) bad := by
  intro w hw ht
  have hloop := Machine.ends_loop (I := fun w => w.arena.frames = fs ∧ w.arena.Typed)
    (fun w ⟨hw, ht⟩ => (hcond w hw ht).mono (fun _ _ h => h.2) fun _ _ h => h)
    (fun w ⟨hw, ht⟩ => (hbody w hw ht).mono (fun _ _ h => h.2) fun _ _ h => h)
    (fun w ⟨_, ht⟩ => ⟨hend, ht⟩) rounds w ⟨hw, ht⟩
  exact hloop.mono (fun _ _ h => ⟨trivial, h⟩) fun _ _ h => h

theorem Gives.log (line : String) : (Run.log line).Gives fs (fun _ => True) bad := by
  intro w hw ht
  refine Ends.log fun w' hw' => ?_
  rw [hw']
  exact ⟨trivial, hw, ht⟩

theorem Gives.debug {level threshold : Nat} {line : Run String} (hline : line.Gives fs (fun _ => True) bad) :
    (Run.debug level threshold line).Gives fs (fun _ => True) bad := by
  unfold Run.debug
  by_cases ht : threshold ≤ level
  · rw [if_pos ht]
    exact hline.bind fun _ _ => .log _
  · rw [if_neg ht]
    exact .pure trivial

/-- A part of a run that keeps the frames. -/
theorem Keeps.gives (hk : m.Keeps fs)
    (h : ∀ w : World, w.arena.frames = fs → w.arena.Typed →
      m.Ends w (fun a w' => ok a ∧ w'.arena.Typed) fun cause w' => bad cause ∧ w'.arena.Typed) :
    m.Gives fs ok bad :=
  fun w hw ht => ((h w hw ht).and (hk w hw)).mono (fun _ _ ⟨⟨ha, ht'⟩, hw'⟩ => ⟨ha, hw', ht'⟩) fun _ _ hc => hc.1

end Run

/-! ## Operators -/

variable {fs : List Frame}

theorem applyUnary_gives {op t : String} {v : Value} {position : Option Position}
    (hop : Typing.unaryType op = some t) (hv : v.Of t) :
    (applyUnary op v position).Gives fs (·.Of t) Stop.Allowed := by
  unfold Typing.unaryType at hop
  unfold applyUnary
  by_cases h : op = "!"
  · rw [if_pos h] at hop ⊢
    cases hop
    obtain ⟨b, rfl⟩ := hv.bool_inv
    exact .pure (.bool _)
  · by_cases h' : op = "~"
    · rw [if_neg h, if_pos h'] at hop ⊢
      cases hop
      obtain ⟨x, rfl⟩ := hv.num_inv
      exact .pure (.num _)
    · simp [h, h'] at hop

theorem applyArithmetic_gives {op : String} {x y : Float} {position : Option Position}
    (hop : Typing.isArithmetic op = true ∨ Typing.isOrdering op = true) :
    (applyArithmetic op x y position).Gives fs
      (·.Of (if Typing.isArithmetic op then "Num" else "Bool")) Stop.Allowed := by
  simp only [Typing.isArithmetic, Typing.isOrdering, List.contains_eq_mem, List.mem_cons, List.not_mem_nil, or_false,
    decide_eq_true_eq] at hop
  rcases hop with (rfl | rfl | rfl | rfl) | rfl | rfl
  · exact .pure (.num _)
  · exact .pure (.num _)
  · exact .pure (.num _)
  · show Run.Gives (if y == 0 then Run.fail .divisionByZero position else Run.pure (Value.num (x / y))) fs _ _
    by_cases hy : (y == 0) = true
    · rw [if_pos hy]
      exact .stop trivial
    · rw [if_neg hy]
      exact .pure (.num _)
  · exact .pure (.bool _)
  · exact .pure (.bool _)

theorem applyBinary_gives {op left right t : String} {v v' : Value} {position : Option Position}
    (hop : Typing.binaryType op left right = some t) (hv : v.Of left) (hv' : v'.Of right) :
    (applyBinary op v v' position).Gives fs (·.Of t) Stop.Allowed := by
  unfold Typing.binaryType at hop
  unfold applyBinary
  by_cases heq : op = "=="
  · subst heq
    simp only [show (Typing.isArithmetic "==" || Typing.isOrdering "==") = false from rfl, Bool.false_eq_true, if_false,
      true_and, Option.ite_none_right_eq_some, Option.some.injEq] at hop
    rw [if_pos rfl, ← hop.2]
    exact .pure (.bool _)
  · rw [if_neg heq]
    by_cases hnum : (Typing.isArithmetic op || Typing.isOrdering op) = true
    · rw [if_pos hnum] at hop
      simp only [Option.ite_none_right_eq_some, Option.some.injEq] at hop
      obtain ⟨⟨rfl, rfl⟩, rfl⟩ := hop
      obtain ⟨x, rfl⟩ := hv.num_inv
      obtain ⟨y, rfl⟩ := hv'.num_inv
      exact applyArithmetic_gives ((Bool.or_eq_true _ _).mp hnum)
    · simp [hnum, heq] at hop

/-- The texts of typed values can be logged. -/
theorem joinShown_gives {bad : Stop → Prop} {args : List Value} {types : List String}
    (h : List.Forall₂ Value.Of args types)
    (index : Nat) : (joinShown index (args.map Value.shown)).Gives fs (fun _ => True) bad := by
  induction h generalizing index with
  | nil => exact .pure trivial
  | cons hv _ ih =>
    obtain ⟨s, hs⟩ := hv.shown
    rw [List.map_cons, hs]
    exact (ih (index + 1)).bind fun _ _ => .pure trivial

end Eval

/-! ## Names -/

open Typing (Trail Checks)

variable {program : Node} {rs : List Room} {h : Nat} {trail : Trail}

/-- A name means in a run what it meant to the checker. -/
theorem Stage.resolves (hst : Stage program True rs h trail) {arena : Arena} (hframes : arena.frames = frames rs)
    {name : String} {e : Typing.Entry} (hl : trail.scopes.lookup? name = some e) :
    ∃ k g f, Walk arena.frames name h k g ∧ arena.frames[g]? = some f ∧ (name, e) ∈ f.static := by
  rw [hframes]
  obtain ⟨k, scope, hwalk, hscope⟩ := Typing.walk_of_lookup hl
  obtain ⟨j, g, ds, r, hw, -, hr, hs, ⟨-, rfl⟩ | ⟨-, hq, -⟩⟩ := hst.mirrors.walk hwalk
  case inr => exact absurd trivial hq
  refine ⟨j, g, r.frame g, hw, frame_of_room hr, ?_⟩
  have hmem := (hs.map Node.static).subset (Typing.mem_of_lookup hscope)
  simpa [Frame.static, Room.frame, Function.comp_def] using hmem

theorem not_binds_of_lookup {f : Frame} {scope : Typing.Scope} {name : String} (hknown : f.static = scope)
    (hl : scope.lookup name = none) : ¬ f.Binds name := by
  intro hb
  obtain ⟨o, ho, rfl⟩ := List.mem_map.mp hb
  have hmem : o.static ∈ scope := hknown ▸ List.mem_map_of_mem ho
  have hne := List.lookup_eq_none_iff.mp hl _ hmem
  simp [Outline.static] at hne

/-- A name that is new to the checker is new in the run. -/
theorem Stage.unbound {quiet : Prop} (hst : Stage program quiet rs h trail) {arena : Arena}
    (hframes : arena.frames = frames rs) {name : String} (hl : trail.scopes.inner.lookup name = none) :
    ∃ f, arena.frames[h]? = some f ∧ ¬ f.Binds name := by
  rw [hframes]
  obtain ⟨r, hr, hknown⟩ := hst.known
  refine ⟨_, frame_of_room hr, not_binds_of_lookup ?_ hl⟩
  simp [Frame.static, Room.frame, Trail.scopes, hknown, Function.comp_def]

/-- The statements that the checker comes to are in their places. -/
theorem Typing.Checks.sane {enclosing : Option Typing.Enclosing} {depth : Nat} {nodes : List Node}
    (hsane : ∀ body, program.programBody = .ok body → ∀ node ∈ body, Sane .statement node)
    (hc : Checks program enclosing depth trail nodes) : ∀ node ∈ nodes, Sane .statement node := by
  have block : ∀ {body : Node} {statements : List Node}, Sane .block body → body.statements? = some statements →
      ∀ node ∈ statements, Sane .statement node := by
    intro body statements hb hs
    cases hb with
    | block _ hall =>
      cases hs
      exact hall
  induction hc with
  | program hb => exact hsane _ hb
  | next _ ih => exact fun node hn => ih node (List.mem_cons_of_mem _ hn)
  | guarded _ hg hb ih =>
    have hnode := ih _ List.mem_cons_self
    cases hnode with
    | ifStmt _ hbody =>
      cases hg
      exact block hbody hb
    | whileStmt _ hbody =>
      cases hg
      exact block hbody hb
    | _ => cases hg
  | function _ hb ih =>
    have hnode := ih _ List.mem_cons_self
    cases hnode with
    | function _ _ _ hbody => exact block hbody hb

/-! ## The machine -/

namespace Eval.Machine

open Typing (Enclosing infer)

/-- A machine is sound for a program: an expression that was checked gives a value of its type,
and a statement that was checked leaves the arena typed; a return never lets the next statement
run. -/
structure Sound (program : Node) (m : Machine) : Prop where
  evaluate : ∀ {rs : List Room} {h depth : Nat} {trail : Trail} {node : Node} {t : String},
    Stage program True rs h trail → Sane .expression node → infer trail.scopes depth node = .ok t →
    (m.evaluate node h).Gives (frames rs) (·.Of t) Stop.Allowed
  execute : ∀ {rs : List Room} {h depth : Nat} {trail : Trail} {enclosing : Option Enclosing} {node : Node}
    {rest : List Node}, Stage program True rs h trail → Checks program enclosing depth trail (node :: rest) →
    ∀ w : World, w.arena.frames = frames rs → w.arena.Typed →
      (m.execute node h).Ends w (fun _ w' => node.isReturn = false ∧ w'.arena.Typed)
        fun cause w' => cause.AllowedIn enclosing ∧ w'.arena.Typed

variable {m : Machine}

theorem exhausted_sound : Sound program exhausted where
  evaluate _ _ _ := .stop trivial
  execute _ _ _ _ ht := ⟨trivial, ht⟩

theorem Sound.evaluateAll (hm : Sound program m) (hst : Stage program True rs h trail) {depth : Nat}
    {nodes : List Node} {types : List String} (hs : ∀ node ∈ nodes, Sane .expression node)
    (ht : List.Forall₂ (fun node type => infer trail.scopes depth node = .ok type) nodes types) :
    (m.evaluateAll h nodes).Gives (frames rs) (fun values => List.Forall₂ Value.Of values types) Stop.Allowed := by
  induction ht with
  | nil => exact .pure .nil
  | cons hi _ ih =>
    refine (hm.evaluate hst (hs _ List.mem_cons_self) hi).bind fun v hv => ?_
    exact (ih fun node hn => hs node (List.mem_cons_of_mem _ hn)).bind fun vs hvs => .pure (.cons hv hvs)

theorem Sound.foldJoints (hm : Sound program m) (hst : Stage program True rs h trail) {depth : Nat} {t t' : String}
    {joints : List Joint} (hj : Typing.Joined (infer trail.scopes depth) t joints t')
    (hs : ∀ joint ∈ joints, Sane .expression joint.right) {value : Value} (hv : value.Of t) :
    (m.foldJoints h value joints).Gives (frames rs) (·.Of t') Stop.Allowed := by
  induction hj generalizing value with
  | done => exact .pure hv
  | step hr hop _ ih =>
    refine (hm.evaluate hst (hs _ List.mem_cons_self) hr).bind fun right hright => ?_
    refine (applyBinary_gives hop hv hright).bind fun v hv => ?_
    exact ih (fun joint hj => hs joint (List.mem_cons_of_mem _ hj)) hv

/-- The statements of a body, up to the first that stops. A body with a return never runs to its
end. -/
theorem Sound.executeAll (hm : Sound program m) (hsteady : m.Steady) (hpass : checkProgram program = .ok ())
    (hquiet : program.noLateShadow [] [] = true) (hst : Stage program True rs h trail)
    {enclosing : Option Enclosing} {depth : Nat} {nodes : List Node} (hc : Checks program enclosing depth trail nodes)
    (w : World) (hw : w.arena.frames = frames rs) (ht : w.arena.Typed) :
    (m.executeAll h nodes).Ends w (fun _ w' => (∀ node ∈ nodes, node.isReturn = false) ∧ w'.arena.Typed)
      fun cause w' => cause.AllowedIn enclosing ∧ w'.arena.Typed := by
  induction nodes generalizing rs trail w with
  | nil => exact ⟨by simp, ht⟩
  | cons node rest ih =>
    rw [Machine.executeAll, Run.ends_bind]
    have hnode := (hm.execute hst hc w hw ht).and (hsteady.execute hst.tidy hst.handle node w hw)
    refine hnode.mono (fun _ w₁ ⟨⟨hret, ht₁⟩, hw₁, htidy⟩ => ?_) fun _ _ hb => hb.1
    rw [Node.outlines, ← frames_furnish] at hw₁ htidy
    have hst₁ := hst.declare hpass (fun _ => hquiet) hc htidy
    refine (ih hst₁ hc.next w₁ hw₁ ht₁).mono (fun _ w₂ ⟨hrest, ht₂⟩ => ?_) fun _ _ hb => hb
    exact ⟨List.forall_mem_cons.mpr ⟨hret, hrest⟩, ht₂⟩

/-- Arguments of the right types can be bound to parameters that were checked. -/
theorem bindParams_typed {fs : List Frame} {f : Frame} {scopes scopes' : Typing.Scopes} (htidy : Tidy fs)
    (hf : fs[h]? = some f) (hknown : f.static = scopes.inner) {params : List Node}
    (hc : Typing.checkEach Typing.declareParam scopes params = (scopes', .ok ())) {args : List Value}
    (hargs : List.Forall₂ Value.Of args (params.map Node.writtenType)) (w : World) (hw : w.arena.frames = fs)
    (ht : w.arena.Typed) : (bindParams h params args).Ends w (fun _ w' => w'.arena.Typed) fun _ _ => False := by
  induction params generalizing fs f scopes args w with
  | nil =>
    cases hargs
    exact ht
  | cons param rest ih =>
    subst hw
    cases hargs with
    | cons hv hargs =>
      obtain ⟨scopes₁, hparam, hrest⟩ := Typing.checkEach_cons_iff.mp hc
      obtain ⟨type, name, hd, hnew, rfl⟩ := Typing.declareParam_iff.mp hparam
      simp only [Node.writtenType, hd] at hv
      have hunbound : ¬ f.Binds name := not_binds_of_lookup hknown hnew
      obtain ⟨a', hdecl, ht'⟩ := ht.declare hf hunbound hv.initial hv
      obtain ⟨hframes, htidy'⟩ := Arena.declare_frames htidy hdecl
      unfold bindParams
      rw [hd]
      rw [Run.ends_bind]
      refine Run.Ends.write hdecl ?_
      rw [hframes] at htidy'
      refine ih htidy' (getElem?_extend_self hf _) ?_ hrest hargs _ hframes ht'
      simp [Frame.static, ← hknown, Outline.static, Outline.entry]

/-- A call of a checked function with arguments of the right types gives a value of its return
type. -/
theorem Sound.call (hm : Sound program m) (hsteady : m.Steady) (hpass : checkProgram program = .ok ())
    (hquiet : program.noLateShadow [] [] = true) (hst : Stage program True rs h trail) (settings : Settings)
    (callee : String) {s : Trail} {c : Closure} (hc : Checked program True rs s c) {args : List Value}
    (hargs : List.Forall₂ Value.Of args (c.params.map Node.writtenType)) {t : String} (hret : c.returns = some t)
    (position : Option Position) :
    (m.call settings callee (.function c) args position).Gives (frames rs) (·.Of t) Stop.Allowed := by
  have hlen : args.length = c.params.length := by simpa using hargs.length_eq
  unfold Machine.call
  simp only [hlen, ne_eq, not_true_eq_false, if_false]
  refine (Run.Gives.debug ((joinShown_gives hargs 0).bind fun _ _ => .pure trivial)).bind fun _ _ => ?_
  have hresult : ∀ v : Value, v.Of t → (resultOf c v position).Gives (frames rs) (·.Of t) Stop.Allowed := by
    intro v hv
    unfold resultOf
    simp only [hret, hv.isUnit, Bool.false_eq_true, if_false, hv.check]
    exact .pure hv
  refine Run.Gives.bind ?_ hresult
  have htidy := hst.tidy.push (show c.scope < (frames rs).length by simpa using hc.mirrors.handle)
  refine Run.Keeps.gives (.inChild ?_) fun w hw ht => ?_
  · refine (bindParams_adds htidy c.params args hlen).grows.bind fun ps ht' _ => ?_
    exact (hsteady.executeBlock ht' (by simp) c.body).catchReturn
  · rw [Run.ends_inChild, Run.ends_bind, hw]
    obtain ⟨depth, statements, hbody, hcheck⟩ := hc.body
    have hpush : ({ w with arena := (w.arena.push c.scope).1 } : World).arena.frames =
        frames rs ++ [⟨some c.scope, []⟩] := by rw [← hw]; exact Arena.frames_push c.scope
    have hbind := (bindParams_typed htidy List.getElem?_concat_length rfl hc.params hargs _ hpush (ht.push c.scope)).and
      (bindParams_adds htidy c.params args hlen _ hpush)
    refine hbind.mono (fun _ w₁ ⟨ht₁, hw₁, htidy₁⟩ => ?_) fun _ _ hb => hb.1.elim
    rw [length_frames, ← frames_enter] at hw₁ htidy₁
    have hst₁ := hst.enter hc.mirrors (Typing.not_function_of_param hc.params) htidy₁
    rw [Run.ends_catchReturn, Machine.executeBlock, hbody, length_frames]
    refine (hm.executeAll hsteady hpass hquiet hst₁ hcheck w₁ hw₁ ht₁).mono ?_ ?_
    · -- The body has a return, so that it does not run to its end.
      rintro _ w₂ ⟨hno, -⟩
      have hends := hc.returns (by simp [hret])
      rw [Typing.endsByReturn, hbody, Option.getD_some, List.any_eq_true] at hends
      obtain ⟨node, hmem, hnode⟩ := hends
      rw [hno node hmem] at hnode
      cases hnode
    · rintro cause w₂ ⟨hcause, ht₂⟩
      cases cause with
      | returned v =>
        obtain ⟨function, hfunction, hv⟩ := hcause
        cases hfunction
        simp only [Returns, hret] at hv
        exact ⟨hv, ht₂.release _⟩
      | _ => exact ⟨hcause, ht₂.release _⟩

/-- A function that was found for a name has been checked. -/
theorem read_function (hst : Stage program True rs h trail) {name : String} {params : List String}
    {returns : Option String} (hl : trail.scopes.lookup? name = some (.function params returns)) {bad : Stop → Prop} :
    (Run.read (·.get h name)).Gives (frames rs)
      (fun v => ∃ c s, v = .function c ∧ Checked program True rs s c ∧ params = c.params.map Node.writtenType ∧
        returns = c.returns) bad := by
  refine .read fun arena hframes _ => ?_
  obtain ⟨k, g, f, hw, hf, he⟩ := hst.resolves hframes hl
  obtain ⟨htidy, hh⟩ := hst.arena hframes
  obtain ⟨c, hget, hparams, hreturns⟩ := Arena.get_function htidy hh hw hf he
  obtain ⟨s, hs⟩ := hst.checked hframes hget
  exact ⟨_, hget, c, s, rfl, hs, hparams, hreturns⟩

/-- A variable that was found for a name has a value of its type. -/
theorem read_variable (hst : Stage program True rs h trail) {name t : String}
    (hl : trail.scopes.lookup? name = some (.variable t)) {bad : Stop → Prop} :
    (Run.read (·.get h name)).Gives (frames rs) (·.Of t) bad := by
  refine .read fun arena hframes ht => ?_
  obtain ⟨k, g, f, hw, hf, he⟩ := hst.resolves hframes hl
  obtain ⟨htidy, hh⟩ := hst.arena hframes
  exact ht.get htidy hh hw hf he

section

variable (hm : Sound program m) (hsteady : m.Steady) (hpass : checkProgram program = .ok ())
  (hquiet : program.noLateShadow [] [] = true) (settings : Settings) (hst : Stage program True rs h trail)

include hm hsteady hpass hquiet hst

/-- One level of evaluation. -/
theorem Sound.evaluateNode {depth : Nat} {node : Node} {t : String} (hs : Sane .expression node)
    (hi : infer trail.scopes depth node = .ok t) :
    (m.evaluateNode settings node h).Gives (frames rs) (·.Of t) Stop.Allowed := by
  unfold Machine.evaluateNode
  cases depth with
  | zero => cases hi
  | succ depth =>
    cases hs with
    | literal hv =>
      cases hi
      exact .pure hv
    | identifier hn =>
      refine (read_variable hst (Typing.infer_identifier_iff.mp hi)).bind fun v hv => ?_
      cases hv with
      | _ => exact .pure (by constructor)
    | unary hop hoperand =>
      obtain ⟨hunary, hi⟩ := Typing.infer_unary_iff.mp hi
      exact (hm.evaluate hst hoperand hi).bind fun v hv => applyUnary_gives hunary hv
    | binary hop hl hr =>
      obtain ⟨t₀, hfirst, hjoints⟩ := Typing.infer_binary hi
      obtain ⟨hsfirst, hsjoints⟩ := (Placed.binary hop hl hr).spine
      exact (hm.evaluate hst hsfirst hfirst).bind fun v hv => hm.foldJoints hst hjoints hsjoints hv
    | call hn hargs =>
      obtain ⟨params, hl, htypes⟩ := Typing.infer_call_iff.mp hi
      refine (read_function hst hl).bind fun v hv => ?_
      obtain ⟨c, s, rfl, hc, rfl, hret⟩ := hv
      refine (hm.evaluateAll hst hargs htypes).bind fun args hargs => ?_
      exact hm.call hsteady hpass hquiet hst settings _ hc hargs hret.symm _

omit hsteady hpass hquiet in
theorem Sound.loggedCondition {depth : Nat} {node : Node} (keyword : String) (hs : Sane .expression node)
    (hi : infer trail.scopes depth node = .ok "Bool") :
    (m.loggedCondition settings keyword node h).Gives (frames rs) (fun _ => True) Stop.Allowed := by
  have hcond : (m.condition node h).Gives (frames rs) (fun _ => True) Stop.Allowed := by
    refine (hm.evaluate hst hs hi).bind fun v hv => ?_
    obtain ⟨b, rfl⟩ := hv.bool_inv
    exact .pure trivial
  exact hcond.bind fun holds _ => (Run.Gives.debug (.pure trivial)).bind fun _ _ => .pure trivial

/-- The body of an `if` or a `while`. -/
theorem Sound.guarded {enclosing : Option Enclosing} {depth : Nat} {node condition body : Node} {rest : List Node}
    (hc : Checks program enclosing depth trail (node :: rest)) (hg : node.guarded? = some (condition, body)) :
    (Run.inChild h (m.executeBlock body)).Gives (frames rs) (fun _ => True) (Stop.AllowedIn enclosing) := by
  refine Run.Keeps.gives (hsteady.inChild hst.tidy hst.handle body) fun w hw ht => ?_
  obtain ⟨scopes', hn⟩ := hc.head hpass
  cases depth with
  | zero => cases hn
  | succ depth =>
    obtain ⟨statements, inner, hbody, -, -⟩ := Typing.checkBlock_iff.mp (Typing.checkGuarded_of_guarded hg hn).2
    have htidy := hst.tidy.push hst.handle
    have hopen : frames (rs ++ [⟨some h, []⟩]) = frames rs ++ [⟨some h, []⟩] := by simp [frames_enter]
    rw [← hopen] at htidy
    have hst₁ := hst.enter hst.mirrors (by simp) htidy
    rw [Trail.add_nil] at hst₁
    rw [Run.ends_inChild, Machine.executeBlock, hbody, hw, length_frames]
    have hpush : ({ w with arena := (w.arena.push h).1 } : World).arena.frames = frames (rs ++ [⟨some h, []⟩]) := by
      rw [hopen, ← hw]
      exact Arena.frames_push h
    have hall := hm.executeAll hsteady hpass hquiet hst₁ (hc.guarded hg hbody) _ hpush (ht.push h)
    exact hall.mono (fun _ w' hw' => ⟨trivial, hw'.2.release _⟩) fun _ w' hw' => ⟨hw'.1, hw'.2.release _⟩

omit hm hsteady hpass hquiet in
/-- The declaration of a variable with an initial value of its type. -/
theorem declares_variable {name t : String} {initializer : Node} {position : Option Position}
    (hv : (m.evaluateOr .none initializer h).Gives (frames rs)
      (fun v => ∃ v', Arena.initial t v = .ok v' ∧ v'.Of t) Stop.Allowed)
    (hl : trail.scopes.inner.lookup name = none) (enclosing : Option Enclosing)
    (w : World) (hw : w.arena.frames = frames rs)
    (ht : w.arena.Typed) :
    (m.executeNode settings (.varDecl (some t) name initializer position) h).Ends w (fun _ w' => w'.arena.Typed)
      fun cause w' => cause.AllowedIn enclosing ∧ w'.arena.Typed := by
  unfold Machine.executeNode
  rw [Run.ends_bind]
  refine (hv w hw ht).mono (fun v w₁ ⟨⟨v', hinit, hv'⟩, hw₁, ht₁⟩ => ?_) fun _ _ h => ⟨h.1.within _, h.2⟩
  obtain ⟨f, hf, hnew⟩ := hst.unbound hw₁ hl
  obtain ⟨arena, hdecl, htyped⟩ := ht₁.declare hf hnew hinit hv'
  obtain ⟨htidy₁, hh⟩ := hst.arena hw₁
  obtain ⟨hframes, htidy⟩ := Arena.declare_frames htidy₁ hdecl
  rw [Run.ends_bind]
  refine .write hdecl (.debug ?_ fun w' hw' => hw' ▸ htyped)
  -- The new variable is the first that a lookup of its name finds.
  have hhere : Walk arena.frames name h 0 h := by
    rw [hframes]
    exact .here (getElem?_extend_self hf _) (by simp [Frame.Binds])
  obtain ⟨s, b, -, -, hfind⟩ := Arena.find?_of_walk htidy (by simpa [hframes] using hh) hhere
  have hget : arena.get h name = .ok b.value := by simp [Arena.get_eq, hfind]
  rw [Run.ends_bind]
  exact .read hget rfl

/-- One level of execution. -/
theorem Sound.executeNode
    (hsane : ∀ body, program.programBody = .ok body → ∀ node ∈ body, Sane .statement node)
    {enclosing : Option Enclosing} {depth : Nat} {node : Node} {rest : List Node}
    (hc : Checks program enclosing depth trail (node :: rest)) (w : World) (hw : w.arena.frames = frames rs)
    (ht : w.arena.Typed) :
    (m.executeNode settings node h).Ends w (fun _ w' => node.isReturn = false ∧ w'.arena.Typed)
      fun cause w' => cause.AllowedIn enclosing ∧ w'.arena.Typed := by
  have hs := hc.sane hsane node List.mem_cons_self
  obtain ⟨scopes', hn⟩ := hc.head hpass
  -- Statements other than declarations and returns leave the frames alone.
  have plain : node.isReturn = false →
    (m.executeNode settings node h).Gives (frames rs) (fun _ => True) (Stop.AllowedIn enclosing) →
      (m.executeNode settings node h).Ends w (fun _ w' => node.isReturn = false ∧ w'.arena.Typed)
        fun cause w' => cause.AllowedIn enclosing ∧ w'.arena.Typed :=
    fun hret hg => (hg w hw ht).mono (fun _ _ h => ⟨hret, h.2.2⟩) fun _ _ h => h
  have weak : ∀ cause : Stop, cause.Allowed → cause.AllowedIn enclosing := fun _ h => h.within enclosing
  cases depth with
  | zero => cases hn
  | succ depth =>
    cases hs with
    | @varDecl type name position =>
      obtain ⟨t, hty, hp, -, hl, -⟩ := Typing.checkVariable_iff.mp hn
      cases hty
      have hinit : (m.evaluateOr .none .absent h).Gives (frames rs)
          (fun v => ∃ v', Arena.initial type v = .ok v' ∧ v'.Of type) Stop.Allowed := .pure (Value.Of.zero hp)
      exact (declares_variable settings hst hinit hl enclosing w hw ht).mono (fun _ _ h => ⟨rfl, h⟩) fun _ _ h => h
    | @varInit type name initializer position _ _ hvalue =>
      obtain ⟨t, hty, -, hi, hl, -⟩ := Typing.checkVariable_iff.mp hn
      cases hty
      have hinit : (m.evaluateOr .none initializer h).Gives (frames rs)
          (fun v => ∃ v', Arena.initial type v = .ok v' ∧ v'.Of type) Stop.Allowed := by
        rw [Machine.evaluateOr, hvalue.not_absent]
        exact (hm.evaluate hst hvalue (hi hvalue.not_absent)).mono (fun v hv => ⟨v, hv.initial, hv⟩) fun _ h => h
      exact (declares_variable settings hst hinit hl enclosing w hw ht).mono (fun _ _ h => ⟨rfl, h⟩) fun _ _ h => h
    | assignment _ hvalue =>
      obtain ⟨t, hl, hi⟩ := Typing.checkAssignment_iff.mp (Prod.mk.inj hn).2
      refine plain rfl (((hm.evaluate hst hvalue hi).mono (fun _ h => h) weak).bind fun v hv => ?_)
      refine Run.Gives.bind (.write fun arena hframes htyped => ?_) fun _ _ => .debug (.pure trivial)
      obtain ⟨k, g, f, hwalk, hf, he⟩ := hst.resolves hframes hl
      obtain ⟨htidy, hh⟩ := hst.arena hframes
      obtain ⟨arena', hset, htyped'⟩ := htyped.set htidy hh hwalk hf he hv
      exact ⟨arena', hset, (Arena.set_frames htidy hset).trans hframes, htyped'⟩
    | returnPlain =>
      obtain ⟨function, hf, hr⟩ := Typing.checkReturn_iff.mp (Prod.mk.inj hn).2
      refine ⟨⟨function, hf, ?_⟩, ht⟩
      cases hret : function.returns with
      | none => simp [Returns, hret]
      | some t =>
        rw [hret] at hr
        cases hr.1
    | @returnValue value _ hvalue =>
      obtain ⟨function, hf, hr⟩ := Typing.checkReturn_iff.mp (Prod.mk.inj hn).2
      cases hret : function.returns with
      | none =>
        rw [hret] at hr
        cases hvalue.not_absent.symm.trans hr
      | some t =>
        rw [hret] at hr
        have hevaluate : (m.evaluateOr .unit value h).Gives (frames rs) (·.Of t) (Stop.AllowedIn enclosing) := by
          rw [Machine.evaluateOr, hvalue.not_absent]
          exact (hm.evaluate hst hvalue hr.2).mono (fun _ h => h) weak
        unfold Machine.executeNode
        rw [Run.ends_bind]
        refine (hevaluate w hw ht).mono (fun v w' ⟨hv, _, ht'⟩ => ?_) fun _ _ h => h
        exact ⟨⟨function, hf, by simpa [Returns, hret] using hv⟩, ht'⟩
    | display hvalue =>
      obtain ⟨t, hi, -⟩ := map_iff.mp (Prod.mk.inj hn).2
      refine plain rfl (((hm.evaluate hst hvalue hi).mono (fun _ h => h) weak).bind fun v hv => ?_)
      exact (Run.Gives.debug (.pure trivial)).bind fun _ _ => .display _
    | ifStmt hcond hbody =>
      obtain ⟨hi, -⟩ := Typing.checkGuarded_iff.mp hn
      refine plain rfl
        (((hm.loggedCondition settings hst "if" hcond hi).mono (fun _ h => h) weak).bind fun holds _ => ?_)
      cases holds with
      | true => exact hm.guarded hsteady hpass hquiet hst hc rfl
      | false => exact .pure trivial
    | whileStmt hcond hbody =>
      obtain ⟨hi, -⟩ := Typing.checkGuarded_iff.mp hn
      refine plain rfl (.loop ?_ (hm.guarded hsteady hpass hquiet hst hc rfl) trivial _)
      exact (hm.loggedCondition settings hst "while" hcond hi).mono (fun _ h => h) weak
    | function =>
      obtain ⟨types, scopes₁, inner, -, -, hd, -, -, -⟩ := Typing.checkFunction_iff.mp hn
      obtain ⟨f, hf, hnew⟩ := hst.unbound hw (Typing.declare_iff.mp hd).1
      obtain ⟨arena, hdecl, htyped⟩ := ht.declareFunction hf hnew _
      unfold Machine.executeNode
      rw [Run.ends_bind]
      exact .write hdecl (.debug rfl fun w' hw' => ⟨rfl, hw' ▸ htyped⟩)

end

/-- Every machine is sound for a program that passes and never shadows a name late. -/
theorem atDepth_sound (hpass : checkProgram program = .ok ()) (hquiet : program.noLateShadow [] [] = true)
    (hsane : ∀ body, program.programBody = .ok body → ∀ node ∈ body, Sane .statement node) (settings : Settings)
    (depth : Nat) : Sound program (atDepth settings depth) := by
  induction depth with
  | zero => exact exhausted_sound
  | succ depth ih =>
    have hsteady := atDepth_steady settings depth
    exact ⟨fun hst hs hi => ih.evaluateNode hsteady hpass hquiet settings hst hs hi,
      fun hst hc => ih.executeNode hsteady hpass hquiet settings hst hsane hc⟩

end Eval.Machine

/-! ## Programs -/

theorem proper_of_literal {t : Token} {v : Literal} (h : Parse.literalOf? t = some (.ok v)) : v.Proper := by
  unfold Parse.literalOf? at h
  cases hk : t.kind <;> rw [hk] at h <;> simp only [reduceCtorEq, Option.some.injEq] at h
  case number =>
    unfold Parse.numberOf at h
    split at h
    · cases h
      exact .num _
    · cases h
  case string =>
    obtain ⟨s, -, rfl⟩ := map_iff.mp h
    exact .str s
  case char =>
    obtain ⟨s, -, rfl⟩ := map_iff.mp h
    exact .char s
  case bool =>
    cases h
    exact .bool _

/-- The literals of a parsed program are proper. -/
theorem sane_of_parse {frontend : Frontend} {depth : Nat} {source : String}
    (h : parseTo frontend depth source = .ok program) :
    ∀ body, program.programBody = .ok body → ∀ node ∈ body, Sane .statement node := by
  obtain ⟨tokens, body, d, -, -, rfl, hspell⟩ := parseTo_spells h
  rintro _ ⟨⟩
  exact hspell.placed fun t _ => ⟨fun v hv => proper_of_literal hv, fun _ => trivial⟩

namespace Eval

/-- How a checked program may end: it has run to its end, it goes round a loop for ever, it has
divided by zero, or its calls nest too deep. -/
def EndsWell : Except Stop Unit → Prop
  | .ok () | .error .endless | .error (.failure .divisionByZero _) | .error (.failure .stackExhausted none) => True
  | .error _ => False

theorem endsWell_settle {result : Except Stop Unit} (h : ∀ cause, result = .error cause → cause.AllowedIn none) :
    EndsWell (settle result) := by
  cases result with
  | ok u => trivial
  | error cause =>
    have hcause := h cause rfl
    cases cause with
    | returned v =>
      obtain ⟨function, hf, -⟩ := hcause
      cases hf
    | tooDeep => trivial
    | endless => trivial
    | failure reason position =>
      cases reason with
      | divisionByZero => trivial
      | _ => exact hcause.elim
    | _ => exact hcause.elim

/-- A parsed program that passes the checker and never shadows a name late does not go wrong,
however long it runs: it ends, loops for ever, divides by zero or exhausts the call stack. -/
theorem checked_runs_well {frontend : Frontend} {depth : Nat} {source : String}
    (hparse : parseTo frontend depth source = .ok program) (hcheck : checkProgram program = .ok ())
    (hquiet : program.noLateShadow [] [] = true) (settings : Settings) (limit : Nat) :
    EndsWell (runTo settings limit program World.start).1 := by
  have hsane := sane_of_parse hparse
  obtain ⟨-, body, -, -, -, rfl, -⟩ := parseTo_spells hparse
  have hsound := Machine.atDepth_sound hcheck hquiet hsane settings limit
  have hends := hsound.executeAll (Machine.atDepth_steady settings limit) hcheck hquiet Stage.start (.program rfl)
    World.start rfl Arena.typed_start
  exact endsWell_settle fun cause hcause => (hends.of_error (Prod.ext hcause rfl)).1

/-- A text with functions in functions, a name that is shadowed in time, and a loop. -/
def nestedSource : String :=
  "Bool more = true\n" ++
  "f(Bool a) -> Bool\n" ++
  "    Bool more = !a\n" ++
  "    g() -> Bool\n" ++
  "        return more\n" ++
  "    if more\n" ++
  "        display \"shadowed\"\n" ++
  "    return g()\n" ++
  "while more\n" ++
  "    more = f(true)\n" ++
  "display more\n"

theorem nestedSource_runs_well : ∃ program, parseTo .descent 20 nestedSource = .ok program ∧
    checkProgram program = .ok () ∧ program.noLateShadow [] [] = true ∧
    ∀ settings limit, EndsWell (runTo settings limit program World.start).1 := by
  have hgood : (match parseTo .descent 20 nestedSource with
      | .ok program => (checkProgram program).isOk && program.noLateShadow [] []
      | .error _ => false) = true := by decide +kernel
  cases hparse : parseTo .descent 20 nestedSource with
  | error e => simp [hparse] at hgood
  | ok program =>
    rw [hparse] at hgood
    obtain ⟨hok, hquiet⟩ := Bool.and_eq_true_iff.mp hgood
    cases hcheck : checkProgram program with
    | error e => simp [hcheck, Except.isOk, Except.toBool] at hok
    | ok u => exact ⟨program, rfl, hcheck, hquiet, checked_runs_well hparse hcheck hquiet⟩

end Eval

end TillLang
