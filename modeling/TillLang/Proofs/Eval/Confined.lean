/-
  TillLang.Proofs.Eval.Confined — running stays around a scope.

  What is carried out in a scope, checked or not and however it ends, changes nothing but the scopes
  that enclose it (`Machine.atDepth_confined`). A block has a scope of its own inside that scope, and
  what it changes besides encloses that scope; the body of a function has one inside the scope of the
  function, which encloses every scope that the function can be called from. With the names and types
  that every scope keeps (`Machine.atDepth_steady`) this is all that a run can do to the arena
  (`running_stays_in_scope`).
-/

import TillLang.Proofs.Eval.Invariant
import TillLang.Proofs.Eval.Steady
import TillLang.Proofs.Store.Enclosing

namespace TillLang.Eval

namespace Run

variable {α β : Type}

/-- Among scopes with given links, a part of a run changes only those that enclose a given one. -/
def Confined (ps : List (Option Nat)) (h : Nat) (m : Run α) : Prop :=
  ∀ w : World, Tidy w.arena.frames → w.arena.parents = ps →
    m.Ends w (fun _ w' => w.arena.Within h w'.arena) (fun _ w' => w.arena.Within h w'.arena)

variable {m : Run α} {ps : List (Option Nat)} {g h p : Nat}

theorem Confined.pure (a : α) : (Run.pure a).Confined ps h := fun _ ht _ => .refl ht

theorem Confined.stop (cause : Stop) : (Run.stop cause : Run α).Confined ps h := fun _ ht _ => Arena.Within.refl ht

theorem Confined.fail (reason : Reason) (position : Option Position) :
    (Run.fail reason position : Run α).Confined ps h :=
  Confined.stop _

theorem Confined.bind {f : α → Run β} (hm : m.Confined ps h) (hf : ∀ a, (f a).Confined ps h) :
    (m >>= f).Confined ps h := by
  intro w ht hps
  rw [ends_bind]
  refine (hm w ht hps).mono (fun a w₁ hw₁ => ?_) fun _ _ hb => hb
  refine (hf a w₁ hw₁.tidy (hw₁.parents.trans hps)).mono (fun _ _ hw₂ => ?_) fun _ _ hw₂ => ?_
  all_goals exact hw₁.trans hw₂

/-- What stays around a scope stays around every scope inside it. -/
theorem Confined.widen (hm : m.Confined ps g) (hg : Encloses ps g h) : m.Confined ps h := by
  intro w ht hps
  subst hps
  exact (hm w ht rfl).mono (fun _ _ hw => hw.widen hg) fun _ _ hw => hw.widen hg

/-- A read hands on what it has read in an arena with these links. -/
theorem Confined.readBind {r : Arena → Except Store.Fault α} {f : α → Run β}
    (hf : ∀ arena : Arena, Tidy arena.frames → arena.parents = ps → ∀ a, r arena = .ok a → (f a).Confined ps h) :
    (Run.read r >>= f).Confined ps h := by
  intro w ht hps
  rw [ends_bind, ends_read]
  cases hr : r w.arena with
  | error cause => exact .refl ht
  | ok a => exact hf w.arena ht hps a hr w ht hps

theorem Confined.log (line : String) : (Run.log line).Confined ps h := by
  intro w ht _
  exact Ends.log fun w' hw => by rw [hw]; exact .refl ht

theorem Confined.debug {level threshold : Nat} {line : Run String} (hline : line.Confined ps h) :
    (Run.debug level threshold line).Confined ps h := by
  unfold Run.debug
  by_cases ht : threshold ≤ level
  · rw [if_pos ht]
    exact hline.bind Confined.log
  · rw [if_neg ht]
    exact Confined.pure ()

theorem Confined.display (shown : Json) : (Run.display shown).Confined ps h := fun _ ht _ => Arena.Within.refl ht

theorem Confined.write {f : Arena → Except Store.Fault Arena}
    (hf : ∀ a a' : Arena, Tidy a.frames → f a = .ok a' → a.Within h a') : (Run.write f).Confined ps h := by
  intro w ht _
  rw [ends_write]
  cases hwrite : f w.arena with
  | error cause => exact .refl ht
  | ok arena => exact hf _ _ ht hwrite

/-- A scope of its own stays around the scope that it is made in. -/
theorem Confined.inChild {body : Nat → Run α} (hp : p < ps.length)
    (hbody : (body ps.length).Confined (ps ++ [some p]) ps.length) : (Run.inChild p body).Confined ps p := by
  intro w ht hps
  subst hps
  have hlen := w.arena.length_parents
  rw [ends_inChild, ← hlen]
  have htidy : Tidy (w.arena.push p).1.frames := by
    rw [Arena.frames_push]
    exact ht.push (hlen ▸ hp)
  refine (hbody { w with arena := (w.arena.push p).1 } htidy (Arena.parents_push p)).mono (fun _ w' hw' => ?_)
    fun _ w' hw' => ?_
  all_goals exact Arena.within_release ht hp hw'

theorem Confined.catchReturn {m : Run Unit} (hm : m.Confined ps h) : (Run.catchReturn m).Confined ps h := by
  intro w ht hps
  rw [ends_catchReturn]
  refine (hm w ht hps).mono (fun _ _ hw' => hw') fun cause w' hw' => ?_
  cases cause <;> exact hw'

theorem Confined.loop {condition : Run Bool} {body : Run Unit} (hcond : condition.Confined ps h)
    (hbody : body.Confined ps h) (rounds : Nat) : (Machine.loop condition body rounds).Confined ps h := by
  induction rounds with
  | zero => exact .stop _
  | succ rounds ih =>
    refine hcond.bind fun holds => ?_
    cases holds with
    | true => exact hbody.bind fun _ => ih
    | false => exact .pure ()

/-- However a part ends, a property of both ends holds of the world. -/
theorem Ends.world {P : World → Prop} {w : World} (h : m.Ends w (fun _ w' => P w') fun _ w' => P w') : P (m w).2 := by
  unfold Ends at h
  split at h
  all_goals
    next heq =>
      rw [heq]
      exact h

end Run

/-! ## The machine -/

variable {ps : List (Option Nat)} {h : Nat}

theorem applyUnary_confined (op : String) (v : Value) (position : Option Position) :
    (applyUnary op v position).Confined ps h := by
  unfold applyUnary
  repeat' split
  all_goals first | exact .pure _ | exact .fail _ _

theorem applyBinary_confined (op : String) (v v' : Value) (position : Option Position) :
    (applyBinary op v v' position).Confined ps h := by
  unfold applyBinary applyArithmetic
  repeat' split
  all_goals first | exact .pure _ | exact .fail _ _

theorem joinShown_confined (index : Nat) (shown : List Json) : (joinShown index shown).Confined ps h := by
  induction shown generalizing index with
  | nil => exact .pure _
  | cons j rest ih =>
    cases j with
    | str s => exact (ih (index + 1)).bind fun _ => .pure _
    | _ => exact .stop _

namespace Machine

/-- A machine stays around the scope it is given. -/
structure Confined (m : Machine) : Prop where
  evaluate : ∀ {ps : List (Option Nat)} {h : Nat}, h < ps.length → ∀ node, (m.evaluate node h).Confined ps h
  execute : ∀ {ps : List (Option Nat)} {h : Nat}, h < ps.length → ∀ node, (m.execute node h).Confined ps h

variable {m : Machine}

theorem exhausted_confined : exhausted.Confined := ⟨fun _ _ => .stop _, fun _ _ => .stop _⟩

theorem Confined.evaluateAll (hm : m.Confined) (hh : h < ps.length) (nodes : List Node) :
    (m.evaluateAll h nodes).Confined ps h := by
  induction nodes with
  | nil => exact .pure _
  | cons node rest ih => exact (hm.evaluate hh node).bind fun _ => ih.bind fun _ => .pure _

theorem Confined.executeAll (hm : m.Confined) (hh : h < ps.length) (nodes : List Node) :
    (m.executeAll h nodes).Confined ps h := by
  induction nodes with
  | nil => exact .pure _
  | cons node rest ih => exact (hm.execute hh node).bind fun _ => ih

theorem Confined.executeBlock (hm : m.Confined) (hh : h < ps.length) (body : Node) :
    (m.executeBlock body h).Confined ps h := by
  unfold Machine.executeBlock
  cases body.statements? with
  | none => exact .stop _
  | some statements => exact hm.executeAll hh statements

theorem bindParams_confined (params : List Node) (args : List Value) : (bindParams h params args).Confined ps h := by
  induction params generalizing args with
  | nil => exact .pure _
  | cons param params ih =>
    cases args with
    | nil => exact .pure _
    | cons arg args =>
      unfold bindParams
      cases param.declared? with
      | none => exact .stop _
      | some declared => exact (Run.Confined.write fun _ _ ht hd => Arena.within_declare ht hd).bind fun _ => ih args

/-- What a call does once it has logged itself stays around the scope of the function. -/
theorem Confined.body (hm : m.Confined) {c : Closure} (hc : c.scope < ps.length) (args : List Value)
    (position : Option Position) :
    (Run.inChild c.scope (fun scope => do
      bindParams scope c.params args
      Run.catchReturn (m.executeBlock c.body scope)) >>= fun value =>
        resultOf c value position).Confined ps c.scope := by
  refine Run.Confined.bind (.inChild hc ?_) fun value => ?_
  · refine (bindParams_confined c.params args).bind fun _ => ?_
    exact (hm.executeBlock (by simp) c.body).catchReturn
  · unfold resultOf
    repeat' split
    all_goals first | exact .pure _ | exact .fail _ _

theorem Confined.call (hm : m.Confined) (settings : Settings) (callee : String) {function : Value}
    (hf : ∀ c, function = .function c → Encloses ps c.scope h ∧ c.scope < ps.length) (args : List Value)
    (position : Option Position) : (m.call settings callee function args position).Confined ps h := by
  unfold Machine.call
  cases function with
  | function c =>
    obtain ⟨hencloses, hscope⟩ := hf c rfl
    simp only
    by_cases hlen : args.length = c.params.length
    · rw [if_neg (not_not.mpr hlen)]
      refine (Run.Confined.debug ((joinShown_confined 0 _).bind fun _ => .pure _)).bind fun _ => ?_
      exact (hm.body hscope args position).widen hencloses
    · rw [if_pos hlen]
      exact .fail _ _
  | _ => exact .fail _ _

theorem Confined.foldJoints (hm : m.Confined) (hh : h < ps.length) (value : Value) (joints : List Joint) :
    (m.foldJoints h value joints).Confined ps h := by
  induction joints generalizing value with
  | nil => exact .pure _
  | cons joint rest ih =>
    exact (hm.evaluate hh joint.right).bind fun _ => (applyBinary_confined _ _ _ _).bind fun v => ih v

theorem Confined.evaluateNode (hm : m.Confined) (hh : h < ps.length) (settings : Settings) (node : Node) :
    (m.evaluateNode settings node h).Confined ps h := by
  unfold Machine.evaluateNode
  cases node with
  | literal value position => exact .pure _
  | identifier name position =>
    refine .readBind fun _ _ _ value _ => ?_
    cases value <;> first | exact .fail _ _ | exact .pure _
  | unary op operand position => exact (hm.evaluate hh operand).bind fun _ => applyUnary_confined _ _ _
  | binary op left right position => exact (hm.evaluate hh _).bind fun _ => hm.foldJoints hh _ _
  | call callee args position =>
    refine .readBind fun arena ht hps function hget => (hm.evaluateAll hh args).bind fun values => ?_
    refine hm.call settings callee (fun c hc => ?_) values position
    subst hps hc
    exact Arena.encloses_of_get ht hget
  | _ => exact .stop _

theorem Confined.loggedCondition (hm : m.Confined) (hh : h < ps.length) (settings : Settings) (keyword : String)
    (node : Node) : (m.loggedCondition settings keyword node h).Confined ps h := by
  refine Run.Confined.bind ?_ fun holds => (Run.Confined.debug (.pure _)).bind fun _ => .pure _
  refine (hm.evaluate hh node).bind fun value => ?_
  cases value <;> first | exact .fail _ _ | exact .pure _

theorem Confined.evaluateOr (hm : m.Confined) (hh : h < ps.length) (missing : Value) (node : Node) :
    (m.evaluateOr missing node h).Confined ps h := by
  unfold Machine.evaluateOr
  by_cases ha : node.isAbsent
  · rw [if_pos ha]
    exact .pure _
  · rw [if_neg ha]
    exact hm.evaluate hh node

theorem Confined.block (hm : m.Confined) (hh : h < ps.length) (body : Node) :
    (Run.inChild h (m.executeBlock body)).Confined ps h :=
  .inChild hh (hm.executeBlock (by simp) body)

theorem Confined.executeNode (hm : m.Confined) (hh : h < ps.length) (settings : Settings) (node : Node) :
    (m.executeNode settings node h).Confined ps h := by
  unfold Machine.executeNode
  cases node with
  | varDecl type name initializer position =>
    refine (hm.evaluateOr hh .none initializer).bind fun v => ?_
    refine (Run.Confined.write fun _ _ ht hd => Arena.within_declare ht hd).bind fun _ => ?_
    exact .debug (.readBind fun _ _ _ _ _ => .pure _)
  | assignment name value position =>
    refine (hm.evaluate hh value).bind fun v => ?_
    exact (Run.Confined.write fun _ _ ht hset => Arena.within_set ht hset).bind fun _ => .debug (.pure _)
  | function name params returns body position =>
    refine Run.Confined.bind (.write fun a a' ht hd => ?_) fun _ => .debug (.pure _)
    exact Arena.within_declareFunction ht rfl hd
  | ifStmt condition body position =>
    refine (hm.loggedCondition hh settings "if" condition).bind fun holds => ?_
    cases holds with
    | true => exact hm.block hh body
    | false => exact .pure ()
  | whileStmt condition body position =>
    exact .loop (hm.loggedCondition hh settings "while" condition) (hm.block hh body) _
  | returnStmt value position => exact (hm.evaluateOr hh .unit value).bind fun _ => .stop _
  | display value position =>
    exact (hm.evaluate hh value).bind fun v => (Run.Confined.debug (.pure _)).bind fun _ => .display _
  | _ => exact .stop _

/-- At every nesting depth the machine stays around the scope it is given. -/
theorem atDepth_confined (settings : Settings) (depth : Nat) : (atDepth settings depth).Confined := by
  induction depth with
  | zero => exact exhausted_confined
  | succ depth ih =>
    exact ⟨fun hh node => ih.evaluateNode hh settings node, fun hh node => ih.executeNode hh settings node⟩

end Machine

/-! ## Moments -/

section Moments

variable {w w' : World} {settings : Settings}

/-- A safe part of a run ends in an arena in which the maps of a scope have the same names. -/
theorem Run.Safe.paired {α : Type} {m : Run α} {n : Nat} (hm : m.Safe Arena.Kept n) (hw : w.Fit Arena.Kept n) :
    (m w).2.arena.Paired :=
  Run.Ends.world ((hm w hw).mono (fun _ _ hw' => hw'.inv.paired) fun _ _ hw' => hw'.2.inv.paired)

/-- An expression leaves names and types as they are. -/
theorem evaluate_leaves (hw : w.Fit Arena.Kept (h + 1)) (depth : Nat) (node : Node) :
    w.arena.Leaves h [] ((Machine.atDepth settings depth).evaluate node h w).2.arena := by
  have hconfined := (Machine.atDepth_confined settings depth).evaluate (w.arena.length_parents ▸ hw.room) node w
    hw.tidy rfl
  have hkeeps := (Machine.atDepth_steady settings depth).evaluate hw.tidy hw.room node w rfl
  have hpaired := ((Machine.atDepth_safe Arena.stable_kept settings depth).evaluate (Nat.lt_succ_self h) node).paired hw
  obtain ⟨hwithin, hframes⟩ :=
    Run.Ends.world (P := fun w' => w.arena.Within h w'.arena ∧ w'.arena.frames = w.arena.frames)
      (hconfined.and hkeeps)
  exact hwithin.leaves hw.tidy hw.inv.paired hpaired (hframes.trans (extend_nil _ h).symm) List.nil_prefix

theorem names_outlines (node : Node) :
    (node.outlines h).map Outline.name = node.declarations.map Node.boundName := by
  simp [Node.outlines]

/-- A statement adds at most what it declares. -/
theorem execute_leaves (hw : w.Fit Arena.Kept (h + 1)) (depth : Nat) (node : Node) :
    w.arena.Leaves h (node.declarations.map Node.boundName)
      ((Machine.atDepth settings depth).execute node h w).2.arena := by
  have hconfined := (Machine.atDepth_confined settings depth).execute (w.arena.length_parents ▸ hw.room) node w
    hw.tidy rfl
  have hadds := (Machine.atDepth_steady settings depth).execute hw.tidy hw.room node w rfl
  have hpaired := ((Machine.atDepth_safe Arena.stable_kept settings depth).execute (Nat.lt_succ_self h) node).paired hw
  rw [← names_outlines (h := h)]
  have hgrown : ∃ os, os <+: node.outlines h ∧
      w.arena.Within h ((Machine.atDepth settings depth).execute node h w).2.arena ∧
      ((Machine.atDepth settings depth).execute node h w).2.arena.frames = extend w.arena.frames h os := by
    refine Run.Ends.world (P := fun w' => ∃ os, os <+: node.outlines h ∧ w.arena.Within h w'.arena ∧
      w'.arena.frames = extend w.arena.frames h os) ?_
    refine (hconfined.and hadds).mono (fun _ w' hw' => ⟨_, List.prefix_refl _, hw'.1, hw'.2.1⟩) fun _ w' hw' => ?_
    obtain ⟨hwithin, os, hos, hgrown⟩ := hw'
    exact ⟨os, hos, hwithin, hgrown.1⟩
  obtain ⟨os, hos, hwithin, hframes⟩ := hgrown
  exact hwithin.leaves hw.tidy hw.inv.paired hpaired hframes (hos.map _)

/-- A call that has logged itself goes on with the body of its function. -/
theorem Machine.Calls.evaluate {m : Machine} {callee : String} {args : List Node} {c : Closure} {values : List Value}
    (hcall : m.Calls settings callee args h w c values w') (position : Option Position) :
    m.evaluateNode settings (.call callee args position) h w =
      (Run.inChild c.scope (fun scope => do
        bindParams scope c.params values
        Run.catchReturn (m.executeBlock c.body scope)) >>= fun value => resultOf c value position) w' := by
  obtain ⟨hget, hlen, w₁, hargs, hlog⟩ := hcall
  show Run.bind (Run.read (·.get h callee)) (fun function => Run.bind (m.evaluateAll h args) fun values =>
    m.call settings callee function values position) w = _
  simp only [Run.bind, Run.read, hget, hargs, Machine.call, ne_eq, hlen, not_true_eq_false, if_false]
  show Run.bind (logCall settings c values) _ w₁ = _
  simp only [Run.bind, hlog]

/-- A call changes nothing but scopes that enclose its function. -/
theorem Machine.Calls.outside {depth : Nat} {callee : String} {args : List Node} {c : Closure} {values : List Value}
    (hcall : (Machine.atDepth settings depth).Calls settings callee args h w c values w') (ht : Tidy w'.arena.frames)
    (hscope : c.scope < w'.next) (position : Option Position) {g : Nat} (hg : ¬ Encloses w'.arena.parents g c.scope) :
    ((Machine.atDepth settings (depth + 1)).evaluate (.call callee args position) h w).2.arena.scopes[g]? =
      w'.arena.scopes[g]? := by
  have hinside : c.scope < w'.arena.parents.length := by rwa [w'.arena.length_parents, ← w'.next_eq]
  have hbody := ((Machine.atDepth_confined settings depth).body hinside values position w' ht rfl).world
  show ((Machine.atDepth settings depth).evaluateNode settings _ h w).2.arena.scopes[g]? = _
  rw [hcall.evaluate position]
  exact hbody.outside g hg

end Moments

/-! ## Runs -/

/-- A world with no scope but the outermost one. -/
def World.Alone (w : World) : Prop := ∃ values types, w.arena.scopes = [⟨none, values, types⟩]

theorem World.alone_of_tidy {w : World} (ht : Tidy w.arena.frames) (hlen : w.arena.frames.length = 1) : w.Alone := by
  rw [Arena.frames, List.length_map] at hlen
  obtain ⟨s, hs⟩ := List.length_eq_one_iff.mp hlen
  have hroot := (ht.rooted (Arena.frame_of_scope (h := 0) (by rw [hs]; rfl))).mpr rfl
  exact ⟨s.values, s.types, by rw [hs, ← hroot]; rfl⟩

theorem World.Alone.length {w : World} (h : w.Alone) : w.arena.frames.length = 1 := by
  obtain ⟨values, types, hscopes⟩ := h
  rw [Arena.frames, hscopes]
  rfl

theorem runTo_alone {w : World} (ht : Tidy w.arena.frames) (hw : w.Alone) (settings : Settings) (depth : Nat)
    (program : Node) : (runTo settings depth program w).2.Alone := by
  unfold runTo
  cases program.programBody with
  | error cause => exact hw
  | ok body =>
    have hglobal : Arena.global < w.arena.frames.length := by rw [hw.length]; exact Nat.zero_lt_one
    have hadds := (Machine.atDepth_steady settings depth).executeAll ht hglobal body w rfl
    have hgrown : ∀ {w' : World} {os : List Outline}, Grown w.arena.frames Arena.global os w' → w'.Alone := by
      intro w' os hg
      refine World.alone_of_tidy (hg.1 ▸ hg.2) ?_
      rw [hg.1, length_extend, hw.length]
    exact (hadds.mono (fun _ _ hg => hgrown hg) fun _ _ ⟨_, _, hg⟩ => hgrown hg).world

theorem Session.tidy {w : World} (hw : Session w) : Tidy w.arena.frames :=
  (hw.fits Arena.stable_kept Arena.kept_start).tidy

theorem Session.alone {w : World} (hw : Session w) : w.Alone := by
  induction hw with
  | start => exact ⟨[], [], rfl⟩
  | run hw settings depth program ih => exact runTo_alone hw.tidy ih settings depth program

/-- Whatever is carried out when an interpreter runs a program, checked or not and after any others, leaves the arena
as it was but for what it may change: expressions and statements change only scopes that enclose theirs, values of
variables in those, and one name at most is declared; a call changes only scopes that enclose its function. After the
run there is no scope but the outermost one. -/
theorem running_stays_in_scope {w : World} (hw : Session w) (settings : Settings) (depth : Nat) (program : Node) :
    (∀ d node h w₀, Reaches settings depth program w ⟨d, .evaluate node, h, w₀⟩ →
      w₀.arena.Leaves h [] ((Machine.atDepth settings d).evaluate node h w₀).2.arena) ∧
    (∀ d node h w₀, Reaches settings depth program w ⟨d, .execute node, h, w₀⟩ →
      w₀.arena.Leaves h (node.declarations.map Node.boundName)
        ((Machine.atDepth settings d).execute node h w₀).2.arena) ∧
    (∀ d callee args position h w₀ c values w₁,
      Reaches settings depth program w ⟨d + 1, .evaluate (.call callee args position), h, w₀⟩ →
      (Machine.atDepth settings d).Calls settings callee args h w₀ c values w₁ →
      ∀ g, ¬ Encloses w₁.arena.parents g c.scope →
        ((Machine.atDepth settings (d + 1)).evaluate (.call callee args position) h w₀).2.arena.scopes[g]? =
          w₁.arena.scopes[g]?) ∧
    (runTo settings depth program w).2.Alone := by
  have hfit := hw.fits Arena.stable_kept Arena.kept_start
  refine ⟨fun d node h w₀ hm => ?_, fun d node h w₀ hm => ?_,
    fun d callee args position h w₀ c values w₁ hm hcall g hg => ?_, ?_⟩
  · have hfits := hm.fits Arena.stable_kept hfit
    exact evaluate_leaves hfits d node
  · have hfits := hm.fits Arena.stable_kept hfit
    exact execute_leaves hfits d node
  · have hfits := hm.fits Arena.stable_kept hfit
    obtain ⟨hafter, hscope⟩ := hcall.fit (Machine.atDepth_safe Arena.stable_kept settings d) (Nat.lt_succ_self _) hfits
    exact hcall.outside hafter.tidy hscope position hg
  · exact runTo_alone hfit.tidy hw.alone settings depth program

/-- A function without parameters that assigns to a variable around it. -/
def raiser : Closure :=
  ⟨"raise", [], none, .block [.assignment "flag" (.literal (.bool true) none) none] none, 0⟩

/-- A program that calls the function from a block with a variable of its own. -/
def raising : Node :=
  .program [.varDecl (some "Bool") "flag" .absent none,
    .function raiser.name raiser.params raiser.returns raiser.body none,
    .ifStmt (.literal (.bool true) none)
      (.block [.varDecl (some "Bool") "own" .absent none, .display (.call "raise" [] none) none] none) none] none

/-- The call leaves the scope of the block alone: it does not enclose the function. -/
theorem raising_stays_in_scope : ∃ w₀ w₁,
    Reaches ⟨0, 1⟩ 5 raising World.start ⟨3, .evaluate (.call "raise" [] none), 1, w₀⟩ ∧
    (Machine.atDepth ⟨0, 1⟩ 2).Calls ⟨0, 1⟩ "raise" [] 1 w₀ raiser [] w₁ ∧ ¬ Encloses w₁.arena.parents 1 raiser.scope ∧
    w₀.arena.Leaves 1 [] ((Machine.atDepth ⟨0, 1⟩ 3).evaluate (.call "raise" [] none) 1 w₀).2.arena ∧
    ((Machine.atDepth ⟨0, 1⟩ 3).evaluate (.call "raise" [] none) 1 w₀).2.arena.scopes[1]? = w₁.arena.scopes[1]? ∧
    (runTo ⟨0, 1⟩ 5 raising World.start).2.Alone := by
  have hreach : Reaches ⟨0, 1⟩ 5 raising World.start ⟨3, .evaluate (.call "raise" [] none), 1, _⟩ :=
    .part (.part (.statement rfl (.tail rfl (.tail rfl .head))) (.ifBody rfl rfl (.tail rfl .head))) .displayed
  obtain ⟨w₀, w₁, hm, hcall, hparents⟩ : ∃ w₀ w₁,
      Reaches ⟨0, 1⟩ 5 raising World.start ⟨3, .evaluate (.call "raise" [] none), 1, w₀⟩ ∧
      (Machine.atDepth ⟨0, 1⟩ 2).Calls ⟨0, 1⟩ "raise" [] 1 w₀ raiser [] w₁ ∧ w₁.arena.parents = [none, some 0] :=
    ⟨_, _, hreach, ⟨rfl, rfl, _, rfl, rfl⟩, rfl⟩
  have houtside : ¬ Encloses w₁.arena.parents 1 raiser.scope := by
    rw [hparents]
    rintro (_ | ⟨hp, -⟩)
    cases hp
  obtain ⟨hevaluate, -, hcalls, halone⟩ := running_stays_in_scope .start ⟨0, 1⟩ 5 raising
  exact ⟨w₀, w₁, hm, hcall, houtside, hevaluate _ _ _ _ hm, hcalls _ _ _ _ _ _ _ _ _ hm hcall 1 houtside, halone⟩

end TillLang.Eval
