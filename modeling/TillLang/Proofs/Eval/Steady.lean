/-
  TillLang.Proofs.Eval.Steady — what running leaves as it was.

  Whatever is evaluated or executed, checked or not, and however it ends: an expression leaves
  the frames of the arena as they are, and a statement adds to the frame it is executed in at most
  what it declares directly (`Machine.atDepth_steady`). Scopes that are opened on the way are gone
  again, so a declaration anywhere else is never seen.
-/

import TillLang.Proofs.Eval.Ends

namespace TillLang

open Success

namespace Eval

/-- The frames of a world are given ones with more names in one of them. -/
def Grown (fs : List Frame) (h : Nat) (os : List Outline) (w : World) : Prop :=
  w.arena.frames = extend fs h os ∧ Tidy (extend fs h os)

namespace Run

variable {α β : Type}

/-- A part of a run leaves the frames as they are. -/
def Keeps (m : Run α) (fs : List Frame) : Prop :=
  ∀ w : World, w.arena.frames = fs →
    m.Ends w (fun _ w' => w'.arena.frames = fs) (fun _ w' => w'.arena.frames = fs)

/-- A part of a run adds names to one frame: all of them, or only the first ones if it stops. -/
def Adds (m : Run α) (fs : List Frame) (h : Nat) (os : List Outline) : Prop :=
  ∀ w : World, w.arena.frames = fs →
    m.Ends w (fun _ w' => Grown fs h os w') (fun _ w' => ∃ ps, ps <+: os ∧ Grown fs h ps w')

/-- A part of a run adds some names to one frame. -/
def Grows (m : Run α) (fs : List Frame) (h : Nat) : Prop :=
  ∀ w : World, w.arena.frames = fs →
    m.Ends w (fun _ w' => ∃ ps, Grown fs h ps w') (fun _ w' => ∃ ps, Grown fs h ps w')

variable {m : Run α} {fs : List Frame} {h : Nat} {os ps : List Outline}

/-! ## Parts that leave the frames alone -/

theorem Keeps.pure (a : α) : (Run.pure a).Keeps fs := fun _ hw => hw

theorem Keeps.stop (cause : Stop) : (Run.stop cause : Run α).Keeps fs := fun _ hw => hw

theorem Keeps.fail (reason : Reason) (position : Option Position) :
    (Run.fail reason position : Run α).Keeps fs := fun _ hw => hw

theorem Keeps.bind {f : α → Run β} (hm : m.Keeps fs) (hf : ∀ a, (f a).Keeps fs) : (m >>= f).Keeps fs := by
  intro w hw
  rw [ends_bind]
  exact (hm w hw).mono (fun a w' hw' => hf a w' hw') fun _ _ hb => hb

/-- A read hands on what it has read in an arena with these frames. -/
theorem Keeps.readBind {g : Arena → Except Store.Fault α} {f : α → Run β}
    (hf : ∀ arena : Arena, arena.frames = fs → ∀ a, g arena = .ok a → (f a).Keeps fs) :
    (Run.read g >>= f).Keeps fs := by
  intro w hw
  rw [ends_bind, ends_read]
  cases hg : g w.arena with
  | error cause => exact hw
  | ok a => exact hf w.arena hw a hg w hw

theorem Keeps.read (g : Arena → Except Store.Fault α) : (Run.read g).Keeps fs := by
  intro w hw
  rw [ends_read]
  cases g w.arena with
  | error cause => exact hw
  | ok a => exact hw

theorem Keeps.log (line : String) : (Run.log line).Keeps fs :=
  fun _ hw => Ends.log fun _ hw' => (congrArg Arena.frames hw').trans hw

theorem Keeps.debug {level threshold : Nat} {line : Run String} (hline : line.Keeps fs) :
    (Run.debug level threshold line).Keeps fs := by
  unfold Run.debug
  by_cases ht : threshold ≤ level
  · rw [if_pos ht]
    exact hline.bind Keeps.log
  · rw [if_neg ht]
    exact Keeps.pure ()

theorem Keeps.display (shown : Json) : (Run.display shown).Keeps fs := fun _ hw => hw

theorem Keeps.set (ht : Tidy fs) (name : String) (v : Value) : (Run.write (·.set h name v)).Keeps fs := by
  intro w hw
  subst hw
  rw [ends_write]
  cases hset : w.arena.set h name v with
  | error cause => rfl
  | ok arena => exact Arena.set_frames ht hset

/-- A scope of its own leaves nothing behind. -/
theorem Keeps.inChild {parent : Nat} {body : Nat → Run α}
    (hbody : (body fs.length).Grows (fs ++ [⟨some parent, []⟩]) fs.length) : (Run.inChild parent body).Keeps fs := by
  intro w hw
  subst hw
  rw [ends_inChild]
  refine (hbody _ (Arena.frames_push parent)).mono (fun _ w' hw' => ?_) fun _ w' hw' => ?_
  all_goals
    obtain ⟨ps, hps, -⟩ := hw'
    rw [Arena.frames_release, hps, take_extend_append]

theorem Keeps.loop {condition : Run Bool} {body : Run Unit} (hcond : condition.Keeps fs) (hbody : body.Keeps fs)
    (rounds : Nat) : (Machine.loop condition body rounds).Keeps fs :=
  Machine.ends_loop (I := fun w => w.arena.frames = fs) hcond hbody (fun _ hw => hw) rounds

/-! ## Parts that add names -/

theorem Keeps.adds (hm : m.Keeps fs) (ht : Tidy fs) : m.Adds fs h [] := by
  intro w hw
  have hgrown : ∀ w' : World, w'.arena.frames = fs → Grown fs h [] w' := by
    intro w' hw'
    unfold Grown
    rw [extend_nil]
    exact ⟨hw', ht⟩
  exact (hm w hw).mono (fun _ w' hw' => hgrown w' hw') fun _ w' hw' => ⟨[], List.nil_prefix, hgrown w' hw'⟩

theorem Adds.grows (hm : m.Adds fs h os) : m.Grows fs h :=
  fun w hw => (hm w hw).mono (fun _ _ hw' => ⟨os, hw'⟩) fun _ _ ⟨ps, _, hw'⟩ => ⟨ps, hw'⟩

theorem Adds.bind {f : α → Run β} (hm : m.Adds fs h os)
    (hf : Tidy (extend fs h os) → ∀ a, (f a).Adds (extend fs h os) h ps) : (m >>= f).Adds fs h (os ++ ps) := by
  intro w hw
  rw [ends_bind]
  refine (hm w hw).mono (fun a w₁ hw₁ => ?_) fun _ w₁ hw₁ => ?_
  · refine (hf hw₁.2 a w₁ hw₁.1).mono (fun _ w₂ hw₂ => ?_) fun _ w₂ hw₂ => ?_
    · rwa [Grown, extend_extend] at hw₂
    · obtain ⟨qs, hqs, hw₂⟩ := hw₂
      rw [Grown, extend_extend] at hw₂
      exact ⟨os ++ qs, (List.prefix_append_right_inj os).mpr hqs, hw₂⟩
  · obtain ⟨qs, hqs, hw₁⟩ := hw₁
    exact ⟨qs, hqs.trans (List.prefix_append os ps), hw₁⟩

theorem Adds.bindKeeps {f : α → Run β} (hm : m.Adds fs h os)
    (hf : Tidy (extend fs h os) → ∀ a, (f a).Keeps (extend fs h os)) : (m >>= f).Adds fs h os := by
  have hbind := hm.bind fun ht a => (hf ht a).adds (h := h) ht
  rwa [List.append_nil] at hbind

theorem Keeps.bindAdds {f : α → Run β} (hm : m.Keeps fs) (ht : Tidy fs) (hf : ∀ a, (f a).Adds fs h os) :
    (m >>= f).Adds fs h os :=
  (hm.adds ht).bind fun _ a => (extend_nil fs h).symm ▸ hf a

theorem Grows.bind {f : α → Run β} (hm : m.Grows fs h)
    (hf : ∀ ps, Tidy (extend fs h ps) → ∀ a, (f a).Grows (extend fs h ps) h) : (m >>= f).Grows fs h := by
  intro w hw
  rw [ends_bind]
  refine (hm w hw).mono (fun a w₁ hw₁ => ?_) fun _ _ hb => hb
  obtain ⟨ps, hw₁⟩ := hw₁
  refine (hf ps hw₁.2 a w₁ hw₁.1).mono (fun _ w₂ hw₂ => ?_) fun _ w₂ hw₂ => ?_
  all_goals
    obtain ⟨qs, hw₂⟩ := hw₂
    rw [Grown, extend_extend] at hw₂
    exact ⟨ps ++ qs, hw₂⟩

theorem Grows.catchReturn {m : Run Unit} (hm : m.Grows fs h) : (Run.catchReturn m).Grows fs h := by
  intro w hw
  rw [ends_catchReturn]
  refine (hm w hw).mono (fun _ _ hw' => hw') fun cause w' hw' => ?_
  cases cause <;> exact hw'

theorem Adds.declare (ht : Tidy fs) (name : String) (type : Option String) (v : Value) :
    (Run.write (·.declare h name type v)).Adds fs h [⟨name, some type, none⟩] := by
  intro w hw
  subst hw
  rw [ends_write]
  cases hd : w.arena.declare h name type v with
  | error cause => exact ⟨[], List.nil_prefix, (extend_nil _ h).symm, (extend_nil _ h).symm ▸ ht⟩
  | ok arena =>
    obtain ⟨hframes, htidy⟩ := Arena.declare_frames ht hd
    exact ⟨hframes, hframes ▸ htidy⟩

theorem Adds.declareFunction (ht : Tidy fs) (name : String) {c : Closure} (hc : c.scope = h) :
    (Run.write (·.declareFunction h name c)).Adds fs h [⟨name, some none, some c⟩] := by
  intro w hw
  subst hw
  rw [ends_write]
  cases hd : w.arena.declareFunction h name c with
  | error cause => exact ⟨[], List.nil_prefix, (extend_nil _ h).symm, (extend_nil _ h).symm ▸ ht⟩
  | ok arena =>
    obtain ⟨hframes, htidy⟩ := Arena.declareFunction_frames ht hc hd
    exact ⟨hframes, hframes ▸ htidy⟩

end Run

/-! ## The machine -/

/-- A machine leaves the frames alone but for what statements declare. -/
structure Machine.Steady (m : Machine) : Prop where
  evaluate : ∀ {fs : List Frame} {h : Nat}, Tidy fs → h < fs.length → ∀ node, (m.evaluate node h).Keeps fs
  execute : ∀ {fs : List Frame} {h : Nat}, Tidy fs → h < fs.length → ∀ node,
    (m.execute node h).Adds fs h (node.outlines h)

theorem applyUnary_keeps (fs : List Frame) (op : String) (v : Value) (position : Option Position) :
    (applyUnary op v position).Keeps fs := by
  unfold applyUnary
  repeat' split
  all_goals first | exact .pure _ | exact .fail _ _

theorem applyBinary_keeps (fs : List Frame) (op : String) (v v' : Value) (position : Option Position) :
    (applyBinary op v v' position).Keeps fs := by
  unfold applyBinary applyArithmetic
  repeat' split
  all_goals first | exact .pure _ | exact .fail _ _

theorem joinShown_keeps (fs : List Frame) (index : Nat) (shown : List Json) : (joinShown index shown).Keeps fs := by
  induction shown generalizing index with
  | nil => exact .pure _
  | cons j rest ih =>
    cases j with
    | str s => exact (ih (index + 1)).bind fun _ => .pure _
    | _ => exact .stop _

namespace Machine

variable {m : Machine} {fs : List Frame} {h : Nat}

theorem exhausted_steady : exhausted.Steady where
  evaluate _ _ _ := .stop _
  execute ht _ _ := fun _ hw =>
    ⟨[], List.nil_prefix, hw.trans (extend_nil _ _).symm, (extend_nil _ _).symm ▸ ht⟩

theorem Steady.evaluateAll (hm : m.Steady) (ht : Tidy fs) (hh : h < fs.length) (nodes : List Node) :
    (m.evaluateAll h nodes).Keeps fs := by
  induction nodes with
  | nil => exact .pure _
  | cons node rest ih => exact (hm.evaluate ht hh node).bind fun _ => ih.bind fun _ => .pure _

theorem Steady.executeAll (hm : m.Steady) (ht : Tidy fs) (hh : h < fs.length) (nodes : List Node) :
    (m.executeAll h nodes).Adds fs h (nodes.flatMap (Node.outlines h)) := by
  induction nodes generalizing fs with
  | nil => exact (Run.Keeps.pure ()).adds ht
  | cons node rest ih =>
    rw [List.flatMap_cons]
    refine (hm.execute ht hh node).bind fun ht' _ => ih ht' ?_
    rwa [length_extend]

theorem Steady.executeBlock (hm : m.Steady) (ht : Tidy fs) (hh : h < fs.length) (body : Node) :
    (m.executeBlock body h).Grows fs h := by
  unfold Machine.executeBlock
  cases body.statements? with
  | none => exact ((Run.Keeps.stop _).adds ht).grows
  | some statements => exact (hm.executeAll ht hh statements).grows

/-- The arguments of a call are bound to its parameters, in order. -/
theorem bindParams_adds (ht : Tidy fs) (params : List Node) (args : List Value) (hlen : args.length = params.length) :
    (bindParams h params args).Adds fs h (params.map (Node.outline h)) := by
  induction params generalizing fs args with
  | nil =>
    cases args with
    | nil => exact (Run.Keeps.pure ()).adds ht
    | cons => cases hlen
  | cons param params ih =>
    cases args with
    | nil => cases hlen
    | cons arg args =>
      unfold bindParams
      rw [List.map_cons]
      cases hd : param.declared? with
      | none => exact fun w hw => ⟨[], List.nil_prefix, hw.trans (extend_nil _ _).symm, (extend_nil _ _).symm ▸ ht⟩
      | some declared =>
        have hparam :
          (Run.write (·.declare h declared.2 declared.1 arg)).Adds fs h [⟨declared.2, some declared.1, none⟩] :=
          .declare ht _ _ _
        rw [Node.outline_of_declared hd]
        exact hparam.bind fun ht' _ => ih ht' args (Nat.succ.inj hlen)

theorem Steady.call (hm : m.Steady) (ht : Tidy fs) (settings : Settings) (callee : String) {function : Value}
    (hf : ∀ c, function = .function c → c.scope < fs.length) (args : List Value) (position : Option Position) :
    (m.call settings callee function args position).Keeps fs := by
  unfold Machine.call
  cases function with
  | function c =>
    simp only
    by_cases hlen : args.length = c.params.length
    · rw [if_neg (not_not.mpr hlen)]
      refine (Run.Keeps.debug ((joinShown_keeps fs 0 _).bind fun _ => .pure _)).bind fun _ => ?_
      refine Run.Keeps.bind (.inChild ?_) fun value => ?_
      · have htidy := ht.push (hf c rfl)
        refine (bindParams_adds htidy c.params args hlen).grows.bind fun ps ht' _ => ?_
        exact (hm.executeBlock ht' (by simp) c.body).catchReturn
      · unfold resultOf
        repeat' split
        all_goals first | exact .pure _ | exact .fail _ _
    · rw [if_pos hlen]
      exact .fail _ _
  | _ => exact .fail _ _

theorem Steady.foldJoints (hm : m.Steady) (ht : Tidy fs) (hh : h < fs.length) (value : Value) (joints : List Joint) :
    (m.foldJoints h value joints).Keeps fs := by
  induction joints generalizing value with
  | nil => exact .pure _
  | cons joint rest ih =>
    exact (hm.evaluate ht hh joint.right).bind fun _ => (applyBinary_keeps fs _ _ _ _).bind fun v => ih v

theorem Steady.evaluateNode (hm : m.Steady) (ht : Tidy fs) (hh : h < fs.length) (settings : Settings) (node : Node) :
    (m.evaluateNode settings node h).Keeps fs := by
  unfold Machine.evaluateNode
  cases node with
  | literal value position => exact .pure _
  | identifier name position =>
    refine (Run.Keeps.read _).bind fun value => ?_
    cases value <;> first | exact .fail _ _ | exact .pure _
  | unary op operand position => exact (hm.evaluate ht hh operand).bind fun _ => applyUnary_keeps fs _ _ _
  | binary op left right position =>
    exact (hm.evaluate ht hh _).bind fun _ => hm.foldJoints ht hh _ _
  | call callee args position =>
    refine .readBind fun arena harena function hget => (hm.evaluateAll ht hh args).bind fun values => ?_
    refine hm.call ht settings callee (fun c hc => ?_) values position
    subst harena hc
    obtain ⟨f, o, hframe, -⟩ := Arena.closure_of_get ht hget
    exact (List.getElem?_eq_some_iff.mp hframe).1
  | _ => exact .stop _

theorem Steady.loggedCondition (hm : m.Steady) (ht : Tidy fs) (hh : h < fs.length) (settings : Settings)
    (keyword : String) (node : Node) : (m.loggedCondition settings keyword node h).Keeps fs := by
  refine Run.Keeps.bind ?_ fun holds => (Run.Keeps.debug (.pure _)).bind fun _ => .pure _
  refine (hm.evaluate ht hh node).bind fun value => ?_
  cases value <;> first | exact .fail _ _ | exact .pure _

theorem Steady.evaluateOr (hm : m.Steady) (ht : Tidy fs) (hh : h < fs.length) (missing : Value) (node : Node) :
    (m.evaluateOr missing node h).Keeps fs := by
  unfold Machine.evaluateOr
  by_cases ha : node.isAbsent
  · rw [if_pos ha]
    exact .pure _
  · rw [if_neg ha]
    exact hm.evaluate ht hh node

theorem Steady.inChild (hm : m.Steady) (ht : Tidy fs) (hh : h < fs.length) (body : Node) :
    (Run.inChild h (m.executeBlock body)).Keeps fs :=
  .inChild (hm.executeBlock (ht.push hh) (by simp) body)

theorem Steady.executeNode (hm : m.Steady) (ht : Tidy fs) (hh : h < fs.length) (settings : Settings) (node : Node) :
    (m.executeNode settings node h).Adds fs h (node.outlines h) := by
  unfold Machine.executeNode
  cases node with
  | varDecl type name initializer position =>
    refine (hm.evaluateOr ht hh .none initializer).bindAdds ht fun v => ?_
    exact (Run.Adds.declare ht name type v).bindKeeps fun _ _ => .debug ((Run.Keeps.read _).bind fun _ => .pure _)
  | assignment name value position =>
    refine Run.Keeps.adds ?_ ht
    exact (hm.evaluate ht hh value).bind fun v => (Run.Keeps.set ht name v).bind fun _ => .debug (.pure _)
  | function name params returns body position =>
    refine Run.Adds.bindKeeps ?_ fun _ _ => .debug (.pure _)
    exact Run.Adds.declareFunction (c := ⟨name, params, returns, body, h⟩) ht name rfl
  | ifStmt condition body position =>
    refine Run.Keeps.adds ((hm.loggedCondition ht hh settings "if" condition).bind fun holds => ?_) ht
    cases holds with
    | true => exact hm.inChild ht hh body
    | false => exact .pure ()
  | whileStmt condition body position =>
    exact (Run.Keeps.loop (hm.loggedCondition ht hh settings "while" condition) (hm.inChild ht hh body) _).adds ht
  | returnStmt value position =>
    exact Run.Keeps.adds ((hm.evaluateOr ht hh .unit value).bind fun _ => .stop _) ht
  | display value position =>
    refine Run.Keeps.adds ((hm.evaluate ht hh value).bind fun v => ?_) ht
    exact (Run.Keeps.debug (.pure _)).bind fun _ => .display _
  | _ => exact (Run.Keeps.stop _).adds ht

/-- Running leaves the frames as they were but for what statements declare. -/
theorem atDepth_steady (settings : Settings) (depth : Nat) : (atDepth settings depth).Steady := by
  induction depth with
  | zero => exact exhausted_steady
  | succ depth ih =>
    exact ⟨fun ht hh node => ih.evaluateNode ht hh settings node, fun ht hh node => ih.executeNode ht hh settings node⟩

end Machine

end Eval

end TillLang
