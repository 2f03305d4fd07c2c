/-
  TillLang.Proofs.Eval.Invariant — what every run keeps.

  A world fits a number of scopes if its arena is tidy, has that many scopes at least, and
  satisfies an invariant that every access to the arena keeps. Whatever a machine carries out in
  one of those scopes, checked or not and however it ends, leaves the world fit for as many
  scopes, and never for want of a scope or of an entry in one (`Machine.atDepth_safe`).

  So the moments of a run are fit: first what one part keeps (`Moment.Part.fits`), then what
  all of them do (`Reaches.fits`), and over one run after another (`Session.fits`). For the
  invariant of the store this is `store_stays_sound`.
-/

import TillLang.Proofs.Eval.Moment
import TillLang.Proofs.Store.Sound

namespace TillLang

namespace Eval

/-- The arena of a world is tidy, has `n` scopes at least and satisfies an invariant. -/
structure World.Fit (I : Arena → Prop) (n : Nat) (w : World) : Prop where
  tidy : Tidy w.arena.frames
  room : n ≤ w.arena.frames.length
  inv : I w.arena

theorem World.Fit.le {I : Arena → Prop} {n k : Nat} {w : World} (h : w.Fit I n) (hk : k ≤ n) : w.Fit I k :=
  ⟨h.tidy, Nat.le_trans hk h.room, h.inv⟩

theorem World.Fit.congr {I : Arena → Prop} {n : Nat} {w w' : World} (h : w.Fit I n) (ha : w'.arena = w.arena) :
    w'.Fit I n :=
  ⟨ha ▸ h.tidy, ha ▸ h.room, ha ▸ h.inv⟩

/-- A cause that only a broken arena has: a handle names no scope, or a name has no entry in a map that it is
looked up in. -/
def Stop.Broken : Stop → Prop
  | .noScope | .missingKey _ => True
  | _ => False

namespace Run

/-- A part of a run leaves a world as fit as it was, and does not stop for a broken arena. -/
def Safe {α : Type} (I : Arena → Prop) (n : Nat) (m : Run α) : Prop :=
  ∀ w : World, w.Fit I n → m.Ends w (fun _ w' => w'.Fit I n) fun cause w' => ¬ cause.Broken ∧ w'.Fit I n

variable {α β : Type} {I : Arena → Prop} {n h : Nat} {m : Run α}

theorem Safe.pure (a : α) : (Run.pure a).Safe I n := fun _ hw => hw

theorem Safe.stop {cause : Stop} (hc : ¬ cause.Broken) : (Run.stop cause : Run α).Safe I n := fun _ hw => ⟨hc, hw⟩

theorem Safe.fail (reason : Reason) (position : Option Position) : (Run.fail reason position : Run α).Safe I n :=
  Safe.stop id

theorem Safe.bind {f : α → Run β} (hm : m.Safe I n) (hf : ∀ a, (f a).Safe I n) : (m >>= f).Safe I n := by
  intro w hw
  rw [ends_bind]
  exact (hm w hw).mono (fun a w' hw' => hf a w' hw') fun _ _ hb => hb

theorem not_broken_storeStop {cause : Store.Fault} (h : ¬ cause.Broken) : ¬ (storeStop cause).Broken := by
  cases cause <;> first | exact id | exact h

theorem Safe.log (line : String) : (Run.log line).Safe I n := fun _ hw => Ends.log fun _ hw' => hw.congr hw'

theorem Safe.debug {level threshold : Nat} {line : Run String} (hline : line.Safe I n) :
    (Run.debug level threshold line).Safe I n := by
  unfold Run.debug
  by_cases ht : threshold ≤ level
  · rw [if_pos ht]
    exact hline.bind Safe.log
  · rw [if_neg ht]
    exact Safe.pure ()

theorem Safe.display (shown : Json) : (Run.display shown).Safe I n := fun _ hw => hw.congr rfl

/-- Reading a name from a scope that is there. -/
theorem Safe.get (hh : h < n) (name : String) : (Run.read (·.get h name)).Safe I n := by
  intro w hw
  rw [ends_read]
  cases hget : w.arena.get h name with
  | ok v => exact hw
  | error cause =>
    exact ⟨not_broken_storeStop (Arena.not_broken_of_get hw.tidy (Nat.lt_of_lt_of_le hh hw.room) hget), hw⟩

theorem Safe.set (hI : Arena.Stable I) (hh : h < n) (name : String) (v : Value) :
    (Run.write (·.set h name v)).Safe I n := by
  intro w hw
  rw [ends_write]
  cases hset : w.arena.set h name v with
  | ok arena =>
    have hframes := Arena.set_frames hw.tidy hset
    exact ⟨hframes ▸ hw.tidy, hframes ▸ hw.room, hI.set hw.inv hset⟩
  | error cause =>
    exact ⟨not_broken_storeStop (Arena.not_broken_of_set hw.tidy (Nat.lt_of_lt_of_le hh hw.room) hset), hw⟩

theorem Safe.declare (hI : Arena.Stable I) (hh : h < n) (name : String) (type : Option String) (v : Value) :
    (Run.write (·.declare h name type v)).Safe I n := by
  intro w hw
  rw [ends_write]
  cases hd : w.arena.declare h name type v with
  | ok arena =>
    obtain ⟨hframes, htidy⟩ := Arena.declare_frames hw.tidy hd
    refine ⟨htidy, ?_, hI.declare hw.inv hd⟩
    rw [hframes, length_extend]
    exact hw.room
  | error cause =>
    exact ⟨not_broken_storeStop (Arena.not_broken_of_declare (Nat.lt_of_lt_of_le hh hw.room) hd), hw⟩

theorem Safe.declareFunction (hI : Arena.Stable I) (hh : h < n) (name : String) {c : Closure} (hc : c.scope = h) :
    (Run.write (·.declareFunction h name c)).Safe I n := by
  intro w hw
  rw [ends_write]
  cases hd : w.arena.declareFunction h name c with
  | ok arena =>
    obtain ⟨hframes, htidy⟩ := Arena.declareFunction_frames hw.tidy hc hd
    refine ⟨htidy, ?_, hI.declareFunction hw.inv hd⟩
    rw [hframes, length_extend]
    exact hw.room
  | error cause =>
    exact ⟨not_broken_storeStop (Arena.not_broken_of_declareFunction (Nat.lt_of_lt_of_le hh hw.room) hd), hw⟩

end Run

section Scopes

variable {I : Arena → Prop} {n p : Nat} {w : World}

theorem World.next_eq (w : World) : w.next = w.arena.frames.length := by simp [World.next, Arena.frames]

theorem World.Fit.enter (hI : Arena.Stable I) (hw : w.Fit I n) (hp : p < w.next) : (w.enter p).Fit I (w.next + 1) where
  tidy := by
    rw [World.enter, Arena.frames_push]
    exact hw.tidy.push (w.next_eq ▸ hp)
  room := by
    rw [World.enter, Arena.frames_push, w.next_eq]
    simp
  inv := hI.push p hw.inv

/-- The last of the scopes that a world is fit for is there. -/
theorem World.Fit.inside (hw : w.Fit I (n + 1)) : n < w.next := by
  rw [w.next_eq]
  exact hw.room

theorem World.Fit.release (hI : Arena.Stable I) (hw : w.Fit I n) : { w with arena := w.arena.release n }.Fit I n where
  tidy := by
    rw [Arena.frames_release]
    exact hw.tidy.take n
  room := by
    rw [Arena.frames_release, List.length_take]
    have := hw.room
    omega
  inv := hI.release n hw.inv

/-- A scope of its own: the part has to be safe there, whatever the handle. -/
theorem Run.Safe.inChild {α : Type} (hI : Arena.Stable I) (hp : p < n) {body : Nat → Run α}
    (hbody : ∀ k, n ≤ k → (body k).Safe I (k + 1)) : (Run.inChild p body).Safe I n := by
  intro w hw
  rw [Run.ends_inChild, ← w.next_eq]
  have hle : n ≤ w.next := w.next_eq ▸ hw.room
  have hinner : (w.enter p).Fit I (w.next + 1) := hw.enter hI (Nat.lt_of_lt_of_le hp hle)
  refine (hbody w.next hle _ hinner).mono (fun _ w' hw' => ?_) fun _ w' hw' => ⟨hw'.1, ?_⟩
  · exact ((hw'.le (Nat.le_succ _)).release hI).le hle
  · exact ((hw'.2.le (Nat.le_succ _)).release hI).le hle

theorem Run.Safe.catchReturn {m : Run Unit} (hm : m.Safe I n) : (Run.catchReturn m).Safe I n := by
  intro w hw
  rw [Run.ends_catchReturn]
  refine (hm w hw).mono (fun _ _ hw' => hw') fun cause w' hw' => ?_
  cases cause <;> first | exact hw'.2 | exact hw'

theorem Run.Safe.loop {condition : Run Bool} {body : Run Unit} (hcond : condition.Safe I n) (hbody : body.Safe I n)
    (rounds : Nat) : (Machine.loop condition body rounds).Safe I n :=
  Machine.ends_loop (I := fun w => w.Fit I n) hcond hbody (fun _ hw => ⟨id, hw⟩) rounds

end Scopes

/-! ## The machine -/

variable {I : Arena → Prop} {n h : Nat}

theorem applyUnary_safe (op : String) (v : Value) (position : Option Position) :
    (applyUnary op v position).Safe I n := by
  unfold applyUnary
  repeat' split
  all_goals first | exact .pure _ | exact .fail _ _

theorem applyBinary_safe (op : String) (v v' : Value) (position : Option Position) :
    (applyBinary op v v' position).Safe I n := by
  unfold applyBinary applyArithmetic
  repeat' split
  all_goals first | exact .pure _ | exact .fail _ _

theorem joinShown_safe (index : Nat) (shown : List Json) : (joinShown index shown).Safe I n := by
  induction shown generalizing index with
  | nil => exact .pure _
  | cons j rest ih =>
    cases j with
    | str s => exact (ih (index + 1)).bind fun _ => .pure _
    | _ => exact .stop id

namespace Machine

/-- A machine is safe in every scope that is there. -/
structure Safe (I : Arena → Prop) (m : Machine) : Prop where
  evaluate : ∀ {n h : Nat}, h < n → ∀ node, (m.evaluate node h).Safe I n
  execute : ∀ {n h : Nat}, h < n → ∀ node, (m.execute node h).Safe I n

variable {m : Machine}

theorem exhausted_safe : exhausted.Safe I where
  evaluate _ _ := .stop id
  execute _ _ := .stop id

theorem Safe.evaluateAll (hm : m.Safe I) (hh : h < n) (nodes : List Node) : (m.evaluateAll h nodes).Safe I n := by
  induction nodes with
  | nil => exact .pure _
  | cons node rest ih => exact (hm.evaluate hh node).bind fun _ => ih.bind fun _ => .pure _

theorem Safe.executeAll (hm : m.Safe I) (hh : h < n) (nodes : List Node) : (m.executeAll h nodes).Safe I n := by
  induction nodes with
  | nil => exact .pure _
  | cons node rest ih => exact (hm.execute hh node).bind fun _ => ih

theorem Safe.executeBlock (hm : m.Safe I) (hh : h < n) (body : Node) : (m.executeBlock body h).Safe I n := by
  unfold Machine.executeBlock
  cases body.statements? with
  | none => exact .stop id
  | some statements => exact hm.executeAll hh statements

theorem Safe.foldJoints (hm : m.Safe I) (hh : h < n) (value : Value) (joints : List Joint) :
    (m.foldJoints h value joints).Safe I n := by
  induction joints generalizing value with
  | nil => exact .pure _
  | cons joint rest ih =>
    exact (hm.evaluate hh joint.right).bind fun _ => (applyBinary_safe _ _ _ _).bind fun v => ih v

theorem bindParams_safe (hI : Arena.Stable I) (hh : h < n) (params : List Node) (args : List Value) :
    (bindParams h params args).Safe I n := by
  induction params generalizing args with
  | nil => exact .pure _
  | cons param params ih =>
    cases args with
    | nil => exact .pure _
    | cons arg args =>
      unfold bindParams
      cases param.declared? with
      | none => exact .stop id
      | some declared => exact (Run.Safe.declare hI hh _ _ _).bind fun _ => ih args

theorem logCall_safe (settings : Settings) (c : Closure) (args : List Value) : (logCall settings c args).Safe I n :=
  .debug ((joinShown_safe 0 _).bind fun _ => .pure _)

theorem Safe.call (hm : m.Safe I) (hI : Arena.Stable I) (settings : Settings) (callee : String) {function : Value}
    (hf : ∀ c, function = .function c → c.scope < n) (args : List Value) (position : Option Position) :
    (m.call settings callee function args position).Safe I n := by
  unfold Machine.call
  cases function with
  | function c =>
    simp only
    by_cases hlen : args.length = c.params.length
    · rw [if_neg (not_not.mpr hlen)]
      refine (logCall_safe settings c args).bind fun _ => ?_
      refine Run.Safe.bind (.inChild hI (hf c rfl) fun k _ => ?_) fun value => ?_
      · refine (bindParams_safe hI (Nat.lt_succ_self k) c.params args).bind fun _ => ?_
        exact (hm.executeBlock (Nat.lt_succ_self k) c.body).catchReturn
      · unfold resultOf
        repeat' split
        all_goals first | exact .pure _ | exact .fail _ _
    · rw [if_pos hlen]
      exact .fail _ _
  | _ => exact .fail _ _

/-- A function that was read is called from worlds that still have its scope: the arguments are
evaluated in between. -/
theorem Safe.evaluateCall (hm : m.Safe I) (hI : Arena.Stable I) (settings : Settings) (hh : h < n) (callee : String)
    (args : List Node) (position : Option Position) :
    (m.evaluateNode settings (.call callee args position) h).Safe I n := by
  intro w hw
  show (Run.read (·.get h callee) >>= fun function => m.evaluateAll h args >>= fun values =>
    m.call settings callee function values position).Ends w _ _
  rw [Run.ends_bind, Run.ends_read]
  have hinside : h < w.arena.frames.length := Nat.lt_of_lt_of_le hh hw.room
  cases hget : w.arena.get h callee with
  | error cause =>
    exact ⟨Run.not_broken_storeStop (Arena.not_broken_of_get hw.tidy hinside hget), hw⟩
  | ok function =>
    have hall : (m.evaluateAll h args >>= fun values => m.call settings callee function values position).Safe I
        w.arena.frames.length := by
      refine (hm.evaluateAll hinside args).bind fun values =>
        hm.call hI settings callee (fun c hc => ?_) values position
      obtain ⟨f, o, hframe, -⟩ := Arena.closure_of_get hw.tidy (hc ▸ hget)
      exact (List.getElem?_eq_some_iff.mp hframe).1
    refine (hall w ⟨hw.tidy, Nat.le_refl _, hw.inv⟩).mono (fun _ _ hw' => hw'.le hw.room) fun _ _ hw' => ?_
    exact ⟨hw'.1, hw'.2.le hw.room⟩

theorem Safe.evaluateNode (hm : m.Safe I) (hI : Arena.Stable I) (settings : Settings) (hh : h < n) (node : Node) :
    (m.evaluateNode settings node h).Safe I n := by
  cases node with
  | call callee args position => exact hm.evaluateCall hI settings hh callee args position
  | literal value position => exact .pure _
  | identifier name position =>
    refine (Run.Safe.get hh name).bind fun value => ?_
    cases value <;> first | exact .fail _ _ | exact .pure _
  | unary op operand position => exact (hm.evaluate hh operand).bind fun _ => applyUnary_safe _ _ _
  | binary op left right position => exact (hm.evaluate hh _).bind fun _ => hm.foldJoints hh _ _
  | _ => exact .stop id

theorem Safe.loggedCondition (hm : m.Safe I) (settings : Settings) (hh : h < n) (keyword : String) (node : Node) :
    (m.loggedCondition settings keyword node h).Safe I n := by
  refine Run.Safe.bind ?_ fun holds => (Run.Safe.debug (.pure _)).bind fun _ => .pure _
  refine (hm.evaluate hh node).bind fun value => ?_
  cases value <;> first | exact .fail _ _ | exact .pure _

theorem Safe.evaluateOr (hm : m.Safe I) (hh : h < n) (missing : Value) (node : Node) :
    (m.evaluateOr missing node h).Safe I n := by
  unfold Machine.evaluateOr
  by_cases ha : node.isAbsent
  · rw [if_pos ha]
    exact .pure _
  · rw [if_neg ha]
    exact hm.evaluate hh node

theorem Safe.block (hm : m.Safe I) (hI : Arena.Stable I) (hh : h < n) (body : Node) :
    (Run.inChild h (m.executeBlock body)).Safe I n :=
  .inChild hI hh fun k _ => hm.executeBlock (Nat.lt_succ_self k) body

theorem Safe.executeNode (hm : m.Safe I) (hI : Arena.Stable I) (settings : Settings) (hh : h < n) (node : Node) :
    (m.executeNode settings node h).Safe I n := by
  cases node with
  | varDecl type name initializer position =>
    refine (hm.evaluateOr hh .none initializer).bind fun v => (Run.Safe.declare hI hh name type v).bind fun _ => ?_
    exact .debug ((Run.Safe.get hh name).bind fun _ => .pure _)
  | assignment name value position =>
    exact (hm.evaluate hh value).bind fun v => (Run.Safe.set hI hh name v).bind fun _ => .debug (.pure _)
  | function name params returns body position =>
    have hc : (Closure.mk name params returns body h).scope = h := rfl
    exact (Run.Safe.declareFunction hI hh name hc).bind fun _ => .debug (.pure _)
  | ifStmt condition body position =>
    refine (hm.loggedCondition settings hh "if" condition).bind fun holds => ?_
    cases holds with
    | true => exact hm.block hI hh body
    | false => exact .pure ()
  | whileStmt condition body position =>
    exact .loop (hm.loggedCondition settings hh "while" condition) (hm.block hI hh body) _
  | returnStmt value position => exact (hm.evaluateOr hh .unit value).bind fun _ => .stop id
  | display value position =>
    exact (hm.evaluate hh value).bind fun v => (Run.Safe.debug (.pure _)).bind fun _ => .display _
  | _ => exact .stop id

theorem atDepth_safe (hI : Arena.Stable I) (settings : Settings) (depth : Nat) : (atDepth settings depth).Safe I := by
  induction depth with
  | zero => exact exhausted_safe
  | succ depth ih =>
      exact ⟨fun hh node => ih.evaluateNode hI settings hh node,
        fun hh node => ih.executeNode hI settings hh node⟩

end Machine

/-! ## Moments -/

section Moments

variable {α : Type} {w w' : World} {m : Machine}

/-- What is safe leads from fit worlds to fit worlds. -/
theorem Run.Safe.preserves {m : Run α} (hm : m.Safe I n) : m.Preserves (·.Fit I n) :=
  fun w _ _ hw h => (hm w hw).of_ok h

/-- Where a call enters the scope of its function, that scope is there. -/
theorem Machine.Calls.fit (hm : m.Safe I) {settings : Settings} {callee : String} {args : List Node} {c : Closure}
    {values : List Value} (hcall : m.Calls settings callee args h w c values w') (hh : h < n) (hw : w.Fit I n) :
    w'.Fit I n ∧ c.scope < w'.next := by
  obtain ⟨hget, -, w₁, hargs, hlog⟩ := hcall
  have hinside : h < w.arena.frames.length := Nat.lt_of_lt_of_le hh hw.room
  have hfit : w'.Fit I w.arena.frames.length := by
    refine (logCall_safe settings c values).preserves ?_ hlog
    exact (hm.evaluateAll hinside args).preserves ⟨hw.tidy, Nat.le_refl _, hw.inv⟩ hargs
  obtain ⟨f, o, hframe, -⟩ := Arena.closure_of_get hw.tidy hget
  have hscope := (List.getElem?_eq_some_iff.mp hframe).1
  refine ⟨hfit.le hw.room, ?_⟩
  rw [w'.next_eq]
  exact Nat.lt_of_lt_of_le hscope hfit.room

/-- The scope of a moment is there, and its world satisfies an invariant. -/
def Moment.Fits (I : Arena → Prop) (m : Moment) : Prop := m.world.Fit I (m.scope + 1)

/-- What the machine leads to from a fit moment is fit. -/
theorem Moment.Part.fits (hI : Arena.Stable I) {settings : Settings} {m m' : Moment} (hpart : m.Part settings m')
    (hm : m.Fits I) : m'.Fits I := by
  have hsafe := fun d => Machine.atDepth_safe hI settings d
  cases hpart with
  | operand | first | initializer | assigned | returned | displayed | ifCondition => exact hm
  | joint hfirst hjoint =>
    have hfit := ((hsafe _).evaluate (Nat.lt_succ_self _) _).preserves hm hfirst
    exact (hjoint.preserves (fun _ _ => ((hsafe _).evaluate (Nat.lt_succ_self _) _).preserves)
      (fun _ _ _ _ => (applyBinary_safe _ _ _ _).preserves) hfit).2
  | argument _ hargs =>
    exact (hargs.preserves (fun x _ => ((hsafe _).evaluate (Nat.lt_succ_self _) x).preserves) hm).2
  | parameters hcall =>
    obtain ⟨hfit, hscope⟩ := hcall.fit (hsafe _) (Nat.lt_succ_self _) hm
    exact hfit.enter hI hscope
  | @parameter d h w arena _ _ arg _ type name _ hdeclare =>
    have hwrite : Run.write (·.declare h name type arg) w = (.ok (), { w with arena }) := by
      simp only [Run.write, hdeclare]
    exact (Run.Safe.declare hI (Nat.lt_succ_self h) name type arg).preserves hm hwrite
  | body hcall hbind _ hx =>
    obtain ⟨hfit, hscope⟩ := hcall.fit (hsafe _) (Nat.lt_succ_self _) hm
    have hbound := (Machine.bindParams_safe hI (Nat.lt_succ_self _) _ _).preserves (hfit.enter hI hscope) hbind
    exact (hx.preserves (fun x _ => ((hsafe _).execute (Nat.lt_succ_self _) x).preserves) hbound).2
  | ifBody hcond _ hx =>
    have hfit := ((hsafe _).loggedCondition settings (Nat.lt_succ_self _) "if" _).preserves hm hcond
    have hinner := hfit.enter hI hfit.inside
    exact (hx.preserves (fun x _ => ((hsafe _).execute (Nat.lt_succ_self _) x).preserves) hinner).2
  | whileCondition hround =>
    exact hround.preserves ((hsafe _).loggedCondition settings (Nat.lt_succ_self _) "while" _).preserves
      ((hsafe _).block hI (Nat.lt_succ_self _) _).preserves hm
  | whileBody hround hcond _ hx =>
    have hloop := hround.preserves ((hsafe _).loggedCondition settings (Nat.lt_succ_self _) "while" _).preserves
      ((hsafe _).block hI (Nat.lt_succ_self _) _).preserves hm
    have hfit := ((hsafe _).loggedCondition settings (Nat.lt_succ_self _) "while" _).preserves hloop hcond
    have hinner := hfit.enter hI hfit.inside
    exact (hx.preserves (fun x _ => ((hsafe _).execute (Nat.lt_succ_self _) x).preserves) hinner).2

/-- Every moment of a run from a fit world is fit. -/
theorem Reaches.fits (hI : Arena.Stable I) {settings : Settings} {depth : Nat} {program : Node} {m : Moment}
    (hreach : Reaches settings depth program w m) (hw : w.Fit I 1) : m.Fits I := by
  induction hreach with
  | statement _ hx =>
    have hsafe := Machine.atDepth_safe hI settings depth
    exact (hx.preserves (fun x _ => (hsafe.execute Nat.zero_lt_one x).preserves) hw).2
  | part _ hpart ih => exact hpart.fits hI ih

/-- A fit moment ends in a fit world, and not for a broken arena. -/
theorem Moment.Fits.outcome (hI : Arena.Stable I) {m : Moment} (hm : m.Fits I) (settings : Settings) :
    (m.outcome settings).2.Fit I (m.scope + 1) ∧ ∀ cause, (m.outcome settings).1 = .error cause → ¬ cause.Broken := by
  have hsafe := Machine.atDepth_safe hI settings m.depth
  obtain ⟨run, hrun, houtcome⟩ : ∃ run : Run Unit, run.Safe I (m.scope + 1) ∧ m.outcome settings = run m.world := by
    unfold Moment.outcome
    cases m.task with
    | evaluate node => exact ⟨_, (hsafe.evaluate (Nat.lt_succ_self _) node).bind fun _ => .pure (), rfl⟩
    | execute node => exact ⟨_, hsafe.execute (Nat.lt_succ_self _) node, rfl⟩
    | bind params args => exact ⟨_, Machine.bindParams_safe hI (Nat.lt_succ_self _) params args, rfl⟩
  rw [houtcome]
  have hends := hrun m.world hm
  rcases hresult : run m.world with ⟨cause | _, w'⟩
  · obtain ⟨hcause, hfit⟩ := hends.of_error hresult
    refine ⟨hfit, ?_⟩
    rintro _ ⟨⟩
    exact hcause
  · exact ⟨hends.of_ok hresult, nofun⟩

/-- A run from a fit world ends in one, and not for a broken arena. -/
theorem runTo_fits (hI : Arena.Stable I) (settings : Settings) (depth : Nat) (program : Node) (hw : w.Fit I 1) :
    (runTo settings depth program w).2.Fit I 1 ∧
      ∀ cause, (runTo settings depth program w).1 = .error cause → ¬ cause.Broken := by
  unfold runTo
  cases program.programBody with
  | error cause =>
    refine ⟨hw.congr rfl, ?_⟩
    rintro _ ⟨⟩
    exact id
  | ok body =>
    have hglobal : Arena.global < 1 := Nat.zero_lt_one
    have hends := (Machine.atDepth_safe hI settings depth).executeAll hglobal body w hw
    dsimp only
    rcases hresult : (Machine.atDepth settings depth).executeAll Arena.global body w with ⟨cause | _, w'⟩
    · obtain ⟨hcause, hfit⟩ := hends.of_error hresult
      refine ⟨hfit.congr rfl, ?_⟩
      rintro _ hsettle
      cases cause <;> cases hsettle <;> first | exact id | exact hcause
    · exact ⟨(hends.of_ok hresult).congr rfl, nofun⟩

/-- Every world of a session is fit. -/
theorem Session.fits (hI : Arena.Stable I) (hstart : I Arena.start) (hw : Session w) : w.Fit I 1 := by
  induction hw with
  | start => exact ⟨tidy_start, by decide, hstart⟩
  | run _ settings depth program ih => exact (runTo_fits hI settings depth program ih).1

end Moments

/-! ## The store -/

theorem World.Fit.sound {w : World} (hw : w.Fit Arena.Kept (n + 1)) : w.arena.Sound :=
  .of_tidy hw.tidy (Nat.lt_of_lt_of_le (Nat.succ_pos n) hw.room) hw.inv

/-- The store is sound whenever an interpreter runs a program, checked or not, after any others: before and
after whatever it carries out, which it does in a scope that is there, from which every lookup ends. Neither a
scope nor an entry of one is ever missing. -/
theorem store_stays_sound {w : World} (hw : Session w) :
    w.arena.Sound ∧ ∀ settings depth program,
      (∀ cause, (runTo settings depth program w).1 = .error cause → ¬ cause.Broken) ∧
      ∀ m, Reaches settings depth program w m →
        m.world.arena.Sound ∧ m.scope < m.world.arena.scopes.length ∧
        (∀ name, ∃ r, m.world.arena.resolve m.scope name = .ok r ∧
          ∀ steps, m.scope < steps → m.world.arena.resolveIn name steps m.scope = .ok r) ∧
        (m.outcome settings).2.arena.Sound ∧
        ∀ cause, (m.outcome settings).1 = .error cause → ¬ cause.Broken := by
  have hfit := hw.fits Arena.stable_kept Arena.kept_start
  refine ⟨hfit.sound, fun settings depth program => ⟨?_, fun m hm => ?_⟩⟩
  · exact (runTo_fits Arena.stable_kept settings depth program hfit).2
  · have hfits := hm.fits Arena.stable_kept hfit
    obtain ⟨hafter, hcause⟩ := hfits.outcome Arena.stable_kept settings
    exact ⟨hfits.sound, hfits.inside, Arena.resolve_ends hfits.tidy hfits.room, hafter.sound, hcause⟩

/-- A function of one parameter, declared in the outermost scope. -/
def shower : Closure :=
  ⟨"f", [.param (some "Bool") "a" none], none, .block [.display (.identifier "a" none) none] none, 0⟩

/-- A program that declares the function, and another one that calls it. -/
def declaring : Node := .program [.function shower.name shower.params shower.returns shower.body none] none

@[inherit_doc declaring]
def calling : Node := .program [.display (.call "f" [.literal (.bool true) none] none) none] none

/-- The second program binds the parameter in a scope inside the one that the first program has left. -/
theorem calling_stays_sound : ∃ w m, Session w ∧ Reaches ⟨0, 1⟩ 3 calling w m ∧ m.scope = 1 ∧
    m.world.arena.Sound ∧ (m.outcome ⟨0, 1⟩).2.arena.Sound := by
  have hw : Session (runTo ⟨0, 1⟩ 3 declaring World.start).2 := .run .start _ _ _
  have hcall : (Machine.atDepth ⟨0, 1⟩ 1).Calls ⟨0, 1⟩ "f" [.literal (.bool true) none] Arena.global
      (runTo ⟨0, 1⟩ 3 declaring World.start).2 shower [.bool true] _ := ⟨rfl, rfl, _, rfl, rfl⟩
  have hm : Reaches ⟨0, 1⟩ 3 calling (runTo ⟨0, 1⟩ 3 declaring World.start).2 _ :=
    .part (.part (.statement rfl .head) .displayed) (.parameters hcall)
  obtain ⟨hsound, -, -, hafter, -⟩ := ((store_stays_sound hw).2 ⟨0, 1⟩ 3 calling).2 _ hm
  exact ⟨_, _, hw, hm, rfl, hsound, hafter⟩

end Eval

end TillLang
