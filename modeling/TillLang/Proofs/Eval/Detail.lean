/-
  TillLang.Proofs.Eval.Detail — the debug log does not interfere with a run.

  Every line of the log opens with words that tell its kind, and a kind is logged from some level of detail on
  (`LineKind`). Two runs of a parsed program with different levels of detail display the same texts, leave the same
  arena and end alike, and the log of the quieter run is the louder log without the lines of the kinds that are
  logged above its level (`detail_changes_log_only`).

  The log itself looks up variables and joins texts, which can fail; after a declaration the name is bound, and in
  an arena of ordinary values every argument of a call is a text, so it never does (`Run.Tells`). `Run.Quieter` says
  that a part of a run at the lower level does what it does at the higher one, with a log that is cut down; it is
  carried through the machine beside `Run.Proper`, which keeps the arena plain.
-/

import TillLang.Proofs.Eval.Unchecked

namespace TillLang

/-- A name that was just declared has a value. -/
theorem Arena.get_of_declare {a a' : Arena} {h : Nat} {name : String} {type : Option String} {v : Value}
    (hd : a.declare h name type v = .ok a') : ∃ stored, a'.get h name = .ok stored := by
  obtain ⟨s, t, v', hs, -, -, -, rfl⟩ := declare_iff.mp hd
  have hlt : h < a.scopes.length := (List.getElem?_eq_some_iff.mp hs).1
  have hscope : (a.replace h (s.add name (some t) v')).scope h = .ok (s.add name (some t) v') := by
    rw [scope_iff, replace, List.getElem?_set_self hlt]
  have hvalue : (s.add name (some t) v').values.lookup name = some v' := Store.lookup_put_self
  have hbinds : (s.add name (some t) v').binds name = true := by rw [Store.Scope.binds, hvalue, Option.isSome_some]
  refine ⟨v', ?_⟩
  simp [Arena.get, Arena.resolve, Arena.resolveIn, hscope, hbinds, hvalue]

namespace Eval

/-! ## Lines of the log -/

/-- The kinds of lines in the debug log. -/
inductive LineKind where
  | call
  | display
  | declaration
  | assignment
  | definition
  | condition
  deriving DecidableEq

namespace LineKind

def all : List LineKind := [.call, .display, .declaration, .assignment, .definition, .condition]

/-- The words that lines of a kind open with. -/
def openings : LineKind → List String
  | .call => ["call "]
  | .display => ["display "]
  | .declaration => ["declare "]
  | .assignment => ["assign "]
  | .definition => ["define function "]
  | .condition => ["if condition -> ", "while condition -> "]

/-- The level of detail from which on lines of a kind are logged. -/
def threshold : LineKind → Nat
  | .call | .display => 1
  | .declaration | .assignment | .definition => 2
  | .condition => 3

/-- The kind of a line, by the words it opens with. -/
def of? (line : String) : Option LineKind :=
  all.find? fun kind => kind.openings.any fun words => words.toList.isPrefixOf line.toList

/-- No line opens with the words of two kinds. -/
theorem of?_append {kind : LineKind} {words : String} (h : words ∈ kind.openings) (rest : String) :
    of? (words ++ rest) = some kind := by
  cases kind <;> simp only [openings, List.mem_cons, List.not_mem_nil, or_false] at h
  case condition =>
    rcases h with rfl | rfl <;> simp [of?, all, openings, String.toList_append]
  all_goals
    subst h
    simp [of?, all, openings, String.toList_append]

end LineKind

/-- Whether a line is of a kind that is logged at a level of detail. -/
def isLogged (level : Nat) (line : String) : Bool := (LineKind.of? line).any (·.threshold ≤ level)

theorem isLogged_of_kind {line : String} {kind : LineKind} (h : LineKind.of? line = some kind) (level : Nat) :
    isLogged level line = decide (kind.threshold ≤ level) := by
  rw [isLogged, h, Option.any_some]

/-- The world with those lines of the log that a level of detail asks for. -/
def World.quieted (level : Nat) (w : World) : World := { w with log := w.log.filter (isLogged level) }

/-! ## Parts of a run at two levels of detail -/

namespace Run

variable {α β : Type}

/-- From a world, `quiet` does what `loud` does, with the log cut down to a level; the log stays open. -/
def QuieterAt (level : Nat) (quiet loud : Run α) (w : World) : Prop :=
  (loud w).2.logOpen = true ∧ quiet (w.quieted level) = ((loud w).1, (loud w).2.quieted level)

/-- As long as the log is open and the arena plain, `quiet` does what `loud` does, with the log cut down to a level. -/
def Quieter (level : Nat) (quiet loud : Run α) : Prop :=
  ∀ w : World, w.logOpen = true → w.arena.Plain → QuieterAt level quiet loud w

variable {j k level : Nat} {w : World} {quiet loud : Run α} {ok : α → Prop}

theorem Quieter.pure (a : α) : Quieter level (Run.pure a) (Run.pure a) := fun _ ho _ => ⟨ho, rfl⟩

theorem Quieter.stop (cause : Stop) : Quieter level (Run.stop cause : Run α) (Run.stop cause) := fun _ ho _ => ⟨ho, rfl⟩

theorem Quieter.fail (reason : Reason) (position : Option Position) :
    Quieter level (Run.fail reason position : Run α) (Run.fail reason position) := Quieter.stop _

/-- What follows a part of a run starts from a plain arena and with a proper result. -/
theorem Quieter.bind {f g : α → Run β} (h : Quieter level quiet loud) (hp : loud.Proper ok)
    (hf : ∀ a, ok a → Quieter level (f a) (g a)) : Quieter level (quiet >>= f) (loud >>= g) := by
  intro w ho hw
  obtain ⟨hopen, heq⟩ := h w ho hw
  have hends := hp w hw
  unfold Run.Ends at hends
  change (Run.bind loud g w).2.logOpen = true ∧
    Run.bind quiet f (w.quieted level) = ((Run.bind loud g w).1, (Run.bind loud g w).2.quieted level)
  unfold Run.bind
  rw [heq]
  rcases hloud : loud w with ⟨cause | a, w'⟩ <;> rw [hloud] at hopen hends
  · exact ⟨hopen, rfl⟩
  · exact hf a hends.1 w' hopen hends.2

theorem Quieter.read (f : Arena → Except Store.Fault α) : Quieter level (Run.read f) (Run.read f) := by
  intro w ho _
  unfold QuieterAt Run.read
  rw [show (w.quieted level).arena = w.arena from rfl]
  cases f w.arena with
  | ok a => exact ⟨ho, rfl⟩
  | error cause => exact ⟨ho, rfl⟩

theorem Quieter.write (f : Arena → Except Store.Fault Arena) : Quieter level (Run.write f) (Run.write f) := by
  intro w ho _
  unfold QuieterAt Run.write
  rw [show (w.quieted level).arena = w.arena from rfl]
  cases f w.arena with
  | ok arena => exact ⟨ho, rfl⟩
  | error cause => exact ⟨ho, rfl⟩

theorem write_bind_ok {f : Arena → Except Store.Fault Arena} {v : World} {arena : Arena} (h : f v.arena = .ok arena)
    (m : Run α) : (Run.write f >>= fun _ => m) v = m { v with arena } := by
  change Run.bind (Run.write f) (fun _ => m) v = _
  simp only [Run.bind, Run.write, h]

theorem write_bind_error {f : Arena → Except Store.Fault Arena} {v : World} {cause : Store.Fault}
    (h : f v.arena = .error cause) (m : Run α) :
    (Run.write f >>= fun _ => m) v = (.error (storeStop cause), v) := by
  change Run.bind (Run.write f) (fun _ => m) v = _
  simp only [Run.bind, Run.write, h]

/-- What follows a change of the arena may rest on what was changed. -/
theorem QuieterAt.afterWrite {f : Arena → Except Store.Fault Arena} (ho : w.logOpen = true)
    (h : ∀ w' : World, w'.logOpen = true → f w.arena = .ok w'.arena → QuieterAt level quiet loud w') :
    QuieterAt level (Run.write f >>= fun _ => quiet) (Run.write f >>= fun _ => loud) w := by
  unfold QuieterAt
  cases hf : f w.arena with
  | ok arena =>
    have hquiet : f (w.quieted level).arena = .ok arena := hf
    rw [write_bind_ok hf, write_bind_ok hquiet]
    exact h { w with arena } ho hf
  | error cause =>
    have hquiet : f (w.quieted level).arena = .error cause := hf
    rw [write_bind_error hf, write_bind_error hquiet]
    exact ⟨ho, rfl⟩

theorem Quieter.display (shown : Json) : Quieter level (Run.display shown) (Run.display shown) :=
  fun _ ho _ => ⟨ho, rfl⟩

theorem Quieter.inChild {parent : Nat} {body body' : Nat → Run α}
    (h : ∀ handle, Quieter level (body handle) (body' handle)) :
    Quieter level (Run.inChild parent body) (Run.inChild parent body') := by
  intro w ho hw
  obtain ⟨hopen, heq⟩ := h (w.arena.push parent).2 { w with arena := (w.arena.push parent).1 } ho (hw.push parent)
  unfold World.quieted at heq
  unfold QuieterAt Run.inChild World.quieted
  simp only [heq]
  exact ⟨hopen, trivial⟩

theorem Quieter.catchReturn {quiet loud : Run Unit} (h : Quieter level quiet loud) :
    Quieter level (Run.catchReturn quiet) (Run.catchReturn loud) := by
  intro w ho hw
  obtain ⟨hopen, heq⟩ := h w ho hw
  unfold QuieterAt Run.catchReturn
  rw [heq]
  rcases hloud : loud w with ⟨cause | _, w'⟩ <;> rw [hloud] at hopen
  · cases cause <;> exact ⟨hopen, rfl⟩
  · exact ⟨hopen, rfl⟩

/-- A loop goes round alike if its condition and its body do. -/
theorem Quieter.loop {condition condition' : Run Bool} {body body' : Run Unit}
    (hc : Quieter level condition condition') (hpc : condition'.Proper fun _ => True)
    (hb : Quieter level body body') (hpb : body'.Proper fun _ => True) (rounds : Nat) :
    Quieter level (Machine.loop condition body rounds) (Machine.loop condition' body' rounds) := by
  induction rounds with
  | zero => exact .stop _
  | succ rounds ih =>
    refine hc.bind hpc fun holds _ => ?_
    cases holds with
    | true => exact hb.bind hpb fun _ _ => ih
    | false => exact .pure _

/-! ## Logging -/

/-- In an arena a line of the log is found without fail, and it is of a kind. -/
def Tells (line : Run String) (a : Arena) (kind : LineKind) : Prop :=
  ∃ text, LineKind.of? text = some kind ∧ ∀ w : World, w.arena = a → line w = (.ok text, w)

variable {line : Run String} {kind : LineKind}

/-- What is logged at a level of detail, of a line that is found without fail. -/
theorem debug_eq {a : Arena} {text : String} (hline : ∀ w : World, w.arena = a → line w = (.ok text, w))
    (detail threshold : Nat) (hw : w.arena = a) (ho : w.logOpen = true) : Run.debug detail threshold line w =
      (.ok (), if threshold ≤ detail then { w with log := w.log.push text } else w) := by
  unfold Run.debug
  by_cases ht : threshold ≤ detail
  · rw [if_pos ht, if_pos ht]
    change Run.bind line Run.log w = _
    rw [Run.bind, hline w hw]
    exact if_pos ho
  · rw [if_neg ht, if_neg ht]
    rfl

/-- A line of a kind is logged at the lower level only if it is at the higher one, and is dropped from the louder log
otherwise. -/
theorem QuieterAt.debug (hjk : j ≤ k) (ho : w.logOpen = true) (kind : LineKind) (ht : line.Tells w.arena kind) :
    QuieterAt j (Run.debug j kind.threshold line) (Run.debug k kind.threshold line) w := by
  obtain ⟨text, hkind, hline⟩ := ht
  have hlogged := isLogged_of_kind hkind j
  have hloud := debug_eq hline k kind.threshold rfl ho
  have hquiet : Run.debug j kind.threshold line (w.quieted j) = _ := debug_eq hline j kind.threshold rfl ho
  unfold QuieterAt
  rw [hloud, hquiet]
  by_cases hj : kind.threshold ≤ j
  · rw [if_pos hj, if_pos (hj.trans hjk)]
    rw [decide_eq_true hj] at hlogged
    refine ⟨ho, ?_⟩
    rw [World.quieted, World.quieted, Array.filter_push_of_pos hlogged (Array.size_push _)]
  · rw [if_neg hj]
    rw [decide_eq_false hj] at hlogged
    by_cases hk : kind.threshold ≤ k
    · rw [if_pos hk]
      refine ⟨ho, ?_⟩
      rw [World.quieted, World.quieted, Array.filter_push_of_neg (Bool.eq_false_iff.mp hlogged) (Array.size_push _)]
    · rw [if_neg hk]
      exact ⟨ho, rfl⟩

theorem Quieter.debug (hjk : j ≤ k) (kind : LineKind) {text : String} (ht : LineKind.of? text = some kind) :
    Quieter j (Run.debug j kind.threshold (Run.pure text)) (Run.debug k kind.threshold (Run.pure text)) :=
  fun _ ho _ => .debug hjk ho kind ⟨text, ht, fun _ _ => rfl⟩

end Run

/-- Ordinary arguments are joined to one text. -/
theorem joinShown_eq {args : List Value} (h : ∀ v ∈ args, v.Ordinary) (index : Nat) :
    ∃ texts, joinShown index (args.map Value.shown) = Run.pure texts := by
  induction args generalizing index with
  | nil => exact ⟨[], rfl⟩
  | cons v args ih =>
    obtain ⟨hv, hargs⟩ := List.forall_mem_cons.mp h
    obtain ⟨s, hs⟩ := hv.shown
    obtain ⟨texts, htexts⟩ := ih hargs (index + 1)
    refine ⟨s :: texts, ?_⟩
    rw [List.map_cons, hs, joinShown, htexts]
    rfl

/-! ## The machine at two levels of detail -/

namespace Machine

/-- With less detail a machine carries out parsed expressions and statements as it does with more. -/
structure Quieter (level : Nat) (m m' : Machine) : Prop where
  evaluate : ∀ {node : Node}, Sane .expression node → ∀ h, Run.Quieter level (m.evaluate node h) (m'.evaluate node h)
  execute : ∀ {node : Node}, Sane .statement node → ∀ h, Run.Quieter level (m.execute node h) (m'.execute node h)

variable {j k level rounds : Nat} {m m' : Machine}

theorem exhausted_quieter : exhausted.Quieter level exhausted := ⟨fun _ _ => .stop _, fun _ _ => .stop _⟩

theorem applyUnary_quieter (op : String) (v : Value) (position : Option Position) :
    Run.Quieter level (applyUnary op v position) (applyUnary op v position) := by
  unfold applyUnary
  repeat' split
  all_goals first | exact .fail _ _ | exact .pure _

theorem applyBinary_quieter (op : String) (v v' : Value) (position : Option Position) :
    Run.Quieter level (applyBinary op v v' position) (applyBinary op v v' position) := by
  unfold applyBinary applyArithmetic
  repeat' split
  all_goals first | exact .fail _ _ | exact .pure _

theorem bindParams_quieter (h : Nat) {params : List Node} (hp : ∀ param ∈ params, Sane .parameter param)
    {args : List Value} (ha : ∀ v ∈ args, v.Ordinary) :
    Run.Quieter level (bindParams h params args) (bindParams h params args) := by
  induction params generalizing args with
  | nil => exact .pure _
  | cons param params ih =>
    cases args with
    | nil => exact .pure _
    | cons arg args =>
      obtain ⟨hparam, hparams⟩ := List.forall_mem_cons.mp hp
      obtain ⟨harg, hargs⟩ := List.forall_mem_cons.mp ha
      cases hparam with
      | param => exact (Run.Quieter.write _).bind (declare_proper h _ _ (.inl harg)) fun _ _ => ih hparams hargs

theorem resultOf_quieter (c : Closure) (v : Value) (position : Option Position) :
    Run.Quieter level (resultOf c v position) (resultOf c v position) := by
  unfold resultOf
  repeat' split
  all_goals first | exact .fail _ _ | exact .pure _

section Lists

variable (hq : m.Quieter j m') (hm : m'.Proper)
include hq hm

theorem Quieter.evaluateAll (h : Nat) {nodes : List Node} (hs : ∀ node ∈ nodes, Sane .expression node) :
    Run.Quieter j (m.evaluateAll h nodes) (m'.evaluateAll h nodes) := by
  induction nodes with
  | nil => exact .pure _
  | cons node rest ih =>
    obtain ⟨hnode, hrest⟩ := List.forall_mem_cons.mp hs
    refine (hq.evaluate hnode h).bind (hm.evaluate hnode h) fun v _ => ?_
    exact (ih hrest).bind (hm.evaluateAll h hrest) fun vs _ => .pure _

theorem Quieter.executeAll (h : Nat) {nodes : List Node} (hs : ∀ node ∈ nodes, Sane .statement node) :
    Run.Quieter j (m.executeAll h nodes) (m'.executeAll h nodes) := by
  induction nodes with
  | nil => exact .pure _
  | cons node rest ih =>
    obtain ⟨hnode, hrest⟩ := List.forall_mem_cons.mp hs
    exact (hq.execute hnode h).bind (hm.execute hnode h) fun _ _ => ih hrest

theorem Quieter.executeBlock (h : Nat) {body : Node} (hs : Sane .block body) :
    Run.Quieter j (m.executeBlock body h) (m'.executeBlock body h) := by
  obtain ⟨statements, hbody, hall⟩ := statements_of_sane hs
  rw [Machine.executeBlock, Machine.executeBlock, hbody]
  exact hq.executeAll hm h hall

theorem Quieter.block (h : Nat) {body : Node} (hs : Sane .block body) :
    Run.Quieter j (Run.inChild h (m.executeBlock body)) (Run.inChild h (m'.executeBlock body)) :=
  .inChild fun k => hq.executeBlock hm k hs

theorem Quieter.foldJoints (h : Nat) {joints : List Joint} (hs : ∀ joint ∈ joints, Sane .expression joint.right)
    (value : Value) : Run.Quieter j (m.foldJoints h value joints) (m'.foldJoints h value joints) := by
  induction joints generalizing value with
  | nil => exact .pure _
  | cons joint rest ih =>
    obtain ⟨hjoint, hrest⟩ := List.forall_mem_cons.mp hs
    refine (hq.evaluate hjoint h).bind (hm.evaluate hjoint h) fun right _ => ?_
    exact (applyBinary_quieter _ _ _ _).bind (applyBinary_proper _ _ _ _) fun value _ => ih hrest value

end Lists

section Logging

variable (hjk : j ≤ k)
include hjk

theorem logCall_quieter (c : Closure) {args : List Value} (ha : ∀ v ∈ args, v.Ordinary) :
    Run.Quieter j (logCall ⟨j, rounds⟩ c args) (logCall ⟨k, rounds⟩ c args) := by
  obtain ⟨texts, htexts⟩ := joinShown_eq ha 0
  unfold logCall
  rw [htexts]
  refine Run.Quieter.debug hjk .call ?_
  simp only [String.append_assoc]
  exact LineKind.of?_append (List.mem_singleton_self _) _

/-- A declaration is logged with the value that it has given to the name. -/
theorem declareLogged_quieter (h : Nat) (name type : String) (v : Value) :
    Run.Quieter j
      (Run.write (·.declare h name (some type) v) >>= fun _ => Run.debug j 2 do
        let stored ← Run.read (·.get h name)
        return "declare " ++ name ++ ": " ++ (some type).getD "" ++ " = " ++ stored.inspect)
      (Run.write (·.declare h name (some type) v) >>= fun _ => Run.debug k 2 do
        let stored ← Run.read (·.get h name)
        return "declare " ++ name ++ ": " ++ (some type).getD "" ++ " = " ++ stored.inspect) := by
  refine fun w ho _ => .afterWrite ho fun w' ho' hd => ?_
  obtain ⟨stored, hstored⟩ := Arena.get_of_declare hd
  refine Run.QuieterAt.debug hjk ho' .declaration
    ⟨"declare " ++ name ++ ": " ++ (some type).getD "" ++ " = " ++ stored.inspect, ?_, fun v hv => ?_⟩
  · simp only [String.append_assoc]
    exact LineKind.of?_append (List.mem_singleton_self _) _
  · change Run.bind (Run.read (·.get h name)) _ v = _
    rw [Run.bind, Run.read, hv, hstored]
    rfl

variable (hq : m.Quieter j m') (hm : m'.Proper)
include hq hm

theorem Quieter.call (callee : String) {function : Value} (hf : function.Stored) {args : List Value}
    (ha : ∀ v ∈ args, v.Ordinary) (position : Option Position) :
    Run.Quieter j (m.call ⟨j, rounds⟩ callee function args position)
      (m'.call ⟨k, rounds⟩ callee function args position) := by
  unfold Machine.call
  cases function with
  | function c =>
    simp only
    by_cases hlen : args.length = c.params.length
    · rw [if_neg (not_not.mpr hlen), if_neg (not_not.mpr hlen)]
      have hparams := fun h => bindParams_proper h hf.parsed.params ha
      refine (logCall_quieter hjk c ha).bind (logCall_proper _ c ha) fun _ _ => ?_
      have hbody := fun h => (hparams h).bind fun _ _ => (hm.executeBlock h hf.parsed.body).catchReturn
      refine Run.Quieter.bind (.inChild fun h => ?_) (.inChild hbody) fun v _ => resultOf_quieter c v position
      exact (bindParams_quieter h hf.parsed.params ha).bind (hparams h) fun _ _ =>
        (hq.executeBlock hm h hf.parsed.body).catchReturn
    · rw [if_pos hlen, if_pos hlen]
      exact .fail _ _
  | _ => exact .fail _ _

theorem Quieter.evaluateNode (h : Nat) {node : Node} (hs : Sane .expression node) :
    Run.Quieter j (m.evaluateNode ⟨j, rounds⟩ node h) (m'.evaluateNode ⟨k, rounds⟩ node h) := by
  unfold Machine.evaluateNode
  cases hs with
  | literal => exact .pure _
  | identifier =>
    refine (Run.Quieter.read _).bind (.get h _) fun v _ => ?_
    cases v <;> first | exact .fail _ _ | exact .pure _
  | unary _ hoperand =>
    exact (hq.evaluate hoperand h).bind (hm.evaluate hoperand h) fun v _ => applyUnary_quieter _ v _
  | binary hop hl hr =>
    obtain ⟨hfirst, hjoints⟩ := (Placed.binary hop hl hr).spine
    exact (hq.evaluate hfirst h).bind (hm.evaluate hfirst h) fun v _ => hq.foldJoints hm h hjoints v
  | call _ hargs =>
    refine (Run.Quieter.read _).bind (.get h _) fun function hf => ?_
    refine (hq.evaluateAll hm h hargs).bind (hm.evaluateAll h hargs) fun values hvalues => ?_
    exact hq.call hjk hm _ hf hvalues _

/-- The words in front of a condition are those of its keyword. -/
theorem Quieter.loggedCondition {keyword : String}
    (hkeyword : keyword ++ " condition -> " ∈ LineKind.condition.openings)
    (h : Nat) {node : Node} (hs : Sane .expression node) :
    Run.Quieter j (m.loggedCondition ⟨j, rounds⟩ keyword node h) (m'.loggedCondition ⟨k, rounds⟩ keyword node h) := by
  have hcondition : Run.Quieter j (m.condition node h) (m'.condition node h) := by
    refine (hq.evaluate hs h).bind (hm.evaluate hs h) fun v _ => ?_
    cases v <;> first | exact .fail _ _ | exact .pure _
  have hproper : (m'.condition node h).Proper fun _ => True := by
    refine (hm.evaluate hs h).bind fun v _ => ?_
    cases v <;> first | exact .fail _ _ | exact .pure trivial
  refine hcondition.bind hproper fun holds _ => ?_
  have hline := Run.Quieter.debug hjk .condition (LineKind.of?_append hkeyword (Value.bool holds).shown.text)
  exact hline.bind (.debug (.pure trivial)) fun _ _ => .pure _

theorem Quieter.executeNode (h : Nat) {node : Node} (hs : Sane .statement node) :
    Run.Quieter j (m.executeNode ⟨j, rounds⟩ node h) (m'.executeNode ⟨k, rounds⟩ node h) := by
  unfold Machine.executeNode
  cases hs with
  | varDecl =>
    have hnone : (Run.pure Value.none).Proper fun _ => True := .pure trivial
    exact (Run.Quieter.pure _).bind hnone fun v _ => declareLogged_quieter hjk h _ _ v
  | varInit _ _ hvalue =>
    simp only [evaluateOr_of_placed hvalue]
    exact (hq.evaluate hvalue h).bind (hm.evaluate hvalue h) fun v _ => declareLogged_quieter hjk h _ _ v
  | assignment _ hvalue =>
    refine (hq.evaluate hvalue h).bind (hm.evaluate hvalue h) fun v _ => ?_
    refine fun w ho _ => .afterWrite ho fun _ ho' _ => .debug hjk ho' .assignment ⟨_, ?_, fun _ _ => rfl⟩
    simp only [String.append_assoc]
    exact LineKind.of?_append (List.mem_singleton_self _) _
  | function =>
    refine fun w ho _ => .afterWrite ho fun _ ho' _ => .debug hjk ho' .definition ⟨_, ?_, fun _ _ => rfl⟩
    exact LineKind.of?_append (List.mem_singleton_self _) _
  | ifStmt hc hb =>
    refine (hq.loggedCondition hjk hm (by decide) h hc).bind (hm.loggedCondition _ h "if" hc) fun holds _ => ?_
    cases holds with
    | true => exact hq.block hm h hb
    | false => exact .pure _
  | whileStmt hc hb =>
    exact .loop (hq.loggedCondition hjk hm (by decide) h hc) (hm.loggedCondition _ h "while" hc) (hq.block hm h hb)
      (hm.block h hb) _
  | returnPlain =>
    have hunit : (Run.pure Value.unit).Proper fun _ => True := .pure trivial
    exact (Run.Quieter.pure _).bind hunit fun v _ => .stop _
  | returnValue hvalue =>
    simp only [evaluateOr_of_placed hvalue]
    exact (hq.evaluate hvalue h).bind (hm.evaluate hvalue h) fun v _ => .stop _
  | display hvalue =>
    refine (hq.evaluate hvalue h).bind (hm.evaluate hvalue h) fun v _ => ?_
    have hwords : "display " ∈ LineKind.display.openings := List.mem_singleton_self _
    have hline := Run.Quieter.debug hjk .display (LineKind.of?_append hwords v.shown.inspect)
    exact hline.bind (.debug (.pure trivial)) fun _ _ => .display _

end Logging

/-- At every nesting depth less detail changes the log only. -/
theorem atDepth_quieter (hjk : j ≤ k) (rounds depth : Nat) :
    (atDepth ⟨j, rounds⟩ depth).Quieter j (atDepth ⟨k, rounds⟩ depth) := by
  induction depth with
  | zero => exact exhausted_quieter
  | succ depth ih =>
    have hm := atDepth_proper ⟨k, rounds⟩ depth
    exact ⟨fun hs h => ih.evaluateNode hjk hm h hs, fun hs h => ih.executeNode hjk hm h hs⟩

end Machine

/-! ## Programs -/

/-- A parsed program that is run anew with less detail ends as it does with more, with the log cut down. -/
theorem runTo_quieter {j k : Nat} (hjk : j ≤ k) {program : Node}
    (hsane : ∀ body, program.programBody = .ok body → ∀ node ∈ body, Sane .statement node) (rounds limit : Nat) :
    runTo ⟨j, rounds⟩ limit program World.start = ((runTo ⟨k, rounds⟩ limit program World.start).1,
      (runTo ⟨k, rounds⟩ limit program World.start).2.quieted j) := by
  unfold runTo
  cases hbody : program.programBody with
  | error cause => rfl
  | ok body =>
    have hall := (Machine.atDepth_quieter hjk rounds limit).executeAll (Machine.atDepth_proper _ limit) Arena.global
      (hsane body hbody)
    obtain ⟨-, heq⟩ := hall World.start rfl Arena.every_start
    rw [show World.start.quieted j = World.start from rfl] at heq
    simp only [heq]
    rfl

/-- With two levels of detail a parsed program displays the same texts, leaves the same arena and ends alike; and the
log with less detail is made of those lines of the other log whose kinds it asks for. -/
theorem detail_changes_log_only {frontend : Frontend} {depth : Nat} {source : String} {program : Node}
    (hparse : parseTo frontend depth source = .ok program) (rounds limit j k : Nat) :
    (runTo ⟨j, rounds⟩ limit program World.start).1 = (runTo ⟨k, rounds⟩ limit program World.start).1 ∧
    (runTo ⟨j, rounds⟩ limit program World.start).2.displayed =
      (runTo ⟨k, rounds⟩ limit program World.start).2.displayed ∧
    (runTo ⟨j, rounds⟩ limit program World.start).2.printed = (runTo ⟨k, rounds⟩ limit program World.start).2.printed ∧
    (runTo ⟨j, rounds⟩ limit program World.start).2.arena = (runTo ⟨k, rounds⟩ limit program World.start).2.arena ∧
    (j ≤ k → (runTo ⟨j, rounds⟩ limit program World.start).2.log =
      (runTo ⟨k, rounds⟩ limit program World.start).2.log.filter (isLogged j)) := by
  have hquieter := fun {j k : Nat} (hjk : j ≤ k) => runTo_quieter hjk (sane_of_parse hparse) rounds limit
  have hlog : j ≤ k → (runTo ⟨j, rounds⟩ limit program World.start).2.log =
      (runTo ⟨k, rounds⟩ limit program World.start).2.log.filter (isLogged j) := fun hjk =>
    congrArg (fun ended => ended.2.log) (hquieter hjk)
  rcases Nat.le_total j k with hjk | hkj
  · rw [hquieter hjk] at hlog ⊢
    exact ⟨rfl, rfl, rfl, rfl, hlog⟩
  · refine ⟨?_, ?_, ?_, ?_, hlog⟩
    all_goals rw [hquieter hkj]
    all_goals rfl

/-- A text whose run logs a line of every kind. -/
def loggedSource : String :=
  "f(Str s) -> Str\n" ++
  "    return s\n" ++
  "Bool b = true\n" ++
  "if b\n" ++
  "    display f(\"x\")\n" ++
  "b = false\n"

theorem loggedSource_quieter : ∃ p, parseTo .descent 9 loggedSource = .ok p ∧
    (runTo ⟨3, 9⟩ 9 p World.start).2.log = #["define function f", "declare b: Bool = True", "if condition -> true",
      "call f(x)", "display 'x'", "assign b = False"] ∧
    (runTo ⟨1, 9⟩ 9 p World.start).2.log = #["call f(x)", "display 'x'"] ∧
    (runTo ⟨1, 9⟩ 9 p World.start).1 = (runTo ⟨3, 9⟩ 9 p World.start).1 ∧
    (runTo ⟨1, 9⟩ 9 p World.start).2.displayed = (runTo ⟨3, 9⟩ 9 p World.start).2.displayed ∧
    (runTo ⟨1, 9⟩ 9 p World.start).2.printed = (runTo ⟨3, 9⟩ 9 p World.start).2.printed ∧
    (runTo ⟨1, 9⟩ 9 p World.start).2.arena = (runTo ⟨3, 9⟩ 9 p World.start).2.arena := by
  have hlogged : (match parseTo .descent 9 loggedSource with
      | .ok p => (runTo ⟨3, 9⟩ 9 p World.start).2.log == #["define function f", "declare b: Bool = True",
          "if condition -> true", "call f(x)", "display 'x'", "assign b = False"]
      | .error _ => false) = true := by decide +kernel
  cases hp : parseTo .descent 9 loggedSource with
  | error e => simp [hp] at hlogged
  | ok p =>
    rw [hp] at hlogged
    have hlog := eq_of_beq hlogged
    obtain ⟨hresult, hdisplayed, hprinted, harena, hquiet⟩ := detail_changes_log_only hp 9 9 1 3
    refine ⟨p, rfl, hlog, ?_, hresult, hdisplayed, hprinted, harena⟩
    rw [hquiet (by decide), hlog]
    decide +kernel

end Eval

end TillLang
