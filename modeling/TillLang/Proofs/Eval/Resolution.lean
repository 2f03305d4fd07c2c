/-
  TillLang.Proofs.Eval.Resolution — names in a run and to the checker.

  The checker looks up a name once for each of its occurrences. A run looks it up each time it
  comes by, in scopes that may have gained names since. `Moment.Staged` says what the scopes of
  a moment have to do with the declarations that the checker had come by at the same place; every
  part of a staged moment is staged (`Moment.Part.staged`), so every moment of a run is
  (`Reaches.staged`).

  So a lookup in a run goes no further outward than the checker's, and as far if the program
  never shadows a name late; it then finds what the same declaration has bound
  (`names_resolve_alike`). With a name that is shadowed late it stops short
  (`late_name_resolves_nearer`).
-/

import Mathlib
import TillLang.Proofs.Eval.Mirror
import TillLang.Proofs.Eval.Moment
import TillLang.Proofs.Typing.Sites

namespace TillLang

open Typing (Trail Checks Infers Looks)

variable {program : Node} {quiet : Prop} {rs : List Room} {h : Nat} {trail : Trail}

/-! ## What the checker comes to is not too deep -/

theorem Typing.Infers.depth (hpass : checkProgram program = .ok ()) {depth : Nat} {node : Node}
    (hi : Infers program depth trail node) : ∃ d, depth = d + 1 := by
  obtain ⟨t, ht⟩ := hi.passes hpass
  cases depth with
  | zero => cases ht
  | succ d => exact ⟨d, rfl⟩

theorem Typing.Checks.depth (hpass : checkProgram program = .ok ()) {enclosing : Option Typing.Enclosing}
    {depth : Nat} {node : Node} {rest : List Node} (hc : Checks program enclosing depth trail (node :: rest)) :
    ∃ d, depth = d + 1 := by
  obtain ⟨scopes', hn⟩ := hc.head hpass
  cases depth with
  | zero => cases hn
  | succ d => exact ⟨d, rfl⟩

namespace Eval

/-! ## Frames between two moments -/

section Frames

variable {α : Type} {fs : List Frame} {w w' : World} {m : Machine}

theorem Run.Keeps.preserves {m : Run α} (hm : m.Keeps fs) : m.Preserves (·.arena.frames = fs) :=
  fun w _ _ hw h => (hm w hw).of_ok h

theorem Run.Adds.after {m : Run α} {os : List Outline} (hm : m.Adds fs h os) (hw : w.arena.frames = fs) {a : α}
    (hrun : m w = (.ok a, w')) : Grown fs h os w' :=
  (hm w hw).of_ok hrun

theorem Machine.Calls.kept (hm : m.Steady) (ht : Tidy fs) (hh : h < fs.length) {settings : Settings}
    {callee : String} {args : List Node} {c : Closure} {values : List Value}
    (hcall : m.Calls settings callee args h w c values w') (hw : w.arena.frames = fs) : w'.arena.frames = fs := by
  obtain ⟨-, -, w₁, hargs, hlog⟩ := hcall
  have hkeeps : (Machine.logCall settings c values).Keeps fs := .debug ((joinShown_keeps fs 0 _).bind fun _ => .pure _)
  exact hkeeps.preserves ((hm.evaluateAll ht hh args).preserves hw hargs) hlog

end Frames

/-! ## Stages of a run -/

/-- The scopes of a world from a handle outward are those of a stage behind given declarations. -/
def World.At (program : Node) (quiet : Prop) (w : World) (scope : Nat) (trail : Trail) : Prop :=
  ∃ rs, Stage program quiet rs scope trail ∧ w.arena.frames = frames rs

/-- The checker has come to what is about to be carried out, behind the declarations that made the
scopes of the moment. -/
def Moment.Staged (program : Node) (quiet : Prop) (m : Moment) : Prop :=
  match m.task with
  | .evaluate node => ∃ trail depth, m.world.At program quiet m.scope trail ∧ Infers program depth trail node
  | .execute node => ∃ trail enclosing depth rest, m.world.At program quiet m.scope trail ∧
      Checks program enclosing depth trail (node :: rest)
  | .bind .. => True

variable {settings : Settings} {d : Nat}

/-- Where one of the statements of a body begins, those before it have been executed. -/
theorem Run.Begins.staged (hpass : checkProgram program = .ok ()) (hquiet : quiet → program.noLateShadow [] [] = true)
    {nodes : List Node} {x : Node} {w w' : World}
    (hx : Run.Begins (fun x => (Machine.atDepth settings d).execute x h) nodes w x w')
    {enclosing : Option Typing.Enclosing} {depth : Nat} (hst : Stage program quiet rs h trail)
    (hw : w.arena.frames = frames rs) (hc : Checks program enclosing depth trail nodes) :
    Moment.Staged program quiet ⟨d, .execute x, h, w'⟩ := by
  induction hx generalizing rs trail with
  | head => exact ⟨trail, enclosing, depth, _, ⟨rs, hst, hw⟩, hc⟩
  | @tail node _ _ _ _ _ _ hfirst _ ih =>
    have hsteady := Machine.atDepth_steady settings d
    obtain ⟨hw₁, htidy⟩ := (hsteady.execute hst.tidy hst.handle node).after hw hfirst
    rw [Node.outlines, ← frames_furnish] at hw₁ htidy
    exact ih (hst.declare hpass hquiet hc htidy) hw₁ hc.next

theorem World.frames_enter (w : World) (p : Nat) : (w.enter p).arena.frames = w.arena.frames ++ [⟨some p, []⟩] :=
  Arena.frames_push p

theorem World.next_of_frames {w : World} (hw : w.arena.frames = frames rs) : w.next = rs.length := by
  rw [← length_frames rs, ← hw]
  simp [World.next, Arena.frames]

/-- Where a statement of the body of an `if` or a `while` begins. -/
theorem Run.Begins.staged_guarded (hpass : checkProgram program = .ok ())
    (hquiet : quiet → program.noLateShadow [] [] = true) {node condition body x : Node} {rest statements : List Node}
    {w w' : World}
    (hx : Run.Begins (fun x => (Machine.atDepth settings d).execute x w.next) statements (w.enter h) x w')
    {enclosing : Option Typing.Enclosing} {depth : Nat} (hst : Stage program quiet rs h trail)
    (hw : w.arena.frames = frames rs) (hc : Checks program enclosing depth trail (node :: rest))
    (hg : node.guarded? = some (condition, body)) (hbody : body.statements? = some statements) :
    Moment.Staged program quiet ⟨d, .execute x, w.next, w'⟩ := by
  obtain ⟨depth, rfl⟩ := hc.depth hpass
  have hopen : frames (rs ++ [⟨some h, []⟩]) = frames rs ++ [⟨some h, []⟩] := by simp [frames_enter]
  have htidy := hst.tidy.push hst.handle
  rw [← hopen] at htidy
  have hst₁ := hst.enter hst.mirrors (by simp) htidy
  rw [Trail.add_nil, ← World.next_of_frames hw] at hst₁
  refine hx.staged hpass hquiet hst₁ ?_ (hc.guarded hg hbody)
  rw [w.frames_enter, hw, hopen]

/-- Where a statement of the body of a function begins. -/
theorem Run.Begins.staged_body (hpass : checkProgram program = .ok ())
    (hquiet : quiet → program.noLateShadow [] [] = true) {c : Closure} {values : List Value} {statements : List Node}
    {x : Node} {w w' w₁ : World} (hlen : values.length = c.params.length)
    (hbind : Machine.bindParams w.next c.params values (w.enter c.scope) = (.ok (), w₁))
    (hx : Run.Begins (fun x => (Machine.atDepth settings d).execute x w.next) statements w₁ x w')
    (hst : Stage program quiet rs h trail) (hw : w.arena.frames = frames rs) {t : Trail}
    (hc : Checked program quiet rs t c) (hbody : c.body.statements? = some statements) :
    Moment.Staged program quiet ⟨d, .execute x, w.next, w'⟩ := by
  obtain ⟨depth, statements', hbody', hchecks⟩ := hc.body
  cases hbody.symm.trans hbody'
  have htidy := hst.tidy.push (show c.scope < (frames rs).length by simpa using hc.mirrors.handle)
  have hpush : (w.enter c.scope).arena.frames = frames rs ++ [⟨some c.scope, []⟩] := by rw [w.frames_enter, hw]
  obtain ⟨hw₁, htidy₁⟩ := (Machine.bindParams_adds htidy c.params values hlen).after hpush hbind
  rw [World.next_of_frames hw, ← frames_enter] at hw₁ htidy₁
  have hst₁ := hst.enter hc.mirrors (Typing.not_function_of_param hc.params) htidy₁
  rw [← World.next_of_frames hw] at hst₁
  exact hx.staged hpass hquiet hst₁ hw₁ hchecks

/-- What the machine leads to from a staged moment is staged. -/
theorem Moment.Part.staged (hpass : checkProgram program = .ok ()) (hquiet : quiet → program.noLateShadow [] [] = true)
    {m m' : Moment} (hpart : m.Part settings m') (hm : m.Staged program quiet) : m'.Staged program quiet := by
  have hsteady := fun d => Machine.atDepth_steady settings d
  cases hpart with
  | operand =>
    obtain ⟨trail, depth, hat, hi⟩ := hm
    obtain ⟨depth, rfl⟩ := hi.depth hpass
    exact ⟨trail, depth, hat, hi.operand⟩
  | first =>
    obtain ⟨trail, depth, hat, hi⟩ := hm
    obtain ⟨depth, rfl⟩ := hi.depth hpass
    exact ⟨trail, depth, hat, hi.first⟩
  | joint hfirst hjoint =>
    obtain ⟨trail, depth, ⟨rs, hst, hw⟩, hi⟩ := hm
    obtain ⟨depth, rfl⟩ := hi.depth hpass
    have hw₁ := ((hsteady _).evaluate hst.tidy hst.handle _).preserves hw hfirst
    obtain ⟨⟨joint, hj, rfl⟩, hw₂⟩ := hjoint.preserves
      (fun _ _ => ((hsteady _).evaluate hst.tidy hst.handle _).preserves)
      (fun _ _ _ _ => (applyBinary_keeps _ _ _ _ _).preserves) hw₁
    exact ⟨trail, depth, ⟨rs, hst, hw₂⟩, hi.right hj⟩
  | argument _ hargs =>
    obtain ⟨trail, depth, ⟨rs, hst, hw⟩, hi⟩ := hm
    obtain ⟨depth, rfl⟩ := hi.depth hpass
    obtain ⟨hx, hw₁⟩ := hargs.preserves (fun x _ => ((hsteady _).evaluate hst.tidy hst.handle x).preserves) hw
    exact ⟨trail, depth, ⟨rs, hst, hw₁⟩, hi.argument hx⟩
  | parameters | parameter => trivial
  | body hcall hbind hbody hx =>
    obtain ⟨trail, depth, ⟨rs, hst, hw⟩, -⟩ := hm
    have hw₁ := hcall.kept (hsteady _) hst.tidy hst.handle hw
    obtain ⟨t, ht⟩ := hst.checked hw hcall.1
    exact hx.staged_body hpass hquiet hcall.2.1 hbind hst hw₁ ht hbody
  | initializer hx =>
    obtain ⟨trail, enclosing, depth, rest, hat, hc⟩ := hm
    obtain ⟨depth, rfl⟩ := hc.depth hpass
    exact ⟨trail, depth, hat, .initializer hc hx⟩
  | assigned =>
    obtain ⟨trail, enclosing, depth, rest, hat, hc⟩ := hm
    obtain ⟨depth, rfl⟩ := hc.depth hpass
    exact ⟨trail, depth, hat, .assigned hc⟩
  | returned hx =>
    obtain ⟨trail, enclosing, depth, rest, hat, hc⟩ := hm
    obtain ⟨depth, rfl⟩ := hc.depth hpass
    exact ⟨trail, depth, hat, .returned hc hx⟩
  | displayed =>
    obtain ⟨trail, enclosing, depth, rest, hat, hc⟩ := hm
    obtain ⟨depth, rfl⟩ := hc.depth hpass
    exact ⟨trail, depth, hat, .displayed hc⟩
  | ifCondition =>
    obtain ⟨trail, enclosing, depth, rest, hat, hc⟩ := hm
    obtain ⟨depth, rfl⟩ := hc.depth hpass
    exact ⟨trail, depth, hat, .condition hc rfl⟩
  | ifBody hcond hbody hx =>
    obtain ⟨trail, enclosing, depth, rest, ⟨rs, hst, hw⟩, hc⟩ := hm
    have hw₁ := ((hsteady _).loggedCondition hst.tidy hst.handle settings "if" _).preserves hw hcond
    exact hx.staged_guarded hpass hquiet hst hw₁ hc rfl hbody
  | whileCondition hround =>
    obtain ⟨trail, enclosing, depth, rest, ⟨rs, hst, hw⟩, hc⟩ := hm
    obtain ⟨depth, rfl⟩ := hc.depth hpass
    have hw₁ := hround.preserves ((hsteady _).loggedCondition hst.tidy hst.handle settings "while" _).preserves
      ((hsteady _).inChild hst.tidy hst.handle _).preserves hw
    exact ⟨trail, depth, ⟨rs, hst, hw₁⟩, .condition hc rfl⟩
  | whileBody hround hcond hbody hx =>
    obtain ⟨trail, enclosing, depth, rest, ⟨rs, hst, hw⟩, hc⟩ := hm
    have hw₁ := hround.preserves ((hsteady _).loggedCondition hst.tidy hst.handle settings "while" _).preserves
      ((hsteady _).inChild hst.tidy hst.handle _).preserves hw
    have hw₂ := ((hsteady _).loggedCondition hst.tidy hst.handle settings "while" _).preserves hw₁ hcond
    exact hx.staged_guarded hpass hquiet hst hw₂ hc rfl hbody

/-- Every moment of a run of a checked program is staged. -/
theorem Reaches.staged (hpass : checkProgram program = .ok ()) (hquiet : quiet → program.noLateShadow [] [] = true)
    {limit : Nat} {m : Moment} (hreach : Reaches settings limit program World.start m) : m.Staged program quiet := by
  induction hreach with
  | statement hbody hx => exact hx.staged hpass hquiet Stage.start rfl (.program hbody)
  | part _ hpart ih => exact hpart.staged hpass hquiet ih

/-! ## Lookups -/

/-- A run looks up a name for its occurrence at a position, in an arena: to read it, to call it, or to
assign a value that has been evaluated. -/
inductive Moment.Resolves (settings : Settings) : Moment → String → Option Position → Arena → Prop
  | read {d h : Nat} {w : World} {name : String} {position : Option Position} :
      Resolves settings ⟨d + 1, .evaluate (.identifier name position), h, w⟩ name position w.arena
  | callee {d h : Nat} {w : World} {name : String} {args : List Node} {position : Option Position} :
      Resolves settings ⟨d + 1, .evaluate (.call name args position), h, w⟩ name position w.arena
  | target {d h : Nat} {w w' : World} {name : String} {value : Node} {v : Value} {position : Option Position}
      (hvalue : (Machine.atDepth settings d).evaluate value h w = (.ok v, w')) :
      Resolves settings ⟨d + 1, .execute (.assignment name value position), h, w⟩ name position w'.arena

/-- What a run looks up the checker has looked up, behind the declarations that made the scopes. -/
theorem Moment.Resolves.looks {m : Moment} (hm : m.Staged program quiet) {name : String} {position : Option Position}
    {arena : Arena} (hr : m.Resolves settings name position arena) :
    ∃ trail rs, Looks program trail name position ∧
      Stage program quiet rs m.scope trail ∧ arena.frames = frames rs := by
  cases hr with
  | read =>
    obtain ⟨trail, depth, ⟨rs, hst, hw⟩, hi⟩ := hm
    exact ⟨trail, rs, .read hi, hst, hw⟩
  | callee =>
    obtain ⟨trail, depth, ⟨rs, hst, hw⟩, hi⟩ := hm
    exact ⟨trail, rs, .callee hi, hst, hw⟩
  | @target d _ _ _ _ _ _ _ hvalue =>
    obtain ⟨trail, enclosing, depth, rest, ⟨rs, hst, hw⟩, hc⟩ := hm
    have hsteady := Machine.atDepth_steady settings d
    exact ⟨trail, rs, .target hc, hst, (hsteady.evaluate hst.tidy hst.handle _).preserves hw hvalue⟩

/-- A lookup from a scope finds what a declaration has bound, over a number of links. -/
def Finds (arena : Arena) (scope : Nat) (name : String) (links : Nat) (d : Node) : Prop :=
  ∃ g b, Walk arena.frames name scope links g ∧ arena.find? scope name = .ok (some (g, b)) ∧ b.outline = d.outline g

end Eval

/-- A lookup of the checker goes over a number of links to the scope that binds the name, by a
declaration. -/
def Typing.Finds (trail : Trail) (name : String) (links : Nat) (d : Node) : Prop :=
  ∃ ds, Walk name trail.scopes.toList links (ds.map Node.static) ∧ trail.toList[links]? = some ds ∧ d ∈ ds ∧
    d.boundName = name ∧ trail.scopes.lookup? name = some d.static.2

/-- What a room has bound is what a lookup that comes to it finds. -/
theorem Eval.finds_of_walk {arena : Arena} (ht : Tidy arena.frames) (hh : h < arena.frames.length)
    (hframes : arena.frames = frames rs) {name : String} {j g : Nat} {r : Room} {d : Node}
    (hw : Walk (frames rs) name h j g) (hr : rs[g]? = some r) (hd : d ∈ r.made) (hname : d.boundName = name) :
    Eval.Finds arena h name j d := by
  rw [← hframes] at hw
  obtain ⟨s, b, hs, hfind, hfound⟩ := Arena.find?_of_walk ht hh hw
  obtain ⟨hmem, hb⟩ := Store.Scope.of_find? hfind
  have hf : arena.frames[g]? = some (r.frame g) := hframes ▸ frame_of_room hr
  have hsame : s.frame = r.frame g := Option.some.inj ((Arena.frame_of_scope hs).symm.trans hf)
  have hbind : b.outline ∈ (r.frame g).names := hsame ▸ List.mem_map_of_mem hmem
  have hdecl : d.outline g ∈ (r.frame g).names := List.mem_map_of_mem hd
  refine ⟨g, b, hw, hfound, ht.outline_unique hf hbind hdecl ?_⟩
  exact hb.trans (hname.symm.trans (by simp))

/-- A lookup in a run goes as far as the checker's and finds the same declaration, or it stops short at
another one. -/
theorem Stage.finds (hst : Stage program quiet rs h trail) {arena : Arena} (hframes : arena.frames = frames rs)
    {name : String} {e : Typing.Entry} (hl : trail.scopes.lookup? name = some e) :
    ∃ k d, Typing.Finds trail name k d ∧
      (Eval.Finds arena h name k d ∨ ¬ quiet ∧ ∃ j d', j < k ∧ Eval.Finds arena h name j d') := by
  obtain ⟨htidy, hh⟩ := hst.arena hframes
  obtain ⟨k, scope, hwalk, hscope⟩ := Typing.walk_of_lookup hl
  obtain ⟨j, g, es, r, hw, hes, hr, hs, hend⟩ := hst.mirrors.walk hwalk
  obtain ⟨ds, hds, rfl⟩ : ∃ ds, trail.toList[k]? = some ds ∧ scope = ds.map Node.static := by
    have hget := hwalk.getElem?
    rw [Trail.scopes_toList, List.getElem?_map, Option.map_eq_some_iff] at hget
    obtain ⟨ds, hds, heq⟩ := hget
    exact ⟨ds, hds, heq.symm⟩
  obtain ⟨d, hd, hstatic⟩ := List.mem_map.mp (Typing.mem_of_lookup hscope)
  have hname : d.boundName = name := congrArg Prod.fst hstatic
  refine ⟨k, d, ⟨ds, hwalk, hds, hd, hname, by rw [hl, hstatic]⟩, ?_⟩
  rcases hend with ⟨rfl, -⟩ | ⟨hlt, hq, d', hd', hname'⟩
  · cases hds.symm.trans hes
    exact .inl (Eval.finds_of_walk htidy hh hframes hw hr (hs.subset hd) hname)
  · exact .inr ⟨hq, j, d', hlt, Eval.finds_of_walk htidy hh hframes hw hr (List.mem_of_mem_drop hd') hname'⟩

namespace Eval

variable {settings : Settings} {frontend : Frontend} {depth limit : Nat} {source : String} {m : Moment} {name : String}
  {position : Option Position} {arena : Arena}

/-- In a run of a checked program a lookup finds the declaration that the checker found, over as many
links; or the program shadows a name late, and the lookup stops short. -/
theorem lookups_go_no_further (hparse : parseTo frontend depth source = .ok program)
    (hcheck : checkProgram program = .ok ()) (hm : Reaches settings limit program World.start m)
    (hr : m.Resolves settings name position arena) :
    ∃ trail k d, Looks program trail name position ∧ (∀ t n, Looks program t n position → t = trail) ∧
      Typing.Finds trail name k d ∧ (Finds arena m.scope name k d ∨
        program.noLateShadow [] [] = false ∧ ∃ j d', j < k ∧ Finds arena m.scope name j d') := by
  have hstaged : m.Staged program (program.noLateShadow [] [] = true) := hm.staged hcheck id
  obtain ⟨trail, rs, hlooks, hst, hframes⟩ := hr.looks hstaged
  obtain ⟨e, hl⟩ := hlooks.passes hcheck
  obtain ⟨k, d, hfinds, hrun⟩ := hst.finds hframes hl
  refine ⟨trail, k, d, hlooks, fun t n hlooks' => hlooks'.unique hparse hlooks, hfinds, ?_⟩
  rcases hrun with hrun | ⟨hlate, hrun⟩
  · exact .inl hrun
  · exact .inr ⟨by simpa using hlate, hrun⟩

/-- In a run of a checked program that never shadows a name late, a lookup for an occurrence of
a name goes over as many links as the checker's lookup for that occurrence, and finds what the declaration
that the checker found has bound. -/
theorem names_resolve_alike (hparse : parseTo frontend depth source = .ok program)
    (hcheck : checkProgram program = .ok ()) (hquiet : program.noLateShadow [] [] = true)
    (hm : Reaches settings limit program World.start m) (hr : m.Resolves settings name position arena) :
    ∃ trail k d, Looks program trail name position ∧ (∀ t n, Looks program t n position → t = trail) ∧
      Typing.Finds trail name k d ∧ Finds arena m.scope name k d := by
  obtain ⟨trail, k, d, hlooks, hunique, hfinds, hrun | ⟨hlate, -⟩⟩ := lookups_go_no_further hparse hcheck hm hr
  · exact ⟨trail, k, d, hlooks, hunique, hfinds, hrun⟩
  · cases hquiet.symm.trans hlate

/-- The position of a line and a column. -/
def place (line column : Nat) : Option Position := some (Location.position ⟨line, column⟩)

/-- A text with a function that reads a variable from around it. -/
def readingSource : String :=
  "Bool x = true\n" ++
  "f() -> Bool\n" ++
  "    return x\n" ++
  "display f()\n"

def readingProgram : Node :=
  .program [.varDecl (some "Bool") "x" (.literal (.bool true) (place 1 10)) (place 1 1),
    .function "f" [] (some "Bool")
      (.block [.returnStmt (.identifier "x" (place 3 12)) (place 3 5)] (place 3 5)) (place 2 1),
    .display (.call "f" [] (place 4 9)) (place 4 1)] (place 1 1)

/-- The run of the text comes to the variable in a scope of its own and goes over one link. -/
theorem readingSource_resolves : ∃ m, Reaches ⟨0, 1⟩ 5 readingProgram World.start m ∧ m.scope = 1 ∧
    ∃ trail k d, Looks readingProgram trail "x" (place 3 12) ∧ Typing.Finds trail "x" k d ∧
      Finds m.world.arena m.scope "x" k d := by
  have hparse : parseTo .descent 20 readingSource = .ok readingProgram := by cbv
  have hdisplay : Reaches ⟨0, 1⟩ 5 readingProgram World.start _ := .statement rfl (.tail rfl (.tail rfl .head))
  have hreturn : Reaches ⟨0, 1⟩ 5 readingProgram World.start _ :=
    .part (.part hdisplay .displayed) (.body ⟨rfl, rfl, _, rfl, rfl⟩ rfl rfl .head)
  have hread : Reaches ⟨0, 1⟩ 5 readingProgram World.start _ := .part hreturn (.returned rfl)
  obtain ⟨trail, k, d, hlooks, -, hchecker, hrun⟩ := names_resolve_alike hparse rfl rfl hread .read
  exact ⟨_, hread, rfl, trail, k, d, hlooks, hchecker, hrun⟩

/-- A text with a name that is shadowed late: the function returns the outer variable to the checker and
the inner one in a run. -/
def lateSource : String :=
  "Bool x = true\n" ++
  "if x\n" ++
  "    f() -> Bool\n" ++
  "        return x\n" ++
  "    Str x = \"late\"\n" ++
  "    display f()\n"

/-- The outer variable. -/
def outerX : Node := .varDecl (some "Bool") "x" (.literal (.bool true) (place 1 10)) (place 1 1)

/-- The variable that shadows it. -/
def lateX : Node := .varDecl (some "Str") "x" (.literal (.str "late") (place 5 13)) (place 5 5)

/-- The occurrence of the name in the function. -/
def readX : Node := .identifier "x" (place 4 16)

def returning : Node := .function "f" [] (some "Bool") (.block [.returnStmt readX (place 4 9)] (place 4 9)) (place 3 5)

def lateProgram : Node :=
  .program [outerX, .ifStmt (.identifier "x" (place 2 4))
    (.block [returning, lateX, .display (.call "f" [] (place 6 13)) (place 6 5)] (place 3 5)) (place 2 1)] (place 1 1)

/-- With a name that is shadowed late the run goes over one link and the checker over two, and they find variables of
different types. -/
theorem late_name_resolves_nearer : parseTo .descent 20 lateSource = .ok lateProgram ∧
    checkProgram lateProgram = .ok () ∧ ∃ m trail, Reaches ⟨0, 1⟩ 6 lateProgram World.start m ∧
      m.Resolves ⟨0, 1⟩ "x" (place 4 16) m.world.arena ∧ Looks lateProgram trail "x" (place 4 16) ∧
      Typing.Finds trail "x" 2 outerX ∧ Finds m.world.arena m.scope "x" 1 lateX ∧ outerX.static ≠ lateX.static := by
  have hif : Reaches ⟨0, 1⟩ 6 lateProgram World.start _ := .statement rfl (.tail rfl .head)
  have hdisplay : Reaches ⟨0, 1⟩ 6 lateProgram World.start _ :=
    .part hif (.ifBody rfl rfl (.tail rfl (.tail rfl .head)))
  have hreturn : Reaches ⟨0, 1⟩ 6 lateProgram World.start _ :=
    .part (.part hdisplay .displayed) (.body ⟨rfl, rfl, _, rfl, rfl⟩ rfl rfl .head)
  have hread : Reaches ⟨0, 1⟩ 6 lateProgram World.start _ := .part hreturn (.returned rfl)
  have hprogram : Checks lateProgram none _ .start [outerX, _] := .program rfl
  have hinner : Checks lateProgram none _ ⟨[], [[outerX]]⟩ [returning, lateX, _] := hprogram.next.guarded rfl rfl
  have hbody : Checks lateProgram _ _ ⟨[], [[returning], [outerX]]⟩ [_] := hinner.function rfl
  have hlooks : Looks lateProgram _ "x" (place 4 16) := .read (.returned hbody rfl)
  have hfinds : Typing.Finds ⟨[], [[returning], [outerX]]⟩ "x" 2 outerX :=
    ⟨[outerX], .outward rfl (.outward rfl (.here rfl)), rfl, List.mem_cons_self, rfl, rfl⟩
  refine ⟨by cbv, by rfl, _, _, hread, .read, hlooks, hfinds,
    ⟨1, ⟨"x", some "Str", .str "late"⟩, ?_, rfl, rfl⟩, by decide⟩
  exact .outward rfl List.not_mem_nil rfl (.here rfl (show "x" ∈ ["f", "x"] by decide))

end Eval

end TillLang
