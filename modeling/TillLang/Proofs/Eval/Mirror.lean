/-
  TillLang.Proofs.Eval.Mirror — the declarations of the checker beside the scopes of a run.

  A scope of a run has been filled by executing declarations. `Room` says which, and the frames of
  an arena are what its rooms bind. `Mirrors` relates the declarations that a check had come by at
  some place of a program to the rooms from a handle outward when a run comes to that place: link
  by link, the declarations of the checker are the first that were executed. More may have been
  executed in the meantime. If `quiet` holds, none of them binds a name that the checker found
  further out, so that a lookup ends where the checker's ended (`Mirrors.walk`).

  `Stage` is what holds whenever a statement is about to be executed; `Stage.declare` and
  `Stage.enter` are its steps.
-/

import TillLang.Proofs.Eval.Steady
import TillLang.Proofs.Typing.Reach

namespace TillLang

open Success
open Typing (Trail Checks)

/-- A scope of a run: the handle of the scope around it and the declarations that were executed in
it. -/
structure Room where
  parent : Option Nat
  made : List Node

def Room.frame (handle : Nat) (r : Room) : Frame := ⟨r.parent, r.made.map (Node.outline handle)⟩

/-- The frames that rooms make. -/
def frames (rs : List Room) : List Frame := rs.mapIdx Room.frame

/-- Rooms of which one has more declarations. -/
def furnish (rs : List Room) (handle : Nat) (ds : List Node) : List Room :=
  rs.modify handle fun r => { r with made := r.made ++ ds }

/-- The declarations of the checker are the first ones of the rooms from a handle outward. -/
inductive Mirrors (quiet : Prop) (rs : List Room) : Nat → List (List Node) → Prop
  | outermost {h : Nat} {r : Room} {ds : List Node} (hr : rs[h]? = some r) (hp : r.parent = none)
      (hs : ds <+: r.made) : Mirrors quiet rs h [ds]
  | inside {h p : Nat} {r : Room} {ds : List Node} {outer : List (List Node)} (hr : rs[h]? = some r)
      (hp : r.parent = some p) (hs : ds <+: r.made)
      (hlate : quiet → ∀ d ∈ r.made.drop ds.length, d.boundName ∉ outer.flatMap (·.map Node.boundName))
      (hm : Mirrors quiet rs p outer) : Mirrors quiet rs h (ds :: outer)

/-- A function has been checked behind given declarations, and a call of it will run the body that
was checked. -/
structure Checked (program : Node) (quiet : Prop) (rs : List Room) (trail : Trail) (c : Closure) : Prop where
  mirrors : Mirrors quiet rs c.scope trail.toList
  params : Typing.checkEach Typing.declareParam trail.push.scopes c.params = ((trail.push.add c.params).scopes, .ok ())
  body : ∃ depth statements, c.body.statements? = some statements ∧
    Checks program (some ⟨c.name, c.returns⟩) depth (trail.push.add c.params) statements
  returns : c.returns.isSome → Typing.endsByReturn c.body = true

/-- A statement that was checked behind given declarations may be executed in the scope with a
handle: that scope is the newest, it is made by declarations that the checker has come by, and all
functions have been checked. -/
structure Stage (program : Node) (quiet : Prop) (rs : List Room) (h : Nat) (trail : Trail) : Prop where
  tidy : Tidy (frames rs)
  top : h + 1 = rs.length
  known : ∃ r, rs[h]? = some r ∧ r.made = trail.inner
  mirrors : Mirrors quiet rs h trail.toList
  functions : ∀ {k : Nat} {r : Room} {d : Node} {c : Closure}, rs[k]? = some r → d ∈ r.made →
    (d.outline k).closure = some c → ∃ t, Checked program quiet rs t c ∧ (k = h → t.outer = trail.outer)

variable {program : Node} {quiet : Prop} {rs rs' : List Room} {h k : Nat}

/-! ## Rooms -/

@[simp] theorem length_frames (rs : List Room) : (frames rs).length = rs.length := by
  simp [frames]

theorem getElem?_frames (rs : List Room) (k : Nat) : (frames rs)[k]? = (rs[k]?).map (Room.frame k) := by
  simp [frames]

theorem frame_of_room {r : Room} (hr : rs[k]? = some r) : (frames rs)[k]? = some (r.frame k) := by
  rw [getElem?_frames, hr]
  rfl

theorem room_of_frame {f : Frame} (hf : (frames rs)[k]? = some f) : ∃ r, rs[k]? = some r ∧ r.frame k = f := by
  rw [getElem?_frames] at hf
  exact Option.map_eq_some_iff.mp hf

theorem getElem?_furnish_self {r : Room} (hr : rs[h]? = some r) (ds : List Node) :
    (furnish rs h ds)[h]? = some { r with made := r.made ++ ds } := by
  simp [furnish, hr]

theorem getElem?_furnish_ne (hk : h ≠ k) (ds : List Node) : (furnish rs h ds)[k]? = rs[k]? := by
  simp [furnish, hk]

@[simp] theorem length_furnish (rs : List Room) (h : Nat) (ds : List Node) : (furnish rs h ds).length = rs.length := by
  simp [furnish]

/-- Executed declarations extend a frame. -/
theorem frames_furnish (rs : List Room) (h : Nat) (ds : List Node) :
    frames (furnish rs h ds) = extend (frames rs) h (ds.map (Node.outline h)) := by
  refine List.ext_getElem? fun k => ?_
  rw [getElem?_frames]
  by_cases hk : h = k
  · subst hk
    cases hr : rs[h]? with
    | none => simp [furnish, extend, hr, getElem?_frames]
    | some r =>
      rw [getElem?_furnish_self hr, getElem?_extend_self (frame_of_room hr)]
      simp [Room.frame]
  · rw [getElem?_furnish_ne hk, getElem?_extend_ne hk, getElem?_frames]

/-- The frames after a scope has been opened and parameters have been bound in it. -/
theorem frames_enter (rs : List Room) (p : Nat) (ds : List Node) :
    frames (rs ++ [⟨some p, ds⟩]) =
      extend (frames rs ++ [⟨some p, []⟩]) rs.length (ds.map (Node.outline rs.length)) := by
  have hlast : (frames rs ++ [⟨some p, []⟩])[rs.length]? = some ⟨some p, []⟩ := by
    rw [← length_frames rs]
    exact List.getElem?_concat_length
  refine List.ext_getElem? fun k => ?_
  rw [getElem?_frames]
  by_cases hk : rs.length = k
  · subst hk
    rw [List.getElem?_concat_length, getElem?_extend_self hlast]
    rfl
  · rw [getElem?_extend_ne hk]
    by_cases hlt : k < rs.length
    · rw [List.getElem?_append_left hlt, List.getElem?_append_left (by simpa using hlt), getElem?_frames]
    · rw [List.getElem?_eq_none (by simp; omega), List.getElem?_eq_none (by simp; omega)]
      rfl

theorem scope_of_outline {d : Node} {c : Closure} (hc : (d.outline k).closure = some c) :
    c.scope = k ∧ d.isFunction = true := by
  cases d with
  | function name params returns body position =>
    cases hc
    exact ⟨rfl, rfl⟩
  | _ => cases hc

theorem Tidy.parent_lt (ht : Tidy (frames rs)) {r : Room} {p : Nat} (hr : rs[h]? = some r) (hp : r.parent = some p) :
    p < h :=
  ht.ordered (frame_of_room hr) hp

/-! ## Mirrors -/

/-- Only the rooms up to the handle matter. -/
theorem Mirrors.congr (ht : Tidy (frames rs)) {outer : List (List Node)} (hm : Mirrors quiet rs h outer)
    (hsame : ∀ k ≤ h, rs'[k]? = rs[k]?) : Mirrors quiet rs' h outer := by
  induction hm with
  | outermost hr hp hs => exact .outermost ((hsame _ (Nat.le_refl _)).trans hr) hp hs
  | inside hr hp hs hlate _ ih =>
    have hlt := ht.parent_lt hr hp
    exact .inside ((hsame _ (Nat.le_refl _)).trans hr) hp hs hlate (ih fun k hk => hsame k (by omega))

theorem Mirrors.furnished (ht : Tidy (frames rs)) {p : Nat} {outer : List (List Node)} (hm : Mirrors quiet rs p outer)
    (hp : p < h) (ds : List Node) : Mirrors quiet (furnish rs h ds) p outer :=
  hm.congr ht fun _ _ => getElem?_furnish_ne (by omega) ds

/-- Declarations may be executed in the newest room that the checker has not come by, if they bind
no name that is bound further out. -/
theorem Mirrors.late (ht : Tidy (frames rs)) {ds more : List Node} {outer : List (List Node)}
    (hm : Mirrors quiet rs h (ds :: outer))
    (hmore : quiet → ∀ d ∈ more, d.boundName ∉ outer.flatMap (·.map Node.boundName)) :
    Mirrors quiet (furnish rs h more) h (ds :: outer) := by
  cases hm with
  | outermost hr hp hs => exact .outermost (getElem?_furnish_self hr more) hp (hs.trans (List.prefix_append _ _))
  | @inside _ p r _ _ hr hp hs hlate hm =>
    have hrest := hm.furnished ht (ht.parent_lt hr hp) more
    refine .inside (getElem?_furnish_self hr more) hp (hs.trans (List.prefix_append _ _)) (fun hq d hd => ?_) hrest
    rw [List.drop_append_of_le_length hs.length_le] at hd
    rcases List.mem_append.mp hd with hd | hd
    · exact hlate hq d hd
    · exact hmore hq d hd

/-- The newest room, made by declarations that the checker has come by. -/
theorem Mirrors.add (ht : Tidy (frames rs)) {trail : Trail} {r : Room} (hr : rs[h]? = some r)
    (hknown : r.made = trail.inner) (hm : Mirrors quiet rs h trail.toList) (ds : List Node) :
    Mirrors quiet (furnish rs h ds) h (trail.add ds).toList := by
  have hself := getElem?_furnish_self hr ds
  rw [hknown] at hself
  obtain ⟨inner, outer⟩ := trail
  cases hm with
  | outermost hr' hp hs =>
    cases hr.symm.trans hr'
    exact .outermost hself hp (List.prefix_refl _)
  | @inside _ p _ _ _ hr' hp hs hlate hm =>
    cases hr.symm.trans hr'
    refine .inside hself hp (List.prefix_refl _) (fun _ d hd => ?_) (hm.furnished ht (ht.parent_lt hr hp) ds)
    -- Nothing is left that the checker has not come by.
    simp [Trail.add] at hd

theorem Mirrors.handle {outer : List (List Node)} (hm : Mirrors quiet rs h outer) : h < rs.length := by
  cases hm with
  | outermost hr => exact (List.getElem?_eq_some_iff.mp hr).1
  | inside hr => exact (List.getElem?_eq_some_iff.mp hr).1

theorem binds_frame {r : Room} {name : String} : (r.frame h).Binds name ↔ ∃ d ∈ r.made, d.boundName = name := by
  simp [Frame.Binds, Room.frame]

theorem binds_of_lookup {r : Room} {ds : List Node} {name : String} {entry : Typing.Entry} (hs : ds <+: r.made)
    (hl : (ds.map Node.static).lookup name = some entry) : (r.frame h).Binds name := by
  obtain ⟨d, hd, heq⟩ := List.mem_map.mp (Typing.mem_of_lookup hl)
  exact binds_frame.mpr ⟨d, hs.subset hd, congrArg Prod.fst heq⟩

theorem boundName_ne_of_lookup {ds : List Node} {name : String} (hl : (ds.map Node.static).lookup name = none) :
    ∀ d ∈ ds, d.boundName ≠ name := by
  rintro d hd rfl
  have hne := List.lookup_eq_none_iff.mp hl _ (List.mem_map_of_mem hd)
  simp [Node.boundName] at hne

/-- A name that a room binds and the checker did not find there has been declared since. -/
theorem late_of_binds {r : Room} {ds : List Node} {name : String} (hs : ds <+: r.made)
    (hl : (ds.map Node.static).lookup name = none) (hb : (r.frame h).Binds name) :
    ∃ d ∈ r.made.drop ds.length, d.boundName = name := by
  obtain ⟨d, hd, hname⟩ := binds_frame.mp hb
  rw [← List.take_append_drop ds.length r.made, ← List.prefix_iff_eq_take.mp hs] at hd
  rcases List.mem_append.mp hd with hd | hd
  · exact absurd hname (boundName_ne_of_lookup hl d hd)
  · exact ⟨d, hd, hname⟩

/-- A name that the checker has found is bound by a declaration it has come by. -/
theorem mem_names_of_walk {outer : List (List Node)} {name : String} {scope : Typing.Scope}
    (hw : Typing.Walk name (outer.map (·.map Node.static)) k scope) : name ∈ outer.flatMap (·.map Node.boundName) := by
  obtain ⟨hmem, entry, hentry⟩ := hw.target
  obtain ⟨ds, hds, rfl⟩ := List.mem_map.mp hmem
  obtain ⟨d, hd, heq⟩ := List.mem_map.mp hentry
  exact List.mem_flatMap.mpr ⟨ds, hds, List.mem_map.mpr ⟨d, hd, by rw [Node.boundName, heq]⟩⟩

/-- A lookup in a run goes no further outward than the checker's. It ends in the room of the scope
where the checker's ended, or in a nearer one that has gained the name since; if nothing is
shadowed late, it does not. -/
theorem Mirrors.walk {outer : List (List Node)} (hm : Mirrors quiet rs h outer) {name : String}
    {scope : Typing.Scope} (hw : Typing.Walk name (outer.map (·.map Node.static)) k scope) :
    ∃ j g ds r, Walk (frames rs) name h j g ∧ outer[j]? = some ds ∧ rs[g]? = some r ∧ ds <+: r.made ∧
      (j = k ∧ scope = ds.map Node.static ∨ j < k ∧ ¬ quiet ∧ ∃ d ∈ r.made.drop ds.length, d.boundName = name) := by
  induction hm generalizing k with
  | @outermost h r ds hr hp hs =>
    cases hw with
    | here hl =>
      exact ⟨0, h, ds, r, .here (frame_of_room hr) (binds_of_lookup hs hl), rfl, hr, hs, .inl ⟨rfl, rfl⟩⟩
    | outward _ hw => cases hw
  | @inside h p r ds outer hr hp hs hlate _ ih =>
    cases hw with
    | here hl =>
      exact ⟨0, h, ds, r, .here (frame_of_room hr) (binds_of_lookup hs hl), rfl, hr, hs, .inl ⟨rfl, rfl⟩⟩
    | @outward _ _ _ k hl hw =>
      by_cases hb : (r.frame h).Binds name
      · obtain ⟨d, hd, hname⟩ := late_of_binds hs hl hb
        refine ⟨0, h, ds, r, .here (frame_of_room hr) hb, rfl, hr, hs,
          .inr ⟨Nat.succ_pos k, fun hq => ?_, d, hd, hname⟩⟩
        exact hlate hq d hd (hname ▸ mem_names_of_walk hw)
      · obtain ⟨j, g, es, r', hwalk, hes, hr', hs', hend⟩ := ih hw
        refine ⟨j + 1, g, es, r', .outward (frame_of_room hr) hb hp hwalk, hes, hr', hs', ?_⟩
        rcases hend with ⟨rfl, heq⟩ | ⟨hlt, hrest⟩
        · exact .inl ⟨rfl, heq⟩
        · exact .inr ⟨by omega, hrest⟩

theorem Checked.congr (ht : Tidy (frames rs)) {trail : Trail} {c : Closure} (hc : Checked program quiet rs trail c)
    (hsame : ∀ k ≤ c.scope, rs'[k]? = rs[k]?) : Checked program quiet rs' trail c :=
  ⟨hc.mirrors.congr ht hsame, hc.params, hc.body, hc.returns⟩

/-! ## Stages -/

/-- The rooms before a run. -/
def roomsAtStart : List Room := [⟨none, []⟩]

theorem frames_start : frames roomsAtStart = Arena.start.frames := rfl

theorem Stage.start : Stage program quiet roomsAtStart Arena.global .start where
  tidy := frames_start ▸ tidy_start
  top := rfl
  known := ⟨⟨none, []⟩, rfl, rfl⟩
  mirrors := .outermost rfl rfl List.nil_prefix
  functions := by
    intro k r d c hr hd
    cases k with
    | zero =>
      cases hr
      cases hd
    | succ k => cases hr

theorem Stage.handle {trail : Trail} (hst : Stage program quiet rs h trail) : h < (frames rs).length := by
  simpa using hst.mirrors.handle

/-- The arena of a stage is tidy, and the handle is one of its. -/
theorem Stage.arena {trail : Trail} (hst : Stage program quiet rs h trail) {arena : Arena}
    (hframes : arena.frames = frames rs) : Tidy arena.frames ∧ h < arena.frames.length := by
  rw [hframes]
  exact ⟨hst.tidy, hst.handle⟩

/-- A new scope inside one that is mirrored, with parameters that the checker has bound. -/
theorem Stage.enter {trail : Trail} (hst : Stage program quiet rs h trail) {p : Nat} {t : Trail} {ds : List Node}
    (hm : Mirrors quiet rs p t.toList) (hds : ∀ d ∈ ds, d.isFunction = false)
    (ht : Tidy (frames (rs ++ [⟨some p, ds⟩]))) :
    Stage program quiet (rs ++ [⟨some p, ds⟩]) rs.length (t.push.add ds) := by
  have hnew : (rs ++ [⟨some p, ds⟩])[rs.length]? = some ⟨some p, ds⟩ := List.getElem?_concat_length
  have hold : ∀ k < rs.length, (rs ++ [⟨some p, ds⟩])[k]? = rs[k]? := fun _ hk => List.getElem?_append_left hk
  have hp := hm.handle
  constructor
  · exact ht
  · simp
  · exact ⟨_, hnew, rfl⟩
  · refine .inside hnew rfl (List.prefix_refl _) (fun _ d hd => ?_) (hm.congr hst.tidy fun k hk => hold k (by omega))
    rw [List.drop_eq_nil_of_le (by simp [Trail.add, Trail.push])] at hd
    cases hd
  · intro k r d c hr hd hc
    obtain ⟨hscope, hfunction⟩ := scope_of_outline hc
    by_cases hk : k < rs.length
    · rw [hold k hk] at hr
      obtain ⟨t', ht', -⟩ := hst.functions hr hd hc
      exact ⟨t', ht'.congr hst.tidy fun j hj => hold j (by omega), fun heq => by omega⟩
    · have hlt := (List.getElem?_eq_some_iff.mp hr).1
      obtain rfl : k = rs.length := by simp at hlt; omega
      cases hnew.symm.trans hr
      cases (hds d hd).symm.trans hfunction

/-- A function that a name stands for in a run has been checked. -/
theorem Stage.checked {trail : Trail} (hst : Stage program quiet rs h trail) {arena : Arena}
    (hframes : arena.frames = frames rs) {name : String} {c : Closure} (hget : arena.get k name = .ok (.function c)) :
    ∃ t, Checked program quiet rs t c := by
  obtain ⟨f, o, hf, ho, -, hoc⟩ := Arena.closure_of_get (hframes ▸ hst.tidy) hget
  rw [hframes] at hf
  obtain ⟨r, hr, rfl⟩ := room_of_frame hf
  obtain ⟨d, hd, rfl⟩ := List.mem_map.mp ho
  obtain ⟨t, ht, -⟩ := hst.functions hr hd hoc
  exact ⟨t, ht⟩

/-- A function that a checked statement declares has been checked behind its declaration. -/
theorem Typing.Checks.declared (hpass : checkProgram program = .ok ()) {trail : Trail}
    {enclosing : Option Typing.Enclosing} {depth : Nat} {node d : Node} {rest : List Node}
    (hc : Checks program enclosing depth trail (node :: rest)) {c : Closure} (hd : d ∈ node.declarations)
    (hoc : (d.outline h).closure = some c) (hm : Mirrors quiet rs h (trail.add node.declarations).toList) :
    Checked program quiet rs (trail.add node.declarations) c := by
  cases node with
  | function name params returns body position =>
    obtain rfl := List.mem_singleton.mp hd
    obtain rfl := Option.some.inj hoc
    cases depth with
    | zero =>
      obtain ⟨scopes', hn⟩ := hc.head hpass
      cases hn
    | succ depth =>
      obtain ⟨hparams, ⟨statements, hbody⟩, hret⟩ := hc.params hpass
      exact ⟨hm, hparams, ⟨depth, statements, hbody, hc.function hbody⟩, hret⟩
  | varDecl type name initializer position =>
    obtain rfl := List.mem_singleton.mp hd
    cases hoc
  | _ => cases hd

/-- The scope that a checked statement was executed in is ready for the next one. -/
theorem Stage.declare {trail : Trail} (hst : Stage program quiet rs h trail) (hpass : checkProgram program = .ok ())
    (hquiet : quiet → program.noLateShadow [] [] = true) {enclosing : Option Typing.Enclosing} {depth : Nat}
    {node : Node} {rest : List Node} (hc : Checks program enclosing depth trail (node :: rest))
    (ht : Tidy (frames (furnish rs h node.declarations))) :
    Stage program quiet (furnish rs h node.declarations) h (trail.add node.declarations) := by
  obtain ⟨r, hr, hknown⟩ := hst.known
  have hmirrors := hst.mirrors.add hst.tidy hr hknown node.declarations
  constructor
  · exact ht
  · simpa using hst.top
  · exact ⟨_, getElem?_furnish_self hr _, by simp [Trail.add, hknown]⟩
  · exact hmirrors
  · intro k r' d c hr' hd hdc
    obtain ⟨hscope, hfunction⟩ := scope_of_outline hdc
    by_cases hk : h = k
    · subst hk
      rw [getElem?_furnish_self hr] at hr'
      cases hr'
      rcases List.mem_append.mp hd with hd | hd
      · -- An older function of this scope: what it looks up further out is not declared now.
        obtain ⟨t, ht, houter⟩ := hst.functions hr hd hdc
        refine ⟨t, ⟨?_, ht.params, ht.body, ht.returns⟩, houter⟩
        have hlate : quiet → ∀ d' ∈ node.declarations, d'.boundName ∉ t.outer.flatMap (·.map Node.boundName) := by
          intro hq
          rw [houter rfl]
          refine hc.fits hpass (hquiet hq) ?_
          rw [Trail.hasFunction, ← hknown, List.any_eq_true]
          exact ⟨d, hd, hfunction⟩
        have hm := ht.mirrors
        rw [hscope] at hm ⊢
        exact hm.late hst.tidy hlate
      · -- The function that the statement declares.
        exact ⟨_, hc.declared hpass hd hdc hmirrors, fun _ => rfl⟩
    · rw [getElem?_furnish_ne hk] at hr'
      obtain ⟨t, ht, -⟩ := hst.functions hr' hd hdc
      have hlt := (List.getElem?_eq_some_iff.mp hr').1
      have htop := hst.top
      refine ⟨t, ht.congr hst.tidy fun j hj => getElem?_furnish_ne (by omega) _, fun heq => absurd heq.symm hk⟩

end TillLang
