/-
  TillLang.Proofs.Store.Outline — what of an arena does not depend on the values of variables.

  The outline of a binding is its name, its entry among the types and, for a function, its closure. The
  frames of an arena are its scopes with outlines in the place of bindings. An assignment leaves
  the frames as they are and a declaration adds one outline to one frame, so whatever a program
  means by its names can be read off the frames alone.

  `Tidy` is what frames always satisfy. `Walk` is the walk of a lookup, with the number of links
  it goes outward, and `Arena.resolve_iff` says that `Arena.resolve` is that walk.
-/

import TillLang.Proofs.Store.Binding

namespace TillLang

open Success

/-- The closure that a value is. -/
def Value.closure? : Value → Option Closure
  | .function c => some c
  | _ => Option.none

/-- What a binding never changes. -/
structure Outline where
  name : String
  type : Option (Option String)
  closure : Option Closure

def Binding.outline (b : Binding) : Outline := ⟨b.name, b.type, b.value.closure?⟩

/-- The type that is written at a declaration. -/
def Node.writtenType (node : Node) : String :=
  match node.declared? with
  | some (some type, _) => type
  | _ => ""

/-- What a name with an outline stands for. -/
def Outline.entry (o : Outline) : Typing.Entry :=
  match o.closure with
  | some c => .function (c.params.map Node.writtenType) c.returns
  | none => .variable (o.type.join.getD "")

/-- A binding as a scope of the checker holds it. -/
def Outline.static (o : Outline) : String × Typing.Entry := (o.name, o.entry)

/-- What a declaration or a parameter binds in the scope with a handle. -/
def Node.outline (scope : Nat) : Node → Outline
  | .varDecl type name _ _ | .param type name _ => ⟨name, some type, none⟩
  | .function name params returns body _ => ⟨name, some none, some ⟨name, params, returns, body, scope⟩⟩
  | _ => ⟨"", none, none⟩

/-- A declaration or a parameter as a scope of the checker holds it. -/
def Node.static (node : Node) : String × Typing.Entry := (node.outline 0).static

/-- The name that a declaration or a parameter binds. -/
def Node.boundName (node : Node) : String := node.static.1

/-- The declaration that a statement is. -/
def Node.declarations (node : Node) : List Node :=
  match node with
  | .varDecl .. | .function .. => [node]
  | _ => []

/-- What a statement binds in the scope it is executed in. -/
def Node.outlines (scope : Nat) (node : Node) : List Outline := node.declarations.map (Node.outline scope)

@[simp] theorem Node.static_function (name : String) (params : List Node) (returns : Option String) (body : Node)
    (position : Option Position) : (Node.function name params returns body position).static =
      (name, .function (params.map Node.writtenType) returns) := rfl

@[simp] theorem Node.static_outline (scope : Nat) (node : Node) : (node.outline scope).static = node.static := by
  cases node <;> rfl

@[simp] theorem Node.name_outline (scope : Nat) (node : Node) : (node.outline scope).name = node.boundName := by
  cases node <;> rfl

theorem Node.outline_of_declared {node : Node} {type : Option String} {name : String}
    (h : node.declared? = some (type, name)) (scope : Nat) : node.outline scope = ⟨name, some type, none⟩ := by
  cases node <;> cases h <;> rfl

/-- A scope without the values of its variables. -/
structure Frame where
  parent : Option Nat
  names : List Outline

/-- The bindings of a frame as a scope of the checker holds them. -/
def Frame.static (f : Frame) : Typing.Scope := f.names.map Outline.static

/-- Whether a name is bound in a frame. -/
def Frame.Binds (f : Frame) (name : String) : Prop := name ∈ f.names.map Outline.name

def Store.Scope.frame (s : Store.Scope) : Frame := ⟨s.parent, s.bindings.map Binding.outline⟩

/-- The scopes of an arena without the values of variables. -/
def Arena.frames (a : Arena) : List Frame := a.scopes.map Store.Scope.frame

/-- Frames of which one has more names. -/
def extend (fs : List Frame) (handle : Nat) (more : List Outline) : List Frame :=
  fs.modify handle fun f => { f with names := f.names ++ more }

/-- What every outline in the frame with a given handle is: a typed variable or a function of
that frame. -/
def Outline.BelongsTo (o : Outline) (handle : Nat) : Prop :=
  match o.closure with
  | some c => o.type = some none ∧ c.scope = handle
  | none => ∃ type, o.type = some (some type)

/-- What the frames of a run satisfy: the first one and only it has no parent, parents come
before their children, no frame binds a name twice, and functions know their frame. -/
structure Tidy (fs : List Frame) : Prop where
  rooted : ∀ {h : Nat} {f : Frame}, fs[h]? = some f → (f.parent = none ↔ h = 0)
  ordered : ∀ {h p : Nat} {f : Frame}, fs[h]? = some f → f.parent = some p → p < h
  distinct : ∀ {h : Nat} {f : Frame}, fs[h]? = some f → (f.names.map Outline.name).Nodup
  owned : ∀ {h : Nat} {f : Frame} {o : Outline}, fs[h]? = some f → o ∈ f.names → o.BelongsTo h

/-! ## Frames of changed arenas -/

@[simp] theorem length_extend (fs : List Frame) (h : Nat) (os : List Outline) :
    (extend fs h os).length = fs.length := by
  simp [extend]

@[simp] theorem extend_nil (fs : List Frame) (h : Nat) : extend fs h [] = fs := by
  simp only [extend, List.append_nil]
  exact List.modify_id h fs

theorem extend_extend (fs : List Frame) (h : Nat) (os ps : List Outline) :
    extend (extend fs h os) h ps = extend fs h (os ++ ps) := by
  simp only [extend, List.modify_modify_eq]
  congr 1
  funext f
  simp

theorem getElem?_extend_self {fs : List Frame} {h : Nat} {f : Frame} (hf : fs[h]? = some f) (os : List Outline) :
    (extend fs h os)[h]? = some { f with names := f.names ++ os } := by
  simp [extend, hf]

theorem getElem?_extend_ne {fs : List Frame} {h k : Nat} (hk : h ≠ k) (os : List Outline) :
    (extend fs h os)[k]? = fs[k]? := by
  simp [extend, List.getElem?_modify_ne _ _ hk]

/-- Leaving a scope forgets whatever was declared in it. -/
theorem take_extend_append (fs : List Frame) (f : Frame) (os : List Outline) :
    (extend (fs ++ [f]) fs.length os).take fs.length = fs := by
  apply List.ext_getElem?
  intro k
  rw [List.getElem?_take]
  by_cases hk : k < fs.length
  · rw [if_pos hk, getElem?_extend_ne (by omega), List.getElem?_append_left hk]
  · rw [if_neg hk, List.getElem?_eq_none (by omega)]

theorem Store.Scope.binds_iff_frame {s : Store.Scope} {name : String} : s.binds name = true ↔ s.frame.Binds name := by
  rw [binds_iff, Frame.Binds, frame, List.map_map]
  rfl

namespace Arena

variable {a : Arena} {h : Nat}

theorem frames_getElem? : a.frames[h]? = (a.scopes[h]?).map Store.Scope.frame := by
  simp [frames]

theorem frame_of_scope {s : Store.Scope} (hs : a.scopes[h]? = some s) : a.frames[h]? = some s.frame := by
  rw [frames_getElem?, hs]
  rfl

theorem scope_of_frame {f : Frame} (hf : a.frames[h]? = some f) : ∃ s, a.scopes[h]? = some s ∧ s.frame = f := by
  rw [frames_getElem?] at hf
  exact Option.map_eq_some_iff.mp hf

theorem exists_scope (hh : h < a.frames.length) : ∃ s, a.scopes[h]? = some s := by
  rw [frames, List.length_map] at hh
  exact ⟨_, List.getElem?_eq_getElem hh⟩

@[simp] theorem frames_push (p : Nat) : (a.push p).1.frames = a.frames ++ [⟨some p, []⟩] := by
  simp [push, frames, Store.Scope.frame, Store.Scope.bindings]

@[simp] theorem handle_push (p : Nat) : (a.push p).2 = a.frames.length := by
  simp [push, frames]

@[simp] theorem frames_release : (a.release h).frames = a.frames.take h := by
  simp [release, frames, List.map_take]

theorem frames_replace (s : Store.Scope) : (a.replace h s).frames = a.frames.set h s.frame := by
  simp [replace, frames, List.map_set]

/-- One more name in a scope is one more outline in its frame. -/
theorem frames_add {s : Store.Scope} (hs : a.scopes[h]? = some s) {name : String} (hnew : ¬ s.frame.Binds name)
    (type : Option String) (v : Value) :
    (a.replace h (s.add name type v)).frames = extend a.frames h [⟨name, some type, v.closure?⟩] := by
  apply List.ext_getElem?
  intro k
  rw [frames_replace]
  by_cases hk : h = k
  · subst hk
    have hlt : h < a.frames.length := (List.getElem?_eq_some_iff.mp (frame_of_scope hs)).1
    rw [getElem?_extend_self (frame_of_scope hs), List.getElem?_set_self hlt]
    rw [← Store.Scope.binds_iff_frame, Store.Scope.binds_iff] at hnew
    have hparent : (s.add name type v).parent = s.parent := rfl
    simp [Store.Scope.frame, Store.Scope.bindings_add hnew, hparent, Binding.outline]
  · rw [getElem?_extend_ne hk, List.getElem?_set_ne hk]

end Arena

/-! ## Lookups -/

/-- Outlines of one name in one frame are one outline. -/
theorem Tidy.outline_unique {fs : List Frame} (ht : Tidy fs) {h : Nat} {f : Frame} (hf : fs[h]? = some f)
    {o o' : Outline} (ho : o ∈ f.names) (ho' : o' ∈ f.names) (hn : o.name = o'.name) : o = o' :=
  List.inj_on_of_nodup_map (ht.distinct hf) ho ho' hn

theorem Tidy.names_nodup {a : Arena} (ht : Tidy a.frames) {h : Nat} {s : Store.Scope} (hs : a.scopes[h]? = some s) :
    (s.bindings.map Binding.name).Nodup := by
  have hn := ht.distinct (Arena.frame_of_scope hs)
  rwa [Store.Scope.frame, List.map_map] at hn

/-- A lookup of a name from one scope goes outward over a number of links to another. -/
inductive Walk (fs : List Frame) (name : String) : Nat → Nat → Nat → Prop
  | here {h : Nat} {f : Frame} (hf : fs[h]? = some f) (hb : f.Binds name) : Walk fs name h 0 h
  | outward {h p k g : Nat} {f : Frame} (hf : fs[h]? = some f) (hb : ¬ f.Binds name) (hp : f.parent = some p)
      (hw : Walk fs name p k g) : Walk fs name h (k + 1) g

namespace Walk

variable {fs : List Frame} {name : String} {h k g : Nat}

/-- Where a walk ends, the name is bound. -/
theorem target (hw : Walk fs name h k g) : ∃ f, fs[g]? = some f ∧ f.Binds name := by
  induction hw with
  | here hf hb => exact ⟨_, hf, hb⟩
  | outward _ _ _ _ ih => exact ih

theorem unique {k' g' : Nat} (hw : Walk fs name h k g) (hw' : Walk fs name h k' g') : k = k' ∧ g = g' := by
  induction hw generalizing k' with
  | here hf hb =>
    cases hw' with
    | here => exact ⟨rfl, rfl⟩
    | outward hf' hb' =>
      obtain rfl := Option.some.inj (hf.symm.trans hf')
      exact absurd hb hb'
  | outward hf hb hp _ ih =>
    cases hw' with
    | here hf' hb' =>
      obtain rfl := Option.some.inj (hf.symm.trans hf')
      exact absurd hb' hb
    | outward hf' _ hp' hw' =>
      obtain rfl := Option.some.inj (hf.symm.trans hf')
      obtain rfl := Option.some.inj (hp.symm.trans hp')
      obtain ⟨rfl, rfl⟩ := ih hw'
      exact ⟨rfl, rfl⟩

end Walk

namespace Arena

variable {a : Arena} {h : Nat} {name : String}

theorem resolveIn_of_walk (ht : Tidy a.frames) {k g : Nat} (hw : Walk a.frames name h k g) {steps : Nat}
    (hs : h < steps) : a.resolveIn name steps h = .ok (some g) := by
  induction hw generalizing steps with
  | here hf hb =>
    obtain ⟨n, rfl⟩ := Nat.exists_eq_add_one_of_ne_zero (Nat.ne_zero_of_lt hs)
    obtain ⟨s, hscope, rfl⟩ := scope_of_frame hf
    simp only [resolveIn, scope_iff.mpr hscope, ok_bind, Store.Scope.binds_iff_frame.mpr hb, if_true, pure_eq]
  | outward hf hb hp _ ih =>
    obtain ⟨n, rfl⟩ := Nat.exists_eq_add_one_of_ne_zero (Nat.ne_zero_of_lt hs)
    obtain ⟨s, hscope, rfl⟩ := scope_of_frame hf
    have hlt := ht.ordered hf hp
    have hparent : s.parent = _ := hp
    rw [← Store.Scope.binds_iff_frame] at hb
    simp only [resolveIn, scope_iff.mpr hscope, ok_bind, hb, hparent]
    exact ih (by omega)

theorem walk_of_resolveIn {steps g : Nat} (hr : a.resolveIn name steps h = .ok (some g)) :
    ∃ k, Walk a.frames name h k g := by
  induction steps generalizing h with
  | zero => simp [resolveIn] at hr
  | succ n ih =>
    rw [resolveIn, bind_iff] at hr
    obtain ⟨s, hs, hr⟩ := hr
    have hf := frame_of_scope (scope_iff.mp hs)
    by_cases hb : s.binds name
    · rw [if_pos hb] at hr
      cases hr
      exact ⟨0, .here hf (Store.Scope.binds_iff_frame.mp hb)⟩
    · rw [if_neg hb] at hr
      rw [Store.Scope.binds_iff_frame] at hb
      split at hr
      · next p hp =>
        obtain ⟨k, hw⟩ := ih hr
        exact ⟨k + 1, .outward hf hb hp hw⟩
      · cases hr

/-- A lookup gives the scope at the end of the walk. -/
theorem resolve_iff (ht : Tidy a.frames) (hh : h < a.frames.length) {g : Nat} :
    a.resolve h name = .ok (some g) ↔ ∃ k, Walk a.frames name h k g := by
  constructor
  · exact walk_of_resolveIn
  · rintro ⟨k, hw⟩
    refine resolveIn_of_walk ht hw ?_
    simpa [frames] using Nat.lt_succ_of_lt hh

/-- What a lookup of a name finds. -/
theorem find?_of_walk (ht : Tidy a.frames) (hh : h < a.frames.length) {k g : Nat}
    (hw : Walk a.frames name h k g) :
    ∃ s b, a.scopes[g]? = some s ∧ s.find? name = some b ∧ a.find? h name = .ok (some (g, b)) := by
  obtain ⟨f, hf, hb⟩ := hw.target
  obtain ⟨s, hs, rfl⟩ := scope_of_frame hf
  obtain ⟨v, hv⟩ := Option.isSome_iff_exists.mp (Store.Scope.binds_iff_frame.mpr hb)
  refine ⟨s, _, hs, ?_, find?_of_resolve ((resolve_iff ht hh).mpr ⟨k, hw⟩) hs hv⟩
  rw [Store.Scope.find?, hv, Option.map_some]

/-- What a lookup finds is what the frame at the end of the walk says. -/
theorem bound_of_walk (ht : Tidy a.frames) (hh : h < a.frames.length) {k g : Nat} {f : Frame} {e : Typing.Entry}
    (hw : Walk a.frames name h k g) (hf : a.frames[g]? = some f) (he : (name, e) ∈ f.static) :
    ∃ s b, a.scopes[g]? = some s ∧ b ∈ s.bindings ∧ a.find? h name = .ok (some (g, b)) ∧
      b.outline ∈ f.names ∧ b.outline.static = (name, e) := by
  obtain ⟨s, b, hs, hfind, hr⟩ := find?_of_walk ht hh hw
  obtain ⟨hmem, hname⟩ := Store.Scope.of_find? hfind
  cases hf.symm.trans (frame_of_scope hs)
  obtain ⟨o, ho, hstatic⟩ := List.mem_map.mp he
  have houtline : b.outline ∈ s.frame.names := List.mem_map_of_mem hmem
  have hsame : b.outline = o := ht.outline_unique hf houtline ho (hname.trans (Prod.mk.inj hstatic).1.symm)
  exact ⟨s, b, hs, hmem, hr, houtline, hsame ▸ hstatic⟩

/-- Whatever a lookup finds is bound in a scope. -/
theorem of_find? {g : Nat} {b : Binding} (hr : a.find? h name = .ok (some (g, b))) :
    ∃ s, a.scopes[g]? = some s ∧ s.find? name = some b := by
  rw [find?, bind_iff] at hr
  obtain ⟨r, -, hr⟩ := hr
  cases r with
  | none => cases hr
  | some found =>
    simp only [bind_iff] at hr
    obtain ⟨s, hs, hr⟩ := hr
    split at hr
    · cases hr
    · next b' hb =>
      cases hr
      exact ⟨s, scope_iff.mp hs, hb⟩

theorem bound_of_find? {g : Nat} {b : Binding} {s : Store.Scope} (hr : a.find? h name = .ok (some (g, b)))
    (hs : a.scopes[g]? = some s) : name ∈ s.bindings.map Binding.name := by
  obtain ⟨s', hs', hb⟩ := of_find? hr
  obtain rfl := Option.some.inj (hs.symm.trans hs')
  obtain ⟨hmem, hname⟩ := Store.Scope.of_find? hb
  exact hname ▸ List.mem_map_of_mem hmem

/-- A value that is read is bound in a scope. -/
theorem of_get {v : Value} (hr : a.get h name = .ok v) :
    ∃ (g : Nat) (s : Store.Scope) (b : Binding),
      a.scopes[g]? = some s ∧ s.find? name = some b ∧ b.value = v := by
  rw [get_eq, bind_iff] at hr
  obtain ⟨r, hr, hv⟩ := hr
  cases r with
  | none => simp at hv
  | some found =>
    obtain ⟨g, b⟩ := found
    obtain ⟨s, hs, hb⟩ := of_find? hr
    cases hv
    exact ⟨g, s, b, hs, hb, rfl⟩

/-- A function that is read is declared in a scope of the arena, which it knows. -/
theorem closure_of_get (ht : Tidy a.frames) {c : Closure} (hr : a.get h name = .ok (.function c)) :
    ∃ f o, a.frames[c.scope]? = some f ∧ o ∈ f.names ∧ o.name = name ∧ o.closure = some c := by
  obtain ⟨g, s, b, hs, hb, hv⟩ := of_get hr
  obtain ⟨hmem, hname⟩ := Store.Scope.of_find? hb
  have hf := frame_of_scope hs
  have hown := ht.owned hf (List.mem_map_of_mem hmem)
  have hc : b.outline.closure = some c := by simp [Binding.outline, hv, Value.closure?]
  rw [Outline.BelongsTo, hc] at hown
  rw [hown.2]
  exact ⟨_, _, hf, List.mem_map_of_mem hmem, hname, hc⟩

end Arena

/-! ## Changes -/

theorem Tidy.push {fs : List Frame} (ht : Tidy fs) {p : Nat} (hp : p < fs.length) : Tidy (fs ++ [⟨some p, []⟩]) := by
  -- A handle names an old frame or the new one.
  have split : ∀ {h : Nat} {f : Frame}, (fs ++ [⟨some p, []⟩])[h]? = some f →
      fs[h]? = some f ∨ h = fs.length ∧ f = ⟨some p, []⟩ := by
    intro h f hf
    by_cases hh : h < fs.length
    · exact .inl (by rwa [List.getElem?_append_left hh] at hf)
    · have hlt := (List.getElem?_eq_some_iff.mp hf).1
      obtain rfl : h = fs.length := by simp at hlt; omega
      exact .inr ⟨rfl, by simpa using hf.symm⟩
  constructor
  · intro h f hf
    rcases split hf with hf | ⟨rfl, rfl⟩
    · exact ht.rooted hf
    · simp
      intro hnil
      simp [hnil] at hp
  · intro h q f hf hq
    rcases split hf with hf | ⟨rfl, rfl⟩
    · exact ht.ordered hf hq
    · cases hq
      exact hp
  · intro h f hf
    rcases split hf with hf | ⟨rfl, rfl⟩
    · exact ht.distinct hf
    · exact List.nodup_nil
  · intro h f o hf ho
    rcases split hf with hf | ⟨rfl, rfl⟩
    · exact ht.owned hf ho
    · cases ho

/-- What is left of tidy frames when the last ones are gone. -/
theorem Tidy.take {fs : List Frame} (ht : Tidy fs) (n : Nat) : Tidy (fs.take n) := by
  have sub : ∀ {h : Nat} {f : Frame}, (fs.take n)[h]? = some f → fs[h]? = some f := by
    intro h f hf
    rw [List.getElem?_take] at hf
    split at hf
    · exact hf
    · cases hf
  exact ⟨fun hf => ht.rooted (sub hf), fun hf => ht.ordered (sub hf), fun hf => ht.distinct (sub hf),
    fun hf => ht.owned (sub hf)⟩

theorem Tidy.extend {fs : List Frame} (ht : Tidy fs) {h : Nat} {f : Frame} (hf : fs[h]? = some f) {o : Outline}
    (hnew : ¬ f.Binds o.name) (ho : o.BelongsTo h) : Tidy (extend fs h [o]) := by
  -- Frames keep their parents, and only the frame of the handle has another name.
  have split : ∀ {k : Nat} {g : Frame}, (TillLang.extend fs h [o])[k]? = some g →
      fs[k]? = some g ∨ k = h ∧ g = { f with names := f.names ++ [o] } := by
    intro k g hg
    by_cases hk : h = k
    · subst hk
      rw [getElem?_extend_self hf] at hg
      exact .inr ⟨rfl, (Option.some.inj hg).symm⟩
    · rw [getElem?_extend_ne hk] at hg
      exact .inl hg
  constructor
  · intro k g hg
    rcases split hg with hg | ⟨rfl, rfl⟩
    · exact ht.rooted hg
    · exact ht.rooted (f := f) hf
  · intro k q g hg hq
    rcases split hg with hg | ⟨rfl, rfl⟩
    · exact ht.ordered hg hq
    · exact ht.ordered hf hq
  · intro k g hg
    rcases split hg with hg | ⟨rfl, rfl⟩
    · exact ht.distinct hg
    · rw [List.map_append, List.map_singleton, List.nodup_append_comm]
      exact List.nodup_cons.mpr ⟨hnew, ht.distinct hf⟩
  · intro k g o' hg ho'
    rcases split hg with hg | ⟨rfl, rfl⟩
    · exact ht.owned hg ho'
    · rcases List.mem_append.mp ho' with ho' | ho'
      · exact ht.owned hf ho'
      · obtain rfl := List.mem_singleton.mp ho'
        exact ho

theorem tidy_start : Tidy Arena.start.frames := by
  have only : ∀ {h : Nat} {f : Frame}, Arena.start.frames[h]? = some f → h = 0 ∧ f = ⟨none, []⟩ := by
    intro h f hf
    cases h with
    | zero => exact ⟨rfl, (Option.some.inj hf).symm⟩
    | succ h => cases hf
  constructor
  · intro h f hf
    obtain ⟨rfl, rfl⟩ := only hf
    simp
  · intro h p f hf hp
    obtain ⟨rfl, rfl⟩ := only hf
    cases hp
  · intro h f hf
    obtain ⟨rfl, rfl⟩ := only hf
    exact List.nodup_nil
  · intro h f o hf ho
    obtain ⟨rfl, rfl⟩ := only hf
    cases ho

/-- A value of a type of variables is no function. -/
theorem Value.closure_of_check {v : Value} {type : String} (h : v.check type = .ok ()) : v.closure? = Option.none := by
  unfold Value.check at h
  cases v with
  | function c =>
    split at h
    · cases h
    · next hp =>
      split at h
      · next ht =>
        subst ht
        exact absurd rfl hp
      · cases h
  | _ => rfl

namespace Arena

variable {a a' : Arena} {h : Nat} {name : String}

theorem check_of_initial {type : String} {v v' : Value} (hi : initial type v = .ok v') : v'.check type = .ok () := by
  unfold initial at hi
  split at hi
  all_goals
    simp only [bind_iff] at hi
    obtain ⟨u, -, ⟨⟩, hc, hi⟩ := hi
    cases hi
    exact hc

/-- What a declaration of a variable does. -/
theorem declare_iff {type : Option String} {v : Value} :
    a.declare h name type v = .ok a' ↔
      ∃ s t v', a.scopes[h]? = some s ∧ ¬ s.frame.Binds name ∧ type = some t ∧ initial t v = .ok v' ∧
        a' = a.replace h (s.add name (some t) v') := by
  unfold declare
  rw [bind_iff]
  constructor
  · rintro ⟨s, hs, hd⟩
    by_cases hb : s.binds name
    · simp [hb] at hd
    · simp only [hb, Bool.false_eq_true, if_false] at hd
      cases type with
      | none => simp at hd
      | some t =>
        cases hi : initial t v with
        | error e => simp [hi] at hd
        | ok v' =>
          simp [hi] at hd
          exact ⟨s, t, v', scope_iff.mp hs, fun hbinds => hb (Store.Scope.binds_iff_frame.mpr hbinds), rfl, hi, hd.symm⟩
  · rintro ⟨s, t, v', hs, hb, rfl, hi, rfl⟩
    rw [← Store.Scope.binds_iff_frame] at hb
    exact ⟨s, scope_iff.mpr hs, by simp [hb, hi]⟩

/-- What a declaration of a function does. -/
theorem declareFunction_iff {c : Closure} :
    a.declareFunction h name c = .ok a' ↔
      ∃ s, a.scopes[h]? = some s ∧ ¬ s.frame.Binds name ∧ a' = a.replace h (s.add name none (.function c)) := by
  unfold declareFunction
  rw [bind_iff]
  constructor
  · rintro ⟨s, hs, hd⟩
    by_cases hb : s.binds name
    · simp [hb] at hd
    · simp [hb] at hd
      exact ⟨s, scope_iff.mp hs, fun hbinds => hb (Store.Scope.binds_iff_frame.mpr hbinds), hd.symm⟩
  · rintro ⟨s, hs, hb, rfl⟩
    rw [← Store.Scope.binds_iff_frame] at hb
    exact ⟨s, scope_iff.mpr hs, by simp [hb]⟩

/-- What an assignment does. -/
theorem set_iff {v : Value} :
    a.set h name v = .ok a' ↔
      ∃ g b t s, a.find? h name = .ok (some (g, b)) ∧ b.type = some (some t) ∧ v.check t = .ok () ∧
        a.scopes[g]? = some s ∧ a' = a.replace g (s.setValue name v) := by
  rw [set_eq, bind_iff]
  constructor
  · rintro ⟨r, hr, hset⟩
    cases r with
    | none => simp at hset
    | some found =>
      obtain ⟨g, b⟩ := found
      simp only at hset
      match ht : b.type with
      | none => simp [ht] at hset
      | some none => simp [ht] at hset
      | some (some t) =>
        rw [ht] at hset
        simp only at hset
        cases hc : v.check t with
        | error e => simp [hc] at hset
        | ok u =>
          rw [hc] at hset
          simp only [bind_iff] at hset
          obtain ⟨s, hs, hset⟩ := hset
          cases hset
          exact ⟨g, b, t, s, hr, ht, hc, scope_iff.mp hs, rfl⟩
  · rintro ⟨g, b, t, s, hr, ht, hc, hs, rfl⟩
    refine ⟨_, hr, ?_⟩
    simp [ht, hc, scope_iff.mpr hs]

theorem declare_frames (ht : Tidy a.frames) {type : Option String} {v : Value}
    (hd : a.declare h name type v = .ok a') :
    a'.frames = extend a.frames h [⟨name, some type, none⟩] ∧ Tidy a'.frames := by
  obtain ⟨s, t, v', hs, hb, rfl, hi, rfl⟩ := declare_iff.mp hd
  have hframes := frames_add hs hb (some t) v'
  rw [Value.closure_of_check (check_of_initial hi)] at hframes
  refine ⟨hframes, ?_⟩
  rw [hframes]
  exact ht.extend (frame_of_scope hs) hb ⟨t, rfl⟩

theorem declareFunction_frames (ht : Tidy a.frames) {c : Closure} (hc : c.scope = h)
    (hd : a.declareFunction h name c = .ok a') :
    a'.frames = extend a.frames h [⟨name, some none, some c⟩] ∧ Tidy a'.frames := by
  obtain ⟨s, hs, hb, rfl⟩ := declareFunction_iff.mp hd
  have hframes := frames_add hs hb none (.function c)
  refine ⟨hframes, ?_⟩
  rw [hframes]
  exact ht.extend (frame_of_scope hs) hb ⟨rfl, hc⟩

/-- An assignment changes a value and nothing else. -/
theorem set_frames (ht : Tidy a.frames) {v : Value} (hset : a.set h name v = .ok a') : a'.frames = a.frames := by
  obtain ⟨g, b, t, s, hr, hty, hc, hs, rfl⟩ := set_iff.mp hset
  obtain ⟨s', hs', hfind⟩ := of_find? hr
  obtain rfl := Option.some.inj (hs.symm.trans hs')
  obtain ⟨hmem, hname⟩ := Store.Scope.of_find? hfind
  have hf := frame_of_scope hs
  have hsame : (s.setValue name v).frame = s.frame := by
    have hparent : (s.setValue name v).parent = s.parent := rfl
    simp only [Store.Scope.frame, Store.Scope.bindings_setValue (bound_of_find? hr hs),
      hparent, List.map_map, Frame.mk.injEq, true_and]
    refine List.map_congr_left fun b' hb' => ?_
    simp only [Function.comp_apply]
    split
    · next hn =>
      -- The one binding of that name is a variable's, before and after.
      have heq := ht.outline_unique hf (List.mem_map_of_mem hb') (List.mem_map_of_mem hmem) (hn.trans hname.symm)
      have hown := ht.owned hf (List.mem_map_of_mem hb')
      have hty' : b'.type = some (some t) := (congrArg Outline.type heq).trans hty
      simp only [Outline.BelongsTo, Binding.outline, hty'] at hown
      simp only [Binding.outline, Value.closure_of_check hc, Outline.mk.injEq, true_and]
      cases hcl : b'.value.closure? with
      | none => rfl
      | some c =>
        rw [hcl] at hown
        cases hown.1
    · rfl
  obtain ⟨hlt, hget⟩ := List.getElem?_eq_some_iff.mp hf
  rw [frames_replace, hsame, ← hget]
  exact List.set_getElem_self hlt

end Arena

end TillLang
