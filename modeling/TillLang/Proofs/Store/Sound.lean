/-
  TillLang.Proofs.Store.Sound — what holds of the arena of every run.

  `Arena.Sound` is the invariant of the store, said of the two maps of every scope as they are:
  parents come before their children, the maps have the same names, every variable holds a value
  of its declared type, and every function knows the scope it was declared in. Nothing is asked
  of the program, so the values are only known to pass the check that the store itself makes.

  `Arena.Stable` is the general form of an invariant: whatever each access to the arena keeps.
  Frames take care of parents, names and functions (`Tidy`); that the maps of a scope agree in
  their names and that what variables hold passes for their types is stable (`stable_kept`); both
  together are the invariant (`Sound.of_tidy`). In a sound arena a lookup ends, whichever scope it
  starts from (`resolve_ends`), and no access misses a scope or an entry (`Store.Fault.Broken`).
-/

import TillLang.Proofs.Store.Outline

namespace TillLang

open Success

/-- The invariant of the store. -/
structure Arena.Sound (a : Arena) : Prop where
  rooted : ∃ s, a.scopes[0]? = some s ∧ s.parent = none
  parents : ∀ {i : Nat} {s : Store.Scope}, 0 < i → a.scopes[i]? = some s → ∃ p, s.parent = some p ∧ p < i
  named : ∀ {i : Nat} {s : Store.Scope}, a.scopes[i]? = some s → s.types.map Prod.fst = s.values.map Prod.fst
  distinct : ∀ {i : Nat} {s : Store.Scope}, a.scopes[i]? = some s → (s.values.map Prod.fst).Nodup
  typed : ∀ {i : Nat} {s : Store.Scope} {name t : String} {v : Value}, a.scopes[i]? = some s → (name, v) ∈ s.values →
    s.types.lookup name = some (some t) → isPrimitive t = true ∧ v.typeName = t
  untyped : ∀ {i : Nat} {s : Store.Scope} {name : String} {v : Value}, a.scopes[i]? = some s → (name, v) ∈ s.values →
    s.types.lookup name = some none → ∃ c, v = .function c
  closures : ∀ {i : Nat} {s : Store.Scope} {name : String} {c : Closure}, a.scopes[i]? = some s →
    (name, .function c) ∈ s.values → c.scope = i

/-- What every access to an arena keeps. -/
structure Arena.Stable (I : Arena → Prop) : Prop where
  push : ∀ {a : Arena} (parent : Nat), I a → I (a.push parent).1
  release : ∀ {a : Arena} (handle : Nat), I a → I (a.release handle)
  declare : ∀ {a a' : Arena} {h : Nat} {name : String} {type : Option String} {v : Value}, I a →
    a.declare h name type v = .ok a' → I a'
  declareFunction : ∀ {a a' : Arena} {h : Nat} {name : String} {c : Closure}, I a →
    a.declareFunction h name c = .ok a' → I a'
  set : ∀ {a a' : Arena} {h : Nat} {name : String} {v : Value}, I a →
    a.set h name v = .ok a' → I a'

/-! ## What bindings are -/

/-- Every binding of an arena has a property. -/
def Arena.Every (P : Binding → Prop) (a : Arena) : Prop := ∀ s ∈ a.scopes, ∀ b ∈ s.bindings, P b

namespace Arena

variable {P : Binding → Prop} {a : Arena} {h : Nat}

theorem every_start : start.Every P := by
  intro s hs b hb
  obtain rfl := List.mem_singleton.mp hs
  cases hb

theorem Every.push (ha : a.Every P) (p : Nat) : (a.push p).1.Every P := by
  intro s hs b hb
  rcases List.mem_append.mp hs with hs | hs
  · exact ha s hs b hb
  · obtain rfl := List.mem_singleton.mp hs
    cases hb

theorem Every.release (ha : a.Every P) (h : Nat) : (a.release h).Every P :=
  fun s hs => ha s (List.mem_of_mem_take hs)

theorem Every.replace (ha : a.Every P) {s : Store.Scope} (hs : ∀ b ∈ s.bindings, P b) : (a.replace h s).Every P := by
  intro s' hs'
  rcases List.mem_or_eq_of_mem_set hs' with hs' | rfl
  · exact ha s' hs'
  · exact hs

theorem Every.add (ha : a.Every P) {s : Store.Scope} (hs : a.scopes[h]? = some s) {name : String}
    (hnew : ¬ s.frame.Binds name) {type : Option String} {v : Value} (hb : P ⟨name, some type, v⟩) :
    (a.replace h (s.add name type v)).Every P := by
  refine ha.replace fun b' hb' => ?_
  rw [← Store.Scope.binds_iff_frame, Store.Scope.binds_iff] at hnew
  rw [Store.Scope.bindings_add hnew] at hb'
  rcases List.mem_append.mp hb' with hb' | hb'
  · exact ha s (List.mem_of_getElem? hs) b' hb'
  · obtain rfl := List.mem_singleton.mp hb'
    exact hb

/-- An assignment gives a variable a value that passes for its type. -/
theorem Every.set (ha : a.Every P) {a' : Arena} {name : String} {v : Value} (hset : a.set h name v = .ok a')
    (hv : ∀ (b : Binding) (t : String), P b → b.type = some (some t) → v.check t = .ok () → P { b with value := v }) :
    a'.Every P := by
  obtain ⟨g, b, t, s, hfind, hty, hcheck, hs, rfl⟩ := set_iff.mp hset
  obtain ⟨s', hs', hb⟩ := of_find? hfind
  obtain rfl := Option.some.inj (hs.symm.trans hs')
  obtain ⟨hmem, hname⟩ := Store.Scope.of_find? hb
  refine ha.replace fun b' hb' => ?_
  rw [Store.Scope.bindings_setValue (bound_of_find? hfind hs)] at hb'
  obtain ⟨b₀, hb₀, rfl⟩ := List.mem_map.mp hb'
  have hP := ha s (List.mem_of_getElem? hs) b₀ hb₀
  by_cases hn : b₀.name = name
  · -- its type is the one under that name
    have hty₀ : b₀.type = b.type := by
      rw [Store.Scope.type_of_mem hb₀, Store.Scope.type_of_mem hmem, hn, hname]
    rw [if_pos hn]
    exact hv b₀ t hP (hty₀.trans hty) hcheck
  · rwa [if_neg hn]

end Arena

/-! ## What variables hold -/

/-- Every variable of an arena holds a value that fits its type. -/
def Arena.Holds (P : Value → String → Prop) (a : Arena) : Prop :=
  a.Every fun b => ∀ t, b.type = some (some t) → P b.value t

/-- A value passes the check of the store for a type. -/
def Value.Passes (v : Value) (t : String) : Prop := v.check t = .ok ()

theorem Value.passes_iff {v : Value} {t : String} : v.Passes t ↔ isPrimitive t = true ∧ v.typeName = t := by
  unfold Value.Passes check
  by_cases hp : isPrimitive t = true
  · by_cases ht : v.typeName = t <;> simp [hp, ht]
  · simp [hp]

namespace Arena

variable {P : Value → String → Prop} {a a' : Arena} {h : Nat} {name : String} {v : Value}

theorem holds_start : start.Holds P := every_start

theorem Holds.push (ha : a.Holds P) (p : Nat) : (a.push p).1.Holds P := Every.push ha p

theorem Holds.release (ha : a.Holds P) (h : Nat) : (a.release h).Holds P := Every.release ha h

theorem Holds.add (ha : a.Holds P) {s : Store.Scope} (hs : a.scopes[h]? = some s) (hnew : ¬ s.frame.Binds name)
    {type : Option String} (hv : ∀ t, type = some t → P v t) : (a.replace h (s.add name type v)).Holds P :=
  Every.add ha hs hnew fun t ht => hv t (Option.some.inj ht)

/-- An assignment gives one variable a value that passes for its type. -/
theorem Holds.set (ha : a.Holds P) (hset : a.set h name v = .ok a') (hv : ∀ t, v.Passes t → P v t) : a'.Holds P := by
  refine Every.set ha hset fun b t hb hty hpass t' ht' => ?_
  obtain rfl : t = t' := Option.some.inj (Option.some.inj (hty.symm.trans ht'))
  exact hv t hpass

end Arena

/-! ## The names of the two maps -/

def Store.Scope.Paired (s : Store.Scope) : Prop := s.types.map Prod.fst = s.values.map Prod.fst

/-- The values and the types of every scope have the same names. -/
def Arena.Paired (a : Arena) : Prop := ∀ s ∈ a.scopes, s.Paired

namespace Store.Scope

variable {s : Store.Scope} {name : String} {v : Value}

theorem Paired.add (hp : s.Paired) (hnew : ¬ s.frame.Binds name) (type : Option String) :
    (s.add name type v).Paired := by
  rw [← binds_iff_frame, binds_iff, names_bindings] at hnew
  have hnew' : name ∉ s.types.map Prod.fst := hp ▸ hnew
  simp only [Paired, Store.Scope.add, put_of_new hnew, put_of_new hnew', List.map_append, List.map_singleton]
  rw [hp]

theorem Paired.setValue (hp : s.Paired) (hbound : name ∈ s.bindings.map Binding.name) : (s.setValue name v).Paired := by
  rw [names_bindings] at hbound
  exact hp.trans (keys_put_of_bound hbound).symm

end Store.Scope

namespace Arena

variable {a a' : Arena} {h : Nat} {name : String} {v : Value}

theorem Paired.replace (ha : a.Paired) {s : Store.Scope} (hs : s.Paired) : (a.replace h s).Paired := by
  intro s' hs'
  rcases List.mem_or_eq_of_mem_set hs' with hs' | rfl
  · exact ha s' hs'
  · exact hs

/-- What stands in the maps of an arena: the same names in both, and values that pass for their types. -/
structure Kept (a : Arena) : Prop where
  paired : a.Paired
  holds : a.Holds Value.Passes

theorem kept_start : start.Kept where
  paired := by
    intro s hs
    obtain rfl := List.mem_singleton.mp hs
    rfl
  holds := holds_start

/-- What stands in the maps is kept, whatever is done to the arena. -/
theorem stable_kept : Stable Kept where
  push := by
    intro a p ha
    refine ⟨fun s hs => ?_, ha.holds.push p⟩
    rcases List.mem_append.mp hs with hs | hs
    · exact ha.paired s hs
    · obtain rfl := List.mem_singleton.mp hs
      rfl
  release h ha := ⟨fun s hs => ha.paired s (List.mem_of_mem_take hs), ha.holds.release h⟩
  declare := by
    intro a a' h name type v ha hd
    obtain ⟨s, t, v', hs, hnew, rfl, hi, rfl⟩ := declare_iff.mp hd
    refine ⟨ha.paired.replace ((ha.paired s (List.mem_of_getElem? hs)).add hnew _),
      ha.holds.add hs hnew fun t' ht' => ?_⟩
    obtain rfl := Option.some.inj ht'
    exact check_of_initial hi
  declareFunction := by
    intro a a' h name c ha hd
    obtain ⟨s, hs, hnew, rfl⟩ := declareFunction_iff.mp hd
    refine ⟨ha.paired.replace ((ha.paired s (List.mem_of_getElem? hs)).add hnew _), ha.holds.add hs hnew fun t ht => ?_⟩
    cases ht
  set := by
    intro a a' h name v ha hset
    refine ⟨?_, ha.holds.set hset fun _ hpass => hpass⟩
    obtain ⟨g, b, t, s, hfind, -, -, hs, rfl⟩ := set_iff.mp hset
    exact ha.paired.replace ((ha.paired s (List.mem_of_getElem? hs)).setValue (bound_of_find? hfind hs))

/-! ## The invariant -/

theorem Sound.of_tidy (ht : Tidy a.frames) (hne : 0 < a.frames.length) (ha : a.Kept) : a.Sound where
  rooted := by
    obtain ⟨s, hs⟩ := exists_scope hne
    exact ⟨s, hs, (ht.rooted (frame_of_scope hs)).mpr rfl⟩
  parents := by
    intro i s hi hs
    have hf := frame_of_scope hs
    cases hp : s.parent with
    | none =>
      have := (ht.rooted hf).mp hp
      omega
    | some p => exact ⟨p, rfl, ht.ordered hf hp⟩
  named hs := ha.paired _ (List.mem_of_getElem? hs)
  distinct hs := Store.Scope.names_bindings _ ▸ ht.names_nodup hs
  typed := by
    intro i s name t v hs hv hty
    have hb : (⟨name, some (some t), v⟩ : Binding) ∈ s.bindings := hty ▸ List.mem_map_of_mem hv
    exact Value.passes_iff.mp (ha.holds s (List.mem_of_getElem? hs) _ hb t rfl)
  untyped := by
    intro i s name v hs hv hty
    have hb : (⟨name, some none, v⟩ : Binding) ∈ s.bindings := hty ▸ List.mem_map_of_mem hv
    have hown := ht.owned (frame_of_scope hs) (List.mem_map_of_mem hb)
    cases v with
    | function c => exact ⟨c, rfl⟩
    | _ =>
      obtain ⟨t, ht⟩ := hown
      cases ht
  closures := by
    intro i s name c hs hv
    have hb : (⟨name, s.types.lookup name, .function c⟩ : Binding) ∈ s.bindings := List.mem_map_of_mem hv
    exact (ht.owned (frame_of_scope hs) (List.mem_map_of_mem hb)).2

/-- A lookup from a scope of the arena ends, and looking further changes nothing: it never runs out of steps. -/
theorem resolve_ends (ht : Tidy a.frames) (hh : h < a.frames.length) (name : String) :
    ∃ r, a.resolve h name = .ok r ∧ ∀ steps, h < steps → a.resolveIn name steps h = .ok r := by
  suffices hends : ∃ r, ∀ steps, h < steps → a.resolveIn name steps h = .ok r by
    obtain ⟨r, hr⟩ := hends
    refine ⟨r, hr _ ?_, hr⟩
    rw [frames, List.length_map] at hh
    omega
  -- the walk goes from a scope to one before it
  induction h using Nat.strongRecOn with
  | ind h ih =>
    obtain ⟨s, hs⟩ := exists_scope hh
    have hf := frame_of_scope hs
    by_cases hb : s.binds name
    · refine ⟨some h, fun steps hsteps => ?_⟩
      obtain ⟨n, rfl⟩ := Nat.exists_eq_add_one_of_ne_zero (Nat.ne_zero_of_lt hsteps)
      simp [resolveIn, scope_iff.mpr hs, hb]
    · cases hp : s.parent with
      | none =>
        refine ⟨none, fun steps hsteps => ?_⟩
        obtain ⟨n, rfl⟩ := Nat.exists_eq_add_one_of_ne_zero (Nat.ne_zero_of_lt hsteps)
        simp [resolveIn, scope_iff.mpr hs, hb, hp]
      | some p =>
        have hlt : p < h := ht.ordered hf hp
        obtain ⟨r, hr⟩ := ih p hlt (Nat.lt_trans hlt hh)
        refine ⟨r, fun steps hsteps => ?_⟩
        obtain ⟨n, rfl⟩ := Nat.exists_eq_add_one_of_ne_zero (Nat.ne_zero_of_lt hsteps)
        simp only [resolveIn, scope_iff.mpr hs, ok_bind, hb, hp, Bool.false_eq_true, if_false]
        exact hr n (by omega)

/-- A lookup from a scope of the arena finds every scope it has to look into. -/
theorem find?_ok (ht : Tidy a.frames) (hh : h < a.frames.length) (name : String) : ∃ r, a.find? h name = .ok r := by
  obtain ⟨r, hr, -⟩ := resolve_ends ht hh name
  cases r with
  | none => exact ⟨none, by simp [find?, hr]⟩
  | some g =>
    obtain ⟨k, hw⟩ := (resolve_iff ht hh).mp hr
    obtain ⟨s, b, -, -, hfind⟩ := find?_of_walk ht hh hw
    exact ⟨_, hfind⟩

end Arena

/-! ## Faults -/

/-- A fault that only a broken arena has: a handle or a name leads nowhere. -/
def Store.Fault.Broken : Store.Fault → Prop
  | .noScope | .missing _ => True
  | _ => False

namespace Arena

variable {a : Arena} {h : Nat} {name : String} {v : Value} {cause : Store.Fault}

theorem scope_ok (hh : h < a.frames.length) : ∃ s, a.scope h = .ok s := by
  obtain ⟨s, hs⟩ := exists_scope hh
  exact ⟨s, scope_iff.mpr hs⟩

theorem not_broken_of_get (ht : Tidy a.frames) (hh : h < a.frames.length) (hget : a.get h name = .error cause) :
    ¬ cause.Broken := by
  obtain ⟨r, hr⟩ := find?_ok ht hh name
  rw [get_eq, hr, ok_bind] at hget
  cases r with
  | none =>
    cases hget
    exact id
  | some found => cases hget

/-- Whatever an assignment finds has a type, if only that of functions. -/
theorem not_broken_of_set (ht : Tidy a.frames) (hh : h < a.frames.length) (hset : a.set h name v = .error cause) :
    ¬ cause.Broken := by
  obtain ⟨r, hr⟩ := find?_ok ht hh name
  rw [set_eq, hr, ok_bind] at hset
  cases r with
  | none =>
    cases hset
    exact id
  | some found =>
    obtain ⟨g, b⟩ := found
    obtain ⟨s, hs, hfind⟩ := of_find? hr
    have hown := ht.owned (frame_of_scope hs) (List.mem_map_of_mem (Store.Scope.of_find? hfind).1)
    simp only at hset
    match hty : b.type with
    | none =>
      rw [Outline.BelongsTo, Binding.outline, hty] at hown
      split at hown
      · cases hown.1
      · obtain ⟨t, ht⟩ := hown
        cases ht
    | some none =>
      rw [hty] at hset
      cases hset
      exact id
    | some (some t) =>
      rw [hty] at hset
      cases hc : v.check t with
      | error e =>
        simp only [hc] at hset
        cases hset
        exact id
      | ok u =>
        simp only [hc, scope_iff.mpr hs] at hset
        cases hset

theorem not_broken_of_declare (hh : h < a.frames.length) {type : Option String}
    (hd : a.declare h name type v = .error cause) : ¬ cause.Broken := by
  obtain ⟨s, hs⟩ := scope_ok hh
  rw [declare, hs, ok_bind] at hd
  by_cases hb : s.binds name
  · obtain rfl : .alreadyDeclared name = cause := by simpa [hb] using hd
    exact id
  · cases type with
    | none =>
      obtain rfl : .noType = cause := by simpa [hb] using hd
      exact id
    | some t =>
      cases hi : initial t v with
      | error e =>
        obtain rfl : .cannotDeclare name e = cause := by simpa [hb, hi] using hd
        exact id
      | ok v' => simp [hb, hi] at hd

theorem not_broken_of_declareFunction (hh : h < a.frames.length) {c : Closure}
    (hd : a.declareFunction h name c = .error cause) : ¬ cause.Broken := by
  obtain ⟨s, hs⟩ := scope_ok hh
  rw [declareFunction, hs, ok_bind] at hd
  by_cases hb : s.binds name
  · obtain rfl : .functionDeclared name = cause := by simpa [hb] using hd
    exact id
  · simp [hb] at hd

end Arena

end TillLang
