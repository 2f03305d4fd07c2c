/-
  TillLang.Proofs.Store.Typed — arenas whose variables hold values of their types.

  `Value.Of` says that a value is of one of the types of variables; the payload of a character is
  a text then. An arena is `Typed` if every variable holds a value of its declared type. In such
  an arena a declaration or an assignment of a value of the right type succeeds and keeps it
  typed.
-/

import TillLang.Proofs.Store.Sound

namespace TillLang

open Success

/-- A value of a type of variables. -/
inductive Value.Of : Value → String → Prop
  | num (x : Float) : Of (.num x) "Num"
  | char (s : String) : Of (.char (.str s)) "Char"
  | bool (b : Bool) : Of (.bool b) "Bool"
  | str (s : String) : Of (.str s) "Str"

namespace Value.Of

variable {v : Value} {t : String}

theorem check (h : v.Of t) : v.check t = .ok () := by
  cases h <;> rfl

theorem isNone (h : v.Of t) : v.isNone = false := by
  cases h <;> rfl

theorem isUnit (h : v.Of t) : v.isUnit = false := by
  cases h <;> rfl

/-- What is displayed for a value is a text. -/
theorem shown (h : v.Of t) : ∃ s, v.shown = .str s := by
  cases h <;> exact ⟨_, rfl⟩

theorem initial (h : v.Of t) : Arena.initial t v = .ok v := by
  simp [Arena.initial, h.isNone, h.check]

/-- Every type of variables has a value to start with. -/
theorem zero (h : isPrimitive t = true) : ∃ v, Arena.initial t .none = .ok v ∧ v.Of t := by
  simp only [isPrimitive, primitiveTypes, List.contains_eq_mem, List.mem_cons, List.not_mem_nil, or_false,
    decide_eq_true_eq] at h
  rcases h with rfl | rfl | rfl | rfl
  · exact ⟨.num 0, rfl, .num 0⟩
  · exact ⟨_, rfl, .char _⟩
  · exact ⟨.bool false, rfl, .bool false⟩
  · exact ⟨.str "", rfl, .str ""⟩

theorem num_inv (h : v.Of "Num") : ∃ x, v = .num x := by
  generalize ht : "Num" = t at h
  cases h with
  | num x => exact ⟨x, rfl⟩
  | _ => exact absurd ht (by decide)

theorem bool_inv (h : v.Of "Bool") : ∃ b, v = .bool b := by
  generalize ht : "Bool" = t at h
  cases h with
  | bool b => exact ⟨b, rfl⟩
  | _ => exact absurd ht (by decide)

end Value.Of

/-- Every variable of an arena holds a value of its type. -/
def Arena.Typed (a : Arena) : Prop := a.Holds Value.Of

namespace Arena

variable {a : Arena} {h : Nat} {name t : String} {v : Value}

theorem typed_start : start.Typed := holds_start

theorem Typed.push (ha : a.Typed) (p : Nat) : (a.push p).1.Typed := Holds.push ha p

theorem Typed.release (ha : a.Typed) (h : Nat) : (a.release h).Typed := Holds.release ha h

/-- A new variable with an initial value of its type can be declared. -/
theorem Typed.declare (ha : a.Typed) {f : Frame} (hf : a.frames[h]? = some f) (hnew : ¬ f.Binds name) {v' : Value}
    (hi : initial t v = .ok v') (hv : v'.Of t) : ∃ a', a.declare h name (some t) v = .ok a' ∧ a'.Typed := by
  obtain ⟨s, hs, rfl⟩ := scope_of_frame hf
  refine ⟨_, declare_iff.mpr ⟨s, t, v', hs, hnew, rfl, hi, rfl⟩, Holds.add ha hs hnew fun t' ht' => ?_⟩
  cases ht'
  exact hv

/-- A new function can be declared. -/
theorem Typed.declareFunction (ha : a.Typed) {f : Frame} (hf : a.frames[h]? = some f) (hnew : ¬ f.Binds name)
    (c : Closure) : ∃ a', a.declareFunction h name c = .ok a' ∧ a'.Typed := by
  obtain ⟨s, hs, rfl⟩ := scope_of_frame hf
  exact ⟨_, declareFunction_iff.mpr ⟨s, hs, hnew, rfl⟩, Holds.add ha hs hnew fun t' ht' => by cases ht'⟩

/-! ## Names that are resolved -/

variable {k g : Nat} {f : Frame}

/-- The binding of a variable has its type. -/
theorem type_of_static {b : Binding} (hb : b.outline.BelongsTo g) (hs : b.outline.static = (name, .variable t)) :
    b.type = some (some t) := by
  unfold Outline.BelongsTo at hb
  obtain ⟨-, hentry⟩ := Prod.mk.inj hs
  unfold Outline.entry at hentry
  cases hc : b.outline.closure with
  | some c =>
    rw [hc] at hentry
    cases hentry
  | none =>
    rw [hc] at hb hentry
    obtain ⟨t', ht'⟩ := hb
    rw [ht'] at hentry
    cases hentry
    exact ht'

/-- Reading a variable gives a value of its type. -/
theorem Typed.get (ha : a.Typed) (ht : Tidy a.frames) (hh : h < a.frames.length) (hw : Walk a.frames name h k g)
    (hf : a.frames[g]? = some f) (he : (name, .variable t) ∈ f.static) : ∃ v, a.get h name = .ok v ∧ v.Of t := by
  obtain ⟨s, b, hs, hmem, hr, hb, hstatic⟩ := bound_of_walk ht hh hw hf he
  refine ⟨b.value, ?_, ha s (List.mem_of_getElem? hs) b hmem t (type_of_static (ht.owned hf hb) hstatic)⟩
  simp [Arena.get_eq, hr]

/-- A variable can be assigned a value of its type. -/
theorem Typed.set (ha : a.Typed) (ht : Tidy a.frames) (hh : h < a.frames.length) (hw : Walk a.frames name h k g)
    (hf : a.frames[g]? = some f) (he : (name, .variable t) ∈ f.static) (hv : v.Of t) :
    ∃ a', a.set h name v = .ok a' ∧ a'.Typed := by
  obtain ⟨s, b, hs, hmem, hr, hb, hstatic⟩ := bound_of_walk ht hh hw hf he
  have hty := type_of_static (ht.owned hf hb) hstatic
  have hset : a.set h name v = .ok _ := set_iff.mpr ⟨g, b, t, s, hr, hty, hv.check, hs, rfl⟩
  refine ⟨_, hset, Holds.set ha hset fun t' hpass => ?_⟩
  have htype := (Value.passes_iff.mp hv.check).2
  rwa [← (Value.passes_iff.mp hpass).2, htype]

/-- Reading a function gives the closure that its frame holds. -/
theorem get_function (ht : Tidy a.frames) (hh : h < a.frames.length) (hw : Walk a.frames name h k g)
    (hf : a.frames[g]? = some f) {params : List String} {returns : Option String}
    (he : (name, .function params returns) ∈ f.static) :
    ∃ c, a.get h name = .ok (.function c) ∧ params = c.params.map Node.writtenType ∧ returns = c.returns := by
  obtain ⟨s, b, hs, hmem, hr, hb, hstatic⟩ := bound_of_walk ht hh hw hf he
  obtain ⟨-, hentry⟩ := Prod.mk.inj hstatic
  unfold Outline.entry at hentry
  cases hc : b.outline.closure with
  | none =>
    rw [hc] at hentry
    cases hentry
  | some c =>
    rw [hc] at hentry
    cases hentry
    refine ⟨c, ?_, rfl, rfl⟩
    simp only [Arena.get_eq, hr, ok_bind, pure_eq, Except.ok.injEq]
    cases hv : b.value with
    | function c' =>
      simp only [Binding.outline, hv, Value.closure?, Option.some.injEq] at hc
      rw [hc]
    | _ => simp [Binding.outline, hv, Value.closure?] at hc

end Arena

end TillLang
