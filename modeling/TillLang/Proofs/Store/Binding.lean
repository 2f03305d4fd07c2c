/-
  TillLang.Proofs.Store.Binding — the two maps of a scope, read name by name.

  A scope has its values in one map and its types in another. A binding is a name with its value
  and with its entry in the map of types, if it has one there: nothing in the data keeps the maps
  in step. The first part is about maps, the second about what the changes of a scope do to its
  bindings, and the third puts the accesses to an arena in terms of the binding that a lookup finds
  (`Arena.find?`, `Arena.get_eq`, `Arena.set_eq`). A name is in the values of the scope it resolves
  to (`Arena.resolve_binds`), so no read misses it there; that an assignment never misses the type
  takes an invariant (`Arena.not_broken_of_set`).
-/

import Mathlib.Data.List.Nodup
import TillLang.Store.Arena
import TillLang.Proofs.Success

namespace TillLang

open Success

/-! ## Maps -/

namespace Store

variable {α : Type} {entries : List (String × α)} {key other : String} {x : α}

theorem lookup_isSome : (entries.lookup key).isSome ↔ key ∈ entries.map Prod.fst := by
  simp only [List.lookup_isSome_iff, List.mem_map, beq_iff_eq, @eq_comm _ key]

theorem lookup_mem (h : entries.lookup key = some x) : (key, x) ∈ entries := by
  obtain ⟨before, behind, rfl, -⟩ := List.lookup_eq_some_iff.mp h
  simp

theorem lookup_of_mem (hn : (entries.map Prod.fst).Nodup) {e : String × α} (he : e ∈ entries) :
    entries.lookup e.1 = some e.2 := by
  obtain ⟨y, hy⟩ := Option.isSome_iff_exists.mp (lookup_isSome.mpr (List.mem_map_of_mem he))
  have hsame : e = (e.1, y) := List.inj_on_of_nodup_map hn he (lookup_mem hy) rfl
  rw [hy, hsame]

theorem put_of_new (h : key ∉ entries.map Prod.fst) : put entries key x = entries ++ [(key, x)] := by
  rw [put, if_neg (by rwa [lookup_isSome])]

theorem put_of_bound (h : key ∈ entries.map Prod.fst) :
    put entries key x = entries.map fun e => if e.1 = key then (key, x) else e := by
  rw [put, if_pos (lookup_isSome.mpr h)]

theorem keys_put_of_bound (h : key ∈ entries.map Prod.fst) :
    (put entries key x).map Prod.fst = entries.map Prod.fst := by
  rw [put_of_bound h, List.map_map]
  refine List.map_congr_left fun e _ => ?_
  by_cases he : e.1 = key <;> simp [he]

/-- What is read where the values of one key were replaced. -/
theorem lookup_replaced : (entries.map fun e => if e.1 = key then (key, x) else e).lookup other =
    (entries.lookup other).map fun y => if other = key then x else y := by
  induction entries with
  | nil => rfl
  | cons e rest ih =>
    obtain ⟨k, y⟩ := e
    rw [List.map_cons]
    by_cases hk : other = k
    · subst hk
      by_cases he : other = key <;> simp [he]
    · by_cases he : k = key
      · subst he
        simp [List.lookup_cons, beq_eq_false_iff_ne.mpr hk, ih]
      · simp [List.lookup_cons, beq_eq_false_iff_ne.mpr hk, he, ih]

theorem lookup_put_self : (put entries key x).lookup key = some x := by
  unfold put
  split
  · next h =>
    obtain ⟨y, hy⟩ := Option.isSome_iff_exists.mp h
    simp [lookup_replaced, hy]
  · next h => simp [List.lookup_append, Option.not_isSome_iff_eq_none.mp h]

theorem lookup_put_ne (h : other ≠ key) : (put entries key x).lookup other = entries.lookup other := by
  unfold put
  split
  · simp [lookup_replaced, h]
  · simp [List.lookup_append, List.lookup_cons, beq_eq_false_iff_ne.mpr h]

/-! A function on the values commutes with reading and writing. -/

variable {β : Type} (f : α → β)

theorem lookup_map : (entries.map fun e => (e.1, f e.2)).lookup key = (entries.lookup key).map f := by
  induction entries with
  | nil => rfl
  | cons e rest ih =>
    obtain ⟨k, y⟩ := e
    by_cases hk : key = k
    · simp [hk]
    · simp [List.lookup_cons, beq_eq_false_iff_ne.mpr hk, ih]

theorem put_map :
    put (entries.map fun e => (e.1, f e.2)) key (f x) = (put entries key x).map fun e => (e.1, f e.2) := by
  unfold put
  rw [lookup_map, Option.isSome_map]
  split
  · rw [List.map_map, List.map_map]
    refine List.map_congr_left fun e _ => ?_
    by_cases he : e.1 = key <;> simp [he]
  · simp

end Store

/-! ## Bindings -/

/-- A name with its value, and its entry in the map of types if it has one there. -/
structure Binding where
  name : String
  type : Option (Option String)
  value : Value

namespace Store.Scope

variable {s : Store.Scope} {name : String} {b : Binding}

def bindings (s : Store.Scope) : List Binding := s.values.map fun e => ⟨e.1, s.types.lookup e.1, e.2⟩

def find? (s : Store.Scope) (name : String) : Option Binding :=
  (s.values.lookup name).map fun value => ⟨name, s.types.lookup name, value⟩

@[simp] theorem names_bindings (s : Store.Scope) : s.bindings.map Binding.name = s.values.map Prod.fst := by
  simp [bindings]

theorem binds_iff : s.binds name = true ↔ name ∈ s.bindings.map Binding.name := by
  rw [names_bindings, binds, lookup_isSome]

theorem of_find? (h : s.find? name = some b) : b ∈ s.bindings ∧ b.name = name := by
  obtain ⟨v, hv, rfl⟩ := Option.map_eq_some_iff.mp h
  exact ⟨List.mem_map_of_mem (lookup_mem hv), rfl⟩

/-- The type of a binding is what the map of types has under its name. -/
theorem type_of_mem (h : b ∈ s.bindings) : b.type = s.types.lookup b.name := by
  obtain ⟨e, -, rfl⟩ := List.mem_map.mp h
  rfl

theorem bindings_add (h : name ∉ s.bindings.map Binding.name) (type : Option String) (v : Value) :
    (s.add name type v).bindings = s.bindings ++ [⟨name, some type, v⟩] := by
  rw [names_bindings] at h
  simp only [bindings, add, put_of_new h, List.map_append, List.map_singleton, lookup_put_self]
  congr 1
  refine List.map_congr_left fun e he => ?_
  have hne : e.1 ≠ name := fun heq => h (heq ▸ List.mem_map_of_mem he)
  rw [lookup_put_ne hne]

theorem bindings_setValue (h : name ∈ s.bindings.map Binding.name) (v : Value) :
    (s.setValue name v).bindings = s.bindings.map fun b => if b.name = name then { b with value := v } else b := by
  rw [names_bindings] at h
  simp only [bindings, setValue, put_of_bound h, List.map_map]
  refine List.map_congr_left fun e _ => ?_
  by_cases he : e.1 = name <;> simp [he]

end Store.Scope

/-! ## Accesses -/

namespace Arena

variable {a : Arena} {h g : Nat} {name : String}

theorem scope_iff {s : Store.Scope} : a.scope h = .ok s ↔ a.scopes[h]? = some s := by
  unfold scope
  cases a.scopes[h]? with
  | none => simp
  | some t => simp

/-- The binding of a name and the handle of its scope. -/
def find? (a : Arena) (handle : Nat) (name : String) : Except Store.Fault (Option (Nat × Binding)) := do
  match ← a.resolve handle name with
  | none => return none
  | some found =>
    match (← a.scope found).find? name with
    | none => throw (.missing name)
    | some b => return some (found, b)

/-- The scope that a name resolves to has a value for it. -/
theorem resolve_binds (hr : a.resolve h name = .ok (some g)) :
    ∃ s v, a.scopes[g]? = some s ∧ s.values.lookup name = some v := by
  unfold resolve at hr
  generalize a.scopes.length + 1 = steps at hr
  induction steps generalizing h with
  | zero => simp [resolveIn] at hr
  | succ steps ih =>
    rw [resolveIn, bind_iff] at hr
    obtain ⟨s, hs, hr⟩ := hr
    by_cases hb : s.binds name
    · rw [if_pos hb] at hr
      cases hr
      obtain ⟨v, hv⟩ := Option.isSome_iff_exists.mp hb
      exact ⟨s, v, scope_iff.mp hs, hv⟩
    · rw [if_neg hb] at hr
      split at hr
      · exact ih hr
      · cases hr

/-- What a lookup that resolves finds. -/
theorem find?_of_resolve {s : Store.Scope} {v : Value} (hr : a.resolve h name = .ok (some g))
    (hs : a.scopes[g]? = some s) (hv : s.values.lookup name = some v) :
    a.find? h name = .ok (some (g, ⟨name, s.types.lookup name, v⟩)) := by
  simp [find?, hr, scope_iff.mpr hs, Store.Scope.find?, hv]

/-- A read gives the value of the binding that is found. -/
theorem get_eq (a : Arena) (h : Nat) (name : String) : a.get h name = (do
    match ← a.find? h name with
    | none => throw (.undefined name)
    | some (_, b) => return b.value) := by
  cases hr : a.resolve h name with
  | error cause => simp [get, find?, hr]
  | ok r =>
    cases r with
    | none => simp [get, find?, hr]
    | some g =>
      obtain ⟨s, v, hs, hv⟩ := resolve_binds hr
      simp [get, find?_of_resolve hr hs hv, hr, scope_iff.mpr hs, hv]

/-- An assignment goes by the type of the binding that is found. -/
theorem set_eq (a : Arena) (h : Nat) (name : String) (value : Value) : a.set h name value = (do
    match ← a.find? h name with
    | none => throw (.undeclaredTarget name)
    | some (found, b) =>
      match b.type with
      | none => throw (.missing name)
      | some none => throw (.functionTarget name)
      | some (some type) =>
        match value.check type with
        | .error cause => throw (.cannotAssign name cause)
        | .ok () => return a.replace found ((← a.scope found).setValue name value)) := by
  cases hr : a.resolve h name with
  | error cause => simp [set, find?, hr]
  | ok r =>
    cases r with
    | none => simp [set, find?, hr]
    | some g =>
      obtain ⟨s, v, hs, hv⟩ := resolve_binds hr
      have hfind := find?_of_resolve hr hs hv
      have hscope := scope_iff.mpr hs
      cases hty : s.types.lookup name with
      | none => simp [set, hfind, hr, hscope, hty]
      | some type =>
        cases type with
        | none => simp [set, hfind, hr, hscope, hty]
        | some type => cases hcheck : value.check type <;> simp [set, hfind, hr, hscope, hty, hcheck]

end Arena

end TillLang
