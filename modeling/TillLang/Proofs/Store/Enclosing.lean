/-
  TillLang.Proofs.Store.Enclosing — changes that stay around a scope.

  A scope encloses another one if it is on the way outward from it. Whatever is done from a scope
  can only reach the scopes that enclose it: a lookup walks outward, a declaration is made in the
  scope itself, and a function that is found lives where it was found, in a scope that encloses the
  scope of the lookup (`Arena.encloses_of_get`). `Arena.Within` says of two arenas that they have
  the same links and differ in enclosing scopes only; `Arena.Leaves` adds what the scopes keep.
-/

import TillLang.Proofs.Store.Sound

namespace TillLang

open Success

/-- The handle of the scope around each scope. -/
def Arena.parents (a : Arena) : List (Option Nat) := a.scopes.map (·.parent)

/-- A scope is another one or on the way outward from it. -/
inductive Encloses (parents : List (Option Nat)) (g : Nat) : Nat → Prop
  | self : Encloses parents g g
  | outward {h p : Nat} (hp : parents[h]? = some (some p)) (hg : Encloses parents g p) : Encloses parents g h

namespace Encloses

variable {ps : List (Option Nat)} {g h k : Nat}

theorem trans (hg : Encloses ps g h) (hh : Encloses ps h k) : Encloses ps g k := by
  induction hh with
  | self => exact hg
  | outward hp _ ih => exact .outward hp ih

/-- A new scope is on the way outward from no other one. -/
theorem of_push (hordered : ∀ {h p : Nat}, ps[h]? = some (some p) → p < h) {last : Option Nat}
    (hg : Encloses (ps ++ [last]) g h) (hh : h < ps.length) : Encloses ps g h := by
  induction hg with
  | self => exact .self
  | outward hp _ ih =>
    rw [List.getElem?_append_left hh] at hp
    exact .outward hp (ih (Nat.lt_trans (hordered hp) hh))

end Encloses

namespace Arena

variable {a a' a'' : Arena} {g h k : Nat} {name : String}

theorem parents_eq (a : Arena) : a.parents = a.frames.map Frame.parent := by
  simp [parents, frames, Store.Scope.frame]

theorem length_parents (a : Arena) : a.parents.length = a.frames.length := by
  simp [parents, frames]

theorem parents_getElem? {s : Store.Scope} (hs : a.scopes[h]? = some s) : a.parents[h]? = some s.parent := by
  simp [parents, hs]

theorem parent_lt (ht : Tidy a.frames) {h p : Nat} (hp : a.parents[h]? = some (some p)) : p < h := by
  rw [parents_eq, List.getElem?_map, Option.map_eq_some_iff] at hp
  obtain ⟨f, hf, hparent⟩ := hp
  exact ht.ordered hf hparent

/-! ## Lookups go outward -/

theorem encloses_of_walk {n : Nat} (hw : Walk a.frames name h n g) : Encloses a.parents g h := by
  induction hw with
  | here => exact .self
  | outward hf _ hp _ ih =>
    refine .outward ?_ ih
    rw [parents_eq, List.getElem?_map, hf, Option.map_some, hp]

theorem encloses_of_find? {b : Binding} (hr : a.find? h name = .ok (some (g, b))) : Encloses a.parents g h := by
  rw [find?, bind_iff] at hr
  obtain ⟨r, hresolve, hr⟩ := hr
  cases r with
  | none => cases hr
  | some found =>
    obtain ⟨n, hwalk⟩ := walk_of_resolveIn hresolve
    simp only [bind_iff] at hr
    obtain ⟨s, -, hr⟩ := hr
    split at hr
    · cases hr
    · cases hr
      exact encloses_of_walk hwalk

/-- A function that is found lives in a scope on the way outward. -/
theorem encloses_of_get (ht : Tidy a.frames) {c : Closure} (hr : a.get h name = .ok (.function c)) :
    Encloses a.parents c.scope h ∧ c.scope < a.parents.length := by
  rw [get_eq, bind_iff] at hr
  obtain ⟨r, hr, hv⟩ := hr
  cases r with
  | none => cases hv
  | some found =>
    obtain ⟨g, b⟩ := found
    obtain ⟨s, hs, hb⟩ := of_find? hr
    have hvalue : b.value = .function c := by simpa using hv
    have hown := ht.owned (frame_of_scope hs) (List.mem_map_of_mem (Store.Scope.of_find? hb).1)
    simp only [Outline.BelongsTo, Binding.outline, hvalue, Value.closure?] at hown
    rw [hown.2]
    refine ⟨encloses_of_find? hr, ?_⟩
    rw [length_parents]
    exact (List.getElem?_eq_some_iff.mp (frame_of_scope hs)).1

/-! ## Changes around a scope -/

/-- The second arena is the first with changes in scopes that enclose a given one. -/
structure Within (h : Nat) (a a' : Arena) : Prop where
  tidy : Tidy a'.frames
  parents : a'.parents = a.parents
  outside : ∀ g, ¬ Encloses a.parents g h → a'.scopes[g]? = a.scopes[g]?

theorem Within.refl (ht : Tidy a.frames) : Within h a a := ⟨ht, rfl, fun _ _ => rfl⟩

theorem Within.trans (h₁ : Within h a a') (h₂ : Within h a' a'') : Within h a a'' := by
  refine ⟨h₂.tidy, h₂.parents.trans h₁.parents, fun g hg => ?_⟩
  rw [h₂.outside g (h₁.parents ▸ hg), h₁.outside g hg]

/-- What is around a scope is around every scope inside it. -/
theorem Within.widen (hw : Within k a a') (hk : Encloses a.parents k h) : Within h a a' :=
  ⟨hw.tidy, hw.parents, fun g hg => hw.outside g fun hg' => hg (hg'.trans hk)⟩

theorem within_replace {s s' : Store.Scope} (hs : a.scopes[g]? = some s) (hp : s'.parent = s.parent)
    (ht : Tidy (a.replace g s').frames) (hg : Encloses a.parents g h) : Within h a (a.replace g s') := by
  refine ⟨ht, ?_, fun k hk => ?_⟩
  · obtain ⟨hlt, hget⟩ := List.getElem?_eq_some_iff.mp (parents_getElem? hs)
    simp only [Arena.parents, replace, List.map_set, hp] at hget ⊢
    rw [← hget]
    exact List.set_getElem_self _
  · have hne : g ≠ k := fun heq => hk (heq ▸ hg)
    exact List.getElem?_set_ne hne

theorem within_set (ht : Tidy a.frames) {v : Value} (hset : a.set h name v = .ok a') : Within h a a' := by
  have hframes := set_frames ht hset
  obtain ⟨g, b, t, s, hr, -, -, hs, rfl⟩ := set_iff.mp hset
  exact within_replace hs rfl (hframes ▸ ht) (encloses_of_find? hr)

theorem within_declare (ht : Tidy a.frames) {type : Option String} {v : Value}
    (hd : a.declare h name type v = .ok a') : Within h a a' := by
  have htidy := (declare_frames ht hd).2
  obtain ⟨s, t, v', hs, -, -, -, rfl⟩ := declare_iff.mp hd
  exact within_replace hs rfl htidy .self

theorem within_declareFunction (ht : Tidy a.frames) {c : Closure} (hc : c.scope = h)
    (hd : a.declareFunction h name c = .ok a') : Within h a a' := by
  have htidy := (declareFunction_frames ht hc hd).2
  obtain ⟨s, hs, -, rfl⟩ := declareFunction_iff.mp hd
  exact within_replace hs rfl htidy .self

theorem parents_push (p : Nat) : (a.push p).1.parents = a.parents ++ [some p] := by
  simp [push, parents]

/-- What is done in a new scope stays around the scope it was made in, once the new one is released. -/
theorem within_release {p : Nat} (ht : Tidy a.frames) (hp : p < a.parents.length)
    (hw : Within a.parents.length (a.push p).1 a') : Within p a (a'.release a.parents.length) := by
  have hlen : a.parents.length = a.scopes.length := List.length_map _
  refine ⟨?_, ?_, fun g hg => ?_⟩
  · rw [frames_release]
    exact hw.tidy.take _
  · have htake : (a'.release a.parents.length).parents = a'.parents.take a.parents.length := by
      simp [release, Arena.parents, List.map_take]
    rw [htake, hw.parents, parents_push, List.take_left']
    rfl
  · by_cases hlt : g < a.parents.length
    · have houter : ¬ Encloses (a.push p).1.parents g a.parents.length := by
        rw [parents_push]
        intro hin
        cases hin with
        | self => exact Nat.lt_irrefl _ hlt
        | outward hparent hin =>
          rw [List.getElem?_concat_length, Option.some.injEq, Option.some.injEq] at hparent
          subst hparent
          exact hg (hin.of_push (parent_lt ht) hp)
      have hsame := hw.outside g houter
      simp only [release, List.getElem?_take, if_pos hlt, hsame, push]
      exact List.getElem?_append_left (hlen ▸ hlt)
    · simp only [release, List.getElem?_take, if_neg hlt]
      exact (List.getElem?_eq_none (by omega)).symm

end Arena

/-! ## What scopes keep -/

/-- The binding has kept its name and its type, and its value too unless it is a variable's. -/
structure Binding.Revalued (b b' : Binding) : Prop where
  name : b'.name = b.name
  type : b'.type = b.type
  value : (∀ type, b.type ≠ some (some type)) → b'.value = b.value

theorem Value.eq_of_closure? {v : Value} {c : Closure} (h : v.closure? = some c) : v = .function c := by
  cases v <;> cases h
  rfl

theorem Binding.revalued_of_outline {b b' : Binding} {h : Nat}
    (hb : b.outline.BelongsTo h) (heq : b'.outline = b.outline) :
    b.Revalued b' := by
  simp only [Binding.outline, Outline.mk.injEq] at heq
  obtain ⟨hname, htype, hclosure⟩ := heq
  refine ⟨hname, htype, fun hnone => ?_⟩
  simp only [Outline.BelongsTo, Binding.outline] at hb
  split at hb
  · next c hc => rw [Value.eq_of_closure? hc, Value.eq_of_closure? (hclosure.trans hc)]
  · obtain ⟨t, ht⟩ := hb
    exact absurd ht (hnone t)

theorem Binding.revalued_of_outlines {bs bs' : List Binding} {h : Nat} (hb : ∀ b ∈ bs, b.outline.BelongsTo h)
    (heq : bs'.map Binding.outline = bs.map Binding.outline) : List.Forall₂ Binding.Revalued bs bs' := by
  induction bs generalizing bs' with
  | nil =>
    obtain rfl := List.map_eq_nil_iff.mp heq
    exact .nil
  | cons b bs ih =>
    obtain ⟨b', bs', rfl, hfirst, hrest⟩ := List.map_eq_cons_iff.mp heq
    obtain ⟨hb, hbs⟩ := List.forall_mem_cons.mp hb
    exact .cons (Binding.revalued_of_outline hb hfirst) (ih hbs hrest)

theorem Binding.types_of_revalued {bs bs' : List Binding} (h : List.Forall₂ Binding.Revalued bs bs') :
    bs'.map (fun b => (b.name, b.type)) = bs.map fun b => (b.name, b.type) := by
  induction h with
  | nil => rfl
  | cons hb _ ih => rw [List.map_cons, List.map_cons, hb.name, hb.type, ih]

/-- In a scope whose maps have the same names the types can be read off the bindings. -/
theorem Store.Scope.Paired.types_eq {s : Store.Scope} (hp : s.Paired) (hn : (s.bindings.map Binding.name).Nodup) :
    (s.types.map fun e => (e.1, some e.2)) = s.bindings.map fun b => (b.name, b.type) := by
  rw [names_bindings, ← hp] at hn
  calc (s.types.map fun e => (e.1, some e.2))
      = s.types.map fun e => (e.1, s.types.lookup e.1) :=
        List.map_congr_left fun e he => by rw [lookup_of_mem hn he]
    _ = (s.types.map Prod.fst).map fun name => (name, s.types.lookup name) := by rw [List.map_map]; rfl
    _ = (s.values.map Prod.fst).map fun name => (name, s.types.lookup name) := by rw [hp]
    _ = s.bindings.map fun b => (b.name, b.type) := by simp [bindings]

/-- A scope that keeps its bindings and has more behind them keeps its types and has the types of these behind. -/
theorem Store.Scope.Paired.types_behind {s s' : Store.Scope} (hp : s.Paired) (hp' : s'.Paired)
    (hn : (s'.bindings.map Binding.name).Nodup) {kept more : List Binding} (hsplit : s'.bindings = kept ++ more)
    (hkept : List.Forall₂ Binding.Revalued s.bindings kept) :
    ∃ types, s'.types = s.types ++ types ∧ types.map Prod.fst = more.map Binding.name := by
  have hfst (bs : List Binding) : (bs.map fun b => (b.name, b.type)).map Prod.fst = bs.map Binding.name := by
    rw [List.map_map]
    rfl
  have hsame := Binding.types_of_revalued hkept
  have hnames : kept.map Binding.name = s.bindings.map Binding.name := by rw [← hfst kept, hsame, hfst]
  have hn' : (s.bindings.map Binding.name).Nodup := by
    rw [hsplit, List.map_append, hnames] at hn
    exact hn.of_append_left
  have heq := hp'.types_eq hn
  rw [hsplit, List.map_append, hsame, ← hp.types_eq hn'] at heq
  obtain ⟨old, types, hsplit', hold, hmore⟩ := List.map_eq_append_iff.mp heq
  have hinj : Function.Injective fun e : String × Option String => (e.1, some e.2) := by
    intro ⟨k, t⟩ ⟨k', t'⟩ h
    simpa using h
  refine ⟨types, ?_, ?_⟩
  · rw [hsplit', List.map_injective_iff.mpr hinj hold]
  · rw [← hfst more, ← hmore, List.map_map]
    rfl

/-- A scope whose outlines have grown keeps its bindings, but for values of variables, and its types. -/
theorem Arena.kept_of_outlines {a a' : Arena} (ht : Tidy a.frames) (ht' : Tidy a'.frames) (hp : a.Paired)
    (hp' : a'.Paired) {g : Nat} {s s' : Store.Scope} (hs : a.scopes[g]? = some s) (hs' : a'.scopes[g]? = some s')
    {os : List Outline} (hgrown : s'.bindings.map Binding.outline = s.bindings.map Binding.outline ++ os) :
    ∃ kept more types, s'.bindings = kept ++ more ∧ List.Forall₂ Binding.Revalued s.bindings kept ∧
      more.map Binding.outline = os ∧ s'.types = s.types ++ types ∧
      types.map Prod.fst = more.map Binding.name := by
  obtain ⟨kept, more, hsplit, hkept, hmore⟩ := List.map_eq_append_iff.mp hgrown
  have howned : ∀ b ∈ s.bindings, b.outline.BelongsTo g := by
    intro b hb
    exact ht.owned (frame_of_scope hs) (List.mem_map_of_mem hb)
  have hrevalued := Binding.revalued_of_outlines howned hkept
  have hpaired := hp s (List.mem_of_getElem? hs)
  have hpaired' := hp' s' (List.mem_of_getElem? hs')
  obtain ⟨types, htypes, hnames⟩ := hpaired.types_behind hpaired' (ht'.names_nodup hs') hsplit hrevalued
  exact ⟨kept, more, types, hsplit, hrevalued, hmore, htypes, hnames⟩

/-- What carrying something out in a scope leaves of an arena: the same scopes with the same links, all those
that do not enclose the scope as they were, other scopes with the same names and types, and the scope itself
with those it had and at most the declared ones after them. -/
structure Arena.Leaves (h : Nat) (declared : List String) (a a' : Arena) : Prop where
  length : a'.scopes.length = a.scopes.length
  parents : a'.parents = a.parents
  outside : ∀ g, ¬ Encloses a.parents g h → a'.scopes[g]? = a.scopes[g]?
  others : ∀ {g : Nat} {s s' : Store.Scope}, g ≠ h → a.scopes[g]? = some s → a'.scopes[g]? = some s' →
    List.Forall₂ Binding.Revalued s.bindings s'.bindings ∧ s'.types = s.types
  own : ∀ {s s' : Store.Scope}, a.scopes[h]? = some s → a'.scopes[h]? = some s' → ∃ kept more types,
    s'.bindings = kept ++ more ∧ List.Forall₂ Binding.Revalued s.bindings kept ∧ more.map Binding.name <+: declared ∧
      s'.types = s.types ++ types ∧ types.map Prod.fst = more.map Binding.name

/-- What an arena leaves can be read off its frames, but for the values outside. -/
theorem Arena.Within.leaves {a a' : Arena} {h : Nat} (hw : a.Within h a') (ht : Tidy a.frames) (hp : a.Paired)
    (hp' : a'.Paired) {os : List Outline} (hframes : a'.frames = extend a.frames h os) {declared : List String}
    (hos : os.map Outline.name <+: declared) : a.Leaves h declared a' where
  length := by simpa [Arena.parents] using congrArg List.length hw.parents
  parents := hw.parents
  outside := hw.outside
  others := by
    intro g s s' hg hs hs'
    have hframe : s'.frame = s.frame := by
      have heq := frame_of_scope hs'
      rw [hframes, getElem?_extend_ne (Ne.symm hg), frame_of_scope hs] at heq
      exact (Option.some.inj heq).symm
    have hsame := (congrArg Frame.names hframe).trans (List.append_nil _).symm
    obtain ⟨kept, more, types, hsplit, hrevalued, hnone, htypes, hnames⟩ :=
      kept_of_outlines ht hw.tidy hp hp' hs hs' hsame
    obtain rfl := List.map_eq_nil_iff.mp hnone
    obtain rfl := List.map_eq_nil_iff.mp hnames
    rw [List.append_nil] at hsplit htypes
    exact ⟨hsplit ▸ hrevalued, htypes⟩
  own := by
    intro s s' hs hs'
    have hgrown : s'.bindings.map Binding.outline = s.bindings.map Binding.outline ++ os := by
      have heq := frame_of_scope hs'
      rw [hframes, getElem?_extend_self (frame_of_scope hs)] at heq
      exact (congrArg Frame.names (Option.some.inj heq)).symm
    obtain ⟨kept, more, types, hsplit, hrevalued, rfl, htypes, hnames⟩ :=
      kept_of_outlines ht hw.tidy hp hp' hs hs' hgrown
    refine ⟨kept, more, types, hsplit, hrevalued, ?_, htypes, hnames⟩
    rwa [List.map_map] at hos

end TillLang
