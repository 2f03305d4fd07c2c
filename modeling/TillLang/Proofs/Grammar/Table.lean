/-
  TillLang.Proofs.Grammar.Table — the table is certified.

  The conditions that were evaluated state by state are those that `Certified` asks for, so
  what is proved of certified tables holds of the table of the grammar: a token list is
  derived by exactly the trees of the start symbol above it (`derive_ok_iff`).
-/

import TillLang.Proofs.Grammar.Acceptance
import TillLang.Proofs.Grammar.Certificate
import TillLang.Proofs.Success

namespace TillLang.Grammar

/-- The items of a state. -/
def itemsAt (n : Nat) : List Item := (states[n]?.map fun s => stateItems s.kernel).getD []

/-- The terminals in the lookahead of an item of a state. -/
def AheadAt (n : Nat) (i : Item) (t : Terminal) : Prop :=
  ∃ s a, annotated[n]? = some (s, a) ∧ (a.of s i).has t = true

theorem TerminalSet.has_of_subset {a b : TerminalSet} (h : a.subset b = true) {t : Terminal}
    (ht : a.has t = true) : b.has t = true := by
  have hu : a.union b = b := by simpa [TerminalSet.subset] using h
  rw [← hu, TerminalSet.has_union, ht, Bool.true_or]

theorem Terminal.mem_all (t : Terminal) : t ∈ Terminal.all := by cases t <;> decide

/-! ## States and their entries -/

theorem annotated_of_state {n : Nat} {s : State} (h : states[n]? = some s) :
    ∃ a, annotated[n]? = some (s, a) := by
  have hlt : n < lookaheads.length := by
    rw [← length_lookaheads]
    exact (List.getElem?_eq_some_iff.mp h).1
  exact ⟨lookaheads[n], List.getElem?_zip_eq_some.mpr ⟨h, List.getElem?_eq_getElem hlt⟩⟩

theorem state_of_annotated {n : Nat} {s : State} {a : Aheads} (h : annotated[n]? = some (s, a)) :
    states[n]? = some s :=
  (List.getElem?_zip_eq_some.mp h).1

theorem table_eq : table = (annotated.map fun p => Entry.ofState p.1 p.2).toArray := by
  unfold table annotated
  rfl

theorem entry_of_annotated {n : Nat} {s : State} {a : Aheads} (h : annotated[n]? = some (s, a)) :
    entry n = Entry.ofState s a := by
  rw [entry, table_eq, Array.getD_eq_getD_getElem?, List.getElem?_toArray, List.getElem?_map, h]
  rfl

theorem entry_of_none {n : Nat} (h : states[n]? = none) : entry n = ⟨[], []⟩ := by
  have ha : annotated[n]? = none := by
    cases ha : annotated[n]? with
    | none => rfl
    | some p =>
      have := state_of_annotated (s := p.1) (a := p.2) ha
      rw [h] at this
      cases this
  rw [entry, table_eq, Array.getD_eq_getD_getElem?, List.getElem?_toArray, List.getElem?_map, ha]
  rfl

theorem mem_itemsAt {n : Nat} {i : Item} (h : i ∈ itemsAt n) :
    ∃ s a, annotated[n]? = some (s, a) ∧ i ∈ stateItems s.kernel := by
  cases hs : states[n]? with
  | none => simp [itemsAt, hs] at h
  | some s =>
    obtain ⟨a, ha⟩ := annotated_of_state hs
    exact ⟨s, a, ha, by simpa [itemsAt, hs] using h⟩

theorem itemsAt_of_annotated {n : Nat} {s : State} {a : Aheads} (h : annotated[n]? = some (s, a)) :
    itemsAt n = stateItems s.kernel := by
  simp [itemsAt, state_of_annotated h]

theorem certified_at {n : Nat} {s : State} {a : Aheads} (h : annotated[n]? = some (s, a)) :
    isBacked s = true ∧ ∀ i ∈ stateItems s.kernel, goesOn s a i = true := by
  have hc := List.all_eq_true.mp holdsOfAll_holds (s, a) (List.mem_of_getElem? h)
  simpa only [Bool.and_eq_true, List.all_eq_true] using hc

/-! ## Looking back -/

/-- The items whose mark has moved are those of the kernel. -/
theorem mem_kernel_of_dot {kernel : List Item} {i : Item} {d : Nat} (h : i ∈ stateItems kernel)
    (hd : i.dot = d + 1) : i ∈ kernel := by
  rw [stateItems, List.mem_append, List.mem_flatMap] at h
  rcases h with h | ⟨n, -, h⟩
  · exact h
  · obtain ⟨r, -, rfl⟩ := List.mem_map.mp h
    cases hd

theorem mem_moves {n m : Nat} {x : Symbol} (h : (entry n).move? x = some m) :
    ∃ s a, annotated[n]? = some (s, a) ∧ (x, m) ∈ s.moves := by
  cases hs : states[n]? with
  | none =>
    rw [entry_of_none hs] at h
    cases h
  | some s =>
    obtain ⟨a, ha⟩ := annotated_of_state hs
    rw [entry_of_annotated ha, Entry.move?, List.lookup_eq_some_iff] at h
    obtain ⟨l, r, hl, -⟩ := h
    have hmoves : s.moves = l ++ (x, m) :: r := hl
    exact ⟨s, a, ha, by rw [hmoves]; simp⟩

theorem move_back (n m : Nat) (x : Symbol) (h : (entry n).move? x = some m) :
    m ≠ 0 ∧ (∃ i ∈ itemsAt m, ∃ d, i.dot = d + 1) ∧
      ∀ i ∈ itemsAt m, ∀ d, i.dot = d + 1 → i.rule.rhs[d]? = some x ∧ ⟨i.rule, d⟩ ∈ itemsAt n := by
  obtain ⟨s, a, ha, hmem⟩ := mem_moves h
  have hb := List.all_eq_true.mp (certified_at ha).1 (x, m) hmem
  simp only [Bool.and_eq_true, bne_iff_ne, ne_eq] at hb
  refine ⟨hb.1, ?_⟩
  cases hm : states[m]? with
  | none => simp [hm] at hb
  | some s' =>
    simp only [hm, Bool.and_eq_true, Bool.not_eq_true', List.isEmpty_eq_false_iff, List.all_eq_true,
      bne_iff_ne, beq_iff_eq, List.contains_iff_mem] at hb
    have hitems : itemsAt m = stateItems s'.kernel := by simp [itemsAt, hm]
    rw [hitems, itemsAt_of_annotated ha]
    refine ⟨?_, fun i hi d hd => ?_⟩
    · obtain ⟨i, hi⟩ := List.exists_mem_of_ne_nil _ hb.2.1
      have hd := (hb.2.2 i hi).1.1
      exact ⟨i, List.mem_append_left _ hi, i.dot - 1, by omega⟩
    · obtain ⟨⟨-, hx⟩, hc⟩ := hb.2.2 i (mem_kernel_of_dot hi hd)
      rw [hd, Nat.add_sub_cancel] at hx hc
      exact ⟨hx, hc⟩

theorem reduce_back (n : Nat) (t : Terminal) (r : Rule) (h : (entry n).action? t = some (.reduce r)) :
    ∃ i ∈ itemsAt n, i.rule = r ∧ i.next? = none := by
  rw [Entry.action?] at h
  cases hm : (entry n).move? t with
  | some m => simp [hm] at h
  | none =>
    rw [hm] at h
    obtain ⟨p, hp, hr⟩ := Option.map_eq_some_iff.mp h
    have hmem := List.mem_of_find?_eq_some hp
    cases hs : states[n]? with
    | none =>
      rw [entry_of_none hs] at hmem
      cases hmem
    | some s =>
      obtain ⟨a, ha⟩ := annotated_of_state hs
      rw [entry_of_annotated ha] at hmem
      obtain ⟨i, hi, hif⟩ := List.mem_filterMap.mp hmem
      rw [itemsAt_of_annotated ha]
      split at hif
      · rename_i hn
        obtain rfl := Option.some.inj hif
        exact ⟨i, hi, by simpa using hr, by simpa using hn⟩
      · cases hif

/-! ## Looking on -/

theorem exists_of_leadsOn {all : List (State × Aheads)} {s : State} {a : Aheads} {i : Item} {x : Symbol}
    (h : leadsOn all s a i x = true) : ∃ m s' a', (Entry.ofState s a).move? x = some m ∧
      all[m]? = some (s', a') ∧ i.advance ∈ stateItems s'.kernel ∧
      (a.of s i).subset (a'.of s' i.advance) = true := by
  unfold leadsOn at h
  split at h
  · cases h
  · rename_i m hm
    split at h
    · cases h
    · rename_i s' a' hm'
      simp only [Bool.and_eq_true, List.contains_iff_mem] at h
      exact ⟨m, s', a', hm, hm', h.1, h.2⟩

theorem leads_on (n : Nat) (i : Item) (h : i ∈ itemsAt n) (x : Symbol) (hx : i.next? = some x) :
    ∃ m, (entry n).move? x = some m ∧ i.advance ∈ itemsAt m ∧ ∀ t, AheadAt n i t → AheadAt m i.advance t := by
  obtain ⟨s, a, ha, hi⟩ := mem_itemsAt h
  have hg := (certified_at ha).2 i hi
  have hl : leadsOn annotated s a i x = true := by
    cases x <;> simp_all [goesOn]
  obtain ⟨m, s', a', hm, hm', hitem, hsub⟩ := exists_of_leadsOn hl
  refine ⟨m, by rw [entry_of_annotated ha]; exact hm, by rw [itemsAt_of_annotated hm']; exact hitem, ?_⟩
  rintro t ⟨s₁, a₁, h₁, ht⟩
  obtain ⟨rfl, rfl⟩ : s₁ = s ∧ a₁ = a := by simpa using h₁.symm.trans ha
  exact ⟨s', a', hm', TerminalSet.has_of_subset hsub ht⟩

theorem opens_at (n : Nat) (i : Item) (h : i ∈ itemsAt n) (r : Rule) (hx : i.next? = some (.nonterminal r.lhs)) :
    ⟨r, 0⟩ ∈ itemsAt n ∧ ∀ t, ((firstOf firsts i.following).has t = true ∨
      allEmpty emptyNonterminals i.following = true ∧ AheadAt n i t) → AheadAt n ⟨r, 0⟩ t := by
  obtain ⟨s, a, ha, hi⟩ := mem_itemsAt h
  have hg := (certified_at ha).2 i hi
  simp only [goesOn, hx, Bool.and_eq_true] at hg
  have ho := List.all_eq_true.mp hg.2 r (Rule.mem_ofNonterminal rfl)
  simp only [spread, hx, Bool.and_eq_true, List.contains_iff_mem] at ho
  refine ⟨by rw [itemsAt_of_annotated ha]; exact ho.1, fun t ht => ⟨s, a, ha, ?_⟩⟩
  apply TerminalSet.has_of_subset ho.2
  split
  · rw [TerminalSet.has_union, Bool.or_eq_true]
    rcases ht with ht | ⟨-, s₁, a₁, h₁, ht⟩
    · exact Or.inl ht
    · obtain ⟨rfl, rfl⟩ : s₁ = s ∧ a₁ = a := by simpa using h₁.symm.trans ha
      exact Or.inr ht
  · rename_i he
    rcases ht with ht | ⟨ht, -⟩
    · exact ht
    · exact absurd ht he

theorem reduces_at (n : Nat) (i : Item) (h : i ∈ itemsAt n) (hx : i.next? = none) (t : Terminal)
    (ht : AheadAt n i t) : (entry n).action? t = some (.reduce i.rule) := by
  obtain ⟨s, a, ha, hi⟩ := mem_itemsAt h
  have hg := (certified_at ha).2 i hi
  simp only [goesOn, hx] at hg
  have hr := List.all_eq_true.mp hg t (Terminal.mem_all t)
  obtain ⟨s₁, a₁, h₁, ht⟩ := ht
  obtain ⟨rfl, rfl⟩ : s₁ = s ∧ a₁ = a := by simpa using h₁.symm.trans ha
  rw [entry_of_annotated ha]
  simpa [ht] using hr

/-! ## The table -/

theorem first_state : ∃ s, states[0]? = some s ∧ s.kernel = [⟨.root, 0⟩] := by
  have hc := (Bool.and_eq_true_iff.mp startsOnce_holds).1
  simp only [beq_iff_eq, Option.map_eq_some_iff] at hc
  obtain ⟨s, hs, hk⟩ := hc
  exact ⟨s, by rwa [← List.head?_eq_getElem?], hk⟩

theorem root_once (n : Nat) (h : ⟨.root, 0⟩ ∈ itemsAt n) : n = 0 := by
  have hc := List.all_eq_true.mp (Bool.and_eq_true_iff.mp startsOnce_holds).2
  cases n with
  | zero => rfl
  | succ n =>
    obtain ⟨s, a, ha, hi⟩ := mem_itemsAt h
    have hm : s ∈ states.tail := by
      have := state_of_annotated ha
      rw [← List.getElem?_tail] at this
      exact List.mem_of_getElem? this
    have := hc s hm
    simp [hi] at this

theorem table_certified : Certified entry itemsAt AheadAt where
  emptyClosed r h := by
    have := List.all_eq_true.mp emptyClosed_holds r (Rule.mem_all r)
    simpa [h] using this
  firstsClosed r t h :=
    TerminalSet.has_of_subset (List.all_eq_true.mp firstsClosed_holds r (Rule.mem_all r)) h
  rootFirst := by
    obtain ⟨s, hs, hk⟩ := first_state
    simp [itemsAt, hs, stateItems, hk]
  firstUnmoved i hi := by
    obtain ⟨s, hs, hk⟩ := first_state
    have hi : i ∈ stateItems s.kernel := by simpa [itemsAt, hs] using hi
    cases hd : i.dot with
    | zero => rfl
    | succ d =>
      have := mem_kernel_of_dot hi hd
      simp only [hk, List.mem_singleton] at this
      rw [this] at hd
      cases hd
  rootOnce := root_once
  moveBack := move_back
  reduceBack := reduce_back
  leadsOn := leads_on
  opens := opens_at
  reduces := reduces_at

/-! ## Derivations of token lists -/

/-- The terminals of the tokens of a text that ends. -/
theorem terminals_append {ts rest : List Token} {last : Token} (hlast : Terminal.ofToken? last = some .finish)
    {text : List (Terminal × Token)} (hts : text.map Prod.snd = ts)
    (htext : ∀ p ∈ text, Terminal.ofToken? p.2 = some p.1 ∧ p.1 ≠ .finish) :
    terminals (ts ++ last :: rest) = .ok text := by
  induction text generalizing ts with
  | nil =>
    subst hts
    simp [terminals, hlast]
  | cons p text ih =>
    obtain ⟨x, t⟩ := p
    subst hts
    obtain ⟨hx, hne⟩ := htext (x, t) (by simp)
    have hih := ih rfl (fun q hq => htext q (List.mem_cons_of_mem _ hq))
    rw [List.map_cons, List.cons_append, terminals]
    simp only at hx hne
    rw [hx, hih]
    split
    · rename_i h
      exact absurd (Option.some.inj h) hne
    · rename_i h
      rw [← Option.some.inj h]
      rfl
    · rename_i h
      cases h

/-- The tokens in front of the end of a text, with their terminals. -/
theorem of_terminals {ts rest : List Token} {last : Token} (hlast : Terminal.ofToken? last = some .finish)
    (hts : ∀ t ∈ ts, Terminal.ofToken? t ≠ some .finish) {text : List (Terminal × Token)}
    (h : terminals (ts ++ last :: rest) = .ok text) :
    text.map Prod.snd = ts ∧ ∀ p ∈ text, Terminal.ofToken? p.2 = some p.1 := by
  induction ts generalizing text with
  | nil =>
    simp only [List.nil_append, terminals, hlast, Except.ok.injEq] at h
    subst h
    simp
  | cons t ts ih =>
    rw [List.cons_append, terminals] at h
    split at h
    · rename_i hx
      exact absurd hx (hts t (by simp))
    · rename_i x _ hx
      obtain ⟨text', ht, rfl⟩ := Success.map_iff.mp h
      obtain ⟨hmap, hall⟩ := ih (fun t ht => hts t (List.mem_cons_of_mem _ ht)) ht
      refine ⟨by simp [hmap], fun p hp => ?_⟩
      rcases List.mem_cons.mp hp with rfl | hp
      · exact hx
      · exact hall p hp
    · cases h

/-- A text that ends is derived by exactly the trees of the start symbol above it. -/
theorem derive_ok_iff {ts : List Token} {last : Token} (hlast : Terminal.ofToken? last = some .finish)
    (hts : ∀ t ∈ ts, Terminal.ofToken? t ≠ some .finish) {t : Tree} :
    derive (ts ++ [last]) = .ok t ↔ t.Valid ∧ t.symbol = .nonterminal .start ∧ t.tokens = ts := by
  constructor
  · intro h
    obtain ⟨text, hall, h⟩ := Success.bind_iff.mp h
    obtain ⟨hmap, htext⟩ := of_terminals hlast hts hall
    have hrun : run entry (stepBound text.length) ⟨[], text⟩ = .accepted t := by
      split at h
      · rename_i hr
        rw [hr, Except.ok.inj h]
      · cases h
      · cases h
    obtain ⟨hv, hs, hy⟩ := (accepts_iff table_certified htext).mp hrun
    exact ⟨hv, hs, by rw [Tree.tokens, hy, hmap]⟩
  · rintro ⟨hv, hs, ht⟩
    have htext := hv.ofToken_of_mem
    have hall : terminals (ts ++ [last]) = .ok t.yield := by
      refine terminals_append hlast ht fun p hp => ⟨htext p hp, fun hx => ?_⟩
      refine hts p.2 ?_ (hx ▸ htext p hp)
      rw [← ht]
      exact List.mem_map_of_mem hp
    have hrun := (accepts_iff table_certified htext).mpr ⟨hv, hs, rfl⟩
    rw [derive, hall, Success.ok_bind, hrun]
    rfl

end TillLang.Grammar
