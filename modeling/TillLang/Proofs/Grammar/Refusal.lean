/-
  TillLang.Proofs.Grammar.Refusal — where the table refuses a text.

  In the states of the table rules start only where their nonterminal is due, so what is
  proved of certified tables says where a text is refused: at the first terminal that is not
  viable behind those before it (`derive_refuses`).
-/

import TillLang.Proofs.Grammar.Table
import TillLang.Proofs.Grammar.Viable

namespace TillLang.Grammar

/-! ## What starts in a state -/

/-- What holds of the nonterminals to begin with, and of those that start the rules of one of which it holds,
holds of all that are found. -/
theorem of_mem_expand {P : Nonterminal → Prop} (hcorner : ∀ n, P n → ∀ m ∈ leftCorners n, P m) (rounds : Nat)
    {waiting found : List Nonterminal} (hw : ∀ n ∈ waiting, P n) (hf : ∀ n ∈ found, P n) :
    ∀ n ∈ expand rounds waiting found, P n := by
  induction rounds generalizing waiting found with
  | zero => exact hf
  | succ rounds ih =>
    cases waiting with
    | nil => exact hf
    | cons n waiting =>
      obtain ⟨hn, hw⟩ := List.forall_mem_cons.mp hw
      rw [expand]
      split
      · exact ih hw hf
      · refine ih (fun m hm => ?_) fun m hm => ?_
        · rcases List.mem_append.mp hm with hm | hm
          · exact hcorner n hn m hm
          · exact hw m hm
        · rcases List.mem_append.mp hm with hm | hm
          · exact hf m hm
          · exact List.mem_singleton.mp hm ▸ hn

theorem mem_dueNonterminals {items : List Item} {n : Nonterminal} (h : n ∈ dueNonterminals items) :
    ∃ i ∈ items, i.next? = some (.nonterminal n) := by
  obtain ⟨i, hi, hn⟩ := List.mem_filterMap.mp h
  refine ⟨i, hi, ?_⟩
  split at hn
  · rename_i hnext
    rw [hnext, Option.some.inj hn]
  · cases hn

/-- The nonterminals that may start in a state whose items have moved are due there. -/
theorem due_of_closure {kernel items : List Item} (hsub : ∀ i ∈ kernel, i ∈ items)
    (hkernel : ∀ i ∈ kernel, i.dot ≠ 0 ∨ i.rule = .root) {n : Nonterminal} (h : n ∈ closure kernel) : Due items n := by
  refine of_mem_expand (fun n hn m hm => ?_) 200 (fun m hm => ?_) (by simp) n h
  · obtain ⟨i, hi, hnext⟩ := mem_dueNonterminals hm
    obtain ⟨r, hr, rfl⟩ := List.mem_map.mp hi
    obtain rfl : r.lhs = n := by simpa [Rule.ofNonterminal] using (List.mem_filter.mp hr).2
    exact .corner hn hnext
  · obtain ⟨i, hi, hnext⟩ := mem_dueNonterminals hm
    exact .behind (hsub i hi) (hkernel i hi) hnext

/-- The items that a move leads to have moved. -/
theorem dot_of_move {n m : Nat} {x : Symbol} (h : (entry n).move? x = some m) {s : State} (hs : states[m]? = some s) :
    ∀ i ∈ s.kernel, i.dot ≠ 0 := by
  obtain ⟨s', a, ha, hmem⟩ := mem_moves h
  have hb := List.all_eq_true.mp (certified_at ha).1 (x, m) hmem
  simp only [hs, Bool.and_eq_true, bne_iff_ne, ne_eq, List.all_eq_true] at hb
  intro i hi
  exact (hb.2.2 i hi).1.1

theorem opens_due : OpensDue entry itemsAt := by
  intro n hn r hr
  obtain ⟨s, a, ha, hr⟩ := mem_itemsAt hr
  have hs := state_of_annotated ha
  have hkernel : ∀ i ∈ s.kernel, i.dot ≠ 0 ∨ i.rule = .root := by
    intro i hi
    rcases hn with rfl | ⟨m, x, hm⟩
    · obtain ⟨s', hs', hk⟩ := first_state
      obtain rfl : s' = s := Option.some.inj (hs'.symm.trans hs)
      rw [hk, List.mem_singleton] at hi
      exact .inr (by rw [hi])
    · exact .inl (dot_of_move hm hs i hi)
  rw [stateItems, List.mem_append, List.mem_flatMap] at hr
  rcases hr with hr | ⟨m, hm, hr⟩
  · exact .inl ((hkernel _ hr).resolve_left (by simp))
  · obtain ⟨r', hr', heq⟩ := List.mem_map.mp hr
    obtain rfl : r' = r := congrArg Item.rule heq
    obtain rfl : r'.lhs = m := by simpa [Rule.ofNonterminal] using (List.mem_filter.mp hr').2
    refine .inr (due_of_closure (fun i hi => ?_) hkernel hm)
    rw [itemsAt_of_annotated ha]
    exact List.mem_append_left _ hi

/-! ## Refused texts -/

/-- A text that has no derivation is refused at the first terminal that is not viable behind those before it,
at its end if all of them are. -/
theorem derive_refuses {tokens : List Token} {text : List (Terminal × Token)} (hterminals : terminals tokens = .ok text)
    (htext : Endless text) (hno : ∀ t : Tree, ¬ (t.Valid ∧ t.symbol = .nonterminal .start ∧ t.yield = text)) :
    ∃ front rest state, text = front ++ rest ∧ derive tokens = .error (.rejected (refusal state rest.head?)) ∧
      Viable (front.map Prod.fst) ∧ ¬ Viable (front.map Prod.fst ++ [aheadOfText rest]) := by
  obtain ⟨front, rest, state, hsplit, hrun, hviable, hstop⟩ := refuses_first table_certified opens_due htext hno
  refine ⟨front, rest, state, hsplit, ?_, hviable, hstop⟩
  rw [derive, hterminals, Success.ok_bind, hrun]
  rfl

end TillLang.Grammar
