/-
  TillLang.Proofs.Grammar.Construction — every derivation of a source text stands for a
  program.

  A rule can only fail to make something of its parts when they have the wrong shape or a
  literal among them cannot be read. The parts of a valid tree have the shape their symbols
  ask for, so over tokens whose literals can be read every rule makes something
  (`leaves_rule`), and from the leaves up so does every tree (`Tree.Valid.hasParts`).
-/

import TillLang.Proofs.Grammar.Meaning
import TillLang.Proofs.Token.Readable

namespace TillLang.Grammar

open Parse (operatorAt layerCount)

variable {d : Nat} {ts : List Token} {ps inner : List Part}

/-! ## Shapes -/

/-- The operands of a layer can be joined. -/
theorem constructs_layer {k : Nat} (hk : k < layerCount) {ls : List Token} (hl : MeansPhrase d (.layer k) ls ps)
    (hm : MeansTail (operatorAt k) (fun ts n => Parse.Spells d (.layer k) ts [n]) ts inner) :
    ∃ left rest joined, ps ++ inner = .node left :: rest ∧ joinLeft left rest = .ok joined := by
  obtain ⟨l, rfl, hl⟩ := hl
  obtain ⟨xs, hxs, -, rfl⟩ := hm
  obtain ⟨joined, hjoined, -⟩ := spells_joinLeft hk hxs (.lift hk hl)
  exact ⟨l, _, joined, rfl, hjoined⟩

/-- The text of a quoted literal can be read. -/
theorem textOf_of_readable {t : Token} (h : t.Readable) (hk : t.kind = .string ∨ t.kind = .char) :
    ∃ s, Parse.textOf t = .ok s := by
  rcases hk with hk | hk
  all_goals
    obtain ⟨v, hv⟩ := h _ (by rw [Parse.literalOf?, hk])
    obtain ⟨s, hs, -⟩ := Success.map_iff.mp hv
    exact ⟨s, hs⟩

theorem constructs_literal {r : Rule} {x : Terminal} (hr : (r, x) ∈ [(Rule.number, Terminal.number), (.string, .string),
    (.char, .char), (.litTrue, .litTrue), (.litFalse, .litFalse)]) (hm : MeansAll d [.terminal x] ts inner)
    (hread : ∀ t ∈ ts, t.Readable) : ∃ part, construct r inner = .ok part := by
  obtain ⟨t, _, _, ht, ⟨rfl, rfl⟩, rfl, rfl⟩ := meansAll_terminal hm
  have hread := hread t (by simp)
  simp only [List.mem_cons, Prod.mk.injEq, List.not_mem_nil, or_false] at hr
  rcases hr with ⟨rfl, rfl⟩ | ⟨rfl, rfl⟩ | ⟨rfl, rfl⟩ | ⟨rfl, rfl⟩ | ⟨rfl, rfl⟩
  · obtain ⟨v, hv⟩ := hread _ (by rw [Parse.literalOf?, ht.kind rfl])
    exact ⟨_, Success.bind_iff.mpr ⟨v, hv, rfl⟩⟩
  · obtain ⟨s, hs⟩ := textOf_of_readable hread (.inl (ht.kind rfl))
    exact ⟨_, Success.bind_iff.mpr ⟨s, hs, rfl⟩⟩
  · obtain ⟨s, hs⟩ := textOf_of_readable hread (.inr (ht.kind rfl))
    exact ⟨_, Success.bind_iff.mpr ⟨s, hs, rfl⟩⟩
  · exact ⟨_, rfl⟩
  · exact ⟨_, rfl⟩

theorem constructs_function {r : Rule}
    (hr : r = .functionFull ∨ r = .functionParams ∨ r = .functionReturn ∨ r = .functionPlain)
    (hm : MeansAll d r.rhs ts inner) : ∃ part, construct r inner = .ok part := by
  rcases hr with rfl | rfl | rfl | rfl
  all_goals
    obtain ⟨name, _, _, -, hm₁, -, rfl⟩ := meansAll_terminal hm
    obtain ⟨lp, _, _, -, hm₂, -, rfl⟩ := meansAll_terminal hm₁
  · obtain ⟨_, _, _, _, ⟨params, rfl, -⟩, hm₃, -, rfl⟩ := hm₂
    obtain ⟨rp, _, _, -, hm₄, -, rfl⟩ := meansAll_terminal hm₃
    obtain ⟨_, _, _, _, ⟨type, rfl, -⟩, hm₅, -, rfl⟩ := hm₄
    obtain ⟨b, rfl, -⟩ := meansAll_last hm₅
    exact ⟨_, rfl⟩
  · obtain ⟨_, _, _, _, ⟨params, rfl, -⟩, hm₃, -, rfl⟩ := hm₂
    obtain ⟨rp, _, _, -, hm₄, -, rfl⟩ := meansAll_terminal hm₃
    obtain ⟨b, rfl, -⟩ := meansAll_last hm₄
    exact ⟨_, rfl⟩
  · obtain ⟨rp, _, _, -, hm₃, -, rfl⟩ := meansAll_terminal hm₂
    obtain ⟨_, _, _, _, ⟨type, rfl, -⟩, hm₄, -, rfl⟩ := hm₃
    obtain ⟨b, rfl, -⟩ := meansAll_last hm₄
    exact ⟨_, rfl⟩
  · obtain ⟨rp, _, _, -, hm₃, -, rfl⟩ := meansAll_terminal hm₂
    obtain ⟨b, rfl, -⟩ := meansAll_last hm₃
    exact ⟨_, rfl⟩

theorem constructs_block (hm : MeansAll d Rule.block.rhs ts inner) : ∃ part, construct .block inner = .ok part := by
  obtain ⟨eol, _, _, -, hm₁, -, rfl⟩ := meansAll_terminal hm
  obtain ⟨ind, _, _, -, hm₂, -, rfl⟩ := meansAll_terminal hm₁
  obtain ⟨_, _, _, _, ⟨xs, hne, -, rfl, -⟩, hm₃, -, rfl⟩ := hm₂
  obtain ⟨ded, _, _, -, ⟨rfl, rfl⟩, -, rfl⟩ := meansAll_terminal hm₃
  obtain ⟨x, xs, rfl⟩ := List.exists_cons_of_ne_nil hne
  have hnodes : nodesOf ((x :: xs).map (.node ·.2) ++ []) = x.2 :: xs.map (·.2) := by
    rw [List.append_nil, nodesOf_nodes, List.map_cons]
  exact ⟨_, construct_block hnodes⟩

/-! ## Rules -/

/-- A rule makes something of meanings of its right side. -/
theorem constructs_rule {r : Rule} (hr : r.isTransparent = false) (hm : MeansAll d r.rhs ts inner)
    (hread : ∀ t ∈ ts, t.Readable) : ∃ part, construct r inner = .ok part := by
  cases r with
  | startBody | startEmpty | paramsMany | paramsOne | argsMany | argsOne => exact ⟨_, rfl⟩
  | varDeclInit =>
    obtain ⟨type, _, _, -, hm₁, -, rfl⟩ := meansAll_terminal hm
    obtain ⟨name, _, _, -, hm₂, -, rfl⟩ := meansAll_terminal hm₁
    obtain ⟨eq, _, _, -, hm₃, -, rfl⟩ := meansAll_terminal hm₂
    obtain ⟨n, rfl, -⟩ := meansAll_last hm₃
    exact ⟨_, rfl⟩
  | varDeclPlain | param =>
    obtain ⟨type, _, _, -, hm₁, -, rfl⟩ := meansAll_terminal hm
    obtain ⟨name, _, _, -, ⟨-, rfl⟩, -, rfl⟩ := meansAll_terminal hm₁
    exact ⟨_, rfl⟩
  | assignment =>
    obtain ⟨name, _, _, -, hm₁, -, rfl⟩ := meansAll_terminal hm
    obtain ⟨eq, _, _, -, hm₂, -, rfl⟩ := meansAll_terminal hm₁
    obtain ⟨n, rfl, -⟩ := meansAll_last hm₂
    exact ⟨_, rfl⟩
  | returnValue | displayStmt | unaryOp =>
    obtain ⟨kw, _, _, -, hm₁, -, rfl⟩ := meansAll_terminal hm
    obtain ⟨n, rfl, -⟩ := meansAll_last hm₁
    exact ⟨_, rfl⟩
  | returnPlain | identifier =>
    obtain ⟨kw, _, _, -, ⟨-, rfl⟩, -, rfl⟩ := meansAll_terminal hm
    exact ⟨_, rfl⟩
  | ifStmt | whileStmt =>
    obtain ⟨kw, _, _, -, hm₁, -, rfl⟩ := meansAll_terminal hm
    obtain ⟨_, _, _, _, ⟨n, rfl, -⟩, hm₂, -, rfl⟩ := hm₁
    obtain ⟨b, rfl, -⟩ := meansAll_last hm₂
    exact ⟨_, rfl⟩
  | functionFull => exact constructs_function (.inl rfl) hm
  | functionParams => exact constructs_function (.inr (.inl rfl)) hm
  | functionReturn => exact constructs_function (.inr (.inr (.inl rfl))) hm
  | functionPlain => exact constructs_function (.inr (.inr (.inr rfl))) hm
  | returnType =>
    obtain ⟨arrow, _, _, -, hm₁, -, rfl⟩ := meansAll_terminal hm
    obtain ⟨type, _, _, -, ⟨-, rfl⟩, -, rfl⟩ := meansAll_terminal hm₁
    exact ⟨_, rfl⟩
  | block => exact constructs_block hm
  | multiplicativeMany =>
    obtain ⟨_, _, _, _, hfirst, hmore, -, rfl⟩ := hm
    obtain ⟨l, rest, joined, hinner, hj⟩ := constructs_layer (k := 0) (by decide) hfirst (meansAll_last hmore)
    exact ⟨.node joined, by rw [hinner]; exact Success.map_iff.mpr ⟨joined, hj, rfl⟩⟩
  | additiveMany =>
    obtain ⟨_, _, _, _, hfirst, hmore, -, rfl⟩ := hm
    obtain ⟨l, rest, joined, hinner, hj⟩ := constructs_layer (k := 1) (by decide) hfirst (meansAll_last hmore)
    exact ⟨.node joined, by rw [hinner]; exact Success.map_iff.mpr ⟨joined, hj, rfl⟩⟩
  | relationalMany =>
    obtain ⟨_, _, _, _, hfirst, hmore, -, rfl⟩ := hm
    obtain ⟨l, rest, joined, hinner, hj⟩ := constructs_layer (k := 2) (by decide) hfirst (meansAll_last hmore)
    exact ⟨.node joined, by rw [hinner]; exact Success.map_iff.mpr ⟨joined, hj, rfl⟩⟩
  | equalityMany =>
    obtain ⟨_, _, _, _, hfirst, hmore, -, rfl⟩ := hm
    obtain ⟨l, rest, joined, hinner, hj⟩ := constructs_layer (k := 3) (by decide) hfirst (meansAll_last hmore)
    exact ⟨.node joined, by rw [hinner]; exact Success.map_iff.mpr ⟨joined, hj, rfl⟩⟩
  | number => exact constructs_literal (x := .number) (by decide) hm hread
  | string => exact constructs_literal (x := .string) (by decide) hm hread
  | char => exact constructs_literal (x := .char) (by decide) hm hread
  | litTrue => exact constructs_literal (x := .litTrue) (by decide) hm hread
  | litFalse => exact constructs_literal (x := .litFalse) (by decide) hm hread
  | callArgs =>
    obtain ⟨name, _, _, -, hm₁, -, rfl⟩ := meansAll_terminal hm
    obtain ⟨lp, _, _, -, hm₂, -, rfl⟩ := meansAll_terminal hm₁
    obtain ⟨_, _, _, _, ⟨args, rfl, -⟩, hm₃, -, rfl⟩ := hm₂
    obtain ⟨rp, _, _, -, ⟨-, rfl⟩, -, rfl⟩ := meansAll_terminal hm₃
    exact ⟨_, rfl⟩
  | callPlain =>
    obtain ⟨name, _, _, -, hm₁, -, rfl⟩ := meansAll_terminal hm
    obtain ⟨lp, _, _, -, hm₂, -, rfl⟩ := meansAll_terminal hm₁
    obtain ⟨rp, _, _, -, ⟨-, rfl⟩, -, rfl⟩ := meansAll_terminal hm₂
    exact ⟨_, rfl⟩
  | _ => cases hr

/-! ## Trees -/

namespace Tree

/-- Over tokens whose literals can be read, every derivation leaves parts. -/
theorem Valid.hasParts {t : Tree} (h : t.Valid) (hread : ∀ u ∈ t.tokens, u.Readable) : ∃ ps, t.parts = .ok ps := by
  induction t using Tree.induction with
  | leaf x token => exact ⟨_, rfl⟩
  | node rule children ih =>
    obtain ⟨hsym, hv⟩ := valid_node_iff.mp h
    rw [tokens_node] at hread
    have hall : ∀ ts : List Tree, (∀ t ∈ ts, t ∈ children) → ∃ inner, partsOf ts = .ok inner := by
      intro ts hts
      induction ts with
      | nil => exact ⟨[], rfl⟩
      | cons t ts iht =>
        have hmem : t ∈ children := hts t (by simp)
        obtain ⟨p, hp⟩ := ih t hmem (hv t hmem) fun u hu => hread u (List.mem_flatMap.mpr ⟨t, hmem, hu⟩)
        obtain ⟨q, hq⟩ := iht fun u hu => hts u (List.mem_cons_of_mem _ hu)
        exact ⟨p ++ q, partsOf_cons_iff.mpr ⟨p, q, hp, hq, rfl⟩⟩
    obtain ⟨inner, hinner⟩ := hall children fun _ => id
    have hm : MeansAll (sizeAll children) rule.rhs (children.flatMap tokens) inner := by
      rw [← hsym]
      exact meansAll_of_parts hv (Nat.le_refl _) hinner
    cases hr : rule.isTransparent with
    | true => exact ⟨inner, parts_node_iff.mpr ⟨inner, hinner, by rw [if_pos hr]⟩⟩
    | false =>
      obtain ⟨part, hpart⟩ := constructs_rule hr hm hread
      exact ⟨[part], parts_node_iff.mpr ⟨inner, hinner, by rw [hr]; exact ⟨part, hpart, rfl⟩⟩⟩

end Tree

end TillLang.Grammar
