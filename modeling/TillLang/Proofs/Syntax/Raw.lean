/-
  TillLang.Proofs.Syntax.Raw — trees of texts among the loaded ones.

  Going from a tree to a loaded one and back changes nothing (`node?_raw`), and a loaded tree that
  gives a tree is the one that this gives (`node?_eq_some_iff`): the two kinds of trees differ in
  nothing but the values they allow for names, operators, kinds and types.
-/

import TillLang.Syntax.Raw

namespace TillLang

/-! ## Values -/

theorem Json.str?_eq_some_iff {j : Json} {s : String} : j.str? = some s ↔ j = .str s := by
  cases j <;> simp [str?]

@[simp] theorem RawType.name?_map (type : Option String) : name? (type.map ofName) = some type := by
  cases type <;> rfl

theorem RawType.eq_of_name? {type : Option RawType} {name : Option String} (h : name? type = some name) :
    type = name.map ofName := by
  cases type with
  | none =>
    cases h
    rfl
  | some type =>
    obtain ⟨s, hs, rfl⟩ := Option.map_eq_some_iff.mp h
    obtain ⟨value, given⟩ := type
    cases Json.str?_eq_some_iff.mp hs
    rfl

@[simp] theorem Literal.literal?_raw (v : Literal) : v.raw.literal? = some v := by
  cases v <;> rfl

theorem RawLiteral.eq_of_literal? {v : RawLiteral} {l : Literal} (h : v.literal? = some l) : v = l.raw := by
  cases v with
  | num x =>
    cases h
    rfl
  | other kind value notNum =>
    cases kind <;> cases h
    rfl

/-! ## Trees -/

namespace Node

mutual

theorem node?_raw : (n : Node) → n.raw.node? = some n
  | .absent => rfl
  | .program body _ | .block body _ => by simp [raw, RawNode.node?, nodes?_raws body]
  | .varDecl _ _ value _ | .assignment _ value _ | .returnStmt value _ | .display value _ | .unary _ value _ => by
    simp [raw, RawNode.node?, Json.str?, node?_raw value]
  | .param .. | .literal .. | .identifier .. => by simp [raw, RawNode.node?, Json.str?]
  | .function _ params _ body _ => by simp [raw, RawNode.node?, Json.str?, nodes?_raws params, node?_raw body]
  | .ifStmt first second _ | .whileStmt first second _ | .binary _ first second _ => by
    simp [raw, RawNode.node?, Json.str?, node?_raw first, node?_raw second]
  | .call _ args _ => by simp [raw, RawNode.node?, Json.str?, nodes?_raws args]

theorem nodes?_raws : (ns : List Node) → RawNode.nodes? (raws ns) = some ns
  | [] => rfl
  | n :: rest => by simp [raws, RawNode.nodes?, node?_raw n, nodes?_raws rest]

end

mutual

@[simp] theorem height_raw : (n : Node) → n.raw.height = n.height
  | .absent | .param .. | .literal .. | .identifier .. => rfl
  | .program body _ | .block body _ | .call _ body _ => by rw [raw, RawNode.height, height, heights_raws body]
  | .varDecl _ _ value _ | .assignment _ value _ | .returnStmt value _ | .display value _ | .unary _ value _ => by
    rw [raw, RawNode.height, height, height_raw value]
  | .function _ params _ body _ => by rw [raw, RawNode.height, height, heights_raws params, height_raw body]
  | .ifStmt first second _ | .whileStmt first second _ | .binary _ first second _ => by
    rw [raw, RawNode.height, height, height_raw first, height_raw second]

theorem heights_raws : (ns : List Node) → RawNode.heights (raws ns) = heights ns
  | [] => rfl
  | n :: rest => by rw [raws, RawNode.heights, heights, height_raw n, heights_raws rest]

end

end Node

namespace RawNode

theorem height_le_heights {t : RawNode} {ts : List RawNode} (h : t ∈ ts) : t.height ≤ heights ts := by
  induction ts with
  | nil => cases h
  | cons u ts ih =>
    rw [heights]
    rcases List.mem_cons.mp h with rfl | h
    · exact Nat.le_max_left _ _
    · exact Nat.le_trans (ih h) (Nat.le_max_right _ _)

/-! One case for each class: the parts come from parts, and so the node from the node. -/

section Back

attribute [local simp] node? nodes? Option.bind_eq_some_iff

mutual

theorem eq_of_node? : (t : RawNode) → (n : Node) → t.node? = some n → t = n.raw
  | .absent, _, h => by
    cases h
    rfl
  | .program body _, _, h | .block body _, _, h => by
    obtain ⟨ns, hns, rfl⟩ := by simpa using h
    rw [Node.raw, eq_of_nodes? body ns hns]
  | .varDecl type name value _, _, h => by
    obtain ⟨ty, hty, s, hs, n, hn, rfl⟩ := by simpa using h
    rw [Node.raw, RawType.eq_of_name? hty, Json.str?_eq_some_iff.mp hs, eq_of_node? value n hn]
  | .param type name _, _, h => by
    obtain ⟨ty, hty, s, hs, rfl⟩ := by simpa using h
    rw [Node.raw, RawType.eq_of_name? hty, Json.str?_eq_some_iff.mp hs]
  | .function name params returns body _, _, h => by
    obtain ⟨s, hs, ns, hns, ty, hty, n, hn, rfl⟩ := by simpa using h
    rw [Node.raw, Json.str?_eq_some_iff.mp hs, eq_of_nodes? params ns hns, RawType.eq_of_name? hty,
      eq_of_node? body n hn]
  | .ifStmt first second _, _, h | .whileStmt first second _, _, h => by
    obtain ⟨n, hn, m, hm, rfl⟩ := by simpa using h
    rw [Node.raw, eq_of_node? first n hn, eq_of_node? second m hm]
  | .assignment name value _, _, h | .unary name value _, _, h => by
    obtain ⟨s, hs, n, hn, rfl⟩ := by simpa using h
    rw [Node.raw, Json.str?_eq_some_iff.mp hs, eq_of_node? value n hn]
  | .returnStmt value _, _, h | .display value _, _, h => by
    obtain ⟨n, hn, rfl⟩ := by simpa using h
    rw [Node.raw, eq_of_node? value n hn]
  | .binary op first second _, _, h => by
    obtain ⟨s, hs, n, hn, m, hm, rfl⟩ := by simpa using h
    rw [Node.raw, Json.str?_eq_some_iff.mp hs, eq_of_node? first n hn, eq_of_node? second m hm]
  | .literal value _, _, h => by
    obtain ⟨v, hv, rfl⟩ := by simpa using h
    rw [Node.raw, RawLiteral.eq_of_literal? hv]
  | .identifier name _, _, h => by
    obtain ⟨s, hs, rfl⟩ := by simpa using h
    rw [Node.raw, Json.str?_eq_some_iff.mp hs]
  | .call callee args _, _, h => by
    obtain ⟨s, hs, ns, hns, rfl⟩ := by simpa using h
    rw [Node.raw, Json.str?_eq_some_iff.mp hs, eq_of_nodes? args ns hns]

theorem eq_of_nodes? : (ts : List RawNode) → (ns : List Node) → nodes? ts = some ns → ts = Node.raws ns
  | [], _, h => by
    cases h
    rfl
  | t :: rest, _, h => by
    obtain ⟨n, hn, ns, hns, rfl⟩ := by simpa using h
    rw [Node.raws, eq_of_node? t n hn, eq_of_nodes? rest ns hns]

end

end Back

/-- A loaded tree gives the tree that it is. -/
theorem node?_eq_some_iff {t : RawNode} {n : Node} : t.node? = some n ↔ t = n.raw := by
  constructor
  · exact eq_of_node? t n
  · rintro rfl
    exact n.node?_raw

end RawNode

end TillLang
