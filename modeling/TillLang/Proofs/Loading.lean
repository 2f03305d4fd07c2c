/-
  TillLang.Proofs.Loading — what becomes of JSON values that are no trees.

  A JSON value is read as a tree, or it is refused for a cause. Nearly all causes are reported as an invalid file;
  two are not, and end the command line in a crash: a position with fewer than two parts, and a number literal that
  holds an integer past the largest double. Whatever the value and however deep it is nested, nothing else escapes,
  and where one of the two does, the value has such an object in it (`load_answers`). Both do escape
  (`short_position_escapes`, `huge_number_escapes`).

  `FailsBy j` says of a step of the reader that it fails for causes that `j` explains. It is carried through the reader
  of an object, one case for each class, and from there by induction on the depth.
-/

import Mathlib.Tactic.Linarith
import TillLang.Command.Outcome
import TillLang.Proofs.Syntax.Codec

namespace TillLang

open Success

/-! ## Integers past the largest double -/

namespace Decimal

/-- The integers from here on have no double: the middle between the largest double and the next power of two. -/
def intLimit : Nat := 2 ^ 1024 - 2 ^ 970

/-- A rounded quotient is at most a half above the quotient. -/
theorem roundDiv_le (num den : Nat) : 2 * (den * roundDiv num den) ≤ 2 * num + den := by
  have hdiv := Nat.div_add_mod num den
  unfold roundDiv
  simp only
  split
  · omega
  · rename_i h
    simp only [Bool.or_eq_true, decide_eq_true_eq, Bool.and_eq_true, not_or, not_lt] at h
    rw [Nat.mul_add]
    omega

theorem roundDiv_lt {num den k : Nat} (h : 2 * num + den < 2 * (den * k)) : roundDiv num den < k := by
  have hround := roundDiv_le num den
  exact Nat.lt_of_mul_lt_mul_left (a := den) (by omega)

/-- A number that is more than a half short of `m` units of `2 ^ (k + 1)` is rounded to fewer units. -/
theorem roundDiv_lt_of_add {n k m : Nat} (h : n + 2 ^ k < 2 ^ (k + 1) * m) : roundDiv n (2 ^ (k + 1)) < m := by
  have hhalf : 2 ^ (k + 1) = 2 * 2 ^ k := Nat.pow_succ'
  exact roundDiv_lt (by omega)

theorem log2_ofNat {n : Nat} (h : 0 < n) : (Fraction.mk n 1).log2 = n.log2 := by
  have hle : 2 ^ n.log2 ≤ n := Nat.log2_self_le h.ne'
  have hone : Nat.log2 1 = 0 := rfl
  unfold Fraction.log2
  simp [hone, hle]

theorem intLimit_le : intLimit ≤ 2 ^ 1024 := by decide +kernel

theorem intLimit_add : intLimit + 2 ^ 970 = 2 ^ (970 + 1) * 2 ^ 53 := by decide +kernel

/-- An integer below the limit has a double. -/
theorem nearestBits_lt {n : Nat} (h : 0 < n) (hlimit : n < intLimit) : nearestBits ⟨n, 1⟩ < infinityBits := by
  have hhigh : n < 2 ^ (n.log2 + 1) := Nat.lt_log2_self
  have hlog2 (k : Nat) : n < 2 ^ k → n.log2 < k := (Nat.log2_lt h.ne').mpr
  have hlog := hlog2 1024 (hlimit.trans_le intLimit_le)
  have hunit : max ((n.log2 : Int) - 52) (-1074) = n.log2 - 52 := by omega
  simp only [nearestBits, log2_ofNat h, hunit, Nat.one_mul, Nat.pow_eq]
  refine Nat.lt_of_le_of_lt (Nat.min_le_right _ _) ?_
  unfold infinityBits
  by_cases hsmall : n.log2 < 52
  · have hexp : (-((n.log2 : Int) - 52)).toNat = 52 - n.log2 := by omega
    have hscaled : n * 2 ^ (52 - n.log2) < 2 ^ 53 := by
      calc n * 2 ^ (52 - n.log2) < 2 ^ (n.log2 + 1) * 2 ^ (52 - n.log2) :=
            Nat.mul_lt_mul_of_pos_right hhigh (Nat.two_pow_pos _)
        _ = 2 ^ 53 := by rw [← Nat.pow_add]; congr 1; omega
    have hround := roundDiv_le (n * 2 ^ (52 - n.log2)) 1
    rw [if_neg (by omega), hexp]
    omega
  · obtain ⟨e, he⟩ : ∃ e, n.log2 = e + 52 := ⟨n.log2 - 52, by omega⟩
    have hexp : ((n.log2 : Int) - 52).toNat = e := by omega
    rw [if_pos (by omega), hexp]
    have hsplit : 2 ^ (e + 52 + 1) = 2 ^ e * 2 ^ 53 := Nat.pow_add 2 e 53
    rw [he, hsplit] at hhigh
    have hround : roundDiv n (2 ^ e) < 2 ^ 53 + 1 := roundDiv_lt (by rw [Nat.mul_succ]; omega)
    by_cases hlast : e = 970 + 1
    · -- at the last exponent the limit takes the place of the next power of two
      have hless : roundDiv n (2 ^ e) < 2 ^ 53 := by
        subst hlast
        exact roundDiv_lt_of_add (intLimit_add ▸ Nat.add_lt_add_right hlimit (2 ^ 970))
      omega
    · omega

/-- Only integers from the limit on have no double. -/
theorem intLimit_le_of_floatOfInt? {n : Int} (h : floatOfInt? n = none) : intLimit ≤ n.natAbs := by
  unfold floatOfInt? at h
  split at h
  · cases h
  · rename_i hne
    simp only at h
    split at h
    · rename_i hbits
      by_contra hlt
      exact absurd hbits (nearestBits_lt (Int.natAbs_pos.mpr hne) (Nat.lt_of_not_le hlt)).ne
    · cases h

end Decimal

/-! ## Values within a value -/

/-- A value stands somewhere within a value. -/
inductive Json.Within (part : Json) : Json → Prop
  | whole : Within part part
  | item {items : List Json} {j : Json} (hj : j ∈ items) (h : Within part j) : Within part (.list items)
  | field {fields : List (String × Json)} {key : String} {j : Json} (hj : (key, j) ∈ fields) (h : Within part j) :
    Within part (.object fields)

theorem Json.Within.trans {a b c : Json} (hab : a.Within b) (hbc : b.Within c) : a.Within c := by
  induction hbc with
  | whole => exact hab
  | item hj _ ih => exact .item hj ih
  | field hj _ ih => exact .field hj ih

theorem Json.within_of_field? {fields : List (String × Json)} {key : String} {j : Json}
    (h : field? fields key = some j) : j.Within (.object fields) := by
  obtain ⟨⟨name, value⟩, hfind, rfl⟩ := Option.map_eq_some_iff.mp h
  exact .field (List.mem_of_find?_eq_some hfind) .whole

/-! ## Causes -/

namespace Syntax

open Node Json

/-- A cause is reported: the command line names the file and what is wrong with it, and ends. -/
def LoadFault.Reported (fault : LoadFault) : Prop :=
  ∃ message, ∀ path, Command.refuseTree path (.load fault) =
    .refused ("Error: invalid AST file " ++ path ++ ": " ++ message)

/-- All causes but two are reported. -/
theorem LoadFault.reported_iff (fault : LoadFault) :
    fault.Reported ↔ fault ≠ .shortPosition ∧ fault ≠ .hugeNumber := by
  cases fault with
  | shortPosition | hugeNumber =>
    refine ⟨fun ⟨message, h⟩ => ?_, fun h => by simp at h⟩
    cases congrArg Command.Outcome.ending (h "")
  | _ => exact ⟨fun _ => by simp, fun _ => ⟨_, fun _ => rfl⟩⟩

/-- The position among the fields is a list or a text with fewer than two parts. -/
def HasShortPosition (fields : List (String × Json)) : Prop :=
  (∃ items, field? fields "position" = some (.list items) ∧ items.length < 2) ∨
    ∃ s, field? fields "position" = some (.str s) ∧ s.length < 2

/-- The fields are those of a number literal that holds an integer past the largest double. -/
def HasHugeNumber (fields : List (String × Json)) : Prop :=
  field? fields "type" = some (.str "Literal") ∧ field? fields "kind" = some (.str numKind) ∧
    ∃ n, field? fields "value" = some (.int n) ∧ Decimal.intLimit ≤ n.natAbs

/-- A cause is reported, or the value has an object in it that explains why it is not. -/
inductive Explained (j : Json) : LoadFault → Prop
  | reported {fault : LoadFault} (h : fault.Reported) : Explained j fault
  | shortPosition {fields : List (String × Json)} (hwithin : (Json.object fields).Within j)
    (h : HasShortPosition fields) : Explained j .shortPosition
  | hugeNumber {fields : List (String × Json)} (hwithin : (Json.object fields).Within j)
    (h : HasHugeNumber fields) : Explained j .hugeNumber

theorem Explained.mono {part j : Json} {fault : LoadFault} (hpart : part.Within j) (h : Explained part fault) :
    Explained j fault := by
  cases h with
  | reported h => exact .reported h
  | shortPosition hwithin h => exact .shortPosition (hwithin.trans hpart) h
  | hugeNumber hwithin h => exact .hugeNumber (hwithin.trans hpart) h

/-! ## Steps of the reader -/

/-- A step that fails does so for a cause that `j` explains. -/
def FailsBy (j : Json) {α : Type} (x : Except LoadFault α) : Prop :=
  ∀ fault, x = .error fault → Explained j fault

namespace FailsBy

variable {α β : Type} {j : Json}

theorem ok (a : α) : FailsBy j (Except.ok a) := by
  intro fault h
  cases h

theorem error {fault : LoadFault} (h : Explained j fault) : FailsBy (α := α) j (.error fault) := by
  rintro _ ⟨⟩
  exact h

/-- A step that fails for a reported cause. -/
theorem report {fault : LoadFault} (h : fault ≠ .shortPosition ∧ fault ≠ .hugeNumber) :
    FailsBy (α := α) j (.error fault) :=
  error (.reported (fault.reported_iff.mpr h))

theorem bind {x : Except LoadFault α} {f : α → Except LoadFault β} (hx : FailsBy j x)
    (hf : ∀ a, x = .ok a → FailsBy j (f a)) : FailsBy j (x >>= f) := by
  cases x with
  | error fault => exact error (hx fault rfl)
  | ok a => exact hf a rfl

theorem map {x : Except LoadFault α} (f : α → β) (hx : FailsBy j x) : FailsBy j (f <$> x) := by
  cases x with
  | error fault => exact error (hx fault rfl)
  | ok a => exact ok (f a)

theorem mono {part : Json} {x : Except LoadFault α} (hpart : part.Within j) (h : FailsBy part x) : FailsBy j x :=
  fun fault hx => (h fault hx).mono hpart

end FailsBy

/-! ## Objects -/

section Reader

variable {node : Json → Except LoadFault RawNode} {fields : List (String × Json)} {α : Type}

/-- A list without two items in front is short. -/
theorem length_lt_two {α : Type} {items : List α} (h : ∀ a b rest, items = a :: b :: rest → False) :
    items.length < 2 := by
  match items with
  | [] | [_] => simp
  | a :: b :: rest => exact (h a b rest rfl).elim

theorem readPosition_failsBy : FailsBy (.object fields) (readPosition (field? fields "position")) := by
  generalize hfield : field? fields "position" = value
  unfold readPosition
  split
  · exact .ok none
  · exact .ok none
  · exact .ok _
  · rename_i items hitems
    exact .error (.shortPosition .whole (.inl ⟨items, hfield, length_lt_two hitems⟩))
  · rename_i s
    split
    · exact .ok _
    · rename_i hchars
      have hlength : s.length < 2 := String.length_toList ▸ length_lt_two hchars
      exact .error (.shortPosition .whole (.inr ⟨s, hfield, hlength⟩))
  · exact .report (by simp)
  · exact .report (by simp)

/-- A field that is read stands within the object. -/
theorem required_failsBy (name : String) {f : Json → Except LoadFault α}
    (hf : ∀ j, field? fields name = some j → FailsBy (.object fields) (f j)) :
    FailsBy (.object fields) (required fields name >>= f) := by
  unfold required
  cases hfield : field? fields name with
  | none => exact .report (by simp)
  | some j => exact hf j hfield

theorem readNumber_failsBy {j value : Json}
    (h : ∀ n, value = .int n → Decimal.intLimit ≤ n.natAbs → Explained j .hugeNumber) :
    FailsBy j (readNumber value) := by
  unfold readNumber
  split
  · exact .ok _
  · exact .ok _
  · rename_i n
    cases hfloat : Decimal.floatOfInt? n with
    | some x => exact .ok x
    | none => exact .error (h n rfl (Decimal.intLimit_le_of_floatOfInt? hfloat))
  · rename_i s
    cases Decimal.read? s with
    | some x => exact .ok x
    | none => exact .report (by simp)
  · exact .report (by simp)

section Parts

variable (hnode : ∀ j, j.Within (.object fields) → FailsBy (.object fields) (node j))
include hnode

theorem mapM_failsBy {items : List Json} (h : ∀ j ∈ items, j.Within (.object fields)) :
    FailsBy (.object fields) (items.mapM node) := by
  induction items with
  | nil => exact .ok []
  | cons j items ih =>
    obtain ⟨hj, hitems⟩ := List.forall_mem_cons.mp h
    rw [List.mapM_cons]
    exact .bind (hnode j hj) fun n _ => .bind (ih hitems) fun ns _ => .ok _

theorem readNodes_failsBy {value : Json} (h : value.Within (.object fields)) :
    FailsBy (.object fields) (readNodes node value) := by
  unfold readNodes
  split
  · rename_i items
    exact mapM_failsBy hnode fun j hj => (Json.Within.item hj .whole).trans h
  · exact .ok []
  · exact .ok []
  · exact .report (by simp)
  · exact .report (by simp)
  · exact .report (by simp)

theorem required_node_failsBy (name : String) {f : RawNode → Except LoadFault α}
    (hf : ∀ n, FailsBy (.object fields) (f n)) :
    FailsBy (.object fields) (required fields name >>= fun j => node j >>= f) :=
  required_failsBy name fun j hj => .bind (hnode j (within_of_field? hj)) fun n _ => hf n

theorem required_nodes_failsBy (name : String) {f : List RawNode → Except LoadFault α}
    (hf : ∀ ns, FailsBy (.object fields) (f ns)) :
    FailsBy (.object fields) (required fields name >>= fun j => readNodes node j >>= f) :=
  required_failsBy name fun _ hj => .bind (readNodes_failsBy hnode (within_of_field? hj)) fun ns _ => hf ns

end Parts

theorem field?_of_optional {name s : String} (h : optional fields name = .str s) :
    field? fields name = some (.str s) := by
  unfold optional at h
  cases hfield : field? fields name with
  | none =>
    rw [hfield] at h
    cases h
  | some j =>
    rw [hfield] at h
    exact congrArg some h

/-- Reading the parts of a literal fails for a cause of its own where its kind is that of numbers. -/
theorem readLiteral_failsBy {kind value : Json}
    (h : ∀ n, kind = .str numKind → value = .int n → Decimal.intLimit ≤ n.natAbs → HasHugeNumber fields) :
    FailsBy (.object fields) (readLiteral kind value) := by
  unfold readLiteral
  split
  · rename_i hkind
    exact .map _ (readNumber_failsBy fun n hn hlimit => .hugeNumber .whole (h n hkind hn hlimit))
  · exact .ok _

/-- The reader of an object fails for causes that the object explains. -/
theorem readObject_failsBy (hnode : ∀ j, j.Within (.object fields) → FailsBy (.object fields) (node j))
    (hnull : FailsBy (.object fields) (node .null)) :
    FailsBy (.object fields) (readObject node fields) := by
  have hoptional (name : String) : FailsBy (.object fields) (node (optional fields name)) := by
    unfold optional
    cases hfield : field? fields name with
    | none => exact hnull
    | some j => exact hnode j (within_of_field? hfield)
  refine .bind readPosition_failsBy fun p _ => ?_
  simp only
  split
  -- one case for each class, in the order of the reader
  · exact required_nodes_failsBy hnode _ fun _ => .ok _
  · exact required_nodes_failsBy hnode _ fun _ => .ok _
  · refine required_failsBy _ fun type _ => required_failsBy _ fun name _ => ?_
    exact .bind (hoptional _) fun _ _ => .ok _
  · exact required_failsBy _ fun type _ => required_failsBy _ fun name _ => .ok _
  · refine required_failsBy _ fun name _ => required_nodes_failsBy hnode _ fun params => ?_
    exact required_node_failsBy hnode _ fun _ => .ok _
  · exact required_node_failsBy hnode _ fun condition => required_node_failsBy hnode _ fun _ => .ok _
  · exact required_node_failsBy hnode _ fun condition => required_node_failsBy hnode _ fun _ => .ok _
  · exact required_failsBy _ fun name _ => required_node_failsBy hnode _ fun _ => .ok _
  · exact .bind (hoptional _) fun _ _ => .ok _
  · exact required_node_failsBy hnode _ fun _ => .ok _
  · refine required_failsBy _ fun op _ => required_node_failsBy hnode _ fun left => ?_
    exact required_node_failsBy hnode _ fun _ => .ok _
  · exact required_failsBy _ fun op _ => required_node_failsBy hnode _ fun _ => .ok _
  · rename_i hclass
    refine required_failsBy _ fun value hvalue => required_failsBy _ fun kind hkind => ?_
    refine .bind (readLiteral_failsBy fun n hnum hint hlimit => ?_) fun _ _ => .ok _
    subst hnum hint
    exact ⟨field?_of_optional hclass, hkind, n, hvalue, hlimit⟩
  · exact required_failsBy _ fun name _ => .ok _
  · exact required_failsBy _ fun callee _ => required_nodes_failsBy hnode _ fun _ => .ok _
  · exact .report (by simp)

end Reader

/-- At every depth, a value that is no tree is refused for a cause that it explains. -/
theorem ofJson_failsBy (limit : Nat) (j : Json) : FailsBy j (ofJson limit j) := by
  induction limit generalizing j with
  | zero =>
    cases j with
    | null => exact .ok _
    | _ => exact .report (by simp)
  | succ limit ih =>
    cases j with
    | null => exact .ok _
    | object fields =>
      have hnull : ofJson limit .null = .ok .absent := by cases limit <;> rfl
      exact readObject_failsBy (fun part hpart => (ih part).mono hpart) (hnull ▸ .ok _)
    | _ => exact .report (by simp)

/-- Every value is read as a tree or refused, at any depth. A refused value is reported as an invalid file, with the
name of the file and the cause, unless it has a position with fewer than two parts in it or a number literal that holds
an integer past the largest double. -/
theorem load_answers (limit : Nat) (j : Json) :
    (∃ tree, ofJson limit j = .ok tree) ∨
    (∃ fault message, ofJson limit j = .error fault ∧
      ∀ path, Command.refuseTree path (.load fault) =
        .refused ("Error: invalid AST file " ++ path ++ ": " ++ message)) ∨
    (ofJson limit j = .error .shortPosition ∧
      ∃ fields, (Json.object fields).Within j ∧ HasShortPosition fields) ∨
    (ofJson limit j = .error .hugeNumber ∧
      ∃ fields, (Json.object fields).Within j ∧ HasHugeNumber fields) := by
  cases h : ofJson limit j with
  | ok tree => exact .inl ⟨tree, rfl⟩
  | error fault =>
    cases ofJson_failsBy limit j fault h with
    | reported hreported =>
      obtain ⟨message, hmessage⟩ := hreported
      exact .inr (.inl ⟨fault, message, rfl, hmessage⟩)
    | shortPosition hwithin hshort => exact .inr (.inr (.inl ⟨rfl, _, hwithin, hshort⟩))
    | hugeNumber hwithin hhuge => exact .inr (.inr (.inr ⟨rfl, _, hwithin, hhuge⟩))

/-- A program without statements whose position has one part only. -/
def shortlyPlaced : Json := .object [("type", .str "Program"), ("body", .list []), ("position", .list [.int 1])]

/-- A position with one part is not reported: the command line crashes. -/
theorem short_position_escapes : decode shortlyPlaced = .error .shortPosition ∧
    ∀ path, Command.refuseTree path (.load .shortPosition) = .crashed (.error (.load .shortPosition)) :=
  ⟨rfl, fun _ => rfl⟩

/-- A number literal that holds a value. -/
def numberLiteral (value : Json) : Json :=
  .object [("type", .str "Literal"), ("value", value), ("kind", .str numKind)]

theorem decode_numberLiteral {value : Json} {fault : LoadFault} (h : readNumber value = .error fault) :
    decode (numberLiteral value) = .error fault := by
  simp [decode, numberLiteral, nestingLimit, ofJson, readObject, required, optional, readPosition,
    readLiteral, h]

/-- An integer of 401 digits is not reported either. -/
theorem huge_number_escapes : decode (numberLiteral (.int (10 ^ 400))) = .error .hugeNumber ∧
    ∀ path, Command.refuseTree path (.load .hugeNumber) = .crashed (.error (.load .hugeNumber)) := by
  refine ⟨decode_numberLiteral ?_, fun _ => rfl⟩
  have hbits : Decimal.nearestBits ⟨Int.natAbs (10 ^ 400), 1⟩ = Decimal.infinityBits := by decide +kernel
  have hfloat : Decimal.floatOfInt? (10 ^ 400) = none := by
    rw [Decimal.floatOfInt?, if_neg (by decide +kernel)]
    simp only [if_pos hbits]
  rw [readNumber, hfloat]

end Syntax

end TillLang
