/-
  TillLang.Proofs.Parse.Progress — the descent moves on, and never past the end of the text.

  The tokens are any at all here, in any order, with the end of the text as the last of them and perhaps before. What a
  parser of the descent does in front of such tokens is settled by those it takes and the one behind them, and the end
  of the text is never among those it takes (`Passes`). So it does not look at anything behind the first end of the
  text. It returns behind the tokens it has taken, or blames the token behind them; an expression, a block and a
  statement take one at least.

  The parsers are decided part by part with the means of `Parse.Blame`, where the tokens were those of a text and what
  was taken was a phrase. The layers and the loops are by induction on the tokens left, the nested ones as well.
-/

import TillLang.Proofs.Parse.Blame
import TillLang.Proofs.Parse.Depth
import TillLang.Proofs.Parse.Loop

namespace TillLang.Parse

open Grammar (sample)

/-! ## Tokens in front of the end -/

/-- At least so many tokens, and none of them is the end of the text. -/
structure Passes (least : Nat) (ts : List Token) : Prop where
  length_le : least ≤ ts.length
  endless : ∀ t ∈ ts, t.kind ≠ .eof

namespace Passes

variable {j k : Nat} {ts us : List Token}

theorem nil : Passes 0 [] := ⟨Nat.le_refl _, by simp⟩

theorem cons {t : Token} (ht : t.kind ≠ .eof) (h : Passes k ts) : Passes (k + 1) (t :: ts) :=
  ⟨Nat.succ_le_succ h.length_le, List.forall_mem_cons.mpr ⟨ht, h.endless⟩⟩

theorem append (h : Passes j ts) (h' : Passes k us) : Passes (j + k) (ts ++ us) where
  length_le := by
    rw [List.length_append]
    exact Nat.add_le_add h.length_le h'.length_le
  endless t ht := (List.mem_append.mp ht).elim (h.endless t) (h'.endless t)

theorem mono (h : Passes k ts) (hjk : j ≤ k) : Passes j ts := ⟨hjk.trans h.length_le, h.endless⟩

/-- There can always be more tokens. -/
theorem extend (h : Passes j ts) (k : Nat) : ∃ us, Passes k (ts ++ us) := by
  have hnames : Passes k (List.replicate k (sample .name)) :=
    ⟨by simp, fun t ht => (List.mem_replicate.mp ht).2 ▸ by decide⟩
  exact ⟨_, (h.append hnames).mono (Nat.le_add_left _ _)⟩

end Passes

/-- A regular place with at most `n` tokens left. -/
structure RegularTo (n : Nat) (c : Cursor) : Prop extends Regular c where
  room_le : c.room ≤ n

/-- Wherever at most `n` regular tokens are left a parser is decided, and takes at least `k` of them to return. -/
def Passing {α : Type} (n k : Nat) (P : Family α) : Prop := ∀ c, RegularTo n c → Decides P (Passes k) c

section Steps

variable {α β : Type} {n j k : Nat} {c c' : Cursor} {P Q A : Family α}

theorem RegularTo.mono {m : Nat} (hc : RegularTo m c) (h : m ≤ n) : RegularTo n c :=
  ⟨hc.toRegular, hc.room_le.trans h⟩

theorem RegularTo.rest {f : List Token} (hc : RegularTo n c) (h : c.tokens = f ++ c'.tokens) (hf : k ≤ f.length) :
    RegularTo (n - k) c' := by
  refine ⟨hc.toRegular.rest h, ?_⟩
  have := room_of_tokens h
  have := hc.room_le
  omega

theorem Decides.weaken (h : Decides P (Passes k) c) : Decides P (Passes 0) c := h.imp fun _ h => h.mono (Nat.zero_le k)

/-- There is no place with no tokens left. -/
theorem Passing.none : Passing 0 k P := fun c hc => by
  obtain ⟨m, hm⟩ := exists_succ_of_room hc.room_le
  cases hm

theorem Passing.below {m : Nat} (h : Passing n k P) (hm : m ≤ n) : Passing m k P := fun c hc => h c (hc.mono hm)

/-- A parser that fails where it stands. -/
theorem Decides.refuse (expected : String) :
    Decides (fun _ _ c => (.error (unexpected expected c.head) : Except Fault (α × Cursor))) (Passes k) c := by
  obtain ⟨us, hus⟩ := Passes.nil.extend k
  exact .fail expected hus

/-- A parser behind another one, which takes enough. -/
theorem Decides.andThen {K : Follow α β} (hc : RegularTo n c) (hA : Decides A (Passes k) c)
    (hK : ∀ a c', RegularTo (n - k) c' → Decides (fun d s c => K d s (a, c)) (Passes 0) c') :
    Decides (fun d s c => A d s c >>= K d s) (Passes k) c :=
  hA.bind (fun _ hts => hts.extend k) fun a _ _ ht hts =>
    (hK a _ (hc.rest ht hts.length_le)).imp fun _ hus => hts.append hus

/-- A parser behind another one that takes a token, with one round less. -/
theorem Decides.andThenLower {B : α → Family β} (hc : RegularTo n c) (hA : Decides A (Passes 1) c)
    (hB : ∀ a c', RegularTo (n - 1) c' → Decides (B a) (Passes 0) c') :
    Decides (fun d s c => do let (a, c) ← A d s c; B a d (s - 1) c) (Passes 1) c :=
  hA.bindLower 1 (fun _ hts => hts.length_le) (fun _ hts => hts.extend 1) fun a _ _ ht hts =>
    (hB a _ (hc.rest ht hts.length_le)).imp fun _ hus => hts.append hus

/-- A parser that takes the token it stands at, with what stands there and behind it in sight, and goes on with no
less depth and no fewer rounds than one of each taken off. -/
theorem Decides.skipTo (hc : RegularTo n c) (hk : c.head.kind ≠ .eof)
    (hQ : RegularTo (n - 1) c.next → Decides Q (Passes 0) c.next)
    (hP : ∀ d s c₁, c₁.head = c.head → c₁.next.head = c.next.head →
      ∃ e f, d ≤ e ∧ s ≤ f ∧ P (d + 1) (s + 1) c₁ = Q e f c₁.next) : Decides P (Passes 1) c := by
  have hread := hc.read hk
  have hnext := hQ (hc.rest (f := [c.head]) hread (Nat.le_refl 1))
  exact .shift hread (hnext.imp fun us hus => hus.cons hk) hP

theorem Decides.skip (hc : RegularTo n c) (hk : c.head.kind ≠ .eof)
    (hQ : RegularTo (n - 1) c.next → Decides Q (Passes 0) c.next)
    (hP : ∀ d s c₁, c₁.head = c.head → c₁.next.head = c.next.head → P (d + 1) (s + 1) c₁ = Q d s c₁.next) :
    Decides P (Passes 1) c :=
  .skipTo hc hk hQ fun d s c₁ hhead hnext => ⟨d, s, Nat.le_refl d, Nat.le_refl s, hP d s c₁ hhead hnext⟩

theorem expect_of_answersTo {label : String} (description : String) (h : c.head.answersTo label = true) :
    c.expect label description = .ok (c.head, c.next) := by
  rw [Cursor.expect, if_pos h]

theorem expect_passes {label : String} (hlabel : label ≠ "EOF") (description : String) :
    Passing n 1 fun _ _ c => c.expect label description := by
  intro c hc
  by_cases h : c.head.answersTo label = true
  · refine .skip (Q := fun _ _ c' => .ok (c.head, c')) hc (kind_ne_eof_of_answersTo hlabel h)
      (fun _ => .done .nil) fun d s c₁ hhead _ => ?_
    rw [expect_of_answersTo description (hhead ▸ h), hhead]
  · refine (Decides.refuse description).congr fun d s c₁ hhead _ _ => ?_
    rw [Cursor.expect, if_neg (hhead ▸ h)]

end Steps

/-! ## Expressions -/

section Operands

variable {d : Nat} {c : Cursor} {e : Parser Node}

/-- A prefix operator and its operand. -/
theorem operand_of_sees (h : c.sees ["!", "~"] = true) : operand (d + 1) c = (do
    let (inner, after) ← operand d c.next
    return (.unary c.head.lexeme inner c.head.place, after)) := by
  rw [operand, if_pos h]
  rfl

theorem operand_of_not_sees (h : ¬ c.sees ["!", "~"] = true) : operand (d + 1) c = primary (expression d) c := by
  rw [operand, if_neg h]
  rfl

theorem primary_of_literal {v : Literal} (h : literalOf? c.head = some (.ok v)) :
    primary e c = .ok (.literal v c.head.place, c.next) := by
  simp only [primary, h]
  rfl

variable (hl : literalOf? c.head = none)
include hl

/-- A name, or a call of it. -/
theorem primary_of_name (hname : c.head.kind = .name) : primary e c = if c.next.sees ["("] then do
      let (args, after) ← arguments e c.next
      return (.call c.head.lexeme args c.head.place, after)
    else .ok (.identifier c.head.lexeme c.head.place, c.next) := by
  simp only [primary, hl, if_pos hname]
  rfl

variable (hname : c.head.kind ≠ .name)
include hname

/-- An expression in parentheses. -/
theorem primary_of_sees (hparens : c.sees ["("] = true) : primary e c = (do
    let (inner, c) ← e c.next
    let (_, c) ← c.expect ")" ")"
    return (inner, c)) := by
  simp only [primary, hl, if_neg hname, if_pos hparens]

theorem primary_of_not_sees (hparens : ¬ c.sees ["("] = true) :
    primary e c = .error (unexpected "expression" c.head) := by
  simp only [primary, hl, if_neg hname, if_neg hparens]

end Operands

/-- The end of the text is no operator. -/
theorem endless_operators (k : Nat) : "EOF" ∉ labels (operatorAt k) := by
  unfold operatorAt
  split <;> decide

section Expressions

variable {n : Nat} {N : Nat → Parser Node} (hN : Passing n 1 fun d _ => N d)
include hN

theorem chain_passes {ops : List String} (hops : "EOF" ∉ ops) {m : Nat} (hm : m ≤ n) (left : Node) :
    Passing m 0 fun d s => chain ops (N d) s left := by
  induction m generalizing left with
  | zero => exact .none
  | succ m ih =>
    intro c hc
    by_cases hsees : c.sees ops = true
    · refine (Decides.skipTo (Q := fun d s c' => do
          let (right, c') ← N d c'
          chain ops (N d) s (.binary c.head.lexeme left right c.head.place) c')
        hc (kind_ne_eof_of_sees hops hsees) (fun hnext => ?_) fun d s c₁ hhead _ => ?_).weaken
      · exact .andThen hnext (hN.below (by omega) _ hnext).weaken fun right => ih (by omega) _
      · refine ⟨d + 1, s, by omega, Nat.le_refl _, ?_⟩
        rw [chain_of_sees s left (sees_congr hhead _ ▸ hsees), hhead]
    · refine (Decides.done (a := left) .nil).congr fun d s c₁ hhead _ _ => ?_
      cases s with
      | zero => rfl
      | succ s => rw [chain, if_neg (sees_congr hhead _ ▸ hsees)]

theorem nest_passes (k : Nat) : Passing n 1 fun d _ => nest (N d) k := by
  induction k with
  | zero => exact hN
  | succ k ih =>
    exact fun c hc => Decides.andThen hc (ih c hc) fun left c' hc' =>
      (chain_passes ih (endless_operators k) (Nat.sub_le n 1) left c' hc').ownRoom

theorem moreArguments_passes {m : Nat} (hm : m ≤ n) : Passing m 0 fun d s => moreArguments (N d) s := by
  induction m with
  | zero => exact .none
  | succ m ih =>
    intro c hc
    by_cases hsees : c.sees [","] = true
    · refine (Decides.skipTo (Q := fun d s c' => do
          let (arg, c') ← N d c'
          let (args, c') ← moreArguments (N d) s c'
          return (arg :: args, c')) hc (kind_ne_eof_of_sees (by decide) hsees) (fun hnext => ?_)
        fun d s c₁ hhead _ => ?_).weaken
      · exact .andThen hnext (hN.below (by omega) _ hnext).weaken fun arg c' hc' =>
          .andThen hc' (ih (by omega) c' hc') fun args c'' _ => .done .nil
      · refine ⟨d + 1, s, by omega, Nat.le_refl _, ?_⟩
        rw [moreArguments_of_sees s (sees_congr hhead _ ▸ hsees)]
    · refine (Decides.done (a := []) .nil).congr fun d s c₁ hhead _ _ => ?_
      cases s with
      | zero => rfl
      | succ s => rw [moreArguments, if_neg (sees_congr hhead _ ▸ hsees)]

theorem arguments_passes : Passing n 0 fun d _ => arguments (N d) := by
  intro c hc
  refine .andThen hc (expect_passes (by decide) "(" c hc).weaken fun lp c₁ hc₁ => .ite (fun hsees => ?_) fun _ => ?_
  · exact (Decides.skip (Q := fun _ _ c' => .ok ([], c')) hc₁ (kind_ne_eof_of_sees (by decide) hsees)
      (fun _ => .done .nil) fun _ _ _ _ _ => rfl).weaken
  · refine .andThen hc₁ (hN c₁ hc₁).weaken fun arg c₂ hc₂ => ?_
    refine .andThen hc₂ (moreArguments_passes hN (Nat.le_refl n) c₂ hc₂).ownRoom fun args c₃ hc₃ => ?_
    exact .andThen hc₃ (expect_passes (by decide) ")" c₃ hc₃).weaken fun rp c₄ _ => .done .nil

end Expressions

/-- An operand takes a token, and what is nested in it stands behind that token. -/
theorem operand_passes (n : Nat) : Passing n 1 fun d _ => operand d := by
  induction n with
  | zero => exact .none
  | succ n ih =>
    intro c hc
    have hinner : Passing n 1 fun d _ => expression d := nest_passes ih layerCount
    by_cases hop : c.sees ["!", "~"] = true
    · refine .skip (Q := fun d _ c' => do
        let (inner, after) ← operand d c'
        return (.unary c.head.lexeme inner c.head.place, after)) hc
        (kind_ne_eof_of_sees (by decide) hop) (fun hnext => ?_) fun d s c₁ hhead _ => ?_
      · exact .andThen hnext (ih _ hnext).weaken fun inner c' _ => .done .nil
      · rw [operand_of_sees (sees_congr hhead _ ▸ hop), hhead]
    have hprimary : ∀ {d : Nat} {c₁ : Cursor}, c₁.head = c.head → operand (d + 1) c₁ = primary (expression d) c₁ :=
      fun hhead => operand_of_not_sees (sees_congr hhead _ ▸ hop)
    cases hl : literalOf? c.head with
    | some r =>
      obtain ⟨v, rfl⟩ := hc.readable c.head (by simp [Cursor.tokens]) r hl
      refine .skip (Q := fun _ _ c' => .ok (.literal v c.head.place, c')) hc (kind_ne_eof_of_literal hl)
        (fun _ => .done .nil) fun d s c₁ hhead _ => ?_
      rw [hprimary hhead, primary_of_literal (hhead ▸ hl), hhead]
    | none =>
      by_cases hname : c.head.kind = .name
      · refine .skip (Q := fun d _ c' => if c'.sees ["("] then do
            let (args, after) ← arguments (expression d) c'
            return (.call c.head.lexeme args c.head.place, after)
          else .ok (.identifier c.head.lexeme c.head.place, c')) hc (by rw [hname]; decide) (fun hnext => ?_)
          fun d s c₁ hhead _ => ?_
        · exact .ite (fun _ => .andThen hnext (arguments_passes hinner _ hnext) fun args c' _ => .done .nil)
            fun _ => .done .nil
        · rw [hprimary hhead, primary_of_name (hhead ▸ hl) (hhead ▸ hname), hhead]
      by_cases hparens : c.sees ["("] = true
      · refine .skip (Q := fun d _ c' => do
            let (inner, c') ← expression d c'
            let (_, c') ← c'.expect ")" ")"
            return (inner, c')) hc (kind_ne_eof_of_sees (by decide) hparens) (fun hnext => ?_)
          fun d s c₁ hhead _ => ?_
        · exact .andThen hnext (hinner _ hnext).weaken fun inner c' hc' =>
            .andThen hc' (expect_passes (by decide) ")" c' hc').weaken fun rp c'' _ => .done .nil
        · rw [hprimary hhead, primary_of_sees (hhead ▸ hl) (hhead ▸ hname) (sees_congr hhead _ ▸ hparens)]
      · refine (Decides.refuse "expression").congr fun d s c₁ hhead hd _ => ?_
        obtain ⟨d, rfl⟩ := exists_succ_of_room hd
        rw [hprimary hhead, primary_of_not_sees (hhead ▸ hl) (hhead ▸ hname) (sees_congr hhead _ ▸ hparens)]

theorem expression_passes (n : Nat) : Passing n 1 fun d _ => expression d := nest_passes (operand_passes n) layerCount

/-! ## Statements -/

section Statements

variable {n : Nat}

theorem endOfStatement_passes : Passing n 0 fun _ _ => endOfStatement := fun c hc =>
  Decides.ite (P := fun _ _ c => .ok ((), c)) (fun _ => .done .nil) fun _ =>
    .andThen hc (expect_passes (by decide) "end of line" c hc).weaken fun eol c' _ => .done .nil

/-- A value and the end of its statement. -/
theorem valueLine_passes {α : Type} (b : Node → α) : Passing n 0 fun d _ c => do
    let (value, c) ← expression d c
    let (_, c) ← endOfStatement c
    return (b value, c) := fun c hc =>
  .andThen hc (expression_passes n c hc).weaken fun _ c' hc' =>
    .andThen hc' (endOfStatement_passes c' hc') fun _ _ _ => .done .nil

section Blocks

variable {S : Nat → Parser Node} (hS : Passing n 1 fun d _ => S d)
include hS

theorem statementsTo_passes (names : List String) {m : Nat} (hm : m ≤ n) :
    Passing m 0 fun d s => statementsTo names (S d) s := by
  induction m with
  | zero => exact .none
  | succ m ih =>
    intro c hc
    by_cases hsees : c.sees names = true
    · refine (Decides.done (a := []) .nil).congr fun d s c₁ hhead _ _ => ?_
      cases s with
      | zero => rfl
      | succ s => rw [statementsTo, if_pos (sees_congr hhead _ ▸ hsees)]
    · refine ((Decides.andThenLower (B := fun first d s c => do
        let (others, last) ← statementsTo names (S d) s c
        return (first :: others, last)) hc (hS c (hc.mono hm)) fun first c' hc' => ?_).weaken).congr
          fun d s c₁ hhead _ hs => ?_
      · exact .andThen hc' (ih (by omega) c' hc') fun others c'' _ => .done .nil
      · obtain ⟨s, rfl⟩ := exists_succ_of_room hs
        rw [statementsTo, if_neg (sees_congr hhead _ ▸ hsees)]
        rfl

theorem block_passes : Passing n 1 fun d _ => block (S d) := by
  intro c hc
  refine Decides.andThen hc (expect_passes (by decide) "end of line before block" c hc) fun eol c₁ hc₁ => ?_
  refine .andThen hc₁ (expect_passes (by decide) "indented block" c₁ hc₁).weaken fun ind start hstart => ?_
  -- the place of the block is that of the token it starts at
  have hbody : Decides (fun d _ c' => do
      let (statements, c') ← statementsTo ["DEDENT", "EOF"] (S d) c'.room c'
      if statements.isEmpty then throw (unexpected "statement" c'.head)
      let (_, c') ← c'.expect "DEDENT" "dedent"
      return (Node.block statements start.head.place, c')) (Passes 0) start := by
    refine .andThen hstart (statementsTo_passes hS _ (Nat.sub_le n 1) start hstart).ownRoom fun statements c₃ hc₃ => ?_
    cases statements with
    | nil => exact .refuse "statement"
    | cons first others =>
        exact .andThen hc₃ (expect_passes (by decide) "dedent" c₃ hc₃).weaken fun ded c₄ _ => .done .nil
  refine hbody.congr fun d s c₃ hhead _ _ => ?_
  rw [← hhead]
  rfl

end Blocks

/-! ### Functions -/

/-- A parameter, and those behind the comma that follows it. -/
theorem parameters_of_name (s : Nat) {c : Cursor} (h : c.head.answersTo "NAME" = true) : parameters (s + 1) c = (do
    let (name, c') ← c.next.expect "NAME" "parameter name"
    if c'.sees [","] then
      let (others, c') ← parameters s c'.next
      return (.param (some c.head.lexeme) name.lexeme c.head.place :: others, c')
    else return ([.param (some c.head.lexeme) name.lexeme c.head.place], c')) := by
  rw [parameters, typeName, expect_of_answersTo _ h]
  rfl

theorem parameters_passes : Passing n 0 fun _ s => parameters s := by
  induction n with
  | zero => exact .none
  | succ n ih =>
    intro c hc
    by_cases hname : c.head.answersTo "NAME" = true
    · let param (name : Token) : Node := .param (some c.head.lexeme) name.lexeme c.head.place
      refine (Decides.skip (Q := fun _ s c' => do
        let (name, c') ← c'.expect "NAME" "parameter name"
        if c'.sees [","] then
          let (others, c') ← parameters s c'.next
          return (param name :: others, c')
        else return ([param name], c')) hc (kind_ne_eof_of_answersTo (by decide) hname) (fun hnext => ?_)
        fun d s c₁ hhead _ => ?_).weaken
      · refine .andThen hnext (expect_passes (by decide) "parameter name" _ hnext).weaken fun name c₂ hc₂ => ?_
        refine .ite (fun hcomma => ?_) fun _ => .done .nil
        refine (Decides.skipTo (Q := fun _ s c' => do
          let (others, c') ← parameters s c'
          return (param name :: others, c')) hc₂ (kind_ne_eof_of_sees (by decide) hcomma) (fun hnext₂ => ?_)
          fun d s c₃ _ _ => ⟨d, s + 1, Nat.le_refl _, by omega, rfl⟩).weaken
        exact .andThen hnext₂ (ih _ (hnext₂.mono (Nat.sub_le n 1))) fun others c' _ => .done .nil
      · rw [parameters_of_name s (hhead ▸ hname), hhead]
    · refine (Decides.refuse "type identifier").congr fun d s c₁ hhead _ hs => ?_
      obtain ⟨s, rfl⟩ := exists_succ_of_room hs
      rw [parameters, typeName, Cursor.expect, if_neg (by rw [hhead]; exact hname)]
      rfl

theorem parameterList_passes : Passing n 0 fun _ _ => parameterList := fun c hc =>
  Decides.ite (P := fun _ _ c => .ok ([], c)) (fun _ => .done .nil) fun _ => (parameters_passes c hc).ownRoom

theorem returnType_passes : Passing n 0 fun _ _ => returnType := by
  intro c hc
  refine Decides.ite (Q := fun _ _ c => .ok (none, c)) (fun harrow => ?_) fun _ => .done .nil
  refine (Decides.skip (Q := fun _ _ c' => do
    let (t, c') ← c'.expect "NAME" "type identifier"
    return (some t.lexeme, c')) hc (kind_ne_eof_of_sees (by decide) harrow) (fun hnext => ?_)
    fun d s c₁ _ _ => ?_).weaken
  · exact .andThen hnext (expect_passes (by decide) "type identifier" _ hnext).weaken fun t c' _ => .done .nil
  · rw [typeName]
    cases c₁.next.expect "NAME" "type identifier" <;> rfl

/-- What follows the name of a function. -/
theorem function_passes {S : Nat → Parser Node} (hS : Passing n 1 fun d _ => S d)
    (name : String) (p : Option Position) :
    Passing n 0 fun d _ c => do
      let (_, c) ← c.expect "(" "("
      let (params, c) ← parameterList c
      let (_, c) ← c.expect ")" ")"
      let (returns, c) ← returnType c
      let (body, c) ← block (S d) c
      return (Node.function name params returns body p, c) := by
  intro c hc
  refine .andThen hc (expect_passes (by decide) "(" c hc).weaken fun lp c₁ hc₁ => ?_
  refine .andThen hc₁ (parameterList_passes c₁ hc₁) fun params c₂ hc₂ => ?_
  refine .andThen hc₂ (expect_passes (by decide) ")" c₂ hc₂).weaken fun rp c₃ hc₃ => ?_
  refine .andThen hc₃ (returnType_passes c₃ hc₃) fun returns c₄ hc₄ => ?_
  exact .andThen hc₄ (block_passes hS c₄ hc₄).weaken fun body c₅ _ => .done .nil

/-! ### By the first tokens -/

/-- A statement is told by the token it starts with, whatever follows that. -/
theorem dispatch_alike {c c₁ : Cursor} (h : c₁.head = c.head) (e p : Parser Node) : dispatch e p c₁ =
    if c.sees ["if"] then guarded .ifStmt e p c₁
    else if c.sees ["while"] then guarded .whileStmt e p c₁
    else if c.sees ["return"] then returning e c₁
    else if c.sees ["display"] then displaying e c₁
    else if c.head.kind = .name then
      if c₁.next.sees ["("] then function p c₁
      else if c₁.next.head.kind = .name then declaration e c₁
      else if c₁.next.sees ["="] then assignment e c₁
      else .error (unexpected "a declaration or assignment after identifier" c₁.next.head)
    else .error (unexpected "statement" c.head) := by
  simp only [dispatch, sees_congr h, h]

section Dispatch

variable {c : Cursor} (hc : RegularTo (n + 1) c)
include hc

theorem returning_passes (hreturn : c.sees ["return"] = true)
    (hd : ∀ (e p : Parser Node) (c₁ : Cursor), c₁.head = c.head → dispatch e p c₁ = returning e c₁) :
    Decides (fun d _ => unblamed d) (Passes 1) c := by
  refine .skip (Q := fun d _ c' => if c'.sees ["NEWLINE", "DEDENT", "EOF"] then do
      let (_, c') ← endOfStatement c'
      return (Node.returnStmt .absent c.head.place, c')
    else do
      let (value, c') ← expression d c'
      let (_, c') ← endOfStatement c'
      return (Node.returnStmt value c.head.place, c')) hc (kind_ne_eof_of_sees (by decide) hreturn) (fun hnext => ?_)
    fun d s c₁ hhead _ => ?_
  · exact .ite (fun _ => .andThen hnext (endOfStatement_passes _ hnext) fun _ c' _ => .done .nil)
      fun _ => valueLine_passes (fun value => Node.returnStmt value c.head.place) _ hnext
  · rw [unblamed, hd _ _ c₁ hhead, returning, hhead]
    rfl

theorem displaying_passes (hdisplay : c.sees ["display"] = true)
    (hd : ∀ (e p : Parser Node) (c₁ : Cursor), c₁.head = c.head → dispatch e p c₁ = displaying e c₁) :
    Decides (fun d _ => unblamed d) (Passes 1) c := by
  refine .skip hc (kind_ne_eof_of_sees (by decide) hdisplay)
    (fun hnext => valueLine_passes (fun value => Node.display value c.head.place) _ hnext)
    fun d s c₁ hhead _ => ?_
  rw [unblamed, hd _ _ c₁ hhead, displaying, hhead]
  rfl

variable (hS : Passing n 1 fun d _ => statement d)
include hS

theorem guarded_passes {build : Node → Node → Option Position → Node} (hk : c.head.kind ≠ .eof)
    (hd : ∀ (e p : Parser Node) (c₁ : Cursor), c₁.head = c.head → dispatch e p c₁ = guarded build e p c₁) :
    Decides (fun d _ => unblamed d) (Passes 1) c := by
  refine .skip (Q := fun d _ c' => do
      let (condition, c') ← expression d c'
      let (body, c') ← block (statement d) c'
      return (build condition body c.head.place, c')) hc hk (fun hnext => ?_)
    fun d s c₁ hhead _ => ?_
  · exact .andThen hnext (expression_passes n _ hnext).weaken fun condition c' hc' =>
      .andThen hc' (block_passes hS c' hc').weaken fun body c'' _ => .done .nil
  · rw [unblamed, hd _ _ c₁ hhead, guarded, hhead]
    rfl

/-- A statement that starts with a name is told by the token behind it, which is blamed if there is no such statement. -/
theorem named_passes (hname : c.head.kind = .name)
    (hd : ∀ (e p : Parser Node) (c₁ : Cursor), c₁.head = c.head → dispatch e p c₁ =
      if c₁.next.sees ["("] then function p c₁
      else if c₁.next.head.kind = .name then declaration e c₁
      else if c₁.next.sees ["="] then assignment e c₁
      else .error (unexpected "a declaration or assignment after identifier" c₁.next.head)) :
    Decides (fun d _ => unblamed d) (Passes 1) c := by
  have hexpect : ∀ {c₁ : Cursor} (description : String), c₁.head = c.head →
      c₁.expect "NAME" description = .ok (c.head, c₁.next) := by
    intro c₁ description hhead
    have hanswers : c.head.answersTo "NAME" = true := by rw [Token.answersTo, hname]; rfl
    rw [expect_of_answersTo description (hhead ▸ hanswers), hhead]
  have hk : c.head.kind ≠ .eof := by rw [hname]; decide
  by_cases hcall : c.next.sees ["("] = true
  · refine .skip hc hk (fun hnext => function_passes hS c.head.lexeme c.head.place _ hnext)
      fun d s c₁ hhead hnext => ?_
    rw [unblamed, hd _ _ c₁ hhead, if_pos (sees_congr hnext _ ▸ hcall), function, hexpect _ hhead]
    rfl
  by_cases htyped : c.next.head.kind = .name
  · let declare (name : Token) (value : Node) : Node := .varDecl (some c.head.lexeme) name.lexeme value c.head.place
    refine .skip (Q := fun d _ c' => do
      let (name, c') ← c'.expect "NAME" "variable name"
      if c'.sees ["="] then
        let (initializer, c') ← expression d c'.next
        let (_, c') ← endOfStatement c'
        return (declare name initializer, c')
      else
        let (_, c') ← endOfStatement c'
        return (declare name .absent, c')) hc hk (fun hnext => ?_)
      fun d s c₁ hhead hnext => ?_
    · refine .andThen hnext (expect_passes (by decide) "variable name" _ hnext).weaken fun name c₂ hc₂ => ?_
      refine .ite (fun hassign => ?_) fun _ => .andThen hc₂ (endOfStatement_passes c₂ hc₂) fun _ c₃ _ => .done .nil
      exact (Decides.skipTo hc₂ (kind_ne_eof_of_sees (by decide) hassign)
        (fun hnext₂ => (valueLine_passes (declare name)).below (Nat.sub_le n 1) _ hnext₂)
        fun d s c₃ _ _ => ⟨d + 1, s, by omega, Nat.le_refl _, rfl⟩).weaken
    · rw [unblamed, hd _ _ c₁ hhead, if_neg (sees_congr hnext _ ▸ hcall),
        if_pos (hnext ▸ htyped), declaration, typeName,
        hexpect _ hhead, hhead]
      rfl
  by_cases hassign : c.next.sees ["="] = true
  · refine .skip (Q := fun d _ c' => do
      let (_, c') ← c'.expect "=" "="
      let (value, c') ← expression d c'
      let (_, c') ← endOfStatement c'
      return (Node.assignment c.head.lexeme value c.head.place, c')) hc hk (fun hnext => ?_)
      fun d s c₁ hhead hnext => ?_
    · exact .andThen hnext (expect_passes (by decide) "=" _ hnext).weaken fun _ c₂ hc₂ =>
        valueLine_passes (fun value => Node.assignment c.head.lexeme value c.head.place) c₂ hc₂
    · rw [unblamed, hd _ _ c₁ hhead, if_neg (sees_congr hnext _ ▸ hcall), if_neg (hnext ▸ htyped),
        if_pos (sees_congr hnext _ ▸ hassign), assignment, hexpect _ hhead]
      rfl
  refine .skip hc hk (fun _ => .refuse "a declaration or assignment after identifier")
    fun d s c₁ hhead hnext => ?_
  rw [unblamed, hd _ _ c₁ hhead, if_neg (sees_congr hnext _ ▸ hcall), if_neg (hnext ▸ htyped),
    if_neg (sees_congr hnext _ ▸ hassign)]

theorem unblamed_passes : Decides (fun d _ => unblamed d) (Passes 1) c := by
  by_cases hif : c.sees ["if"] = true
  · have hd : ∀ (e p : Parser Node) (c₁ : Cursor), c₁.head = c.head → dispatch e p c₁ = guarded .ifStmt e p c₁ :=
      fun e p c₁ hhead => by rw [dispatch_alike hhead, if_pos hif]
    exact guarded_passes hc hS (kind_ne_eof_of_sees (by decide) hif) hd
  by_cases hwhile : c.sees ["while"] = true
  · have hd : ∀ (e p : Parser Node) (c₁ : Cursor), c₁.head = c.head → dispatch e p c₁ = guarded .whileStmt e p c₁ :=
      fun e p c₁ hhead => by rw [dispatch_alike hhead, if_neg hif, if_pos hwhile]
    exact guarded_passes hc hS (kind_ne_eof_of_sees (by decide) hwhile) hd
  by_cases hreturn : c.sees ["return"] = true
  · refine returning_passes hc hreturn fun e p c₁ hhead => ?_
    rw [dispatch_alike hhead, if_neg hif, if_neg hwhile, if_pos hreturn]
  by_cases hdisplay : c.sees ["display"] = true
  · refine displaying_passes hc hdisplay fun e p c₁ hhead => ?_
    rw [dispatch_alike hhead, if_neg hif, if_neg hwhile, if_neg hreturn, if_pos hdisplay]
  by_cases hname : c.head.kind = .name
  · refine named_passes hc hS hname fun e p c₁ hhead => ?_
    rw [dispatch_alike hhead, if_neg hif, if_neg hwhile, if_neg hreturn, if_neg hdisplay, if_pos hname]
  refine (Decides.refuse "statement").congr fun d s c₁ hhead hd _ => ?_
  obtain ⟨d, rfl⟩ := exists_succ_of_room hd
  rw [unblamed, dispatch_alike hhead, if_neg hif, if_neg hwhile, if_neg hreturn, if_neg hdisplay, if_neg hname, hhead]

end Dispatch

theorem statement_passes (n : Nat) : Passing n 1 fun d _ => statement d := by
  induction n with
  | zero => exact .none
  | succ n ih => exact fun c hc => (unblamed_passes hc ih).statement

end Statements

end TillLang.Parse
