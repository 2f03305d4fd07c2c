/-
  TillLang.Proofs.Parse.Complete — the descent reads whatever is spelled.

  A parser that looks ahead by one token reads a phrase only if what follows cannot be taken
  for more of it: behind an expression there must be no opening parenthesis and no operator of
  its layer or a stronger one (`Stops`). `Reads` says for each kind of phrase what its parser
  does in front of the tokens of that phrase, and is carried by induction through the spelling.

  A layer is spelled with its last operator outermost, but read from its first operand on. So
  the statement for a layer is not that it returns, but that the loop over its operators is
  left to go on behind the phrase, with enough steps.
-/

import TillLang.Proofs.Parse.Sound

namespace TillLang.Parse

open Grammar (Terminal)
open Token (Stream)

/-! ## Cursors -/

/-- There is a cursor in front of any tokens that end where another cursor stands. -/
theorem exists_cursor (ts : List Token) (c : Cursor) : ∃ c₁ : Cursor, c₁.tokens = ts ++ c.tokens := by
  cases ts with
  | nil => exact ⟨c, rfl⟩
  | cons t ts => exact ⟨⟨t, ts ++ c.tokens⟩, rfl⟩

theorem sees_of_stands {c : Cursor} {y : Terminal} (h : c.head.Stands y) (hy : labels y ≠ []) :
    c.sees (labels y) = true := by
  have := (sees_iff h [y] (by simpa using hy)).mpr (by simp)
  simpa using this

theorem not_sees {c : Cursor} {x : Terminal} (h : c.head.Stands x) (ys : List Terminal)
    (hys : ∀ y ∈ ys, labels y ≠ []) (hx : x ∉ ys) : ¬ c.sees (ys.flatMap labels) = true :=
  fun hs => hx ((sees_iff h ys hys).mp hs)

theorem expect_of_stands {c c' : Cursor} {t : Token} (label description : String) {y : Terminal}
    (hy : labels y = [label]) (ht : t.Stands y) (h : c.tokens = t :: c'.tokens) :
    c.expect label description = .ok (t, c') := by
  obtain ⟨rfl, rfl⟩ := Cursor.next_of_tokens h
  have hs := sees_of_stands ht (by simp [hy])
  have ha : c.head.answersTo label = true := by simpa [Cursor.sees, hy] using hs
  simp [Cursor.expect, ha]

theorem literalOf_none {t : Token} {x : Terminal} (h : t.Stands x) (hx : x ∉ literalTerminals) :
    literalOf? t = none := by
  cases hl : literalOf? t with
  | none => rfl
  | some r =>
    obtain ⟨y, hy, ht⟩ := stands_of_literal hl
    exact absurd (h.unique ht ▸ hy) hx

theorem kind_ne_name {t : Token} {x : Terminal} (h : t.Stands x) (hx : x ≠ .name) : t.kind ≠ .name :=
  fun hk => hx (h.unique (stands_name hk))

/-! ## What a parser does in front of a phrase -/

/-- What follows is no more of a phrase of layer `k`. -/
def Stops (k : Nat) (c : Cursor) : Prop :=
  ∀ x, c.head.Stands x → x ≠ .lpar ∧ ∀ j < k, x ≠ operatorAt j

theorem Stops.le {j k : Nat} {c : Cursor} (h : Stops k c) (hj : j ≤ k) : Stops j c :=
  fun x hx => ⟨(h x hx).1, fun i hi => (h x hx).2 i (by omega)⟩

theorem stops_of_stands {c : Cursor} {x : Terminal} (h : c.head.Stands x) (hp : x ≠ .lpar)
    (hx : ∀ k, x ≠ operatorAt k) (k : Nat) : Stops k c := by
  intro y hy
  rw [← h.unique hy]
  exact ⟨hp, fun j _ => hx j⟩

/-- An operator of strength `k` is none of a stronger layer. -/
theorem stops_operator {c : Cursor} {k : Nat} (hk : k < layerCount) (h : c.head.Stands (operatorAt k)) :
    Stops k c := by
  intro y hy
  rw [← h.unique hy]
  have h1 : ∀ k < layerCount, operatorAt k ≠ .lpar ∧ ∀ j < k, operatorAt k ≠ operatorAt j := by decide
  exact h1 k hk

/-- What the parser of a phrase does in front of its tokens. -/
def Reads (d : Nat) : Phrase → List Token → List Node → Prop
  | .layer 0, ts, ns => ∀ c c' : Cursor, Stream c.tokens → c.tokens = ts ++ c'.tokens → Stops 0 c' →
    ∃ n, ns = [n] ∧ operand d c = .ok (n, c')
  | .layer (k + 1), ts, ns => ∀ c c' : Cursor, Stream c.tokens → c.tokens = ts ++ c'.tokens → Stops k c' →
    ∃ n steps, ns = [n] ∧ c'.room ≤ steps ∧ nest (operand d) (k + 1) c =
      chain (labels (operatorAt k)) (nest (operand d) k) steps n c'
  | .arguments, ts, ns => ∀ c c' : Cursor, Stream c.tokens → c.tokens = ts ++ c'.tokens → c'.head.Stands .rpar →
    ∃ n others c₁, ns = n :: others ∧ expression d c = .ok (n, c₁) ∧
      ∀ steps, c₁.room ≤ steps → moreArguments (expression d) steps c₁ = .ok (others, c')
  | .statement, ts, ns => ∀ c c' : Cursor, Stream c.tokens → c.tokens = ts ++ c'.tokens →
    ∃ n, ns = [n] ∧ statement d c = .ok (n, c')
  | .statements, ts, ns => ∀ c c' : Cursor, Stream c.tokens → c.tokens = ts ++ c'.tokens →
    ∀ stops : List Terminal, (∀ y ∈ stops, y ∈ [Terminal.dedent, .finish]) →
      c'.sees (stops.flatMap labels) = true → ∀ steps, c.room ≤ steps →
        statementsTo (stops.flatMap labels) (statement d) steps c = .ok (ns, c')
  | .block, ts, ns => ∀ c c' : Cursor, Stream c.tokens → c.tokens = ts ++ c'.tokens →
    ∃ n, ns = [n] ∧ block (statement d) c = .ok (n, c')

/-- In front of a phrase of a layer that stops there, the parser of the layer returns it. -/
theorem Reads.layer {d k : Nat} {ts : List Token} {n : Node} (h : Reads d (.layer k) ts [n]) {c c' : Cursor}
    (hs : Stream c.tokens) (ht : c.tokens = ts ++ c'.tokens) (hstop : Stops k c') :
    nest (operand d) k c = .ok (n, c') := by
  cases k with
  | zero =>
    obtain ⟨n', hn, hok⟩ := h c c' hs ht hstop
    obtain rfl := List.singleton_inj.mp hn
    exact hok
  | succ k =>
    obtain ⟨n', steps, hn, -, hok⟩ := h c c' hs ht (hstop.le (Nat.le_succ k))
    obtain rfl := List.singleton_inj.mp hn
    rw [hok]
    cases steps with
    | zero => rfl
    | succ steps =>
      obtain ⟨x, hx⟩ := head_known (stream_of_tokens hs ht)
      have hno := not_sees hx [operatorAt k] (by simpa using (operatorAt_labels k).1)
        (by simpa using (hstop x hx).2 k (Nat.lt_succ_self k))
      rw [chain, if_neg (by simpa using hno)]

theorem Reads.expression {d : Nat} {ts : List Token} {n : Node} (h : Reads d (.layer layerCount) ts [n])
    {c c' : Cursor} (hs : Stream c.tokens) (ht : c.tokens = ts ++ c'.tokens) (hstop : Stops layerCount c') :
    Parse.expression d c = .ok (n, c') :=
  h.layer hs ht hstop

/-! ## Expressions -/

theorem Reads.binary {d k : Nat} {ls rs : List Token} {op : Token} {l r : Node} (hk : k < layerCount)
    (hl : Reads d (.layer (k + 1)) ls [l]) (hop : op.Stands (operatorAt k)) (hr : Reads d (.layer k) rs [r]) :
    Reads d (.layer (k + 1)) (ls ++ op :: rs) [.binary op.lexeme l r op.place] := by
  intro c c' hs ht hstop
  obtain ⟨c₂, hc₂⟩ := exists_cursor rs c'
  obtain ⟨c₁, hc₁⟩ := exists_cursor [op] c₂
  have hread : c.tokens = ls ++ c₁.tokens := by rw [ht, hc₁, hc₂]; simp
  have hs₁ := stream_of_tokens hs hread
  obtain ⟨hhead, hnext⟩ := Cursor.next_of_tokens hc₁
  have hs₂ : Stream c₂.tokens := stream_of_tokens hs₁ hc₁
  obtain ⟨l', steps, hl', hsteps, hrun⟩ := hl c c₁ hs hread (stops_operator hk (hhead ▸ hop))
  obtain rfl := List.singleton_inj.mp hl'
  have hroom : c₁.room = c'.room + rs.length + 1 := by
    simp only [Cursor.room_eq, hc₁, hc₂, List.length_append, List.length_singleton]
    omega
  obtain ⟨steps, rfl⟩ : ∃ s, steps = s + 1 := ⟨steps - 1, by omega⟩
  refine ⟨_, steps, rfl, by omega, ?_⟩
  have hsees := sees_of_stands (c := c₁) (y := operatorAt k) (hhead ▸ hop) (operatorAt_labels k).1
  rw [hrun, chain, if_pos hsees, hnext, hr.layer hs₂ hc₂ hstop, hhead]
  rfl

/-- In front of an operand that is no prefix operator, the parser looks for a primary. -/
theorem operand_primary {d : Nat} {c : Cursor} {x : Terminal} (h : c.head.Stands x) (hx : x ≠ .unaryOp) :
    operand (d + 1) c = primary (Parse.expression d) c := by
  have hno : ¬ c.sees ["!", "~"] = true := not_sees h [.unaryOp] (by decide) (by simpa using hx)
  rw [operand, if_neg hno]
  rfl

theorem primary_parens {e : Parser Node} {c : Cursor} (h : c.head.Stands .lpar) :
    primary e c = (do
      let (inner, c) ← e c.next
      let (_, c) ← c.expect ")" ")"
      return (inner, c)) := by
  have hsees : c.sees ["("] = true := sees_of_stands h (by decide)
  simp only [primary, literalOf_none h (by decide), if_neg (kind_ne_name h (by decide)), if_pos hsees]

theorem primary_call {e : Parser Node} {c : Cursor} (h : c.head.Stands .name) (hp : c.next.head.Stands .lpar) :
    primary e c = (do
      let (args, after) ← arguments e c.next
      return (.call c.head.lexeme args c.head.place, after)) := by
  have hsees : c.next.sees ["("] = true := sees_of_stands hp (by decide)
  simp only [primary, literalOf_none h (by decide), if_pos (h.kind (k := .name) rfl), if_pos hsees]
  rfl

theorem Reads.unary {d : Nat} {ts : List Token} {op : Token} {n : Node} (hop : op.Stands .unaryOp)
    (h : Reads d (.layer 0) ts [n]) : Reads (d + 1) (.layer 0) (op :: ts) [.unary op.lexeme n op.place] := by
  intro c c' hs ht hstop
  obtain ⟨c₁, hc₁⟩ := exists_cursor ts c'
  rw [List.cons_append, ← hc₁] at ht
  obtain ⟨rfl, rfl⟩ := Cursor.next_of_tokens ht
  have hs₁ : Stream c.next.tokens := stream_of_tokens (f := [c.head]) hs ht
  have hsees : c.sees ["!", "~"] = true := sees_of_stands hop (by decide)
  have hinner : operand d c.next = .ok (n, c') := h.layer hs₁ hc₁ hstop
  refine ⟨_, rfl, ?_⟩
  rw [operand, if_pos hsees, hinner]
  rfl

theorem Reads.literal {d : Nat} {t : Token} {v : Literal} (h : literalOf? t = some (.ok v)) :
    Reads (d + 1) (.layer 0) [t] [.literal v t.place] := by
  intro c c' hs ht hstop
  obtain ⟨rfl, rfl⟩ := Cursor.next_of_tokens ht
  obtain ⟨x, hx, hst⟩ := stands_of_literal h
  have hne : x ≠ .unaryOp := by rintro rfl; revert hx; decide
  refine ⟨_, rfl, ?_⟩
  rw [operand_primary hst hne]
  simp only [primary, h]
  rfl

theorem Reads.identifier {d : Nat} {t : Token} (h : t.Stands .name) :
    Reads (d + 1) (.layer 0) [t] [.identifier t.lexeme t.place] := by
  intro c c' hs ht hstop
  obtain ⟨rfl, rfl⟩ := Cursor.next_of_tokens ht
  obtain ⟨x, hx⟩ := head_known (stream_of_tokens hs ht)
  have hno : ¬ c.next.sees ["("] = true := not_sees hx [.lpar] (by decide) (by simpa using (hstop x hx).1)
  refine ⟨_, rfl, ?_⟩
  rw [operand_primary h (by decide)]
  simp only [primary, literalOf_none h (by decide), if_pos (h.kind (k := .name) rfl), if_neg hno]
  rfl

theorem Reads.callPlain {d : Nat} {t lp rp : Token} (ht : t.Stands .name) (hlp : lp.Stands .lpar)
    (hrp : rp.Stands .rpar) : Reads (d + 1) (.layer 0) [t, lp, rp] [.call t.lexeme [] t.place] := by
  intro c c' hs h _
  obtain ⟨c₂, hc₂⟩ := exists_cursor [rp] c'
  obtain ⟨c₁, hc₁⟩ := exists_cursor [lp] c₂
  have hread : c.tokens = t :: c₁.tokens := by rw [h, hc₁, hc₂]; rfl
  obtain ⟨rfl, rfl⟩ := Cursor.next_of_tokens hread
  obtain ⟨rfl, hnext₂⟩ := Cursor.next_of_tokens hc₂
  have hsees : c₂.sees [")"] = true := sees_of_stands hrp (by decide)
  refine ⟨_, rfl, ?_⟩
  rw [operand_primary ht (by decide), primary_call ht ((Cursor.next_of_tokens hc₁).1 ▸ hlp), arguments,
    expect_of_stands "(" "(" rfl hlp hc₁, Success.ok_bind]
  simp only [if_pos hsees, hnext₂]
  rfl

theorem Reads.callArgs {d : Nat} {t lp rp : Token} {ts : List Token} {args : List Node} (ht : t.Stands .name)
    (hlp : lp.Stands .lpar) (hspell : Spells d .arguments ts args) (hargs : Reads d .arguments ts args)
    (hrp : rp.Stands .rpar) : Reads (d + 1) (.layer 0) (t :: lp :: (ts ++ [rp])) [.call t.lexeme args t.place] := by
  intro c c' hs h _
  obtain ⟨c₃, hc₃⟩ := exists_cursor [rp] c'
  obtain ⟨c₂, hc₂⟩ := exists_cursor ts c₃
  obtain ⟨c₁, hc₁⟩ := exists_cursor [lp] c₂
  have hread : c.tokens = t :: c₁.tokens := by rw [h, hc₁, hc₂, hc₃]; simp
  have hs₁ : Stream c₁.tokens := stream_of_tokens (f := [t]) hs hread
  have hs₂ : Stream c₂.tokens := stream_of_tokens hs₁ hc₁
  obtain ⟨rfl, rfl⟩ := Cursor.next_of_tokens hread
  have hrp₃ : c₃.head.Stands .rpar := (Cursor.next_of_tokens hc₃).1 ▸ hrp
  obtain ⟨n, others, c₄, rfl, hfirst, hrest⟩ := hargs c₂ c₃ hs₂ hc₂ hrp₃
  obtain ⟨t₂, rest₂, x, rfl, hx, ht₂⟩ := hspell.startsInline trivial
  have hhead : c₂.head.Stands x := by
    rw [show c₂.head = t₂ from (List.cons.inj hc₂).1]
    exact ht₂
  have hne : x ≠ .rpar := by rintro rfl; revert hx; decide
  have hno : ¬ c₂.sees [")"] = true := not_sees hhead [.rpar] (by decide) (by simpa using hne)
  refine ⟨_, rfl, ?_⟩
  rw [operand_primary ht (by decide), primary_call ht ((Cursor.next_of_tokens hc₁).1 ▸ hlp), arguments,
    expect_of_stands "(" "(" rfl hlp hc₁, Success.ok_bind]
  simp only [if_neg hno, hfirst, Success.ok_bind, hrest _ (Nat.le_refl _),
    expect_of_stands ")" ")" rfl hrp hc₃]
  rfl

theorem Reads.parens {d : Nat} {lp rp : Token} {ts : List Token} {n : Node} (hlp : lp.Stands .lpar)
    (h : Reads d (.layer layerCount) ts [n]) (hrp : rp.Stands .rpar) :
    Reads (d + 1) (.layer 0) (lp :: (ts ++ [rp])) [n] := by
  intro c c' hs ht _
  obtain ⟨c₂, hc₂⟩ := exists_cursor [rp] c'
  obtain ⟨c₁, hc₁⟩ := exists_cursor ts c₂
  have hread : c.tokens = lp :: c₁.tokens := by rw [ht, hc₁, hc₂]; simp
  have hs₁ : Stream c₁.tokens := stream_of_tokens (f := [lp]) hs hread
  obtain ⟨rfl, rfl⟩ := Cursor.next_of_tokens hread
  have hstop : Stops layerCount c₂ := stops_of_stands (x := .rpar) ((Cursor.next_of_tokens hc₂).1 ▸ hrp) (by decide)
    (fun k => by unfold operatorAt; split <;> decide) _
  refine ⟨_, rfl, ?_⟩
  rw [operand_primary hlp (by decide), primary_parens hlp, h.expression hs₁ hc₁ hstop, Success.ok_bind]
  simp only [expect_of_stands ")" ")" rfl hrp hc₂]
  rfl

theorem stops_rpar {c : Cursor} (h : c.head.Stands .rpar) (k : Nat) : Stops k c :=
  stops_of_stands h (by decide) (fun k => by unfold operatorAt; split <;> decide) k

theorem stops_comma {c : Cursor} (h : c.head.Stands .comma) (k : Nat) : Stops k c :=
  stops_of_stands h (by decide) (fun k => by unfold operatorAt; split <;> decide) k

theorem stops_newline {c : Cursor} (h : c.head.Stands .newline) (k : Nat) : Stops k c :=
  stops_of_stands h (by decide) (fun k => by unfold operatorAt; split <;> decide) k

theorem Reads.argsOne {d : Nat} {ts : List Token} {n : Node} (h : Reads d (.layer layerCount) ts [n]) :
    Reads d .arguments ts [n] := by
  intro c c' hs ht hrp
  refine ⟨n, [], c', rfl, h.expression hs ht (stops_rpar hrp _), fun steps _ => ?_⟩
  have hno : ¬ c'.sees [","] = true := not_sees hrp [.comma] (by decide) (by decide)
  cases steps with
  | zero => rfl
  | succ steps => rw [moreArguments, if_neg hno]

theorem Reads.argsMore {d : Nat} {ts us : List Token} {comma : Token} {n : Node} {ns : List Node}
    (h : Reads d (.layer layerCount) ts [n]) (hc : comma.Stands .comma) (hrest : Reads d .arguments us ns) :
    Reads d .arguments (ts ++ comma :: us) (n :: ns) := by
  intro c c' hs ht hrp
  obtain ⟨c₂, hc₂⟩ := exists_cursor us c'
  obtain ⟨c₁, hc₁⟩ := exists_cursor [comma] c₂
  have hread : c.tokens = ts ++ c₁.tokens := by rw [ht, hc₁, hc₂]; simp
  have hs₁ := stream_of_tokens hs hread
  obtain ⟨hhead, hnext⟩ := Cursor.next_of_tokens hc₁
  have hcomma : c₁.head.Stands .comma := hhead ▸ hc
  obtain ⟨m, others, c₃, rfl, hfirst, hmore⟩ := hrest c₂ c' (stream_of_tokens hs₁ hc₁) hc₂ hrp
  refine ⟨n, m :: others, c₁, rfl, h.expression hs hread (stops_comma hcomma _), fun steps hsteps => ?_⟩
  have hsees : c₁.sees [","] = true := sees_of_stands hcomma (by decide)
  obtain ⟨steps, rfl⟩ : ∃ s, steps = s + 1 := ⟨steps - 1, by simp [Cursor.room] at hsteps; omega⟩
  -- The expression behind the comma was read from inside the tokens of this cursor.
  obtain ⟨es, hes, -⟩ := expression_sound d _ _ _ (stream_of_tokens hs₁ hc₁) hfirst
  have hroom : c₃.room ≤ steps := by
    simp only [Cursor.room_eq, hc₁, hes, List.length_append, List.length_singleton] at hsteps ⊢
    omega
  rw [moreArguments, if_pos hsees, hnext, hfirst, Success.ok_bind]
  simp only [hmore steps hroom, Success.ok_bind]
  rfl

/-! ## Statements -/

theorem endOfStatement_of_newline {c c' : Cursor} {eol : Token} (h : eol.Stands .newline)
    (ht : c.tokens = eol :: c'.tokens) : endOfStatement c = .ok ((), c') := by
  have hhead : c.head.Stands .newline := (Cursor.next_of_tokens ht).1 ▸ h
  have hno : ¬ c.sees ["DEDENT", "EOF"] = true := not_sees hhead [.dedent, .finish] (by decide) (by decide)
  rw [endOfStatement, if_neg hno, expect_of_stands "NEWLINE" "end of line" rfl h ht]
  rfl

/-- A statement reads what its dispatch reads. -/
theorem reads_statement {d : Nat} {ts : List Token} {n : Node}
    (h : ∀ c c' : Cursor, Stream c.tokens → c.tokens = ts ++ c'.tokens →
      dispatch (Parse.expression d) (statement d) c = .ok (n, c')) : Reads (d + 1) .statement ts [n] := by
  intro c c' hs ht
  refine ⟨n, rfl, ?_⟩
  rw [statement, h c c' hs ht]
  rfl

section Dispatch

variable {e p : Parser Node} {c : Cursor}

/-- The parser of a statement that starts with a keyword. -/
theorem dispatch_keyword {x : Terminal} (h : c.head.Stands x) :
    (x = .kwIf → dispatch e p c = guarded .ifStmt e p c) ∧
    (x = .kwWhile → dispatch e p c = guarded .whileStmt e p c) ∧
    (x = .kwReturn → dispatch e p c = returning e c) ∧
    (x = .kwDisplay → dispatch e p c = displaying e c) := by
  have no : ∀ y, labels y ≠ [] → x ≠ y → ¬ c.sees (labels y) = true := by
    intro y hy hx
    simpa using not_sees h [y] (by simpa using hy) (by simpa using hx)
  have yes := sees_of_stands h
  refine ⟨?_, ?_, ?_, ?_⟩ <;> rintro rfl <;> unfold dispatch
  · rw [if_pos (show c.sees ["if"] = true from yes (by decide))]
  · rw [if_neg (show ¬ c.sees ["if"] = true from no .kwIf (by decide) (by decide)),
      if_pos (show c.sees ["while"] = true from yes (by decide))]
  · rw [if_neg (show ¬ c.sees ["if"] = true from no .kwIf (by decide) (by decide)),
      if_neg (show ¬ c.sees ["while"] = true from no .kwWhile (by decide) (by decide)),
      if_pos (show c.sees ["return"] = true from yes (by decide))]
  · rw [if_neg (show ¬ c.sees ["if"] = true from no .kwIf (by decide) (by decide)),
      if_neg (show ¬ c.sees ["while"] = true from no .kwWhile (by decide) (by decide)),
      if_neg (show ¬ c.sees ["return"] = true from no .kwReturn (by decide) (by decide)),
      if_pos (show c.sees ["display"] = true from yes (by decide))]

/-- The parser of a statement by the token behind its name, if it starts with one. -/
theorem dispatch_of_others {x : Terminal} (h : c.head.Stands x)
    (hx : x ∉ [Terminal.kwIf, .kwWhile, .kwReturn, .kwDisplay]) :
    dispatch e p c = if c.head.kind = .name then
        if c.next.sees ["("] then function p c
        else if c.next.head.kind = .name then declaration e c
        else if c.next.sees ["="] then assignment e c
        else .error (unexpected "a declaration or assignment after identifier" c.next.head)
      else .error (unexpected "statement" c.head) := by
  have no : ∀ y ∈ [Terminal.kwIf, .kwWhile, .kwReturn, .kwDisplay], labels y ≠ [] → ¬ c.sees (labels y) = true := by
    intro y hmem hy
    have hne : x ≠ y := by
      rintro rfl
      exact hx hmem
    simpa using not_sees h [y] (by simpa using hy) (by simpa using hne)
  unfold dispatch
  rw [if_neg (show ¬ c.sees ["if"] = true from no .kwIf (by decide) (by decide)),
    if_neg (show ¬ c.sees ["while"] = true from no .kwWhile (by decide) (by decide)),
    if_neg (show ¬ c.sees ["return"] = true from no .kwReturn (by decide) (by decide)),
    if_neg (show ¬ c.sees ["display"] = true from no .kwDisplay (by decide) (by decide))]

/-- The parser of a statement that starts with a name, by the token behind it. -/
theorem dispatch_name {x : Terminal} (h : c.head.Stands .name) (hx : c.next.head.Stands x) :
    (x = .lpar → dispatch e p c = function p c) ∧
    (x = .name → dispatch e p c = declaration e c) ∧
    (x = .assign → dispatch e p c = assignment e c) := by
  have hname := dispatch_of_others (e := e) (p := p) h (by decide)
  rw [if_pos (h.kind (k := .name) rfl)] at hname
  have yes := sees_of_stands hx
  refine ⟨?_, ?_, ?_⟩ <;> rintro rfl <;> rw [hname]
  · rw [if_pos (show c.next.sees ["("] = true from yes (by decide))]
  · rw [if_neg (show ¬ c.next.sees ["("] = true from not_sees hx [.lpar] (by decide) (by decide)),
      if_pos (hx.kind (k := .name) rfl)]
  · rw [if_neg (show ¬ c.next.sees ["("] = true from not_sees hx [.lpar] (by decide) (by decide)),
      if_neg (kind_ne_name hx (by decide)), if_pos (show c.next.sees ["="] = true from yes (by decide))]

/-- No statement starts with a name and one of the other tokens. -/
theorem dispatch_name_other {x : Terminal} (h : c.head.Stands .name) (hx : c.next.head.Stands x) (hp : x ≠ .lpar)
    (hn : x ≠ .name) (ha : x ≠ .assign) :
    dispatch e p c = .error (unexpected "a declaration or assignment after identifier" c.next.head) := by
  rw [dispatch_of_others h (by decide), if_pos (h.kind (k := .name) rfl),
    if_neg (show ¬ c.next.sees ["("] = true from not_sees hx [.lpar] (by decide) (by simpa using hp)),
    if_neg (kind_ne_name hx hn),
    if_neg (show ¬ c.next.sees ["="] = true from not_sees hx [.assign] (by decide) (by simpa using ha))]

theorem dispatch_other {x : Terminal} (h : c.head.Stands x) (hx : x ∉ statementStarts) :
    dispatch e p c = .error (unexpected "statement" c.head) := by
  simp only [statementStarts, List.mem_cons, List.not_mem_nil, or_false, not_or] at hx
  rw [dispatch_of_others h (by simpa using hx.2), if_neg (kind_ne_name h hx.1)]

end Dispatch

theorem Reads.varDeclPlain {d : Nat} {type name eol : Token} (ht : type.Stands .name) (hn : name.Stands .name)
    (he : eol.Stands .newline) :
    Reads (d + 1) .statement [type, name, eol] [.varDecl (some type.lexeme) name.lexeme .absent type.place] := by
  refine reads_statement fun c c' hs h => ?_
  obtain ⟨c₂, hc₂⟩ := exists_cursor [eol] c'
  obtain ⟨c₁, hc₁⟩ := exists_cursor [name] c₂
  have hread : c.tokens = type :: c₁.tokens := by rw [h, hc₁, hc₂]; rfl
  obtain ⟨hhead, hnext⟩ := Cursor.next_of_tokens hread
  have hname : c.next.head.Stands .name := by rw [hnext, (Cursor.next_of_tokens hc₁).1]; exact hn
  have hno : ¬ c₂.sees ["="] = true :=
    not_sees (x := .newline) ((Cursor.next_of_tokens hc₂).1 ▸ he) [.assign] (by decide) (by decide)
  rw [(dispatch_name (hhead ▸ ht) hname).2.1 rfl, declaration, typeName,
    expect_of_stands "NAME" "type identifier" rfl ht hread]
  simp only [Success.ok_bind, Success.pure_eq, expect_of_stands "NAME" "variable name" rfl hn hc₁, if_neg hno,
    endOfStatement_of_newline he hc₂, hhead]
  rfl

theorem Reads.varDeclInit {d : Nat} {type name eq eol : Token} {ts : List Token} {n : Node}
    (ht : type.Stands .name) (hn : name.Stands .name) (hq : eq.Stands .assign)
    (h : Reads d (.layer layerCount) ts [n]) (he : eol.Stands .newline) :
    Reads (d + 1) .statement (type :: name :: eq :: (ts ++ [eol]))
      [.varDecl (some type.lexeme) name.lexeme n type.place] := by
  refine reads_statement fun c c' hs htok => ?_
  obtain ⟨c₄, hc₄⟩ := exists_cursor [eol] c'
  obtain ⟨c₃, hc₃⟩ := exists_cursor ts c₄
  obtain ⟨c₂, hc₂⟩ := exists_cursor [eq] c₃
  obtain ⟨c₁, hc₁⟩ := exists_cursor [name] c₂
  have hread : c.tokens = type :: c₁.tokens := by rw [htok, hc₁, hc₂, hc₃, hc₄]; simp
  obtain ⟨hhead, hnext⟩ := Cursor.next_of_tokens hread
  obtain ⟨hhead₂, hnext₂⟩ := Cursor.next_of_tokens hc₂
  have hs₃ : Stream c₃.tokens :=
    stream_of_tokens (f := [type, name, eq]) hs (by rw [hread, hc₁, hc₂]; rfl)
  have hname : c.next.head.Stands .name := by rw [hnext, (Cursor.next_of_tokens hc₁).1]; exact hn
  have hsees : c₂.sees ["="] = true := sees_of_stands (hhead₂ ▸ hq) (by decide)
  have hvalue := h.expression hs₃ hc₃ (stops_newline ((Cursor.next_of_tokens hc₄).1 ▸ he) _)
  rw [(dispatch_name (hhead ▸ ht) hname).2.1 rfl, declaration, typeName,
    expect_of_stands "NAME" "type identifier" rfl ht hread]
  simp only [Success.ok_bind, Success.pure_eq, expect_of_stands "NAME" "variable name" rfl hn hc₁, if_pos hsees,
    hnext₂, hvalue, endOfStatement_of_newline he hc₄, hhead]
  rfl

theorem Reads.assignment {d : Nat} {name eq eol : Token} {ts : List Token} {n : Node} (hn : name.Stands .name)
    (hq : eq.Stands .assign) (h : Reads d (.layer layerCount) ts [n]) (he : eol.Stands .newline) :
    Reads (d + 1) .statement (name :: eq :: (ts ++ [eol])) [.assignment name.lexeme n name.place] := by
  refine reads_statement fun c c' hs htok => ?_
  obtain ⟨c₃, hc₃⟩ := exists_cursor [eol] c'
  obtain ⟨c₂, hc₂⟩ := exists_cursor ts c₃
  obtain ⟨c₁, hc₁⟩ := exists_cursor [eq] c₂
  have hread : c.tokens = name :: c₁.tokens := by rw [htok, hc₁, hc₂, hc₃]; simp
  obtain ⟨hhead, hnext⟩ := Cursor.next_of_tokens hread
  have hs₂ : Stream c₂.tokens := stream_of_tokens (f := [name, eq]) hs (by rw [hread, hc₁]; rfl)
  have hassign : c.next.head.Stands .assign := by rw [hnext, (Cursor.next_of_tokens hc₁).1]; exact hq
  have hvalue := h.expression hs₂ hc₂ (stops_newline ((Cursor.next_of_tokens hc₃).1 ▸ he) _)
  rw [(dispatch_name (hhead ▸ hn) hassign).2.2 rfl, Parse.assignment, expect_of_stands "NAME" "NAME" rfl hn hread]
  simp only [Success.ok_bind, expect_of_stands "=" "=" rfl hq hc₁, hvalue, endOfStatement_of_newline he hc₃]
  rfl

theorem Reads.returnPlain {d : Nat} {kw eol : Token} (hk : kw.Stands .kwReturn) (he : eol.Stands .newline) :
    Reads (d + 1) .statement [kw, eol] [.returnStmt .absent kw.place] := by
  refine reads_statement fun c c' hs htok => ?_
  obtain ⟨c₁, hc₁⟩ := exists_cursor [eol] c'
  have hread : c.tokens = kw :: c₁.tokens := by rw [htok, hc₁]; rfl
  obtain ⟨hhead, hnext⟩ := Cursor.next_of_tokens hread
  have hnl : c₁.head.Stands .newline := (Cursor.next_of_tokens hc₁).1 ▸ he
  have hsees : c₁.sees ["NEWLINE", "DEDENT", "EOF"] = true :=
    (sees_iff hnl [.newline, .dedent, .finish] (by decide)).mpr (by decide)
  rw [(dispatch_keyword (hhead ▸ hk)).2.2.1 rfl, returning]
  simp only [hnext, if_pos hsees, endOfStatement_of_newline he hc₁, hhead, Success.ok_bind]
  rfl

theorem Reads.returnValue {d : Nat} {kw eol : Token} {ts : List Token} {n : Node} (hk : kw.Stands .kwReturn)
    (hspell : Spells d (.layer layerCount) ts [n]) (h : Reads d (.layer layerCount) ts [n]) (he : eol.Stands .newline) :
    Reads (d + 1) .statement (kw :: (ts ++ [eol])) [.returnStmt n kw.place] := by
  refine reads_statement fun c c' hs htok => ?_
  obtain ⟨c₂, hc₂⟩ := exists_cursor [eol] c'
  obtain ⟨c₁, hc₁⟩ := exists_cursor ts c₂
  have hread : c.tokens = kw :: c₁.tokens := by rw [htok, hc₁, hc₂]; simp
  obtain ⟨hhead, hnext⟩ := Cursor.next_of_tokens hread
  have hs₁ : Stream c₁.tokens := stream_of_tokens (f := [kw]) hs hread
  have hvalue := h.expression hs₁ hc₁ (stops_newline ((Cursor.next_of_tokens hc₂).1 ▸ he) _)
  obtain ⟨t, rest, x, rfl, hx, ht⟩ := hspell.startsInline trivial
  have hhead₁ : c₁.head.Stands x := by
    rw [show c₁.head = t from (List.cons.inj hc₁).1]
    exact ht
  have hne : x ∉ [Terminal.newline, .dedent, .finish] := by
    intro hm
    revert hx
    simp only [List.mem_cons, List.not_mem_nil, or_false] at hm
    rcases hm with rfl | rfl | rfl <;> decide
  have hno : ¬ c₁.sees ["NEWLINE", "DEDENT", "EOF"] = true :=
    not_sees hhead₁ [.newline, .dedent, .finish] (by decide) hne
  rw [(dispatch_keyword (hhead ▸ hk)).2.2.1 rfl, returning]
  simp only [hnext, if_neg hno, hvalue, endOfStatement_of_newline he hc₂, hhead, Success.ok_bind]
  rfl

theorem Reads.display {d : Nat} {kw eol : Token} {ts : List Token} {n : Node} (hk : kw.Stands .kwDisplay)
    (h : Reads d (.layer layerCount) ts [n]) (he : eol.Stands .newline) :
    Reads (d + 1) .statement (kw :: (ts ++ [eol])) [.display n kw.place] := by
  refine reads_statement fun c c' hs htok => ?_
  obtain ⟨c₂, hc₂⟩ := exists_cursor [eol] c'
  obtain ⟨c₁, hc₁⟩ := exists_cursor ts c₂
  have hread : c.tokens = kw :: c₁.tokens := by rw [htok, hc₁, hc₂]; simp
  obtain ⟨hhead, hnext⟩ := Cursor.next_of_tokens hread
  have hs₁ : Stream c₁.tokens := stream_of_tokens (f := [kw]) hs hread
  have hvalue := h.expression hs₁ hc₁ (stops_newline ((Cursor.next_of_tokens hc₂).1 ▸ he) _)
  rw [(dispatch_keyword (hhead ▸ hk)).2.2.2 rfl, displaying]
  simp only [hnext, hvalue, endOfStatement_of_newline he hc₂, hhead, Success.ok_bind]
  rfl

theorem head_of_block {d : Nat} {us : List Token} {b : Node} (h : Spells d .block us [b]) {c c' : Cursor}
    (ht : c.tokens = us ++ c'.tokens) : c.head.Stands .newline := by
  cases h with
  | block he _ _ _ =>
    have hhead := congrArg List.head? ht
    simp only [Cursor.tokens, List.head?_cons, List.cons_append, Option.some.injEq] at hhead
    rwa [hhead]

theorem Reads.guarded {d : Nat} {kw : Token} {x : Terminal} {build : Node → Node → Option Position → Node}
    {ts us : List Token} {n b : Node} (hk : kw.Stands x) (hx : guardOf? x = some build)
    (h : Reads d (.layer layerCount) ts [n]) (hblock : Spells d .block us [b]) (hb : Reads d .block us [b]) :
    Reads (d + 1) .statement (kw :: (ts ++ us)) [build n b kw.place] := by
  refine reads_statement fun c c' hs htok => ?_
  obtain ⟨c₂, hc₂⟩ := exists_cursor us c'
  obtain ⟨c₁, hc₁⟩ := exists_cursor ts c₂
  have hread : c.tokens = kw :: c₁.tokens := by rw [htok, hc₁, hc₂]; simp
  obtain ⟨hhead, hnext⟩ := Cursor.next_of_tokens hread
  have hs₁ : Stream c₁.tokens := stream_of_tokens (f := [kw]) hs hread
  have hvalue := h.expression hs₁ hc₁ (stops_newline (head_of_block hblock hc₂) _)
  obtain ⟨b', hb', hbody⟩ := hb c₂ c' (stream_of_tokens hs₁ hc₁) hc₂
  obtain rfl := List.singleton_inj.mp hb'
  have hguarded : Parse.guarded build (Parse.expression d) (statement d) c = .ok (build n b kw.place, c') := by
    rw [Parse.guarded]
    simp only [hnext, hvalue, hbody, hhead, Success.ok_bind]
    rfl
  unfold guardOf? at hx
  split at hx
  · obtain rfl := Option.some.inj hx
    rw [(dispatch_keyword (hhead ▸ hk)).1 rfl, hguarded]
  · obtain rfl := Option.some.inj hx
    rw [(dispatch_keyword (hhead ▸ hk)).2.1 rfl, hguarded]
  · cases hx

theorem parameters_reads {ts : List Token} {ns : List Node} (h : SpellsParams ts ns) {c c' : Cursor}
    (ht : c.tokens = ts ++ c'.tokens) (hrp : c'.head.Stands .rpar) {steps : Nat} (hsteps : c.room ≤ steps) :
    parameters steps c = .ok (ns, c') := by
  induction h generalizing c steps with
  | one htype hname =>
    rename_i type name
    obtain ⟨steps, rfl⟩ : ∃ s, steps = s + 1 := ⟨steps - 1, by simp [Cursor.room] at hsteps; omega⟩
    obtain ⟨c₁, hc₁⟩ := exists_cursor [name] c'
    have hread : c.tokens = type :: c₁.tokens := by rw [ht, hc₁]; rfl
    have hno : ¬ c'.sees [","] = true := not_sees hrp [.comma] (by decide) (by decide)
    rw [parameters, typeName, expect_of_stands "NAME" "type identifier" rfl htype hread]
    simp only [Success.ok_bind, Success.pure_eq, expect_of_stands "NAME" "parameter name" rfl hname hc₁, if_neg hno,
      (Cursor.next_of_tokens hread).1]
    rfl
  | more htype hname hcomma _ ih =>
    rename_i type name comma ts ns _
    obtain ⟨steps, rfl⟩ : ∃ s, steps = s + 1 := ⟨steps - 1, by simp [Cursor.room] at hsteps; omega⟩
    obtain ⟨c₃, hc₃⟩ := exists_cursor ts c'
    obtain ⟨c₂, hc₂⟩ := exists_cursor [comma] c₃
    obtain ⟨c₁, hc₁⟩ := exists_cursor [name] c₂
    have hread : c.tokens = type :: c₁.tokens := by rw [ht, hc₁, hc₂, hc₃]; simp
    obtain ⟨hhead₂, hnext₂⟩ := Cursor.next_of_tokens hc₂
    have hsees : c₂.sees [","] = true := sees_of_stands (hhead₂ ▸ hcomma) (by decide)
    have hroom : c₃.room ≤ steps := by
      rw [Cursor.room_eq, hread, hc₁, hc₂] at hsteps
      simp only [Cursor.room_eq, List.length_cons, List.length_append, List.length_nil] at hsteps ⊢
      omega
    rw [parameters, typeName, expect_of_stands "NAME" "type identifier" rfl htype hread]
    simp only [Success.ok_bind, Success.pure_eq, expect_of_stands "NAME" "parameter name" rfl hname hc₁, if_pos hsees,
      hnext₂, ih hc₃ hroom, (Cursor.next_of_tokens hread).1]
    rfl

theorem parameterList_reads {ts : List Token} {ns : List Node} (h : SpellsParamList ts ns) {c c' : Cursor}
    (ht : c.tokens = ts ++ c'.tokens) (hrp : c'.head.Stands .rpar) : parameterList c = .ok (ns, c') := by
  unfold parameterList
  rcases h with ⟨rfl, rfl⟩ | h
  · obtain rfl := Cursor.tokens_inj ht
    rw [if_pos (show c.sees [")"] = true from sees_of_stands hrp (by decide))]
  · have hname : c.head.Stands .name := by
      have hhead := congrArg List.head? ht
      cases h with
      | one htype _ =>
        simp only [Cursor.tokens, List.head?_cons, List.cons_append, Option.some.injEq] at hhead
        rwa [hhead]
      | more htype _ _ _ =>
        simp only [Cursor.tokens, List.head?_cons, List.cons_append, Option.some.injEq] at hhead
        rwa [hhead]
    rw [if_neg (show ¬ c.sees [")"] = true from not_sees hname [.rpar] (by decide) (by decide))]
    exact parameters_reads h ht hrp (Nat.le_refl _)

theorem returnType_reads {ts : List Token} {returns : Option String} (h : SpellsReturns ts returns) {c c' : Cursor}
    (ht : c.tokens = ts ++ c'.tokens) (hnl : c'.head.Stands .newline) : returnType c = .ok (returns, c') := by
  unfold returnType
  cases h with
  | none =>
    obtain rfl := Cursor.tokens_inj ht
    rw [if_neg (show ¬ c.sees ["->"] = true from not_sees hnl [.arrow] (by decide) (by decide))]
  | some harrow htype =>
    rename_i arrow type
    obtain ⟨c₁, hc₁⟩ := exists_cursor [type] c'
    have hread : c.tokens = arrow :: c₁.tokens := by rw [ht, hc₁]; rfl
    obtain ⟨hhead, hnext⟩ := Cursor.next_of_tokens hread
    rw [if_pos (show c.sees ["->"] = true from sees_of_stands (hhead ▸ harrow) (by decide)), hnext, typeName,
      expect_of_stands "NAME" "type identifier" rfl htype hc₁]
    rfl

theorem Reads.function {d : Nat} {name lp rp : Token} {ps rs us : List Token} {params : List Node}
    {returns : Option String} {b : Node} (hn : name.Stands .name) (hlp : lp.Stands .lpar)
    (hps : SpellsParamList ps params) (hrp : rp.Stands .rpar) (hrs : SpellsReturns rs returns)
    (hblock : Spells d .block us [b]) (hb : Reads d .block us [b]) :
    Reads (d + 1) .statement (name :: lp :: (ps ++ rp :: (rs ++ us)))
      [.function name.lexeme params returns b name.place] := by
  refine reads_statement fun c c' hs htok => ?_
  obtain ⟨c₅, hc₅⟩ := exists_cursor us c'
  obtain ⟨c₄, hc₄⟩ := exists_cursor rs c₅
  obtain ⟨c₃, hc₃⟩ := exists_cursor [rp] c₄
  obtain ⟨c₂, hc₂⟩ := exists_cursor ps c₃
  obtain ⟨c₁, hc₁⟩ := exists_cursor [lp] c₂
  have hread : c.tokens = name :: c₁.tokens := by rw [htok, hc₁, hc₂, hc₃, hc₄, hc₅]; simp
  obtain ⟨hhead, hnext⟩ := Cursor.next_of_tokens hread
  have hlpar : c.next.head.Stands .lpar := by rw [hnext, (Cursor.next_of_tokens hc₁).1]; exact hlp
  have hs₅ : Stream c₅.tokens :=
    stream_of_tokens (f := name :: lp :: (ps ++ rp :: rs)) hs (by rw [hread, hc₁, hc₂, hc₃, hc₄]; simp)
  obtain ⟨b', hb', hbody⟩ := hb c₅ c' hs₅ hc₅
  obtain rfl := List.singleton_inj.mp hb'
  rw [(dispatch_name (hhead ▸ hn) hlpar).1 rfl, Parse.function, expect_of_stands "NAME" "NAME" rfl hn hread]
  simp only [Success.ok_bind, expect_of_stands "(" "(" rfl hlp hc₁,
    parameterList_reads hps hc₂ ((Cursor.next_of_tokens hc₃).1 ▸ hrp), expect_of_stands ")" ")" rfl hrp hc₃,
    returnType_reads hrs hc₄ (head_of_block hblock hc₅), hbody]
  rfl

/-! ## Blocks -/

/-- A statement does not start with what ends a block or the text. -/
theorem head_not_stop {d : Nat} {p : Phrase} {ts : List Token} {ns : List Node} (h : Spells d p ts ns)
    (hp : p = .statement ∨ p = .statements) {c c' : Cursor} (ht : c.tokens = ts ++ c'.tokens)
    {stops : List Terminal} (hstops : ∀ y ∈ stops, y ∈ [Terminal.dedent, .finish]) :
    ¬ c.sees (stops.flatMap labels) = true := by
  obtain ⟨t, rest, rfl, hstart⟩ := h.starts
  obtain ⟨⟨x, hx, hst⟩, -⟩ := hstart hp
  have hhead : c.head = t := (List.cons.inj ht).1
  refine not_sees (hhead ▸ hst) stops (fun y hy => ?_) fun hmem => ?_
  · have := hstops y hy
    simp only [List.mem_cons, List.not_mem_nil, or_false] at this
    rcases this with rfl | rfl <;> decide
  · have := hstops x hmem
    simp only [List.mem_cons, List.not_mem_nil, or_false] at this
    rcases this with rfl | rfl <;> revert hx <;> decide

theorem Reads.one {d : Nat} {ts : List Token} {n : Node} (hspell : Spells d .statement ts [n])
    (h : Reads d .statement ts [n]) : Reads d .statements ts [n] := by
  intro c c' hs ht stops hstops hsees steps hsteps
  obtain ⟨n', hn', hok⟩ := h c c' hs ht
  obtain rfl := List.singleton_inj.mp hn'
  obtain ⟨steps, rfl⟩ : ∃ s, steps = s + 1 := ⟨steps - 1, by simp [Cursor.room] at hsteps; omega⟩
  rw [statementsTo, if_neg (head_not_stop hspell (Or.inl rfl) ht hstops), hok, Success.ok_bind]
  have hend : statementsTo (stops.flatMap labels) (statement d) steps c' = .ok ([], c') := by
    cases steps with
    | zero => rfl
    | succ steps => rw [statementsTo, if_pos hsees]
  simp only [hend]
  rfl

theorem Reads.more {d : Nat} {ts us : List Token} {n : Node} {ns : List Node} (hspell : Spells d .statement ts [n])
    (h : Reads d .statement ts [n]) (hrest : Reads d .statements us ns) : Reads d .statements (ts ++ us) (n :: ns) := by
  intro c c' hs ht stops hstops hsees steps hsteps
  obtain ⟨c₁, hc₁⟩ := exists_cursor us c'
  have hread : c.tokens = ts ++ c₁.tokens := by rw [ht, hc₁, List.append_assoc]
  obtain ⟨n', hn', hok⟩ := h c c₁ hs hread
  obtain rfl := List.singleton_inj.mp hn'
  obtain ⟨steps, rfl⟩ : ∃ s, steps = s + 1 := ⟨steps - 1, by simp [Cursor.room] at hsteps; omega⟩
  have hroom : c₁.room ≤ steps := by
    obtain ⟨t, rest, rfl, -⟩ := hspell.starts
    rw [Cursor.room_eq, hread] at hsteps
    simp only [Cursor.room_eq, List.length_append, List.length_cons] at hsteps ⊢
    omega
  have hothers := hrest c₁ c' (stream_of_tokens hs hread) hc₁ stops hstops hsees steps hroom
  rw [statementsTo, if_neg (head_not_stop hspell (Or.inl rfl) hread hstops), hok, Success.ok_bind]
  simp only [hothers]
  rfl

theorem Reads.block {d : Nat} {eol ind ded : Token} {ts : List Token} {n : Node} {ns : List Node}
    (he : eol.Stands .newline) (hi : ind.Stands .indent) (hspell : Spells d .statements ts (n :: ns))
    (h : Reads d .statements ts (n :: ns)) (hd : ded.Stands .dedent) :
    Reads d .block (eol :: ind :: (ts ++ [ded])) [.block (n :: ns) (n.position?.getD none)] := by
  intro c c' hs ht
  obtain ⟨c₃, hc₃⟩ := exists_cursor [ded] c'
  obtain ⟨c₂, hc₂⟩ := exists_cursor ts c₃
  obtain ⟨c₁, hc₁⟩ := exists_cursor [ind] c₂
  have hread : c.tokens = eol :: c₁.tokens := by rw [ht, hc₁, hc₂, hc₃]; simp
  have hs₂ : Stream c₂.tokens := stream_of_tokens (f := [eol, ind]) hs (by rw [hread, hc₁]; rfl)
  have hded : c₃.head.Stands .dedent := (Cursor.next_of_tokens hc₃).1 ▸ hd
  have hstatements := h c₂ c₃ hs₂ hc₂ [.dedent, .finish] (fun _ => id)
    ((sees_iff hded [.dedent, .finish] (by decide)).mpr (by decide)) _ (Nat.le_refl _)
  obtain ⟨t, rest, rfl, hstart⟩ := hspell.starts
  obtain ⟨-, n', others, hns, hpos⟩ := hstart (Or.inr rfl)
  obtain rfl : n = n' := (List.cons.inj hns).1
  have hhead : c₂.head = t := (List.cons.inj hc₂).1
  refine ⟨_, rfl, ?_⟩
  rw [Parse.block, expect_of_stands "NEWLINE" "end of line before block" rfl he hread, Success.ok_bind]
  simp only [expect_of_stands "INDENT" "indented block" rfl hi hc₁, Success.ok_bind,
    show statementsTo ["DEDENT", "EOF"] (statement d) c₂.room c₂ = _ from hstatements, List.isEmpty_cons,
    Bool.false_eq_true, if_false, expect_of_stands "DEDENT" "dedent" rfl hd hc₃, hhead, hpos]
  rfl

/-! ## Programs -/

/-- In front of the tokens of a phrase its parser reads them. -/
theorem Spells.reads {d : Nat} {p : Phrase} {ts : List Token} {ns : List Node} (h : Spells d p ts ns) :
    Reads d p ts ns := by
  induction h with
  | lift hk _ ih =>
    intro c c' hs ht hstop
    refine ⟨_, c'.room, rfl, Nat.le_refl _, ?_⟩
    rw [nest, layer, ih.layer hs ht hstop, Success.ok_bind]
  | binary hk _ hop _ ihl ihr => exact ihl.binary hk hop ihr
  | unary hop _ ih => exact ih.unary hop
  | literal hv => exact .literal hv
  | identifier ht => exact .identifier ht
  | callPlain ht hlp hrp => exact .callPlain ht hlp hrp
  | callArgs ht hlp h hrp ih => exact .callArgs ht hlp h ih hrp
  | parens hlp _ hrp ih => exact .parens hlp ih hrp
  | argsOne _ ih => exact ih.argsOne
  | argsMore _ hc _ ih ihs => exact ih.argsMore hc ihs
  | varDeclPlain ht hn he => exact .varDeclPlain ht hn he
  | varDeclInit ht hn hq _ he ih => exact .varDeclInit ht hn hq ih he
  | assignment hn hq _ he ih => exact .assignment hn hq ih he
  | returnPlain hk he => exact .returnPlain hk he
  | returnValue hk h he ih => exact .returnValue hk h ih he
  | display hk _ he ih => exact .display hk ih he
  | guarded hk hx _ hb ih ihb => exact .guarded hk hx ih hb ihb
  | function hn hlp hps hrp hrs hb ihb => exact .function hn hlp hps hrp hrs hb ihb
  | one h ih => exact .one h ih
  | more h _ ih ihs => exact .more h ih ihs
  | block he hi h hd ih => exact .block he hi h ih hd

/-- The descent returns exactly the programs that the tokens of a stream spell. -/
theorem programTo_iff {d : Nat} {tokens : List Token} (hs : Stream tokens) {n : Node} :
    programTo d tokens = .ok n ↔ ∃ body, n = .program body programPosition ∧ SpellsProgram d tokens body := by
  refine ⟨programTo_sound hs, ?_⟩
  rintro ⟨body, rfl, ts, last, rfl, hlast, hbody⟩
  have hc' : ∃ c' : Cursor, c'.tokens = [last] := ⟨⟨last, []⟩, rfl⟩
  obtain ⟨c', hc'⟩ := hc'
  obtain ⟨c, hc⟩ := exists_cursor ts c'
  rw [hc'] at hc
  rw [← hc] at hs ⊢
  have hstop : c'.sees ["EOF"] = true := by
    have hhead : c'.head = last := (List.cons.inj hc').1
    exact sees_of_stands (hhead ▸ hlast) (by decide)
  have hok : statementsTo ["EOF"] (statement d) c.room c = .ok (body, c') := by
    rcases hbody with ⟨rfl, rfl⟩ | hbody
    · obtain rfl : c = c' := Cursor.tokens_inj (hc.trans hc'.symm)
      rw [Cursor.room, statementsTo, if_pos hstop]
    · exact hbody.reads c c' hs (by rw [hc, hc']) [.finish] (by decide) hstop _ (Nat.le_refl _)
  simp only [programTo, Cursor.tokens, Cursor.ofList?, hok]
  rfl

end TillLang.Parse
