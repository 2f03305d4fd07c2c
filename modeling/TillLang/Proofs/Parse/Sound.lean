/-
  TillLang.Proofs.Parse.Sound — what the descent returns is spelled by what it has read.

  A cursor stands for the tokens from its place on. As long as these are a token stream the
  cursor moves on behind every token but the last, and the label that a parser looks for
  belongs to exactly one terminal (`sees_iff`). Each parser is shown sound against the phrase
  it is for: the layers by induction on the operators read, the nested ones by induction on
  the depth.

  A statement may end without a line end in front of the end of a block. In a stream it never
  does, since no block ends in the middle of a line (`endOfStatement_newline`).
-/

import TillLang.Parse.Descent
import TillLang.Proofs.Parse.Spelling
import TillLang.Proofs.Token.Stream

namespace TillLang.Parse

open Grammar (Terminal)
open Token (Stream)

/-! ## Cursors -/

/-- The tokens from a place on. -/
def Cursor.tokens (c : Cursor) : List Token := c.head :: c.tail

theorem Cursor.room_eq (c : Cursor) : c.room = c.tokens.length := rfl

theorem Cursor.tokens_inj {c c' : Cursor} (h : c.tokens = c'.tokens) : c = c' := by
  obtain ⟨t, ts⟩ := c
  obtain ⟨t', ts'⟩ := c'
  simpa [Cursor.tokens] using h

/-- A cursor in front of a token and others moves on to the others. -/
theorem Cursor.next_of_tokens {c c' : Cursor} {t : Token} (h : c.tokens = t :: c'.tokens) :
    c.head = t ∧ c.next = c' := by
  obtain ⟨t₁, ts⟩ := c
  obtain ⟨t', ts'⟩ := c'
  simp only [Cursor.tokens, List.cons.injEq] at h
  obtain ⟨rfl, rfl⟩ := h
  exact ⟨rfl, rfl⟩

/-- Behind a token that is not the last, a cursor moves on. -/
theorem Cursor.tokens_next {c : Cursor} (hs : Stream c.tokens) (hk : c.head.kind ≠ .eof) :
    c.tokens = c.head :: c.next.tokens := by
  obtain ⟨t, ts⟩ := c
  cases ts with
  | nil => exact absurd rfl (hs.tail_ne_nil hk)
  | cons t' ts => rfl

theorem stream_of_tokens {c c' : Cursor} {f : List Token} (hs : Stream c.tokens)
    (h : c.tokens = f ++ c'.tokens) : Stream c'.tokens := by
  rw [h] at hs
  exact hs.rest (by simp [Cursor.tokens])

/-! ## Labels -/

/-- The labels that tokens of a terminal answer to; truth values share one, which no parser
looks for. -/
def labels : Terminal → List String
  | .name => ["NAME"]
  | .number => ["NUMBER"]
  | .string => ["STRING"]
  | .char => ["CHAR"]
  | .litTrue | .litFalse => []
  | .kwIf => ["if"]
  | .kwWhile => ["while"]
  | .kwReturn => ["return"]
  | .kwDisplay => ["display"]
  | .eqOp => ["=="]
  | .relOp => ["<", ">"]
  | .addOp => ["+", "-"]
  | .mulOp => ["*", "/"]
  | .unaryOp => ["!", "~"]
  | .lpar => ["("]
  | .rpar => [")"]
  | .comma => [","]
  | .arrow => ["->"]
  | .assign => ["="]
  | .newline => ["NEWLINE"]
  | .indent => ["INDENT"]
  | .dedent => ["DEDENT"]
  | .finish => ["EOF"]

/-- The terminal a label belongs to. -/
def ownerOf? (label : String) : Option Terminal := Terminal.all.find? fun x => (labels x).contains label

theorem ownerOf_labels (x : Terminal) : ∀ l ∈ labels x, ownerOf? l = some x := by
  cases x <;> decide

/-- The one label a token answers to, those of all keywords and of all operators apart. -/
def labelOf (t : Token) : String := if t.kind = .keyword ∨ t.kind = .op then t.lexeme else t.kind.label

theorem answersTo_iff (t : Token) {label : String} (hk : label ≠ Token.Kind.keyword.label)
    (ho : label ≠ Token.Kind.op.label) : t.answersTo label = true ↔ labelOf t = label := by
  unfold Token.answersTo labelOf
  split
  · rename_i h
    have hne : t.kind.label ≠ label := by
      rcases h with h | h
      · exact h ▸ hk.symm
      · exact h ▸ ho.symm
    simp [hne, h]
  · rename_i h
    simp only [not_or] at h
    simp [h.1, h.2]

theorem labels_single (x : Terminal) : ∀ l ∈ labels x, l ≠ Token.Kind.keyword.label ∧ l ≠ Token.Kind.op.label := by
  cases x <;> decide

theorem mem_labels_of_ofText {s : String} {x : Terminal} (h : Terminal.ofText? s = some x) : s ∈ labels x := by
  unfold Terminal.ofText? at h
  split at h
  case h_19 => cases h
  all_goals
    obtain rfl := Option.some.inj h
    decide

theorem labelOf_mem {t : Token} {x : Terminal} (h : t.Stands x) (hx : labels x ≠ []) : labelOf t ∈ labels x := by
  unfold Token.Stands Terminal.ofToken? at h
  unfold labelOf
  cases hk : t.kind <;> rw [hk] at h <;> simp only at h
  case bool =>
    split at h <;>
    · obtain rfl := Option.some.inj h
      exact absurd rfl hx
  case keyword => simpa using mem_labels_of_ofText h
  case op => simpa using mem_labels_of_ofText h
  all_goals
    obtain rfl := Option.some.inj h
    rw [if_neg (by decide)]
    decide

theorem labelOf_bool {t : Token} {x : Terminal} (h : t.Stands x) (hx : labels x = []) (y : Terminal) :
    labelOf t ∉ labels y := by
  have hk : t.kind = .bool := by
    unfold Token.Stands Terminal.ofToken? at h
    cases hk : t.kind <;> rw [hk] at h <;> simp only at h
    case keyword => exact absurd (mem_labels_of_ofText h) (by simp [hx])
    case op => exact absurd (mem_labels_of_ofText h) (by simp [hx])
    all_goals
      obtain rfl := Option.some.inj h
      cases hx
  intro hmem
  have := ownerOf_labels y _ hmem
  rw [labelOf, hk, if_neg (by decide)] at this
  revert this
  cases y <;> decide

/-- A token of a terminal answers to the labels of that terminal and to no others. -/
theorem sees_iff {c : Cursor} {x : Terminal} (h : c.head.Stands x) (ys : List Terminal)
    (hys : ∀ y ∈ ys, labels y ≠ []) : c.sees (ys.flatMap labels) = true ↔ x ∈ ys := by
  have hany : c.sees (ys.flatMap labels) = true ↔ ∃ y ∈ ys, labelOf c.head ∈ labels y := by
    simp only [Cursor.sees, List.any_eq_true, List.mem_flatMap]
    constructor
    · rintro ⟨l, ⟨y, hy, hl⟩, ha⟩
      rw [answersTo_iff _ (labels_single y l hl).1 (labels_single y l hl).2] at ha
      exact ⟨y, hy, ha ▸ hl⟩
    · rintro ⟨y, hy, hl⟩
      exact ⟨_, ⟨y, hy, hl⟩, (answersTo_iff _ (labels_single y _ hl).1 (labels_single y _ hl).2).mpr rfl⟩
  rw [hany]
  by_cases hx : labels x = []
  · constructor
    · rintro ⟨y, -, hl⟩
      exact absurd hl (labelOf_bool h hx y)
    · intro hmem
      exact absurd hx (hys x hmem)
  · constructor
    · rintro ⟨y, hy, hl⟩
      have := (ownerOf_labels x _ (labelOf_mem h hx)).symm.trans (ownerOf_labels y _ hl)
      rwa [Option.some.inj this]
    · exact fun hmem => ⟨x, hmem, labelOf_mem h hx⟩

/-! ## Reading a token -/

theorem head_known {c : Cursor} (hs : Stream c.tokens) : ∃ x, c.head.Stands x :=
  hs.known _ (by simp [Cursor.tokens])

theorem kind_ne_eof {t : Token} {x : Terminal} (h : t.Stands x) (hx : x ≠ .finish) : t.kind ≠ .eof := by
  intro hk
  unfold Token.Stands Terminal.ofToken? at h
  rw [hk] at h
  exact hx (Option.some.inj h).symm

/-- Behind a token that is not the end of the text, the rest is a stream. -/
theorem read_of_stands {c : Cursor} {x : Terminal} (hs : Stream c.tokens) (h : c.head.Stands x) (hx : x ≠ .finish) :
    c.tokens = c.head :: c.next.tokens ∧ Stream c.next.tokens := by
  have ht := Cursor.tokens_next hs (kind_ne_eof h hx)
  exact ⟨ht, stream_of_tokens (f := [c.head]) hs ht⟩

theorem read_of_sees {c : Cursor} (hs : Stream c.tokens) (ys : List Terminal)
    (hys : ∀ y ∈ ys, labels y ≠ [] ∧ y ≠ .finish) (h : c.sees (ys.flatMap labels) = true) :
    ∃ y ∈ ys, c.head.Stands y ∧ c.tokens = c.head :: c.next.tokens ∧ Stream c.next.tokens := by
  obtain ⟨x, hx⟩ := head_known hs
  have hmem := (sees_iff hx ys fun y hy => (hys y hy).1).mp h
  exact ⟨x, hmem, hx, read_of_stands hs hx (hys x hmem).2⟩

theorem read_of_expect {c c' : Cursor} {t : Token} {label description : String} (hs : Stream c.tokens)
    (y : Terminal) (hy : labels y = [label]) (hf : y ≠ .finish) (h : c.expect label description = .ok (t, c')) :
    t.Stands y ∧ c.tokens = t :: c'.tokens ∧ Stream c'.tokens := by
  unfold Cursor.expect at h
  split at h
  · rename_i ha
    simp only [Except.ok.injEq, Prod.mk.injEq] at h
    obtain ⟨rfl, rfl⟩ := h
    have hsees : c.sees ([y].flatMap labels) = true := by simp [Cursor.sees, hy, ha]
    obtain ⟨y', hmem, hst, hread⟩ := read_of_sees hs [y] (by simp [hy, hf]) hsees
    obtain rfl := List.mem_singleton.mp hmem
    exact ⟨hst, hread⟩
  · cases h

theorem stands_name {t : Token} (h : t.kind = .name) : t.Stands .name := by
  simp [Token.Stands, Terminal.ofToken?, h]

/-! ## Soundness of the layers -/

/-- What a parser returns is spelled by the tokens it has read. -/
def Sound {α : Type} (p : Parser α) (R : List Token → α → Prop) : Prop :=
  ∀ c a c', Stream c.tokens → p c = .ok (a, c') → ∃ ts, c.tokens = ts ++ c'.tokens ∧ R ts a

/-- The layers around an operand, the strongest first. -/
def nest (p : Parser Node) : Nat → Parser Node
  | 0 => p
  | k + 1 => layer (labels (operatorAt k)) (nest p k)

theorem operatorAt_labels (k : Nat) : labels (operatorAt k) ≠ [] ∧ operatorAt k ≠ .finish := by
  unfold operatorAt
  split <;> decide

theorem chain_sound {p : Parser Node} {d k : Nat} (hk : k < layerCount)
    (hp : Sound p fun ts n => Spells d (.layer k) ts [n]) (steps : Nat) {left n : Node} {c c' : Cursor}
    {ls : List Token} (hs : Stream c.tokens) (hleft : Spells d (.layer (k + 1)) ls [left])
    (h : chain (labels (operatorAt k)) p steps left c = .ok (n, c')) :
    ∃ ts, c.tokens = ts ++ c'.tokens ∧ Spells d (.layer (k + 1)) (ls ++ ts) [n] := by
  induction steps generalizing left c ls with
  | zero =>
    simp only [chain, Except.ok.injEq, Prod.mk.injEq] at h
    obtain ⟨rfl, rfl⟩ := h
    exact ⟨[], rfl, by simpa using hleft⟩
  | succ steps ih =>
    rw [chain] at h
    split at h
    · rename_i hop
      obtain ⟨⟨right, after⟩, hright, h⟩ := Success.bind_iff.mp h
      obtain ⟨y, hy, hst, hread, hnext⟩ := read_of_sees hs [operatorAt k] (by simpa using operatorAt_labels k)
        (by simpa using hop)
      obtain rfl := List.mem_singleton.mp hy
      obtain ⟨rs, hrs, hspell⟩ := hp _ _ _ hnext hright
      obtain ⟨ts, hts, hn⟩ := ih (stream_of_tokens hnext hrs) (.binary hk hleft hst hspell) h
      refine ⟨c.head :: (rs ++ ts), by rw [hread, hrs, hts]; simp, ?_⟩
      simpa using hn
    · simp only [Except.ok.injEq, Prod.mk.injEq] at h
      obtain ⟨rfl, rfl⟩ := h
      exact ⟨[], rfl, by simpa using hleft⟩

theorem layer_sound {p : Parser Node} {d k : Nat} (hk : k < layerCount)
    (hp : Sound p fun ts n => Spells d (.layer k) ts [n]) :
    Sound (layer (labels (operatorAt k)) p) fun ts n => Spells d (.layer (k + 1)) ts [n] := by
  intro c n c' hs h
  obtain ⟨⟨left, after⟩, hleft, h⟩ := Success.bind_iff.mp h
  obtain ⟨ls, hls, hspell⟩ := hp _ _ _ hs hleft
  obtain ⟨ts, hts, hn⟩ := chain_sound hk hp _ (stream_of_tokens hs hls) (.lift hk hspell) h
  exact ⟨ls ++ ts, by rw [hls, hts, List.append_assoc], hn⟩

theorem nest_sound {p : Parser Node} {d : Nat} (hp : Sound p fun ts n => Spells d (.layer 0) ts [n]) {k : Nat}
    (hk : k ≤ layerCount) : Sound (nest p k) fun ts n => Spells d (.layer k) ts [n] := by
  induction k with
  | zero => exact hp
  | succ k ih => exact layer_sound hk (ih (by omega))

/-! ## Soundness of expressions -/

theorem moreArguments_sound {e : Parser Node} {d : Nat} (he : Sound e fun ts n => Spells d (.layer layerCount) ts [n])
    (steps : Nat) {c c' : Cursor} {ns : List Node} (hs : Stream c.tokens)
    (h : moreArguments e steps c = .ok (ns, c')) :
    ∃ ts, c.tokens = ts ++ c'.tokens ∧ ∀ ls n, Spells d (.layer layerCount) ls [n] →
      Spells d .arguments (ls ++ ts) (n :: ns) := by
  induction steps generalizing c ns with
  | zero =>
    simp only [moreArguments, Except.ok.injEq, Prod.mk.injEq] at h
    obtain ⟨rfl, rfl⟩ := h
    exact ⟨[], rfl, fun ls n hn => by simpa using Spells.argsOne hn⟩
  | succ steps ih =>
    rw [moreArguments] at h
    split at h
    · rename_i hcomma
      obtain ⟨⟨arg, after⟩, harg, h⟩ := Success.bind_iff.mp h
      obtain ⟨⟨args, last⟩, hargs, h⟩ := Success.bind_iff.mp h
      simp only [Success.pure_eq, Except.ok.injEq, Prod.mk.injEq] at h
      obtain ⟨rfl, rfl⟩ := h
      obtain ⟨y, hy, hst, hread, hnext⟩ := read_of_sees hs [.comma] (by decide) hcomma
      obtain rfl := List.mem_singleton.mp hy
      obtain ⟨ts, hts, hspell⟩ := he _ _ _ hnext harg
      obtain ⟨us, hus, hrest⟩ := ih (stream_of_tokens hnext hts) hargs
      refine ⟨c.head :: (ts ++ us), by rw [hread, hts, hus]; simp, fun ls n hn => ?_⟩
      exact .argsMore hn hst (hrest ts arg hspell)
    · simp only [Except.ok.injEq, Prod.mk.injEq] at h
      obtain ⟨rfl, rfl⟩ := h
      exact ⟨[], rfl, fun ls n hn => by simpa using Spells.argsOne hn⟩

/-- Arguments in parentheses are those of a call. -/
theorem arguments_sound {e : Parser Node} {d : Nat} (he : Sound e fun ts n => Spells d (.layer layerCount) ts [n])
    {c c' : Cursor} {args : List Node} (hs : Stream c.tokens) (h : arguments e c = .ok (args, c')) :
    ∃ ts, c.tokens = ts ++ c'.tokens ∧
      ∀ name : Token, name.Stands .name →
        Spells (d + 1) (.layer 0) (name :: ts) [.call name.lexeme args name.place] := by
  obtain ⟨⟨lp, c₁⟩, hlp, h⟩ := Success.bind_iff.mp h
  obtain ⟨hlpar, hread, hs₁⟩ := read_of_expect hs .lpar rfl (by decide) hlp
  simp only at h
  split at h
  · rename_i hrp
    obtain ⟨y, hy, hst, hread', -⟩ := read_of_sees hs₁ [.rpar] (by decide) hrp
    obtain rfl := List.mem_singleton.mp hy
    simp only [Success.pure_eq, Except.ok.injEq, Prod.mk.injEq] at h
    obtain ⟨rfl, rfl⟩ := h
    exact ⟨[lp, c₁.head], by rw [hread, hread']; rfl, fun name hn => .callPlain hn hlpar hst⟩
  · obtain ⟨⟨arg, c₂⟩, harg, h⟩ := Success.bind_iff.mp h
    obtain ⟨⟨others, c₃⟩, hothers, h⟩ := Success.bind_iff.mp h
    obtain ⟨⟨rp, c₄⟩, hrp, h⟩ := Success.bind_iff.mp h
    simp only [Success.pure_eq, Except.ok.injEq, Prod.mk.injEq] at h
    obtain ⟨rfl, rfl⟩ := h
    obtain ⟨ts, hts, hspell⟩ := he _ _ _ hs₁ harg
    have hs₂ := stream_of_tokens hs₁ hts
    obtain ⟨us, hus, hrest⟩ := moreArguments_sound he _ hs₂ hothers
    obtain ⟨hrpar, hread', -⟩ := read_of_expect (stream_of_tokens hs₂ hus) .rpar rfl (by decide) hrp
    refine ⟨lp :: ((ts ++ us) ++ [rp]), by rw [hread, hts, hus, hread']; simp, fun name hn => ?_⟩
    exact .callArgs hn hlpar (hrest ts arg hspell) hrpar

theorem primary_sound {e : Parser Node} {d : Nat} (he : Sound e fun ts n => Spells d (.layer layerCount) ts [n]) :
    Sound (primary e) fun ts n => Spells (d + 1) (.layer 0) ts [n] := by
  intro c n c' hs h
  unfold primary at h
  simp only at h
  split at h
  · rename_i literal hlit
    obtain ⟨v, hv, h⟩ := Success.bind_iff.mp h
    simp only [Success.pure_eq, Except.ok.injEq, Prod.mk.injEq] at h
    obtain ⟨rfl, rfl⟩ := h
    subst hv
    have hne : c.head.kind ≠ .eof := by
      intro hk
      have := isOrdinary_of_literal hlit
      rw [hk] at this
      cases this
    exact ⟨[c.head], Cursor.tokens_next hs hne, .literal hlit⟩
  split at h
  · rename_i hk
    obtain ⟨hread, hs₁⟩ := read_of_stands hs (stands_name hk) (by decide)
    split at h
    · obtain ⟨⟨args, after⟩, hargs, h⟩ := Success.bind_iff.mp h
      simp only [Success.pure_eq, Except.ok.injEq, Prod.mk.injEq] at h
      obtain ⟨rfl, rfl⟩ := h
      obtain ⟨ts, hts, hcall⟩ := arguments_sound he hs₁ hargs
      exact ⟨c.head :: ts, by rw [hread, hts]; rfl, hcall _ (stands_name hk)⟩
    · simp only [Except.ok.injEq, Prod.mk.injEq] at h
      obtain ⟨rfl, rfl⟩ := h
      exact ⟨[c.head], hread, .identifier (stands_name hk)⟩
  split at h
  · rename_i hlp
    obtain ⟨y, hy, hst, hread, hs₁⟩ := read_of_sees hs [.lpar] (by decide) hlp
    obtain rfl := List.mem_singleton.mp hy
    obtain ⟨⟨inner, c₂⟩, hinner, h⟩ := Success.bind_iff.mp h
    obtain ⟨⟨rp, c₃⟩, hrp, h⟩ := Success.bind_iff.mp h
    simp only [Success.pure_eq, Except.ok.injEq, Prod.mk.injEq] at h
    obtain ⟨rfl, rfl⟩ := h
    obtain ⟨ts, hts, hspell⟩ := he _ _ _ hs₁ hinner
    obtain ⟨hrpar, hread', -⟩ := read_of_expect (stream_of_tokens hs₁ hts) .rpar rfl (by decide) hrp
    exact ⟨c.head :: (ts ++ [rp]), by rw [hread, hts, hread']; simp, .parens hst hspell hrpar⟩
  · cases h

theorem operand_sound (d : Nat) : Sound (operand d) fun ts n => Spells d (.layer 0) ts [n] := by
  induction d with
  | zero =>
    intro c n c' _ h
    cases h
  | succ d ih =>
    intro c n c' hs h
    rw [operand] at h
    split at h
    · rename_i hop
      obtain ⟨y, hy, hst, hread, hs₁⟩ := read_of_sees hs [.unaryOp] (by decide) hop
      obtain rfl := List.mem_singleton.mp hy
      obtain ⟨⟨inner, after⟩, hinner, h⟩ := Success.bind_iff.mp h
      simp only [Success.pure_eq, Except.ok.injEq, Prod.mk.injEq] at h
      obtain ⟨rfl, rfl⟩ := h
      obtain ⟨ts, hts, hspell⟩ := ih _ _ _ hs₁ hinner
      exact ⟨c.head :: ts, by rw [hread, hts]; rfl, .unary hst hspell⟩
    · exact primary_sound (nest_sound ih (Nat.le_refl _)) c n c' hs h

theorem expression_sound (d : Nat) : Sound (expression d) fun ts n => Spells d (.layer layerCount) ts [n] :=
  nest_sound (operand_sound d) (Nat.le_refl _)

/-! ## Soundness of statements -/

/-- In the middle of a line neither a block nor the text ends. -/
theorem head_not_ending {ts rest : List Token} {t : Token} (hs : Stream (ts ++ t :: rest)) (hne : ts ≠ [])
    (hts : ∀ t ∈ ts, t.kind.isOrdinary = true) : ¬ (t.kind = .dedent ∨ t.kind = .eof) := by
  intro hk
  have hrel := hs.ordered.rel_getLast_head_of_append hne (by simp)
  have hord := hts _ (List.getLast_mem hne)
  rcases hrel hk with h | h <;>
  · rw [h] at hord
    cases hord

/-- In a stream a statement without a block ends with a line end. -/
theorem endOfStatement_newline {f : List Token} {c c' : Cursor} (hs : Stream (f ++ c.tokens)) (hne : f ≠ [])
    (hts : ∀ t ∈ f, t.kind.isOrdinary = true) (h : endOfStatement c = .ok ((), c')) :
    ∃ eol : Token, eol.Stands .newline ∧ c.tokens = eol :: c'.tokens := by
  have hs' : Stream c.tokens := hs.rest (by simp [Cursor.tokens])
  unfold endOfStatement at h
  split at h
  · rename_i hsees
    obtain ⟨x, hx⟩ := head_known hs'
    have hmem := (sees_iff hx [.dedent, .finish] (by decide)).mp hsees
    refine absurd ?_ (head_not_ending hs hne hts)
    simp only [List.mem_cons, List.not_mem_nil, or_false] at hmem
    rcases hmem with rfl | rfl
    · exact Or.inl (hx.kind rfl)
    · exact Or.inr (hx.kind rfl)
  · obtain ⟨⟨eol, c₁⟩, heol, h⟩ := Success.bind_iff.mp h
    simp only [Success.pure_eq, Except.ok.injEq, Prod.mk.injEq, true_and] at h
    subst h
    obtain ⟨hst, hread, -⟩ := read_of_expect hs' .newline rfl (by decide) heol
    exact ⟨eol, hst, hread⟩

theorem statementsTo_sound {stops : List String} {p : Parser Node} {d : Nat}
    (hp : Sound p fun ts n => Spells d .statement ts [n]) (steps : Nat) {c c' : Cursor} {ns : List Node}
    (hs : Stream c.tokens) (h : statementsTo stops p steps c = .ok (ns, c')) :
    ∃ ts, c.tokens = ts ++ c'.tokens ∧ (ts = [] ∧ ns = [] ∨ Spells d .statements ts ns) := by
  induction steps generalizing c ns with
  | zero =>
    simp only [statementsTo, Except.ok.injEq, Prod.mk.injEq] at h
    obtain ⟨rfl, rfl⟩ := h
    exact ⟨[], rfl, Or.inl ⟨rfl, rfl⟩⟩
  | succ steps ih =>
    rw [statementsTo] at h
    split at h
    · simp only [Except.ok.injEq, Prod.mk.injEq] at h
      obtain ⟨rfl, rfl⟩ := h
      exact ⟨[], rfl, Or.inl ⟨rfl, rfl⟩⟩
    · obtain ⟨⟨first, after⟩, hfirst, h⟩ := Success.bind_iff.mp h
      obtain ⟨⟨others, last⟩, hothers, h⟩ := Success.bind_iff.mp h
      simp only [Success.pure_eq, Except.ok.injEq, Prod.mk.injEq] at h
      obtain ⟨rfl, rfl⟩ := h
      obtain ⟨ts, hts, hspell⟩ := hp _ _ _ hs hfirst
      obtain ⟨us, hus, hrest⟩ := ih (stream_of_tokens hs hts) hothers
      refine ⟨ts ++ us, by rw [hts, hus, List.append_assoc], Or.inr ?_⟩
      rcases hrest with ⟨rfl, rfl⟩ | hrest
      · simpa using Spells.one hspell
      · exact .more hspell hrest

theorem block_sound {p : Parser Node} {d : Nat} (hp : Sound p fun ts n => Spells d .statement ts [n]) :
    Sound (block p) fun ts n => Spells d .block ts [n] := by
  intro c n c' hs h
  obtain ⟨⟨eol, c₁⟩, heol, h⟩ := Success.bind_iff.mp h
  obtain ⟨hnl, hread, hs₁⟩ := read_of_expect hs .newline rfl (by decide) heol
  obtain ⟨⟨ind, start⟩, hind, h⟩ := Success.bind_iff.mp h
  obtain ⟨hin, hread₁, hs₂⟩ := read_of_expect hs₁ .indent rfl (by decide) hind
  obtain ⟨⟨ns, c₃⟩, hns, h⟩ := Success.bind_iff.mp h
  obtain ⟨ts, hts, hspell⟩ := statementsTo_sound hp _ hs₂ hns
  simp only at h
  split at h
  · cases h
  · rename_i hempty
    obtain ⟨⟨ded, c₄⟩, hded, h⟩ := Success.bind_iff.mp h
    obtain ⟨hde, hread₃, -⟩ := read_of_expect (stream_of_tokens hs₂ hts) .dedent rfl (by decide) hded
    simp only [Success.pure_eq, Except.ok.injEq, Prod.mk.injEq] at h
    obtain ⟨rfl, rfl⟩ := h
    have hspell : Spells d .statements ts ns := hspell.resolve_left fun h => by simp [h.2] at hempty
    refine ⟨eol :: ind :: (ts ++ [ded]), by rw [hread, hread₁, hts, hread₃]; simp, ?_⟩
    -- The first statement is placed where the block starts.
    obtain ⟨t, rest, rfl, hstart⟩ := hspell.starts
    obtain ⟨-, first, others, rfl, hpos⟩ := hstart (Or.inr rfl)
    have hhead : start.head = t := by
      have := congrArg List.head? hts
      simpa [Cursor.tokens] using this
    subst hhead
    have hblock := Spells.block hnl hin hspell hde
    rw [hpos] at hblock
    exact hblock

theorem parameters_sound (steps : Nat) {c c' : Cursor} {ns : List Node} (hs : Stream c.tokens) (hsteps : 0 < steps)
    (hroom : c.room ≤ steps) (h : parameters steps c = .ok (ns, c')) :
    ∃ ts, c.tokens = ts ++ c'.tokens ∧ SpellsParams ts ns := by
  induction steps generalizing c ns with
  | zero => omega
  | succ steps ih =>
    rw [parameters] at h
    obtain ⟨⟨type, c₁⟩, htype, h⟩ := Success.bind_iff.mp h
    obtain ⟨⟨t, c₁'⟩, ht, htype⟩ := Success.bind_iff.mp htype
    simp only [Success.pure_eq, Except.ok.injEq, Prod.mk.injEq] at htype
    obtain ⟨rfl, rfl⟩ := htype
    obtain ⟨htn, hread, hs₁⟩ := read_of_expect hs .name rfl (by decide) ht
    have htc : c.head = t := (Cursor.next_of_tokens hread).1
    obtain ⟨⟨name, c₂⟩, hname, h⟩ := Success.bind_iff.mp h
    obtain ⟨hnn, hread₁, hs₂⟩ := read_of_expect hs₁ .name rfl (by decide) hname
    simp only at h
    split at h
    · rename_i hcomma
      obtain ⟨y, hy, hst, hread₂, hs₃⟩ := read_of_sees hs₂ [.comma] (by decide) hcomma
      obtain rfl := List.mem_singleton.mp hy
      obtain ⟨⟨others, last⟩, hothers, h⟩ := Success.bind_iff.mp h
      simp only [Success.pure_eq, Except.ok.injEq, Prod.mk.injEq] at h
      obtain ⟨rfl, rfl⟩ := h
      have hlen : c.tokens.length = 3 + c₂.next.tokens.length := by
        rw [hread, hread₁, hread₂]
        simp only [List.length_cons]
        omega
      have hpos : 0 < c₂.next.tokens.length := by simp [Cursor.tokens]
      rw [Cursor.room_eq] at hroom
      obtain ⟨ts, hts, hspell⟩ := ih hs₃ (by omega) (by rw [Cursor.room_eq]; omega) hothers
      refine ⟨t :: name :: c₂.head :: ts, by rw [hread, hread₁, hread₂, hts]; simp, ?_⟩
      rw [htc]
      exact .more htn hnn hst hspell
    · simp only [Success.pure_eq, Except.ok.injEq, Prod.mk.injEq] at h
      obtain ⟨rfl, rfl⟩ := h
      refine ⟨[t, name], by rw [hread, hread₁]; rfl, ?_⟩
      rw [htc]
      exact .one htn hnn

section Statements

variable {d : Nat} {e p : Parser Node} {c c' : Cursor} {n : Node}

theorem ordinary_cons {x : Terminal} {t : Token} {ts : List Token} (h : t.Stands x)
    (hx : x ≠ .newline ∧ x ≠ .indent ∧ x ≠ .dedent ∧ x ≠ .finish) (hts : ∀ t ∈ ts, t.kind.isOrdinary = true) :
    ∀ u ∈ t :: ts, u.kind.isOrdinary = true := by
  intro u hu
  rcases List.mem_cons.mp hu with rfl | hu
  · exact isOrdinary_of_stands h hx
  · exact hts u hu

theorem declaration_sound (he : Sound e fun ts n => Spells d (.layer layerCount) ts [n]) :
    Sound (declaration e) fun ts n => Spells (d + 1) .statement ts [n] := by
  intro c n c' hs h
  obtain ⟨⟨type, c₁⟩, htype, h⟩ := Success.bind_iff.mp h
  obtain ⟨⟨t, c₁'⟩, ht, htype⟩ := Success.bind_iff.mp htype
  simp only [Success.pure_eq, Except.ok.injEq, Prod.mk.injEq] at htype
  obtain ⟨rfl, rfl⟩ := htype
  obtain ⟨htn, hread, hs₁⟩ := read_of_expect hs .name rfl (by decide) ht
  obtain rfl : c.head = t := (Cursor.next_of_tokens hread).1
  obtain ⟨⟨name, c₂⟩, hname, h⟩ := Success.bind_iff.mp h
  obtain ⟨hnn, hread₁, hs₂⟩ := read_of_expect hs₁ .name rfl (by decide) hname
  simp only at h
  split at h
  · rename_i heq
    obtain ⟨y, hy, hst, hread₂, hs₃⟩ := read_of_sees hs₂ [.assign] (by decide) heq
    obtain rfl := List.mem_singleton.mp hy
    obtain ⟨⟨value, c₃⟩, hvalue, h⟩ := Success.bind_iff.mp h
    obtain ⟨⟨⟨⟩, c₄⟩, hend, h⟩ := Success.bind_iff.mp h
    simp only [Success.pure_eq, Except.ok.injEq, Prod.mk.injEq] at h
    obtain ⟨rfl, rfl⟩ := h
    obtain ⟨ts, hts, hspell⟩ := he _ _ _ hs₃ hvalue
    obtain ⟨eol, hnl, hread₃⟩ :=
      endOfStatement_newline (f := c₂.head :: ts) (by rw [List.cons_append, ← hts, ← hread₂]; exact hs₂)
      (by simp) (ordinary_cons hst (by decide) (hspell.isOrdinary trivial)) hend
    refine ⟨c.head :: name :: c₂.head :: (ts ++ [eol]), by rw [hread, hread₁, hread₂, hts, hread₃]; simp, ?_⟩
    exact .varDeclInit htn hnn hst hspell hnl
  · obtain ⟨⟨⟨⟩, c₃⟩, hend, h⟩ := Success.bind_iff.mp h
    simp only [Success.pure_eq, Except.ok.injEq, Prod.mk.injEq] at h
    obtain ⟨rfl, rfl⟩ := h
    obtain ⟨eol, hnl, hread₃⟩ :=
      endOfStatement_newline (f := [name]) (by rw [List.singleton_append, ← hread₁]; exact hs₁)
      (by simp) (ordinary_cons hnn (by decide) (by simp)) hend
    exact ⟨[c.head, name, eol], by rw [hread, hread₁, hread₃]; rfl, .varDeclPlain htn hnn hnl⟩

theorem assignment_sound (he : Sound e fun ts n => Spells d (.layer layerCount) ts [n]) :
    Sound (assignment e) fun ts n => Spells (d + 1) .statement ts [n] := by
  intro c n c' hs h
  obtain ⟨⟨name, c₁⟩, hname, h⟩ := Success.bind_iff.mp h
  obtain ⟨hnn, hread, hs₁⟩ := read_of_expect hs .name rfl (by decide) hname
  obtain ⟨⟨eq, c₂⟩, heq, h⟩ := Success.bind_iff.mp h
  obtain ⟨hq, hread₁, hs₂⟩ := read_of_expect hs₁ .assign rfl (by decide) heq
  obtain ⟨⟨value, c₃⟩, hvalue, h⟩ := Success.bind_iff.mp h
  obtain ⟨⟨⟨⟩, c₄⟩, hend, h⟩ := Success.bind_iff.mp h
  simp only [Success.pure_eq, Except.ok.injEq, Prod.mk.injEq] at h
  obtain ⟨rfl, rfl⟩ := h
  obtain ⟨ts, hts, hspell⟩ := he _ _ _ hs₂ hvalue
  obtain ⟨eol, hnl, hread₂⟩ :=
    endOfStatement_newline (f := eq :: ts) (by rw [List.cons_append, ← hts, ← hread₁]; exact hs₁)
    (by simp) (ordinary_cons hq (by decide) (hspell.isOrdinary trivial)) hend
  exact ⟨name :: eq :: (ts ++ [eol]), by rw [hread, hread₁, hts, hread₂]; simp, .assignment hnn hq hspell hnl⟩

theorem returning_sound (he : Sound e fun ts n => Spells d (.layer layerCount) ts [n]) (hs : Stream c.tokens)
    (hk : c.head.Stands .kwReturn) (h : returning e c = .ok (n, c')) :
    ∃ ts, c.tokens = ts ++ c'.tokens ∧ Spells (d + 1) .statement ts [n] := by
  obtain ⟨hread, hs₁⟩ := read_of_stands hs hk (by decide)
  unfold returning at h
  simp only at h
  split at h
  · obtain ⟨⟨⟨⟩, c₂⟩, hend, h⟩ := Success.bind_iff.mp h
    simp only [Success.pure_eq, Except.ok.injEq, Prod.mk.injEq] at h
    obtain ⟨rfl, rfl⟩ := h
    obtain ⟨eol, hnl, hread₁⟩ :=
      endOfStatement_newline (f := [c.head]) (by rw [List.singleton_append, ← hread]; exact hs)
      (by simp) (ordinary_cons hk (by decide) (by simp)) hend
    exact ⟨[c.head, eol], by rw [hread, hread₁]; rfl, .returnPlain hk hnl⟩
  · obtain ⟨⟨value, c₂⟩, hvalue, h⟩ := Success.bind_iff.mp h
    obtain ⟨⟨⟨⟩, c₃⟩, hend, h⟩ := Success.bind_iff.mp h
    simp only [Success.pure_eq, Except.ok.injEq, Prod.mk.injEq] at h
    obtain ⟨rfl, rfl⟩ := h
    obtain ⟨ts, hts, hspell⟩ := he _ _ _ hs₁ hvalue
    obtain ⟨eol, hnl, hread₁⟩ :=
      endOfStatement_newline (f := c.head :: ts) (by rw [List.cons_append, ← hts, ← hread]; exact hs)
      (by simp) (ordinary_cons hk (by decide) (hspell.isOrdinary trivial)) hend
    exact ⟨c.head :: (ts ++ [eol]), by rw [hread, hts, hread₁]; simp, .returnValue hk hspell hnl⟩

theorem displaying_sound (he : Sound e fun ts n => Spells d (.layer layerCount) ts [n]) (hs : Stream c.tokens)
    (hk : c.head.Stands .kwDisplay) (h : displaying e c = .ok (n, c')) :
    ∃ ts, c.tokens = ts ++ c'.tokens ∧ Spells (d + 1) .statement ts [n] := by
  obtain ⟨hread, hs₁⟩ := read_of_stands hs hk (by decide)
  obtain ⟨⟨value, c₂⟩, hvalue, h⟩ := Success.bind_iff.mp h
  obtain ⟨⟨⟨⟩, c₃⟩, hend, h⟩ := Success.bind_iff.mp h
  simp only [Success.pure_eq, Except.ok.injEq, Prod.mk.injEq] at h
  obtain ⟨rfl, rfl⟩ := h
  obtain ⟨ts, hts, hspell⟩ := he _ _ _ hs₁ hvalue
  obtain ⟨eol, hnl, hread₁⟩ :=
    endOfStatement_newline (f := c.head :: ts) (by rw [List.cons_append, ← hts, ← hread]; exact hs)
    (by simp) (ordinary_cons hk (by decide) (hspell.isOrdinary trivial)) hend
  exact ⟨c.head :: (ts ++ [eol]), by rw [hread, hts, hread₁]; simp, .display hk hspell hnl⟩

theorem guarded_sound (he : Sound e fun ts n => Spells d (.layer layerCount) ts [n])
    (hp : Sound p fun ts n => Spells d .statement ts [n]) (hs : Stream c.tokens) {x : Terminal}
    {build : Node → Node → Option Position → Node} (hk : c.head.Stands x) (hx : guardOf? x = some build)
    (hf : x ≠ .finish) (h : guarded build e p c = .ok (n, c')) :
    ∃ ts, c.tokens = ts ++ c'.tokens ∧ Spells (d + 1) .statement ts [n] := by
  obtain ⟨hread, hs₁⟩ := read_of_stands hs hk hf
  obtain ⟨⟨condition, c₂⟩, hcond, h⟩ := Success.bind_iff.mp h
  obtain ⟨⟨body, c₃⟩, hbody, h⟩ := Success.bind_iff.mp h
  simp only [Success.pure_eq, Except.ok.injEq, Prod.mk.injEq] at h
  obtain ⟨rfl, rfl⟩ := h
  obtain ⟨ts, hts, hspell⟩ := he _ _ _ hs₁ hcond
  obtain ⟨us, hus, hblock⟩ := block_sound hp _ _ _ (stream_of_tokens hs₁ hts) hbody
  exact ⟨c.head :: (ts ++ us), by rw [hread, hts, hus]; simp, .guarded hk hx hspell hblock⟩

theorem parameterList_sound : Sound parameterList SpellsParamList := by
  intro c params c' hs h
  unfold parameterList at h
  split at h
  · simp only [Except.ok.injEq, Prod.mk.injEq] at h
    obtain ⟨rfl, rfl⟩ := h
    exact ⟨[], rfl, Or.inl ⟨rfl, rfl⟩⟩
  · obtain ⟨ts, hts, hspell⟩ := parameters_sound _ hs (by simp [Cursor.room]) (Nat.le_refl _) h
    exact ⟨ts, hts, Or.inr hspell⟩

theorem returnType_sound : Sound returnType SpellsReturns := by
  intro c returns c' hs h
  unfold returnType at h
  split at h
  · rename_i harrow
    obtain ⟨y, hy, hst, hread, hs₁⟩ := read_of_sees hs [.arrow] (by decide) harrow
    obtain rfl := List.mem_singleton.mp hy
    obtain ⟨⟨type, c₁⟩, htype, h⟩ := Success.bind_iff.mp h
    simp only [Success.pure_eq, Except.ok.injEq, Prod.mk.injEq] at h
    obtain ⟨rfl, rfl⟩ := h
    obtain ⟨⟨t, c₁'⟩, ht, htype⟩ := Success.bind_iff.mp htype
    simp only [Success.pure_eq, Except.ok.injEq, Prod.mk.injEq] at htype
    obtain ⟨rfl, rfl⟩ := htype
    obtain ⟨htn, hread₁, -⟩ := read_of_expect hs₁ .name rfl (by decide) ht
    exact ⟨[c.head, t], by rw [hread, hread₁]; rfl, .some hst htn⟩
  · simp only [Except.ok.injEq, Prod.mk.injEq] at h
    obtain ⟨rfl, rfl⟩ := h
    exact ⟨[], rfl, .none⟩

theorem function_sound (hp : Sound p fun ts n => Spells d .statement ts [n]) :
    Sound (function p) fun ts n => Spells (d + 1) .statement ts [n] := by
  intro c n c' hs h
  obtain ⟨⟨name, c₁⟩, hname, h⟩ := Success.bind_iff.mp h
  obtain ⟨hnn, hread, hs₁⟩ := read_of_expect hs .name rfl (by decide) hname
  obtain ⟨⟨lp, c₂⟩, hlp, h⟩ := Success.bind_iff.mp h
  obtain ⟨hlpar, hread₁, hs₂⟩ := read_of_expect hs₁ .lpar rfl (by decide) hlp
  obtain ⟨⟨params, c₃⟩, hparams, h⟩ := Success.bind_iff.mp h
  obtain ⟨ps, hps, hpspell⟩ := parameterList_sound _ _ _ hs₂ hparams
  obtain ⟨⟨rp, c₄⟩, hrp, h⟩ := Success.bind_iff.mp h
  obtain ⟨hrpar, hread₂, hs₄⟩ := read_of_expect (stream_of_tokens hs₂ hps) .rpar rfl (by decide) hrp
  obtain ⟨⟨returns, c₅⟩, hreturns, h⟩ := Success.bind_iff.mp h
  obtain ⟨rs, hrs, hrspell⟩ := returnType_sound _ _ _ hs₄ hreturns
  obtain ⟨⟨body, c₆⟩, hbody, h⟩ := Success.bind_iff.mp h
  obtain ⟨us, hus, hblock⟩ := block_sound hp _ _ _ (stream_of_tokens hs₄ hrs) hbody
  simp only [Success.pure_eq, Except.ok.injEq, Prod.mk.injEq] at h
  obtain ⟨rfl, rfl⟩ := h
  refine ⟨name :: lp :: (ps ++ rp :: (rs ++ us)), by rw [hread, hread₁, hps, hread₂, hrs, hus]; simp, ?_⟩
  exact .function hnn hlpar hpspell hrpar hrspell hblock

theorem dispatch_sound (he : Sound e fun ts n => Spells d (.layer layerCount) ts [n])
    (hp : Sound p fun ts n => Spells d .statement ts [n]) :
    Sound (dispatch e p) fun ts n => Spells (d + 1) .statement ts [n] := by
  intro c n c' hs h
  obtain ⟨x, hx⟩ := head_known hs
  have sees : ∀ y, labels y ≠ [] → c.sees ([y].flatMap labels) = true → c.head.Stands y := by
    intro y hy hsees
    have := (sees_iff hx [y] (by simpa using hy)).mp hsees
    rwa [List.mem_singleton.mp this] at hx
  unfold dispatch at h
  split at h
  · rename_i hk
    exact guarded_sound he hp hs (sees .kwIf (by decide) hk) rfl (by decide) h
  split at h
  · rename_i hk
    exact guarded_sound he hp hs (sees .kwWhile (by decide) hk) rfl (by decide) h
  split at h
  · rename_i hk
    exact returning_sound he hs (sees .kwReturn (by decide) hk) h
  split at h
  · rename_i hk
    exact displaying_sound he hs (sees .kwDisplay (by decide) hk) h
  split at h
  · split at h
    · exact function_sound hp _ _ _ hs h
    split at h
    · exact declaration_sound he _ _ _ hs h
    split at h
    · exact assignment_sound he _ _ _ hs h
    · cases h
  · cases h

theorem blame_ok {α : Type} {start : Token} {r : Except Fault α} {a : α} (h : blame start r = .ok a) : r = .ok a := by
  unfold blame at h
  split at h
  · cases h
  · exact h

end Statements

theorem statement_sound (d : Nat) : Sound (statement d) fun ts n => Spells d .statement ts [n] := by
  induction d with
  | zero =>
    intro c n c' _ h
    cases h
  | succ d ih =>
    intro c n c' hs h
    exact dispatch_sound (expression_sound d) ih c n c' hs (blame_ok h)

/-! ## Programs -/

/-- Statements are read up to one of the stops, if the steps are enough. -/
theorem statementsTo_stops {stops : List String} {p : Parser Node} {d : Nat}
    (hp : Sound p fun ts n => Spells d .statement ts [n]) (steps : Nat) {c c' : Cursor} {ns : List Node}
    (hs : Stream c.tokens) (hsteps : c.room ≤ steps) (h : statementsTo stops p steps c = .ok (ns, c')) :
    c'.sees stops = true := by
  induction steps generalizing c ns with
  | zero => simp [Cursor.room] at hsteps
  | succ steps ih =>
    rw [statementsTo] at h
    split at h
    · rename_i hstop
      simp only [Except.ok.injEq, Prod.mk.injEq] at h
      rwa [← h.2]
    · obtain ⟨⟨first, after⟩, hfirst, h⟩ := Success.bind_iff.mp h
      obtain ⟨⟨others, last⟩, hothers, h⟩ := Success.bind_iff.mp h
      simp only [Success.pure_eq, Except.ok.injEq, Prod.mk.injEq] at h
      obtain ⟨rfl, rfl⟩ := h
      obtain ⟨ts, hts, hspell⟩ := hp _ _ _ hs hfirst
      obtain ⟨t, rest, rfl, -⟩ := hspell.starts
      refine ih (stream_of_tokens hs hts) ?_ hothers
      rw [Cursor.room_eq] at hsteps ⊢
      rw [hts] at hsteps
      simp only [List.cons_append, List.length_cons, List.length_append] at hsteps
      omega

/-- A program that the descent returns is spelled by the whole text. -/
theorem programTo_sound {d : Nat} {tokens : List Token} {n : Node} (hs : Stream tokens)
    (h : programTo d tokens = .ok n) : ∃ body, n = .program body programPosition ∧ SpellsProgram d tokens body := by
  unfold programTo at h
  split at h
  · cases h
  · rename_i c hc
    obtain rfl : c.tokens = tokens := by
      cases tokens with
      | nil => cases hc
      | cons t ts =>
        obtain rfl := Option.some.inj hc
        rfl
    obtain ⟨⟨body, c'⟩, hbody, h⟩ := Success.bind_iff.mp h
    simp only [Success.pure_eq, Except.ok.injEq] at h
    obtain ⟨ts, hts, hspell⟩ := statementsTo_sound (statement_sound d) _ hs hbody
    have hs' := stream_of_tokens hs hts
    have hstop := statementsTo_stops (statement_sound d) _ hs (Nat.le_refl _) hbody
    obtain ⟨x, hx⟩ := head_known hs'
    obtain rfl := List.mem_singleton.mp ((sees_iff hx [.finish] (by decide)).mp hstop)
    -- The end of the text stands nowhere but at its end.
    have hlast : c'.tokens = [c'.head] := by
      obtain ⟨front, last, hall, -, hfront⟩ := hs'.ended
      cases front with
      | nil =>
        have hhead : c'.head = last := (List.cons.inj hall).1
        rw [hall, hhead]
        rfl
      | cons t front =>
        refine absurd (hx.kind rfl) ?_
        rw [show c'.head = t from (List.cons.inj hall).1]
        exact hfront t (by simp)
    exact ⟨body, h.symm, ts, c'.head, by rw [hts, hlast], hx, hspell⟩

end TillLang.Parse
