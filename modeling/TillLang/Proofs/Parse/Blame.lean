/-
  TillLang.Proofs.Parse.Blame — which token the descent blames.

  In front of tokens whose literals can be read, a parser of the descent takes the tokens of a
  phrase, or it blames a token and the tokens in front of that one are the start of a phrase
  (`Decides`). Which of the two happens, and with which result, is settled by the tokens up to
  the one behind those taken, or up to the one blamed: with any other tokens from there on the
  parser does the same (`Settles`). Depth and steps only have to be as many as there are
  tokens, since every level and every round takes one.

  The parsers are decided part by part: what follows a token (`Decides.shift`), what follows
  another parser (`Decides.bind`), and an expected token (`Decides.expect`).
-/

import TillLang.Proofs.Grammar.Viable
import TillLang.Proofs.Parse.Complete
import TillLang.Proofs.Token.Readable

namespace TillLang.Parse

open Grammar (Terminal sample)
open Token (Stream)

/-! ## Phrases of any depth -/

/-- Phrases that stand for one node. -/
def Phrase.isSingle : Phrase → Prop
  | .layer _ | .statement | .block => True
  | _ => False

theorem Spells.single {d : Nat} {p : Phrase} {ts : List Token} {ns : List Node} (h : Spells d p ts ns)
    (hp : p.isSingle) : ∃ n, ns = [n] := by
  cases h <;> first | exact ⟨_, rfl⟩ | exact hp.elim

/-- Tokens that spell a phrase at some depth. -/
def Phrased (p : Phrase) (ts : List Token) : Prop := ∃ d ns, Spells d p ts ns

theorem sample_stands (x : Terminal) : (sample x).Stands x := Grammar.ofToken_sample x

namespace Phrased

variable {k : Nat} {ts us ls rs : List Token}

theorem single {p : Phrase} (h : Phrased p ts) (hp : p.isSingle) : ∃ d n, Spells d p ts [n] := by
  obtain ⟨d, ns, h⟩ := h
  obtain ⟨n, rfl⟩ := h.single hp
  exact ⟨d, n, h⟩

/-- Two phrases spell at one depth. -/
theorem both {p q : Phrase} (h : Phrased p ts) (hp : p.isSingle) (h' : Phrased q us) :
    ∃ d n ns, Spells d p ts [n] ∧ Spells d q us ns := by
  obtain ⟨d, n, h⟩ := h.single hp
  obtain ⟨e, ns, h'⟩ := h'
  exact ⟨max d e, n, ns, h.mono (Nat.le_max_left d e), h'.mono (Nat.le_max_right d e)⟩

theorem isOrdinary {p : Phrase} (h : Phrased p ts) (hp : p.isInline) : ∀ t ∈ ts, t.kind.isOrdinary = true := by
  obtain ⟨d, ns, h⟩ := h
  exact h.isOrdinary hp

theorem ne_nil {p : Phrase} (h : Phrased p ts) : ts ≠ [] := by
  obtain ⟨d, ns, h⟩ := h
  obtain ⟨t, rest, rfl, -⟩ := h.starts
  simp

theorem lift (hk : k < layerCount) (h : Phrased (.layer k) ts) : Phrased (.layer (k + 1)) ts := by
  obtain ⟨d, n, h⟩ := h.single trivial
  exact ⟨d, _, .lift hk h⟩

theorem binary {op : Token} (hk : k < layerCount) (hl : Phrased (.layer (k + 1)) ls) (hop : op.Stands (operatorAt k))
    (hr : Phrased (.layer k) rs) : Phrased (.layer (k + 1)) (ls ++ op :: rs) := by
  obtain ⟨d, l, ns, hl, hr⟩ := hl.both trivial hr
  obtain ⟨r, rfl⟩ := hr.single trivial
  exact ⟨d, _, .binary hk hl hop hr⟩

theorem unary {op : Token} (hop : op.Stands .unaryOp) (h : Phrased (.layer 0) ts) : Phrased (.layer 0) (op :: ts) := by
  obtain ⟨d, n, h⟩ := h.single trivial
  exact ⟨d + 1, _, .unary hop h⟩

theorem callPlain {t lp rp : Token} (ht : t.Stands .name) (hlp : lp.Stands .lpar) (hrp : rp.Stands .rpar) :
    Phrased (.layer 0) [t, lp, rp] :=
  ⟨1, _, .callPlain ht hlp hrp⟩

theorem callArgs {t lp rp : Token} (ht : t.Stands .name) (hlp : lp.Stands .lpar) (h : Phrased .arguments ts)
    (hrp : rp.Stands .rpar) : Phrased (.layer 0) (t :: lp :: (ts ++ [rp])) := by
  obtain ⟨d, ns, h⟩ := h
  exact ⟨d + 1, _, .callArgs ht hlp h hrp⟩

theorem parens {lp rp : Token} (hlp : lp.Stands .lpar) (h : Phrased (.layer layerCount) ts) (hrp : rp.Stands .rpar) :
    Phrased (.layer 0) (lp :: (ts ++ [rp])) := by
  obtain ⟨d, n, h⟩ := h.single trivial
  exact ⟨d + 1, _, .parens hlp h hrp⟩

theorem argsOne (h : Phrased (.layer layerCount) ts) : Phrased .arguments ts := by
  obtain ⟨d, n, h⟩ := h.single trivial
  exact ⟨d, _, .argsOne h⟩

theorem argsMore {comma : Token} (h : Phrased (.layer layerCount) ts) (hc : comma.Stands .comma)
    (hs : Phrased .arguments us) : Phrased .arguments (ts ++ comma :: us) := by
  obtain ⟨d, n, ns, h, hs⟩ := h.both trivial hs
  exact ⟨d, _, .argsMore h hc hs⟩

theorem name (hk : k ≤ layerCount) : Phrased (.layer k) [sample .name] := by
  induction k with
  | zero => exact ⟨1, _, .identifier (sample_stands .name)⟩
  | succ k ih => exact lift hk (ih (by omega))

theorem varDeclInit {type name eq eol : Token} (ht : type.Stands .name) (hn : name.Stands .name)
    (hq : eq.Stands .assign) (h : Phrased (.layer layerCount) ts) (he : eol.Stands .newline) :
    Phrased .statement (type :: name :: eq :: (ts ++ [eol])) := by
  obtain ⟨d, n, h⟩ := h.single trivial
  exact ⟨d + 1, _, .varDeclInit ht hn hq h he⟩

theorem assignment {name eq eol : Token} (hn : name.Stands .name) (hq : eq.Stands .assign)
    (h : Phrased (.layer layerCount) ts) (he : eol.Stands .newline) :
    Phrased .statement (name :: eq :: (ts ++ [eol])) := by
  obtain ⟨d, n, h⟩ := h.single trivial
  exact ⟨d + 1, _, .assignment hn hq h he⟩

theorem returnValue {kw eol : Token} (hk : kw.Stands .kwReturn) (h : Phrased (.layer layerCount) ts)
    (he : eol.Stands .newline) : Phrased .statement (kw :: (ts ++ [eol])) := by
  obtain ⟨d, n, h⟩ := h.single trivial
  exact ⟨d + 1, _, .returnValue hk h he⟩

theorem display {kw eol : Token} (hk : kw.Stands .kwDisplay) (h : Phrased (.layer layerCount) ts)
    (he : eol.Stands .newline) : Phrased .statement (kw :: (ts ++ [eol])) := by
  obtain ⟨d, n, h⟩ := h.single trivial
  exact ⟨d + 1, _, .display hk h he⟩

theorem guarded {kw : Token} {x : Terminal} {build : Node → Node → Option Position → Node} (hk : kw.Stands x)
    (hx : guardOf? x = some build) (h : Phrased (.layer layerCount) ts) (hb : Phrased .block us) :
    Phrased .statement (kw :: (ts ++ us)) := by
  obtain ⟨d, n, ns, h, hb⟩ := h.both trivial hb
  obtain ⟨b, rfl⟩ := hb.single trivial
  exact ⟨d + 1, _, .guarded hk hx h hb⟩

theorem function {name lp rp : Token} {ps : List Token} {params : List Node} {returns : Option String}
    (hn : name.Stands .name) (hlp : lp.Stands .lpar) (hps : SpellsParamList ps params) (hrp : rp.Stands .rpar)
    (hrs : SpellsReturns rs returns) (hb : Phrased .block us) :
    Phrased .statement (name :: lp :: (ps ++ rp :: (rs ++ us))) := by
  obtain ⟨d, b, hb⟩ := hb.single trivial
  exact ⟨d + 1, _, .function hn hlp hps hrp hrs hb⟩

theorem more (h : Phrased .statement ts) (hs : us = [] ∨ Phrased .statements us) : Phrased .statements (ts ++ us) := by
  rcases hs with rfl | hs
  · obtain ⟨d, n, h⟩ := h.single trivial
    rw [List.append_nil]
    exact ⟨d, _, .one h⟩
  · obtain ⟨d, n, ns, h, hs⟩ := h.both trivial hs
    exact ⟨d, _, .more h hs⟩

theorem block {eol ind ded : Token} (he : eol.Stands .newline) (hi : ind.Stands .indent) (h : Phrased .statements ts)
    (hd : ded.Stands .dedent) : Phrased .block (eol :: ind :: (ts ++ [ded])) := by
  obtain ⟨d, ns, h⟩ := h
  obtain ⟨t, rest, rfl, hstart⟩ := h.starts
  obtain ⟨-, n, others, rfl, -⟩ := hstart (Or.inr rfl)
  exact ⟨d, _, .block he hi h hd⟩

/-- The shortest statement and the shortest block. -/
theorem returning : Phrased .statement [sample .kwReturn, sample .newline] :=
  ⟨1, _, .returnPlain (sample_stands _) (sample_stands _)⟩

theorem shortBlock {eol ind : Token} (he : eol.Stands .newline) (hi : ind.Stands .indent) :
    Phrased .block [eol, ind, sample .kwReturn, sample .newline, sample .dedent] :=
  block he hi (more returning (.inl rfl)) (sample_stands _)

end Phrased

/-! ## Decided parsers -/

section Decides

variable {α β : Type}

/-- A parser for each depth and number of steps. -/
abbrev Family (α : Type) := Nat → Nat → Parser α

/-- In front of the tokens `ts`, with `u` behind them, a parser does one thing. -/
def Settles (P : Family α) (ts : List Token) (u : Token) (outcome : Cursor → Except Fault (α × Cursor)) : Prop :=
  ∀ (d s : Nat) (c c' : Cursor), c.room ≤ d → c.room ≤ s → c.tokens = ts ++ c'.tokens → c'.head = u →
    P d s c = outcome c'

/-- A parser takes tokens that are some `T`, or blames the token behind the start of a `T`. -/
inductive Decides (P : Family α) (T : List Token → Prop) (c : Cursor) : Prop
  | takes {f : List Token} {c' : Cursor} (a : α) (ht : c.tokens = f ++ c'.tokens) (hT : T f)
      (h : Settles P f c'.head fun c' => .ok (a, c'))
  | blames {f g : List Token} {c' : Cursor} (expected : String) (ht : c.tokens = f ++ c'.tokens) (hT : T (f ++ g))
      (h : Settles P f c'.head fun c' => .error (unexpected expected c'.head))

/-- A place from which a stream of tokens that can be read goes on, with at most `n` of them. -/
structure Clean (n : Nat) (c : Cursor) : Prop where
  stream : Stream c.tokens
  readable : ∀ t ∈ c.tokens, t.Readable
  room_le : c.room ≤ n

/-- A parser is decided wherever at most `n` tokens are left. -/
def Decided (n : Nat) (P : Family α) (T : List Token → Prop) : Prop := ∀ c, Clean n c → Decides P T c

variable {P Q A : Family α} {T R : List Token → Prop} {c c' : Cursor} {n : Nat}

theorem room_of_tokens {f : List Token} (h : c.tokens = f ++ c'.tokens) : c.room = f.length + c'.room := by
  rw [Cursor.room_eq, Cursor.room_eq, h, List.length_append]

/-- Where a token is left, a bound for those left is not zero. -/
theorem exists_succ_of_room {bound : Nat} (h : c.room ≤ bound) : ∃ m, bound = m + 1 :=
  ⟨bound - 1, by simp only [Cursor.room] at h; omega⟩

theorem Clean.rest {f : List Token} (hc : Clean n c) (h : c.tokens = f ++ c'.tokens) : Clean n c' where
  stream := stream_of_tokens hc.stream h
  readable t ht := hc.readable t (h ▸ List.mem_append_right _ ht)
  room_le := by
    have := room_of_tokens h
    have := hc.room_le
    omega

theorem Clean.next {t : Token} (hc : Clean (n + 1) c) (h : c.tokens = t :: c'.tokens) : Clean n c' where
  stream := (hc.rest (f := [t]) h).stream
  readable := (hc.rest (f := [t]) h).readable
  room_le := by
    have := room_of_tokens (f := [t]) h
    have := hc.room_le
    simp only [List.length_singleton] at *
    omega

/-- Two places in front of the same tokens, with the same token behind them, have the same token. -/
theorem head_of_tokens {ts : List Token} {c₁ c₁' : Cursor} (h : c.tokens = ts ++ c'.tokens)
    (h₁ : c₁.tokens = ts ++ c₁'.tokens) (hhead : c₁'.head = c'.head) : c₁.head = c.head := by
  cases ts with
  | nil => rw [Cursor.tokens_inj h, Cursor.tokens_inj h₁, hhead]
  | cons t ts => exact (List.cons.inj h₁).1.trans (List.cons.inj h).1.symm

theorem sees_congr {c₁ : Cursor} (h : c₁.head = c.head) (names : List String) : c₁.sees names = c.sees names := by
  simp only [Cursor.sees, h]

theorem Decides.imp {T' : List Token → Prop} (h : Decides P T c) (hT : ∀ ts, T ts → T' ts) : Decides P T' c := by
  cases h with
  | takes a ht h hs => exact .takes a ht (hT _ h) hs
  | blames e ht h hs => exact .blames e ht (hT _ h) hs

theorem Decides.congr (h : Decides P T c)
    (hP : ∀ d s c₁, c₁.head = c.head → c₁.room ≤ d → c₁.room ≤ s → Q d s c₁ = P d s c₁) : Decides Q T c := by
  cases h with
  | takes a ht h hs =>
    refine .takes a ht h fun d s c₁ c₁' hd hst ht₁ hhead => ?_
    rw [hP d s c₁ (head_of_tokens ht ht₁ hhead) hd hst, hs d s c₁ c₁' hd hst ht₁ hhead]
  | blames e ht h hs =>
    refine .blames e ht h fun d s c₁ c₁' hd hst ht₁ hhead => ?_
    rw [hP d s c₁ (head_of_tokens ht ht₁ hhead) hd hst, hs d s c₁ c₁' hd hst ht₁ hhead]

theorem Decides.done {a : α} (hT : T []) : Decides (fun _ _ c => .ok (a, c)) T c := by
  refine .takes (f := []) a rfl hT fun d s c₁ c₁' _ _ ht _ => ?_
  rw [Cursor.tokens_inj ht]

theorem Decides.fail {g : List Token} (expected : String) (hT : T g) :
    Decides (fun _ _ c => (.error (unexpected expected c.head) : Except Fault (α × Cursor))) T c := by
  refine .blames (f := []) expected rfl hT fun d s c₁ c₁' _ _ ht _ => ?_
  rw [Cursor.tokens_inj ht]

/-- A loop that may go on for as many rounds as there are tokens. -/
theorem Decides.ownRoom (h : Decides P T c) : Decides (fun d _ c => P d c.room c) T c := by
  cases h with
  | takes a ht h hs => exact .takes a ht h fun d _ c₁ c₁' hd _ => hs d c₁.room c₁ c₁' hd (Nat.le_refl _)
  | blames e ht h hs => exact .blames e ht h fun d _ c₁ c₁' hd _ => hs d c₁.room c₁ c₁' hd (Nat.le_refl _)

theorem Decides.ite {names : List String} (hpos : c.sees names = true → Decides P T c)
    (hneg : ¬ c.sees names = true → Decides Q T c) :
    Decides (fun d s c => if c.sees names then P d s c else Q d s c) T c := by
  by_cases h : c.sees names = true
  · refine (hpos h).congr fun d s c₁ hhead _ _ => ?_
    rw [if_pos (sees_congr hhead names ▸ h)]
  · refine (hneg h).congr fun d s c₁ hhead _ _ => ?_
    rw [if_neg (sees_congr hhead names ▸ h)]

/-- A parser behind another one, which takes at least `k` tokens and leaves so many steps less. -/
theorem Decides.bindLower {B : α → Family β} {T : List Token → Prop} (k : Nat) (hA : Decides A R c)
    (hk : ∀ ts, R ts → k ≤ ts.length) (hfull : ∀ ts, R ts → ∃ us, T (ts ++ us))
    (hB : ∀ a ts c', c.tokens = ts ++ c'.tokens → R ts → Decides (B a) (fun us => T (ts ++ us)) c') :
    Decides (fun d s c => do let (a, c) ← A d s c; B a d (s - k) c) T c := by
  -- what the first parser did is settled by its tokens and the one behind them, at which the second one starts
  have hboth : ∀ {ts us : List Token} {c' c'' : Cursor} {a : α} {outcome : Cursor → Except Fault (β × Cursor)},
      R ts → c'.tokens = us ++ c''.tokens → Settles A ts c'.head (fun c' => .ok (a, c')) →
      Settles (B a) us c''.head outcome →
      Settles (fun d s c => do let (a, c) ← A d s c; B a d (s - k) c) (ts ++ us) c''.head outcome := by
    intro ts us c' c'' a outcome hR ht' hset hset' d s c₁ c₁'' hd hs ht₁ hhead
    obtain ⟨c₁', hc₁'⟩ := exists_cursor us c₁''
    have ht₁' : c₁.tokens = ts ++ c₁'.tokens := by rw [ht₁, hc₁', List.append_assoc]
    have hroom := room_of_tokens ht₁'
    have hlen := hk ts hR
    have hfirst : A d s c₁ = .ok (a, c₁') := hset d s c₁ c₁' hd hs ht₁' (head_of_tokens ht' hc₁' hhead)
    show (do let (a, c) ← A d s c₁; B a d (s - k) c) = _
    rw [hfirst]
    exact hset' d (s - k) c₁' c₁'' (by omega) (by omega) hc₁' hhead
  cases hA with
  | @takes ts c' a ht hR hset =>
    cases hB a ts c' ht hR with
    | takes b ht' hT hset' => exact .takes b (by rw [ht, ht', List.append_assoc]) hT (hboth hR ht' hset hset')
    | @blames us vs c'' e ht' hT hset' =>
      refine .blames (g := vs) e (by rw [ht, ht', List.append_assoc]) ?_ (hboth hR ht' hset hset')
      rw [List.append_assoc]
      exact hT
  | @blames ts us c' e ht hR hset =>
    obtain ⟨vs, hT⟩ := hfull _ hR
    refine .blames (g := us ++ vs) e ht (by rwa [← List.append_assoc]) fun d s c₁ c₁' hd hs ht₁ hhead => ?_
    show (do let (a, c) ← A d s c₁; B a d (s - k) c) = _
    rw [hset d s c₁ c₁' hd hs ht₁ hhead]
    rfl

/-- What follows a parser, at each depth and number of steps. -/
abbrev Follow (α β : Type) := Nat → Nat → α × Cursor → Except Fault (β × Cursor)

theorem Decides.bind {K : Follow α β} {T : List Token → Prop} (hA : Decides A R c)
    (hfull : ∀ ts, R ts → ∃ us, T (ts ++ us))
    (hK : ∀ a ts c', c.tokens = ts ++ c'.tokens → R ts →
      Decides (fun d s c => K d s (a, c)) (fun us => T (ts ++ us)) c') :
    Decides (fun d s c => A d s c >>= K d s) T c :=
  hA.bindLower (B := fun a d s c => K d s (a, c)) 0 (fun _ _ => Nat.zero_le _) hfull hK

/-- A parser that takes the token it stands at and goes on behind it, one level deeper and one round later. -/
theorem Decides.shift (hread : c.tokens = c.head :: c.next.tokens) (hQ : Decides Q (fun us => T (c.head :: us)) c.next)
    (hP : ∀ d s c₁, c₁.head = c.head → c₁.next.head = c.next.head →
      ∃ e f, d ≤ e ∧ s ≤ f ∧ P (d + 1) (s + 1) c₁ = Q e f c₁.next) : Decides P T c := by
  have hone : ∀ {ts : List Token} {c' : Cursor} {outcome : Cursor → Except Fault (α × Cursor)},
      c.next.tokens = ts ++ c'.tokens → Settles Q ts c'.head outcome → Settles P (c.head :: ts) c'.head outcome := by
    intro ts c' outcome ht hset d s c₁ c₁' hd hs ht₁ hhead
    obtain ⟨c₂, hc₂⟩ := exists_cursor ts c₁'
    have hread₁ : c₁.tokens = c.head :: c₂.tokens := by rw [ht₁, hc₂, List.cons_append]
    obtain ⟨hhead₁, rfl⟩ := Cursor.next_of_tokens hread₁
    have hroom := room_of_tokens (f := [c.head]) hread₁
    simp only [List.length_singleton] at hroom
    obtain ⟨d, rfl⟩ : ∃ e, d = e + 1 := ⟨d - 1, by omega⟩
    obtain ⟨s, rfl⟩ : ∃ f, s = f + 1 := ⟨s - 1, by omega⟩
    obtain ⟨e, f, he, hf, heq⟩ := hP d s c₁ hhead₁ (head_of_tokens ht hc₂ hhead)
    rw [heq]
    exact hset e f c₁.next c₁' (by omega) (by omega) hc₂ hhead
  cases hQ with
  | takes a ht hT hset => exact .takes a (by rw [hread, ht, List.cons_append]) hT (hone ht hset)
  | blames e ht hT hset => exact .blames e (by rw [hread, ht, List.cons_append]) hT (hone ht hset)

theorem Clean.stands (hc : Clean n c) (y : Terminal) (hy : labels y ≠ []) (h : c.sees (labels y) = true) :
    c.head.Stands y := by
  obtain ⟨x, hx⟩ := head_known hc.stream
  have hmem := (sees_iff hx [y] (by simpa using hy)).mp (by simpa using h)
  exact List.mem_singleton.mp hmem ▸ hx

theorem expect_ok {y : Terminal} {label : String} (description : String)
    (hy : labels y = [label]) (h : c.head.Stands y) :
    c.expect label description = .ok (c.head, c.next) := by
  have hsees := sees_of_stands h (by simp [hy])
  rw [Cursor.expect, if_pos (by simpa [Cursor.sees, hy] using hsees)]

theorem expect_error {x y : Terminal} {label : String} (description : String) (hy : labels y = [label])
    (h : c.head.Stands x) (hx : x ≠ y) : c.expect label description = .error (unexpected description c.head) := by
  have hsees := not_sees h [y] (by simp [hy]) (by simpa using hx)
  rw [Cursor.expect, if_neg (by simpa [Cursor.sees, hy] using hsees)]

/-- What follows a token that has to be there. -/
theorem Decides.expectThen {K : Follow Token β} {T : List Token → Prop} (hc : Clean n c) {y : Terminal} {label : String}
    (description : String) (hy : labels y = [label]) (hf : y ≠ .finish)
    (hfull : ∀ t : Token, t.Stands y → ∃ us, T (t :: us))
    (hK : ∀ (t : Token) (c' : Cursor), t.Stands y → c.tokens = t :: c'.tokens →
      Decides (fun d s c => K d s (t, c)) (fun us => T (t :: us)) c') :
    Decides (fun d s c => c.expect label description >>= K d s) T c := by
  obtain ⟨x, hx⟩ := head_known hc.stream
  by_cases h : x = y
  · subst h
    obtain ⟨hread, -⟩ := read_of_stands hc.stream hx hf
    refine .shift hread (hK c.head c.next hx hread) fun d s c₁ hhead _ => ⟨d + 1, s + 1, by omega, by omega, ?_⟩
    rw [expect_ok description hy (hhead ▸ hx), hhead]
    rfl
  · obtain ⟨us, hT⟩ := hfull _ (sample_stands y)
    refine (Decides.fail description hT).congr fun d s c₁ hhead _ _ => ?_
    rw [expect_error description hy (hhead ▸ hx) h]
    rfl

/-- The last token of a phrase, which has to be there. -/
theorem Decides.expectLast {T : List Token → Prop} (hc : Clean n c) {y : Terminal} {label : String}
    (description : String) (hy : labels y = [label]) (hf : y ≠ .finish) {a : β} (hT : ∀ t : Token, t.Stands y → T [t]) :
    Decides (fun _ _ c => do let (_, c) ← c.expect label description; return (a, c)) T c :=
  .expectThen hc description hy hf (fun t ht => ⟨[], hT t ht⟩) fun t _ ht _ => .done (hT t ht)

end Decides

/-! ## Expressions -/

section Expressions

variable {n k : Nat} {c : Cursor}

theorem Clean.read (hc : Clean n c) {y : Terminal} (hy : labels y ≠ []) (hf : y ≠ .finish)
    (h : c.sees (labels y) = true) : c.head.Stands y ∧ c.tokens = c.head :: c.next.tokens := by
  have hst := hc.stands y hy h
  exact ⟨hst, (read_of_stands hc.stream hst hf).1⟩

/-- A chain goes on behind an operator. -/
theorem chain_of_sees {ops : List String} {p : Parser Node} (s : Nat) (left : Node) {c : Cursor}
    (h : c.sees ops = true) : chain ops p (s + 1) left c = (do
      let (right, c') ← p c.next
      chain ops p s (.binary c.head.lexeme left right c.head.place) c') := by
  rw [chain, if_pos h]
  rfl

/-- The arguments go on behind a comma. -/
theorem moreArguments_of_sees {p : Parser Node} (s : Nat) {c : Cursor} (h : c.sees [","] = true) :
    moreArguments p (s + 1) c = (do
      let (arg, c) ← p c.next
      let (args, c) ← moreArguments p s c
      return (arg :: args, c)) := by
  rw [moreArguments, if_pos h]

theorem chain_decides {N : Nat → Parser Node} (hk : k < layerCount)
    (hN : Decided n (fun d _ => N d) (Phrased (.layer k))) (hc : Clean n c) {left : Node} {ls : List Token}
    (hls : Phrased (.layer (k + 1)) ls) :
    Decides (fun d s => chain (labels (operatorAt k)) (N d) s left)
      (fun us => Phrased (.layer (k + 1)) (ls ++ us)) c := by
  induction hm : c.room using Nat.strongRecOn generalizing c left ls with
  | _ m ih =>
    subst hm
    by_cases hsees : c.sees (labels (operatorAt k)) = true
    · obtain ⟨hop, hread⟩ := hc.read (operatorAt_labels k).1 (operatorAt_labels k).2 hsees
      have hroom := room_of_tokens (f := [c.head]) hread
      let joined (right : Node) : Node := .binary c.head.lexeme left right (some c.head.location.position)
      refine .shift
        (Q := fun d s c => do let (right, c) ← N d c; chain (labels (operatorAt k)) (N d) s (joined right) c) hread
        (.bind (hN _ (hc.rest (f := [c.head]) hread)) ?_ ?_) ?_
      · intro ts hts
        exact ⟨[], by simpa using hls.binary hk hop hts⟩
      · intro right ts c' ht hts
        have hroom' := room_of_tokens ht
        refine (ih c'.room (by simp only [List.length_singleton] at hroom; omega)
          ((hc.rest (f := [c.head]) hread).rest ht) (hls.binary hk hop hts) rfl).imp fun us h => ?_
        simpa using h
      · intro d s c₁ hhead _
        refine ⟨d + 1, s, by omega, Nat.le_refl _, ?_⟩
        rw [chain_of_sees s left (sees_congr hhead _ ▸ hsees), hhead]
        rfl
    · refine (Decides.done (a := left) (by simpa using hls)).congr fun d s c₁ hhead _ _ => ?_
      cases s with
      | zero => rfl
      | succ s => rw [chain, if_neg (sees_congr hhead _ ▸ hsees)]

theorem nest_decides {N : Nat → Parser Node}
    (hN : Decided n (fun d _ => N d) (Phrased (.layer 0))) (hk : k ≤ layerCount) :
    Decided n (fun d _ => nest (N d) k) (Phrased (.layer k)) := by
  induction k with
  | zero => exact hN
  | succ k ih =>
    intro c hc
    refine Decides.bind (ih (by omega) c hc) (fun ts hts => ⟨[], by simpa using hts.lift hk⟩) ?_
    intro left ts c' ht hts
    exact (chain_decides hk (ih (by omega)) (hc.rest ht) (hts.lift hk)).ownRoom

theorem moreArguments_decides {N : Nat → Parser Node} (hN : Decided n (fun d _ => N d) (Phrased (.layer layerCount)))
    (hc : Clean n c) {ls : List Token} (hls : Phrased (.layer layerCount) ls) :
    Decides (fun d s => moreArguments (N d) s) (fun us => Phrased .arguments (ls ++ us)) c := by
  induction hm : c.room using Nat.strongRecOn generalizing c ls with
  | _ m ih =>
    subst hm
    by_cases hsees : c.sees [","] = true
    · obtain ⟨hcomma, hread⟩ := hc.read (y := .comma) (by decide) (by decide) hsees
      have hroom := room_of_tokens (f := [c.head]) hread
      refine .shift (Q := fun d s c => do
          let (arg, c) ← N d c
          let (args, c) ← moreArguments (N d) s c
          return (arg :: args, c)) hread (.bind (hN _ (hc.rest (f := [c.head]) hread)) ?_ ?_) ?_
      · intro ts hts
        exact ⟨[], by simpa using hls.argsMore hcomma hts.argsOne⟩
      · intro arg ts c' ht hts
        have hroom' := room_of_tokens ht
        have hrest := ih c'.room (by simp only [List.length_singleton] at hroom; omega)
          ((hc.rest (f := [c.head]) hread).rest ht) hts rfl
        refine hrest.bind (fun us h => ⟨[], ?_⟩) fun args us c'' _ h => .done ?_
        · simpa using hls.argsMore hcomma h
        · simpa using hls.argsMore hcomma h
      · intro d s c₁ hhead _
        refine ⟨d + 1, s, by omega, Nat.le_refl _, ?_⟩
        rw [moreArguments_of_sees s (sees_congr hhead _ ▸ hsees)]
    · refine (Decides.done (a := []) (by simpa using hls.argsOne)).congr fun d s c₁ hhead _ _ => ?_
      cases s with
      | zero => rfl
      | succ s => rw [moreArguments, if_neg (sees_congr hhead _ ▸ hsees)]

theorem arguments_decides {N : Nat → Parser Node} (hN : Decided n (fun d _ => N d) (Phrased (.layer layerCount)))
    (hc : Clean n c) {name : Token} (hname : name.Stands .name) :
    Decides (fun d _ => arguments (N d)) (fun us => Phrased (.layer 0) (name :: us)) c := by
  refine Decides.expectThen hc (y := .lpar) "(" rfl (by decide) ?_ ?_
  · intro lp hlp
    exact ⟨[sample .rpar], .callPlain hname hlp (sample_stands _)⟩
  intro lp c₁ hlp ht₁
  have hc₁ := hc.rest (f := [lp]) ht₁
  refine .ite (fun hsees => ?_) fun hsees => ?_
  · obtain ⟨hrp, hread⟩ := hc₁.read (y := .rpar) (by decide) (by decide) hsees
    exact .shift (Q := fun _ _ c => .ok ([], c)) hread (.done (.callPlain hname hlp hrp))
      fun d s c₂ _ _ => ⟨d, s, Nat.le_refl _, Nat.le_refl _, rfl⟩
  · refine Decides.bind (hN _ hc₁) (fun ts hts => ?_) fun arg ts c₂ ht₂ hts => ?_
    · exact ⟨[sample .rpar], .callArgs hname hlp hts.argsOne (sample_stands _)⟩
    have hc₂ := hc₁.rest ht₂
    refine Decides.bind (moreArguments_decides hN hc₂ hts).ownRoom (fun us hus => ?_)
      fun args us c₃ ht₃ hus => ?_
    · exact ⟨[sample .rpar], by simpa using Phrased.callArgs hname hlp hus (sample_stands .rpar)⟩
    refine Decides.expectLast (hc₂.rest ht₃) (y := .rpar) ")" rfl (by decide) fun rp hrp => ?_
    simpa using Phrased.callArgs hname hlp hus hrp

theorem Clean.ne_zero (hc : Clean n c) : n ≠ 0 := by
  have := hc.room_le
  simp only [Cursor.room] at this
  omega

section Operand

variable {x : Terminal} (hinner : Decided n (fun d _ => expression d) (Phrased (.layer layerCount)))
  (hc : Clean (n + 1) c)
include hc

theorem operand_unary_decides (hx : c.head.Stands .unaryOp)
    (h : Decided n (fun d _ => operand d) (Phrased (.layer 0))) :
    Decides (fun d _ => operand d) (Phrased (.layer 0)) c := by
  obtain ⟨hread, -⟩ := read_of_stands hc.stream hx (by decide)
  refine .shift (Q := fun d _ c' => do
    let (inner, after) ← operand d c'
    return (.unary c.head.lexeme inner c.head.place, after)) hread ?_ fun d s c₁ hhead _ => ?_
  · refine (h _ (hc.next hread)).bind (fun ts hts => ⟨[], ?_⟩) fun inner ts c' _ hts => .done ?_
    · simpa using hts.unary hx
    · simpa using hts.unary hx
  · refine ⟨d, s, Nat.le_refl _, Nat.le_refl _, ?_⟩
    have hsees : c₁.sees ["!", "~"] = true := sees_of_stands (y := .unaryOp) (hhead ▸ hx) (by decide)
    rw [operand, if_pos hsees, hhead]
    rfl

theorem operand_literal_decides {r : Except Fault Literal} (hl : literalOf? c.head = some r) :
    Decides (fun d _ => operand d) (Phrased (.layer 0)) c := by
  obtain ⟨v, rfl⟩ := hc.readable c.head (by simp [Cursor.tokens]) r hl
  obtain ⟨x, hmem, hx⟩ := stands_of_literal hl
  have hne : x ≠ .finish ∧ x ≠ .unaryOp := by
    constructor <;> (rintro rfl; revert hmem; decide)
  obtain ⟨hread, -⟩ := read_of_stands hc.stream hx hne.1
  refine .shift (Q := fun _ _ c' => .ok (.literal v c.head.place, c')) hread (.done ⟨1, _, .literal hl⟩)
    fun d s c₁ hhead _ => ⟨d, s, Nat.le_refl _, Nat.le_refl _, ?_⟩
  rw [operand_primary (hhead ▸ hx) hne.2]
  simp only [primary, hhead, hl]
  rfl

include hinner

/-- A name is a call if a parenthesis follows it. -/
theorem operand_name_decides (hx : c.head.Stands .name) : Decides (fun d _ => operand d) (Phrased (.layer 0)) c := by
  obtain ⟨hread, -⟩ := read_of_stands hc.stream hx (by decide)
  have hc₁ := hc.next hread
  by_cases hcall : c.next.sees ["("] = true
  · have hlp := hc₁.stands .lpar (by decide) hcall
    refine .shift (Q := fun d _ c' => do
      let (args, after) ← arguments (expression d) c'
      return (.call c.head.lexeme args c.head.place, after)) hread ?_ fun d s c₁ hhead hnext => ?_
    · refine (arguments_decides hinner hc₁ hx).bind (fun ts hts => ⟨[], ?_⟩) fun args ts c' _ hts => .done ?_
      · simpa using hts
      · simpa using hts
    · refine ⟨d, s, Nat.le_refl _, Nat.le_refl _, ?_⟩
      rw [operand_primary (hhead ▸ hx) (by decide), primary_call (hhead ▸ hx) (hnext ▸ hlp), hhead]
  · refine .shift (Q := fun _ _ c' => .ok (.identifier c.head.lexeme c.head.place, c')) hread
      (.done ⟨1, _, .identifier hx⟩) fun d s c₁ hhead hnext => ⟨d, s, Nat.le_refl _, Nat.le_refl _, ?_⟩
    have hno : ¬ c₁.next.sees ["("] = true := sees_congr hnext _ ▸ hcall
    rw [operand_primary (hhead ▸ hx) (by decide)]
    simp only [primary, hhead, literalOf_none hx (by decide), if_pos (hx.kind (k := .name) rfl), if_neg hno]
    rfl

theorem operand_parens_decides (hx : c.head.Stands .lpar) : Decides (fun d _ => operand d) (Phrased (.layer 0)) c := by
  obtain ⟨hread, -⟩ := read_of_stands hc.stream hx (by decide)
  have hc₁ := hc.next hread
  refine .shift (Q := fun d _ c' => do
    let (inner, c) ← expression d c'
    let (_, c) ← c.expect ")" ")"
    return (inner, c)) hread ?_ fun d s c₁ hhead _ => ⟨d, s, Nat.le_refl _, Nat.le_refl _, ?_⟩
  · refine (hinner _ hc₁).bind (fun ts hts => ⟨[sample .rpar], .parens hx hts (sample_stands _)⟩)
      fun inner ts c' ht hts => ?_
    exact .expectLast (hc₁.rest ht) (y := .rpar) ")" rfl (by decide) fun rp hrp => .parens hx hts hrp
  · rw [operand_primary (hhead ▸ hx) (by decide), primary_parens (hhead ▸ hx)]

end Operand

theorem operand_decides (n : Nat) : Decided n (fun d _ => operand d) (Phrased (.layer 0)) := by
  induction n with
  | zero => exact fun c hc => absurd rfl hc.ne_zero
  | succ n ih =>
    intro c hc
    have hinner : Decided n (fun d _ => expression d) (Phrased (.layer layerCount)) := nest_decides ih (Nat.le_refl _)
    obtain ⟨x, hx⟩ := head_known hc.stream
    by_cases hop : x = .unaryOp
    · exact operand_unary_decides hc (hop ▸ hx) ih
    by_cases hname : x = .name
    · exact operand_name_decides hinner hc (hname ▸ hx)
    by_cases hparens : x = .lpar
    · exact operand_parens_decides hinner hc (hparens ▸ hx)
    cases hl : literalOf? c.head with
    | some r => exact operand_literal_decides hc hl
    | none =>
      refine (Decides.fail "expression" (Phrased.name (Nat.zero_le _))).congr fun d s c₁ hhead hd _ => ?_
      obtain ⟨d, rfl⟩ := exists_succ_of_room hd
      have hno : ¬ c₁.sees ["("] = true := not_sees (hhead ▸ hx) [.lpar] (by decide) (by simpa using hparens)
      rw [operand_primary (hhead ▸ hx) hop]
      simp only [primary, hhead, hl, if_neg (kind_ne_name hx hname), if_neg hno]

theorem expression_decides (n : Nat) : Decided n (fun d _ => expression d) (Phrased (.layer layerCount)) :=
  nest_decides (operand_decides n) (Nat.le_refl _)

end Expressions

/-! ## Statements -/

section Statements

variable {α : Type} {n : Nat} {c : Cursor} {T : List Token → Prop}

theorem not_sees_ending (hc : Clean n c) (h : ¬ (c.head.kind = .dedent ∨ c.head.kind = .eof)) :
    ¬ c.sees ["DEDENT", "EOF"] = true := by
  obtain ⟨x, hx⟩ := head_known hc.stream
  refine not_sees hx [.dedent, .finish] (by decide) fun hmem => h ?_
  simp only [List.mem_cons, List.not_mem_nil, or_false] at hmem
  rcases hmem with rfl | rfl
  · exact .inl (hx.kind rfl)
  · exact .inr (hx.kind rfl)

/-- In the middle of a line a statement ends with a line end. -/
theorem Decides.line {c₀ : Cursor} {f : List Token} (hc : Clean n c₀) (ht : c₀.tokens = f ++ c.tokens) (hne : f ≠ [])
    (hf : ∀ t ∈ f, t.kind.isOrdinary = true) {a : α} (hT : ∀ eol : Token, eol.Stands .newline → T [eol]) :
    Decides (fun _ _ c => do let (_, c) ← endOfStatement c; return (a, c)) T c := by
  have hstream : Stream (f ++ c.head :: c.tail) := ht ▸ hc.stream
  have hno := not_sees_ending (hc.rest ht) (head_not_ending hstream hne hf)
  refine (Decides.expectLast (a := a) (hc.rest ht) (y := .newline) "end of line" rfl (by decide) hT).congr
    fun d s c₁ hhead _ _ => ?_
  rw [endOfStatement, if_neg (sees_congr hhead _ ▸ hno)]
  cases c₁.expect "NEWLINE" "end of line" <;> rfl

/-- A value and the end of its line. -/
theorem Decides.valueLine {N : Nat → Parser Node} (hN : Decided n (fun d _ => N d) (Phrased (.layer layerCount)))
    (hc : Clean n c) {b : Node → α}
    (hT : ∀ ts (eol : Token), Phrased (.layer layerCount) ts → eol.Stands .newline → T (ts ++ [eol])) :
    Decides (fun d _ c => do
      let (value, c) ← N d c
      let (_, c) ← endOfStatement c
      return (b value, c)) T c := by
  refine (hN _ hc).bind (fun ts hts => ⟨[sample .newline], hT ts _ hts (sample_stands _)⟩) fun value ts c' ht hts => ?_
  exact .line hc ht hts.ne_nil (hts.isOrdinary trivial) fun eol he => hT ts eol hts he

/-- Statements up to a stop. -/
theorem statementsTo_decides {S : Nat → Parser Node} (hS : Decided n (fun d _ => S d) (Phrased .statement))
    (names : List String) (hc : Clean n c) :
    Decides (fun d s => statementsTo names (S d) s) (fun us => us = [] ∨ Phrased .statements us) c := by
  induction hm : c.room using Nat.strongRecOn generalizing c with
  | _ m ih =>
    subst hm
    by_cases hsees : c.sees names = true
    · refine (Decides.done (a := []) (Or.inl rfl)).congr fun d s c₁ hhead _ _ => ?_
      cases s with
      | zero => rfl
      | succ s => rw [statementsTo, if_pos (sees_congr hhead _ ▸ hsees)]
    · refine ((hS c hc).bindLower (B := fun first d s c => do
        let (others, last) ← statementsTo names (S d) s c
        return (first :: others, last)) 1 (fun ts hts => List.length_pos_of_ne_nil hts.ne_nil) ?_ ?_).congr ?_
      · intro ts hts
        exact ⟨[], .inr (hts.more (.inl rfl))⟩
      · intro first ts c' ht hts
        have hroom := room_of_tokens ht
        have hlen := List.length_pos_of_ne_nil hts.ne_nil
        refine (ih c'.room (by omega) (hc.rest ht) rfl).bind (fun us hus => ⟨[], Or.inr ?_⟩)
          fun others us c'' _ hus => .done (Or.inr ?_)
        · simpa using hts.more hus
        · simpa using hts.more hus
      · intro d s c₁ hhead hd hs
        obtain ⟨s, rfl⟩ := exists_succ_of_room hs
        rw [statementsTo, if_neg (sees_congr hhead _ ▸ hsees)]
        rfl

theorem block_decides {S : Nat → Parser Node} (hS : Decided n (fun d _ => S d) (Phrased .statement)) :
    Decided n (fun d _ => block (S d)) (Phrased .block) := by
  intro c hc
  refine Decides.expectThen hc (y := .newline) "end of line before block" rfl (by decide)
    (fun eol he => ⟨_, .shortBlock he (sample_stands .indent)⟩) fun eol c₁ he ht₁ => ?_
  have hc₁ := hc.rest (f := [eol]) ht₁
  refine Decides.expectThen hc₁ (y := .indent) "indented block" rfl (by decide)
    (fun ind hi => ⟨_, .shortBlock he hi⟩) fun ind c₂ hi ht₂ => ?_
  have hc₂ := hc₁.rest (f := [ind]) ht₂
  -- a block does not end where it starts
  have hno : ¬ c₂.sees ["DEDENT", "EOF"] = true := by
    refine not_sees_ending hc₂ fun hend => ?_
    have hchain := hc₁.stream.ordered
    rw [ht₂, Cursor.tokens, List.isChain_cons_cons] at hchain
    have hkind := hi.kind (k := .indent) rfl
    rcases hchain.1 hend with h | h <;> (rw [hkind] at h; cases h)
  refine ((((hS c₂ hc₂).bindLower (B := fun first d s c => do
    let (others, c) ← statementsTo ["DEDENT", "EOF"] (S d) s c
    let (_, c) ← c.expect "DEDENT" "dedent"
    return (Node.block (first :: others) c₂.head.place, c)) 1
      (fun ts hts => List.length_pos_of_ne_nil hts.ne_nil) ?_ ?_).ownRoom).congr ?_)
  · intro ts hts
    exact ⟨[sample .dedent], .block he hi (by simpa using hts.more (.inl rfl)) (sample_stands _)⟩
  · intro first ts c₃ ht₃ hts
    have hc₃ := hc₂.rest ht₃
    refine (statementsTo_decides hS _ hc₃).bind (fun us hus => ⟨[sample .dedent], ?_⟩) fun others us c₄ ht₄ hus => ?_
    · simpa using Phrased.block he hi (hts.more hus) (sample_stands .dedent)
    · refine .expectLast (hc₃.rest ht₄) (y := .dedent) "dedent" rfl (by decide) fun ded hd => ?_
      simpa using Phrased.block he hi (hts.more hus) hd
  · intro d s c₃ hhead _ _
    have hloop : statementsTo ["DEDENT", "EOF"] (S d) c₃.room c₃ = (do
        let (first, after) ← S d c₃
        let (others, last) ← statementsTo ["DEDENT", "EOF"] (S d) c₃.tail.length after
        return (first :: others, last)) := by
      rw [Cursor.room, statementsTo, if_neg (sees_congr hhead _ ▸ hno)]
    simp only [hloop, show c₃.room - 1 = c₃.tail.length from rfl]
    cases S d c₃ with
    | error e => rfl
    | ok r =>
      show (statementsTo _ _ _ _ >>= _) >>= _ = statementsTo _ _ _ _ >>= _
      cases statementsTo ["DEDENT", "EOF"] (S d) c₃.tail.length r.2 with
      | error e => rfl
      | ok q =>
        rw [← hhead]
        rfl

/-! ### Functions -/

theorem parameters_decides (hc : Clean n c) :
    Decides (fun _ s => parameters s) (fun us => ∃ ps, SpellsParams us ps) c := by
  induction hm : c.room using Nat.strongRecOn generalizing c with
  | _ m ih =>
    subst hm
    obtain ⟨x, hx⟩ := head_known hc.stream
    by_cases hname : x = .name
    · subst hname
      obtain ⟨hread, -⟩ := read_of_stands hc.stream hx (by decide)
      have hc₁ := hc.rest (f := [c.head]) hread
      let param (name : Token) : Node := .param (some c.head.lexeme) name.lexeme c.head.place
      refine .shift (Q := fun _ s c => do
        let (name, c) ← c.expect "NAME" "parameter name"
        if c.sees [","] then
          let (others, c) ← parameters s c.next
          return (param name :: others, c)
        else return ([param name], c)) hread ?_ fun d s c₁ hhead _ => ⟨d, s, Nat.le_refl _, Nat.le_refl _, ?_⟩
      · refine .expectThen hc₁ (y := .name) "parameter name" rfl (by decide) (fun name hn => ⟨[], _, .one hx hn⟩)
          fun name c₂ hn ht₂ => ?_
        have hc₂ := hc₁.rest (f := [name]) ht₂
        refine .ite (fun hsees => ?_) fun hsees => .done ⟨_, .one hx hn⟩
        obtain ⟨hcomma, hread₂⟩ := hc₂.read (y := .comma) (by decide) (by decide) hsees
        have hroom : c.room = 3 + c₂.next.room :=
          room_of_tokens (f := [c.head, name, c₂.head]) (by rw [hread, ht₂, hread₂]; rfl)
        refine .shift (Q := fun _ s c => do
          let (others, c) ← parameters s c
          return (param name :: others, c)) hread₂ ?_ fun d s c₃ _ _ => ⟨d, s + 1, Nat.le_refl _, by omega, rfl⟩
        refine (ih c₂.next.room (by omega) (hc₂.rest (f := [c₂.head]) hread₂) rfl).bind
          (fun ts hts => ⟨[], ?_⟩) fun others ts c' _ hts => .done ?_
        all_goals
          obtain ⟨ps, hps⟩ := hts
          exact ⟨_, by simpa using SpellsParams.more hx hn hcomma hps⟩
      · rw [parameters, typeName, expect_ok "type identifier" (y := .name) rfl (hhead ▸ hx), hhead]
        rfl
    · refine (Decides.fail (g := [sample .name, sample .name]) "type identifier"
        ⟨_, .one (sample_stands _) (sample_stands _)⟩).congr fun d s c₁ hhead _ hs => ?_
      obtain ⟨s, rfl⟩ := exists_succ_of_room hs
      rw [parameters, typeName, expect_error "type identifier" (y := .name) rfl (hhead ▸ hx) hname]
      rfl

theorem parameterList_decides (hc : Clean n c) :
    Decides (fun _ _ => parameterList) (fun us => ∃ ps, SpellsParamList us ps) c := by
  refine Decides.ite (P := fun _ _ c => .ok ([], c)) (fun _ => .done ⟨[], .inl ⟨rfl, rfl⟩⟩) fun _ => ?_
  refine (parameters_decides hc).ownRoom.imp ?_
  rintro ts ⟨ps, hps⟩
  exact ⟨ps, .inr hps⟩

theorem returnType_decides (hc : Clean n c) :
    Decides (fun _ _ => returnType) (fun us => ∃ type, SpellsReturns us type) c := by
  refine Decides.ite (Q := fun _ _ c => .ok (none, c)) (fun hsees => ?_) fun _ => .done ⟨none, .none⟩
  obtain ⟨harrow, hread⟩ := hc.read (y := .arrow) (by decide) (by decide) hsees
  refine .shift (Q := fun _ _ c => do
    let (t, c) ← c.expect "NAME" "type identifier"
    return (some t.lexeme, c)) hread ?_ fun d s c₁ _ _ => ⟨d, s, Nat.le_refl _, Nat.le_refl _, ?_⟩
  · exact .expectThen (hc.rest (f := [c.head]) hread) (y := .name) "type identifier" rfl (by decide)
      (fun t ht => ⟨[], _, .some harrow ht⟩) fun t _ ht _ => .done ⟨_, .some harrow ht⟩
  · rw [typeName]
    cases c₁.next.expect "NAME" "type identifier" <;> rfl

theorem function_decides {S : Nat → Parser Node} (hS : Decided n (fun d _ => S d) (Phrased .statement)) (hc : Clean n c)
    {name : Token} (hn : name.Stands .name) {q : Option Position} :
    Decides (fun d _ c => do
      let (_, c) ← c.expect "(" "("
      let (params, c) ← parameterList c
      let (_, c) ← c.expect ")" ")"
      let (returns, c) ← returnType c
      let (body, c) ← block (S d) c
      return (Node.function name.lexeme params returns body q, c))
      (fun us => Phrased .statement (name :: us)) c := by
  have hblock := Phrased.shortBlock (sample_stands .newline) (sample_stands .indent)
  refine .expectThen hc (y := .lpar) "(" rfl (by decide) (fun lp hlp => ?_) fun lp c₁ hlp ht₁ => ?_
  · exact ⟨_, .function hn hlp (.inl ⟨rfl, rfl⟩) (sample_stands .rpar) .none hblock⟩
  have hc₁ := hc.rest (f := [lp]) ht₁
  refine (parameterList_decides hc₁).bind ?_ ?_
  · rintro ps ⟨params, hps⟩
    exact ⟨_, .function hn hlp hps (sample_stands .rpar) .none hblock⟩
  rintro params ps c₂ ht₂ ⟨ns, hps⟩
  have hc₂ := hc₁.rest ht₂
  refine .expectThen hc₂ (y := .rpar) ")" rfl (by decide) (fun rp hrp => ?_) fun rp c₃ hrp ht₃ => ?_
  · exact ⟨_, .function hn hlp hps hrp .none hblock⟩
  have hc₃ := hc₂.rest (f := [rp]) ht₃
  refine (returnType_decides hc₃).bind ?_ ?_
  · rintro rs ⟨type, hrs⟩
    exact ⟨_, .function hn hlp hps hrp hrs hblock⟩
  rintro returns rs c₄ ht₄ ⟨type, hrs⟩
  refine (block_decides hS _ (hc₃.rest ht₄)).bind (fun us hus => ⟨[], ?_⟩) fun body us c₅ _ hus => .done ?_
  · simpa using Phrased.function hn hlp hps hrp hrs hus
  · simpa using Phrased.function hn hlp hps hrp hrs hus

/-! ### By the first tokens -/

/-- A statement without its blame, which changes no error at a token. -/
def unblamed : Nat → Parser Node
  | 0, _ => .error .tooDeep
  | depth + 1, c => dispatch (expression depth) (statement depth) c

section Dispatch

variable (hc : Clean (n + 1) c)
include hc

theorem declaration_decides (hx : c.head.Stands .name) (hy : c.next.head.Stands .name) :
    Decides (fun d _ => unblamed d) (Phrased .statement) c := by
  obtain ⟨hread, -⟩ := read_of_stands hc.stream hx (by decide)
  have hc₁ := hc.next hread
  refine .shift (Q := fun d _ c' => do
    let (name, c') ← c'.expect "NAME" "variable name"
    if c'.sees ["="] then
      let (initializer, c') ← expression d c'.next
      let (_, c') ← endOfStatement c'
      return (Node.varDecl (some c.head.lexeme) name.lexeme initializer c.head.place, c')
    else
      let (_, c') ← endOfStatement c'
      return (Node.varDecl (some c.head.lexeme) name.lexeme .absent c.head.place, c')) hread ?_
    fun d s c₁ hhead hnext => ⟨d, s, Nat.le_refl _, Nat.le_refl _, ?_⟩
  · refine .expectThen hc₁ (y := .name) "variable name" rfl (by decide) (fun name hn => ?_) fun name c₂ hn ht₂ => ?_
    · exact ⟨[sample .newline], 1, _, .varDeclPlain hx hn (sample_stands _)⟩
    have hc₂ := hc₁.rest (f := [name]) ht₂
    refine .ite (fun hsees => ?_) fun _ => ?_
    · obtain ⟨hq, hread₂⟩ := hc₂.read (y := .assign) (by decide) (by decide) hsees
      have hvalue := Decides.valueLine (expression_decides n) (hc₂.rest (f := [c₂.head]) hread₂)
        (b := fun value => Node.varDecl (some c.head.lexeme) name.lexeme value c.head.place)
        (T := fun us => Phrased .statement (c.head :: name :: c₂.head :: us)) fun ts eol hts he =>
          Phrased.varDeclInit hx hn hq hts he
      exact .shift hread₂ hvalue fun d s c₃ _ _ => ⟨d + 1, s, by omega, Nat.le_refl _, rfl⟩
    · exact .line hc₁ (f := [name]) ht₂ (by simp) (ordinary_cons hn (by decide) (by simp))
        fun eol he => ⟨1, _, .varDeclPlain hx hn he⟩
  · rw [unblamed, (dispatch_name (hhead ▸ hx) (hnext ▸ hy)).2.1 rfl, declaration, typeName,
      expect_ok "type identifier" (y := .name) rfl (hhead ▸ hx), hhead]
    rfl

theorem assignment_decides (hx : c.head.Stands .name) (hy : c.next.head.Stands .assign) :
    Decides (fun d _ => unblamed d) (Phrased .statement) c := by
  obtain ⟨hread, -⟩ := read_of_stands hc.stream hx (by decide)
  have hc₁ := hc.next hread
  obtain ⟨hread₁, -⟩ := read_of_stands hc₁.stream hy (by decide)
  refine .shift (Q := fun d _ c' => do
    let (value, c') ← expression d c'.next
    let (_, c') ← endOfStatement c'
    return (Node.assignment c.head.lexeme value c.head.place, c')) hread ?_
    fun d s c₁ hhead hnext => ⟨d, s, Nat.le_refl _, Nat.le_refl _, ?_⟩
  · have hvalue := Decides.valueLine (expression_decides n) (hc₁.rest (f := [c.next.head]) hread₁)
      (b := fun value => Node.assignment c.head.lexeme value c.head.place)
      (T := fun us => Phrased .statement (c.head :: c.next.head :: us)) fun ts eol hts he =>
        Phrased.assignment hx hy hts he
    exact .shift hread₁ hvalue fun d s c₃ _ _ => ⟨d + 1, s, by omega, Nat.le_refl _, rfl⟩
  · rw [unblamed, (dispatch_name (hhead ▸ hx) (hnext ▸ hy)).2.2 rfl, assignment,
      expect_ok "NAME" (y := .name) rfl (hhead ▸ hx),
      Success.ok_bind]
    simp only [expect_ok (c := c₁.next) "=" (y := .assign) rfl (hnext ▸ hy), hhead]
    rfl

theorem returning_decides (hx : c.head.Stands .kwReturn) : Decides (fun d _ => unblamed d) (Phrased .statement) c := by
  obtain ⟨hread, -⟩ := read_of_stands hc.stream hx (by decide)
  have hc₁ := hc.next hread
  refine .shift (Q := fun d _ c' => if c'.sees ["NEWLINE", "DEDENT", "EOF"] then do
      let (_, c') ← endOfStatement c'
      return (Node.returnStmt .absent c.head.place, c')
    else do
      let (value, c') ← expression d c'
      let (_, c') ← endOfStatement c'
      return (Node.returnStmt value c.head.place, c')) hread (.ite (fun _ => ?_) fun _ => ?_)
    fun d s c₁ hhead hnext => ⟨d, s, Nat.le_refl _, Nat.le_refl _, ?_⟩
  · exact .line hc (f := [c.head]) hread (by simp) (ordinary_cons hx (by decide) (by simp))
      fun eol he => ⟨1, _, .returnPlain hx he⟩
  · exact .valueLine (expression_decides n) hc₁ (b := fun value => Node.returnStmt value c.head.place)
      fun ts eol hts he => Phrased.returnValue hx hts he
  · rw [unblamed, (dispatch_keyword (hhead ▸ hx)).2.2.1 rfl, returning, hhead]
    rfl

theorem displaying_decides (hx : c.head.Stands .kwDisplay) :
    Decides (fun d _ => unblamed d) (Phrased .statement) c := by
  obtain ⟨hread, -⟩ := read_of_stands hc.stream hx (by decide)
  have hvalue := Decides.valueLine (expression_decides n) (hc.next hread)
    (b := fun value => Node.display value c.head.place)
    (T := fun us => Phrased .statement (c.head :: us)) fun ts eol hts he =>
      Phrased.display hx hts he
  refine .shift hread hvalue fun d s c₁ hhead hnext => ⟨d, s, Nat.le_refl _, Nat.le_refl _, ?_⟩
  rw [unblamed, (dispatch_keyword (hhead ▸ hx)).2.2.2 rfl, displaying, hhead]
  rfl

variable (hS : Decided n (fun d _ => statement d) (Phrased .statement))
include hS

theorem guarded_decides {x : Terminal} (hx : c.head.Stands x) {build : Node → Node → Option Position → Node}
    (hbuild : guardOf? x = some build) (hf : x ≠ .finish)
    (hd : ∀ (e p : Parser Node) (c₁ : Cursor), c₁.head = c.head → dispatch e p c₁ = guarded build e p c₁) :
    Decides (fun d _ => unblamed d) (Phrased .statement) c := by
  obtain ⟨hread, -⟩ := read_of_stands hc.stream hx hf
  have hc₁ := hc.next hread
  refine .shift (Q := fun d _ c' => do
    let (condition, c') ← expression d c'
    let (body, c') ← block (statement d) c'
    return (build condition body c.head.place, c')) hread ?_
    fun d s c₁ hhead hnext => ⟨d, s, Nat.le_refl _, Nat.le_refl _, ?_⟩
  · refine (expression_decides n _ hc₁).bind (fun ts hts => ?_) fun condition ts c₂ ht₂ hts => ?_
    · exact ⟨_, .guarded hx hbuild hts (.shortBlock (sample_stands .newline) (sample_stands .indent))⟩
    · refine (block_decides hS _ (hc₁.rest ht₂)).bind (fun us hus => ⟨[], ?_⟩) fun body us c₃ _ hus => .done ?_
      · simpa using Phrased.guarded hx hbuild hts hus
      · simpa using Phrased.guarded hx hbuild hts hus
  · rw [unblamed, hd _ _ c₁ hhead, guarded, hhead]
    rfl

theorem named_decides (hx : c.head.Stands .name) : Decides (fun d _ => unblamed d) (Phrased .statement) c := by
  obtain ⟨hread, -⟩ := read_of_stands hc.stream hx (by decide)
  have hc₁ := hc.next hread
  obtain ⟨y, hy⟩ := head_known hc₁.stream
  by_cases hcall : y = .lpar
  · subst hcall
    refine .shift hread (function_decides hS hc₁ hx (q := c.head.place))
      fun d s c₁ hhead hnext => ⟨d, s, Nat.le_refl _, Nat.le_refl _, ?_⟩
    rw [unblamed, (dispatch_name (hhead ▸ hx) (hnext ▸ hy)).1 rfl, function,
      expect_ok "NAME" (y := .name) rfl (hhead ▸ hx),
      hhead]
    rfl
  by_cases hname : y = .name
  · exact declaration_decides hc hx (hname ▸ hy)
  by_cases hassign : y = .assign
  · exact assignment_decides hc hx (hassign ▸ hy)
  -- the token behind the name is blamed
  refine .shift hread (.fail "a declaration or assignment after identifier"
    (Phrased.assignment hx (sample_stands .assign) (.name (Nat.le_refl _)) (sample_stands .newline)))
    fun d s c₁ hhead hnext => ⟨d, s, Nat.le_refl _, Nat.le_refl _, ?_⟩
  rw [unblamed, dispatch_name_other (hhead ▸ hx) (hnext ▸ hy) hcall hname hassign]

theorem unblamed_decides : Decides (fun d _ => unblamed d) (Phrased .statement) c := by
  obtain ⟨x, hx⟩ := head_known hc.stream
  by_cases hname : x = .name
  · exact named_decides hc hS (hname ▸ hx)
  by_cases hif : x = .kwIf
  · exact guarded_decides hc hS hx (hif ▸ rfl) (hif ▸ by decide)
      fun e p c₁ hhead => (dispatch_keyword (hhead ▸ hx)).1 hif
  by_cases hwhile : x = .kwWhile
  · exact guarded_decides hc hS hx (hwhile ▸ rfl) (hwhile ▸ by decide)
      fun e p c₁ hhead => (dispatch_keyword (hhead ▸ hx)).2.1 hwhile
  by_cases hreturn : x = .kwReturn
  · exact returning_decides hc (hreturn ▸ hx)
  by_cases hdisplay : x = .kwDisplay
  · exact displaying_decides hc (hdisplay ▸ hx)
  refine (Decides.fail "statement" Phrased.returning).congr fun d s c₁ hhead hd _ => ?_
  obtain ⟨d, rfl⟩ := exists_succ_of_room hd
  rw [unblamed, dispatch_other (hhead ▸ hx) (by simp [statementStarts, hname, hif, hwhile, hreturn, hdisplay])]

end Dispatch

/-- Blaming the limit on the start of a statement changes nothing where the limit is not reached. -/
theorem Decides.statement (h : Decides (fun d _ => unblamed d) T c) : Decides (fun d _ => Parse.statement d) T c := by
  have hblame : ∀ d c₁, Parse.statement (d + 1) c₁ = blame c₁.head (unblamed (d + 1) c₁) := fun _ _ => rfl
  cases h with
  | takes a ht hT hset =>
    refine .takes a ht hT fun d s c₁ c₁' hd hs ht₁ hhead => ?_
    obtain ⟨d, rfl⟩ := exists_succ_of_room hd
    rw [hblame, hset (d + 1) s c₁ c₁' hd hs ht₁ hhead]
    rfl
  | blames e ht hT hset =>
    refine .blames e ht hT fun d s c₁ c₁' hd hs ht₁ hhead => ?_
    obtain ⟨d, rfl⟩ := exists_succ_of_room hd
    rw [hblame, hset (d + 1) s c₁ c₁' hd hs ht₁ hhead]
    rfl

theorem statement_decides (n : Nat) : Decided n (fun d _ => statement d) (Phrased .statement) := by
  induction n with
  | zero => exact fun c hc => absurd rfl hc.ne_zero
  | succ n ih => exact fun c hc => (unblamed_decides hc ih).statement

end Statements

/-! ## Programs -/

/-- From as many levels on as there are tokens, the descent returns a program or blames a token. The tokens in
front of a blamed one are the start of some statements, and with any others behind it it is blamed as well. -/
theorem programTo_decides {tokens : List Token} (hs : Stream tokens) (hread : ∀ t ∈ tokens, t.Readable) :
    (∃ p, ∀ d, tokens.length ≤ d → programTo d tokens = .ok p) ∨
    ∃ front u rest us expected, tokens = front ++ u :: rest ∧ (front ++ us = [] ∨ Phrased .statements (front ++ us)) ∧
      ∀ others d, (front ++ u :: others).length ≤ d →
        programTo d (front ++ u :: others) = .error (unexpected expected u) := by
  obtain ⟨c, rfl⟩ : ∃ c : Cursor, c.tokens = tokens := by
    obtain ⟨ts, last, rfl, -⟩ := hs.ended
    exact exists_cursor ts ⟨last, []⟩
  have hc : Clean c.room c := ⟨hs, hread, Nat.le_refl _⟩
  have hprogram : ∀ (d : Nat) (c₁ : Cursor), programTo d c₁.tokens = (do
      let (body, _) ← statementsTo ["EOF"] (statement d) c₁.room c₁
      return .program body programPosition) := fun _ _ => rfl
  cases statementsTo_decides (statement_decides c.room) ["EOF"] hc with
  | takes body ht _ hset =>
    refine .inl ⟨.program body programPosition, fun d hd => ?_⟩
    rw [hprogram, hset d c.room c _ hd (Nat.le_refl _) ht rfl]
    rfl
  | @blames front us c' expected ht hT hset =>
    refine .inr ⟨front, c'.head, c'.tail, us, expected, ht, hT, fun others d hd => ?_⟩
    obtain ⟨c₁, hc₁⟩ := exists_cursor front ⟨c'.head, others⟩
    have hroom : c₁.room ≤ d := by
      rw [Cursor.room_eq, hc₁]
      exact hd
    rw [show front ++ c'.head :: others = c₁.tokens from hc₁.symm, hprogram,
      hset d c₁.room c₁ _ hroom (Nat.le_refl _) hc₁ rfl]
    rfl

end TillLang.Parse
