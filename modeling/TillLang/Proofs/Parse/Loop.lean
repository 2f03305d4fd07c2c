/-
  TillLang.Proofs.Parse.Loop — the loops of the descent end by themselves.

  The descent repeats itself in four places: for statements, arguments, parameters and operators. Each repetition
  carries a bound on its rounds, as many as there are tokens left. A loop without a bound is a relation here (`Loop`):
  it holds of a result only if the loop comes to an end, by its own condition or by an error. Since every round leaves
  fewer tokens than it found, each of the four loops ends, and with the result that the bounded repetition has: the
  bound is never what ends it.

  The tokens are any at all, in any order, as long as the end of the text is the last of them and literals can be
  read (`Regular`).
-/

import TillLang.Proofs.Parse.Consumed

namespace TillLang.Parse

/-! ## Places in front of the end -/

/-- A place in front of the end of the text and of literals that can be read. -/
structure Regular (c : Cursor) : Prop where
  ends : c.Ends
  readable : ∀ t ∈ c.tokens, t.Readable

theorem Regular.rest {c c' : Cursor} {f : List Token} (hc : Regular c)
    (h : c.tokens = f ++ c'.tokens) : Regular c' where
  ends := by
    obtain ⟨last, hlast, heof⟩ := hc.ends
    refine ⟨last, ?_, heof⟩
    rw [h, List.getLast?_append, List.getLast?_eq_some_getLast (show c'.tokens ≠ [] by simp [Cursor.tokens])] at hlast
    rw [List.getLast?_eq_some_getLast (show c'.tokens ≠ [] by simp [Cursor.tokens])]
    exact hlast
  readable t ht := hc.readable t (h ▸ List.mem_append_right f ht)

/-- Behind any other token than the end of the text a place moves on. -/
theorem Regular.read {c : Cursor} (hc : Regular c) (hk : c.head.kind ≠ .eof) : c.tokens = c.head :: c.next.tokens := by
  obtain ⟨head, tail⟩ := c
  cases tail with
  | nil =>
    obtain ⟨last, hlast, heof⟩ := hc.ends
    obtain rfl : head = last := by simpa [Cursor.tokens] using hlast
    exact absurd heof hk
  | cons t ts => rfl

/-- No token answers to a label as the end of the text, unless it is the label of the end. -/
theorem kind_ne_eof_of_answersTo {t : Token} {label : String} (hlabel : label ≠ "EOF") (h : t.answersTo label = true) :
    t.kind ≠ .eof := by
  intro hk
  simp only [Token.answersTo, hk, Token.Kind.label, Bool.or_eq_true, beq_iff_eq] at h
  rcases h with h | h
  · exact hlabel h.symm
  · cases h

theorem kind_ne_eof_of_sees {c : Cursor} {names : List String} (hnames : "EOF" ∉ names) (h : c.sees names = true) :
    c.head.kind ≠ .eof := by
  obtain ⟨label, hmem, hanswers⟩ := List.any_eq_true.mp h
  exact kind_ne_eof_of_answersTo (fun heq => hnames (heq ▸ hmem)) hanswers

/-- In front of the end, a parser that returns leaves at least so many tokens less. -/
def Leaves {α : Type} (least : Nat) (p : Parser α) : Prop :=
  ∀ c a c', Regular c → p c = .ok (a, c') → Regular c' ∧ c'.room + least ≤ c.room

theorem leaves_next {c : Cursor} (hc : Regular c) (hk : c.head.kind ≠ .eof) :
    Regular c.next ∧ c.next.room + 1 = c.room := by
  have hread := hc.read hk
  refine ⟨hc.rest (f := [c.head]) hread, ?_⟩
  rw [Cursor.room_eq, Cursor.room_eq, hread, List.length_cons]

theorem leaves_expect {label : String} (hlabel : label ≠ "EOF") (description : String) :
    Leaves 1 fun c => c.expect label description := by
  intro c t c' hc h
  simp only [Cursor.expect] at h
  split at h
  · rename_i hanswers
    obtain ⟨-, rfl⟩ := Prod.mk.inj (Except.ok.inj h)
    obtain ⟨hnext, hroom⟩ := leaves_next hc (kind_ne_eof_of_answersTo hlabel hanswers)
    exact ⟨hnext, Nat.le_of_eq hroom⟩
  · cases h

/-! ## Loops without a bound -/

/-- A loop over a state and a place comes to an end, with a result. -/
inductive Loop {σ : Type} (goesOn : σ → Cursor → Bool) (round : σ → Parser σ) :
    σ → Cursor → Except Fault (σ × Cursor) → Prop
  | stops {s : σ} {c : Cursor} (h : goesOn s c = false) : Loop goesOn round s c (.ok (s, c))
  | fails {s : σ} {c : Cursor} {fault : Fault} (h : goesOn s c = true) (hround : round s c = .error fault) :
      Loop goesOn round s c (.error fault)
  | goes {s s' : σ} {c c' : Cursor} {result : Except Fault (σ × Cursor)} (h : goesOn s c = true)
      (hround : round s c = .ok (s', c')) (hrest : Loop goesOn round s' c' result) : Loop goesOn round s c result

/-- A loop that returns has come to a place where its condition fails. -/
theorem Loop.stopped {σ : Type} {goesOn : σ → Cursor → Bool} {round : σ → Parser σ} {s s' : σ} {c c' : Cursor}
    (h : Loop goesOn round s c (.ok (s', c'))) : goesOn s' c' = false := by
  generalize hresult : Except.ok (s', c') = result at h
  induction h with
  | stops h =>
    obtain ⟨rfl, rfl⟩ := Prod.mk.inj (Except.ok.inj hresult)
    exact h
  | fails => cases hresult
  | goes _ _ _ ih => exact ih hresult

/-- A round that puts one more node behind those gathered. -/
def gather (p : Parser Node) (nodes : List Node) : Parser (List Node) := fun c =>
  (fun r => (nodes ++ [r.1], r.2)) <$> p c

/-- A round that joins an operator and one more operand to those on the left. -/
def join (operand : Parser Node) (left : Node) : Parser Node := fun c => do
  let (right, after) ← operand c.next
  return (.binary c.head.lexeme left right (some c.head.location.position), after)

/-- A round that reads one more parameter, and the comma behind it if there is one. Without a comma it is the last. -/
def parameterRound (s : List Node × Bool) : Parser (List Node × Bool) := fun c => do
  let position := some c.head.location.position
  let (type, c) ← typeName c
  let (name, c) ← c.expect "NAME" "parameter name"
  let params := s.1 ++ [.param (some type) name.lexeme position]
  if c.sees [","] then return ((params, true), c.next) else return ((params, false), c)

theorem leaves_parameterRound (s : List Node × Bool) : Leaves 1 (parameterRound s) := by
  intro c a c' hc h
  obtain ⟨⟨type, c₁⟩, htype, h⟩ := Success.bind_iff.mp h
  obtain ⟨⟨_, c₁⟩, hexpect, htype⟩ := Success.bind_iff.mp htype
  obtain ⟨-, rfl⟩ := Prod.mk.inj (Except.ok.inj htype)
  obtain ⟨⟨name, c₂⟩, hname, h⟩ := Success.bind_iff.mp h
  obtain ⟨hc₁, hroom₁⟩ := leaves_expect (by decide) _ c _ _ hc hexpect
  obtain ⟨hc₂, hroom₂⟩ := leaves_expect (by decide) _ _ name c₂ hc₁ hname
  simp only at h
  split at h
  · rename_i hcomma
    obtain ⟨-, rfl⟩ := Prod.mk.inj (Except.ok.inj h)
    obtain ⟨hnext, hroom⟩ := leaves_next hc₂ (kind_ne_eof_of_sees (by decide) hcomma)
    exact ⟨hnext, by omega⟩
  · obtain ⟨-, rfl⟩ := Prod.mk.inj (Except.ok.inj h)
    exact ⟨hc₂, by omega⟩

/-- What a round does does not depend on the parameters before. -/
theorem parameterRound_gathers (params : List Node) (c : Cursor) : parameterRound (params, true) c =
    (fun r => ((params ++ r.1.1, r.1.2), r.2)) <$> parameterRound ([], true) c := by
  unfold parameterRound
  cases typeName c with
  | error fault => rfl
  | ok r =>
    simp only [Success.ok_bind]
    cases r.2.expect "NAME" "parameter name" with
    | error fault => rfl
    | ok r' =>
      simp only [Success.ok_bind]
      split <;> rfl

/-- Parameters are one round, and more of them if it ends with a comma. -/
theorem parameters_succ (steps : Nat) (c : Cursor) : parameters (steps + 1) c = (do
    let (s, after) ← parameterRound ([], true) c
    if s.2 then
      let (others, last) ← parameters steps after
      return (s.1 ++ others, last)
    else return (s.1, after)) := by
  rw [parameters, parameterRound]
  cases typeName c with
  | error fault => rfl
  | ok r =>
    simp only [Success.ok_bind]
    cases r.2.expect "NAME" "parameter name" with
    | error fault => rfl
    | ok r' =>
      simp only [Success.ok_bind]
      split <;> rfl

section Loops

variable {c : Cursor} {steps : Nat} (hc : Regular c) (hsteps : c.room ≤ steps)
include hc hsteps

/-- Nodes that are read one by one, by any bounded repetition of that form. -/
theorem gather_loop {goesOn : Cursor → Bool} {p : Parser Node} {repeated : Nat → Parser (List Node)}
    (hp : ∀ c n c', Regular c → goesOn c = true → p c = .ok (n, c') → Regular c' ∧ c'.room < c.room)
    (hrepeated : ∀ steps c, repeated (steps + 1) c = if goesOn c then do
        let (first, after) ← p c
        let (others, last) ← repeated steps after
        return (first :: others, last)
      else .ok ([], c)) (nodes : List Node) :
    Loop (fun _ => goesOn) (gather p) nodes c ((fun r => (nodes ++ r.1, r.2)) <$> repeated steps c) := by
  induction steps generalizing c nodes with
  | zero => simp [Cursor.room] at hsteps
  | succ steps ih =>
    rw [hrepeated]
    cases hgoes : goesOn c with
    | false =>
      have hstops : Loop (fun _ => goesOn) (gather p) nodes c (.ok (nodes, c)) := .stops hgoes
      simpa using hstops
    | true =>
      cases hfirst : p c with
      | error fault => exact .fails hgoes (by rw [gather, hfirst]; rfl)
      | ok r =>
        obtain ⟨first, c'⟩ := r
        obtain ⟨hc', hroom⟩ := hp c first c' hc hgoes hfirst
        have hround : gather p nodes c = .ok (nodes ++ [first], c') := by rw [gather, hfirst]; rfl
        refine .goes hgoes hround ?_
        have hrest := ih hc' (by omega) (nodes ++ [first])
        cases hothers : repeated steps c' with
        | error fault => simpa [hothers] using hrest
        | ok r' => simpa [hothers] using hrest

theorem statementsTo_loop {p : Parser Node} (hp : Leaves 1 p) (stops : List String) (nodes : List Node) :
    Loop (fun _ c => !c.sees stops) (gather p) nodes c
      ((fun r => (nodes ++ r.1, r.2)) <$> statementsTo stops p steps c) := by
  refine gather_loop hc hsteps (fun c n c' hc _ h => hp c n c' hc h) (fun steps c => ?_) nodes
  rw [statementsTo]
  cases c.sees stops <;> rfl

theorem moreArguments_loop {e : Parser Node} {k : Nat} (he : Leaves k e) (nodes : List Node) :
    Loop (fun _ c => c.sees [","]) (gather fun c => e c.next) nodes c
      ((fun r => (nodes ++ r.1, r.2)) <$> moreArguments e steps c) := by
  refine gather_loop hc hsteps (fun c n c' hc hcomma h => ?_) (fun steps c => rfl) nodes
  obtain ⟨hnext, hroom⟩ := leaves_next hc (kind_ne_eof_of_sees (by decide) hcomma)
  obtain ⟨hc', hle⟩ := he _ n c' hnext h
  exact ⟨hc', by omega⟩

theorem chain_loop {ops : List String}
    (hops : "EOF" ∉ ops) {p : Parser Node} {k : Nat} (hp : Leaves k p) (left : Node) :
    Loop (fun _ c => c.sees ops) (join p) left c (chain ops p steps left c) := by
  induction steps generalizing c left with
  | zero => simp [Cursor.room] at hsteps
  | succ steps ih =>
    rw [chain]
    split
    · rename_i hop
      cases hright : p c.next with
      | error fault => exact .fails hop (by rw [join, hright]; rfl)
      | ok r =>
        obtain ⟨right, c'⟩ := r
        obtain ⟨hnext, hroom⟩ := leaves_next hc (kind_ne_eof_of_sees hops hop)
        obtain ⟨hc', hle⟩ := hp _ right c' hnext hright
        exact .goes hop (by rw [join, hright]; rfl) (ih hc' (by omega) _)
    · rename_i hop
      exact .stops (by simpa using hop)

theorem parameters_loop (params : List Node) : Loop (fun s _ => s.2) parameterRound (params, true) c
    ((fun r => ((params ++ r.1, false), r.2)) <$> parameters steps c) := by
  induction steps generalizing c params with
  | zero => simp [Cursor.room] at hsteps
  | succ steps ih =>
    have hround := parameterRound_gathers params c
    rw [parameters_succ]
    cases hfirst : parameterRound ([], true) c with
    | error fault =>
      rw [hfirst] at hround
      exact .fails rfl hround
    | ok r =>
      obtain ⟨⟨first, more⟩, c'⟩ := r
      rw [hfirst] at hround
      obtain ⟨hc', hroom⟩ := leaves_parameterRound _ c _ c' hc hfirst
      refine .goes rfl hround ?_
      cases more with
      | false => exact .stops rfl
      | true =>
        have hrest := ih hc' (by omega) (params ++ first)
        cases hothers : parameters steps c' with
        | error fault => simpa [hothers] using hrest
        | ok r' => simpa [hothers] using hrest

end Loops

end TillLang.Parse
