/-
  TillLang.Proofs.Parse.Formed — the trees that tokens spell.

  In a tree that was parsed every node is in its place; its literals and names are those of its
  tokens (`SpellsProgram.placed`).
-/

import TillLang.Proofs.Parse.Spelling
import TillLang.Proofs.Syntax.Placed

namespace TillLang.Parse

open Grammar (Terminal)

/-- The place of what a phrase stands for. -/
def Phrase.place : Phrase → Place
  | .layer _ | .arguments => .expression
  | .statement | .statements => .statement
  | .block => .block

/-- A token of a keyword or an operator has its text. -/
theorem ofText_of_stands {t : Token} {x : Terminal} (h : t.Stands x) (hk : x.kind? = none)
    (hb : x ≠ .litTrue ∧ x ≠ .litFalse) : Terminal.ofText? t.lexeme = some x := by
  unfold Token.Stands Terminal.ofToken? at h
  cases ht : t.kind <;> rw [ht] at h <;> simp only at h
  case keyword => exact h
  case op => exact h
  case bool =>
    obtain rfl := Option.some.inj h
    split at hb <;> simp at hb
  all_goals
    obtain rfl := Option.some.inj h
    cases hk

theorem precedence_of_ofText {s : String} {k : Nat} (hk : k < layerCount)
    (h : Terminal.ofText? s = some (operatorAt k)) : Syntax.precedence? s = some (layerCount - k) := by
  unfold layerCount at hk ⊢
  unfold Terminal.ofText? at h
  split at h
  all_goals
    rcases k with _ | _ | _ | _ | k <;> cases h <;> first | rfl | omega

theorem operatorAt_kind (k : Nat) :
    (operatorAt k).kind? = none ∧ operatorAt k ≠ .litTrue ∧ operatorAt k ≠ .litFalse := by
  unfold operatorAt
  split <;> decide

/-- A binary operator binds as tightly as the printer thinks. -/
theorem precedence_of_stands {t : Token} {k : Nat} (hk : k < layerCount) (h : t.Stands (operatorAt k)) :
    Syntax.precedence? t.lexeme = some (layerCount - k) :=
  precedence_of_ofText hk (ofText_of_stands h (operatorAt_kind k).1 (operatorAt_kind k).2)

theorem unary_of_stands {t : Token} (h : t.Stands .unaryOp) : t.lexeme = "!" ∨ t.lexeme = "~" := by
  have htext := ofText_of_stands h rfl (by decide)
  unfold Terminal.ofText? at htext
  split at htext <;> cases htext
  · exact .inl ‹_›
  · exact .inr ‹_›

/-- The literals and names of tokens are as they should be. -/
def Supplies (lit : Literal → Prop) (word : String → Prop) (ts : List Token) : Prop :=
  ∀ t ∈ ts, (∀ v, literalOf? t = some (.ok v) → lit v) ∧ (t.kind = .name → word t.lexeme)

variable {lit : Literal → Prop} {word : String → Prop} {ts us : List Token}

theorem Supplies.part (h : Supplies lit word ts) (hsub : ∀ t ∈ us, t ∈ ts) : Supplies lit word us :=
  fun t ht => h t (hsub t ht)

theorem Supplies.name {t : Token} (h : Supplies lit word ts) (hm : t ∈ ts) (ht : t.Stands .name) : word t.lexeme :=
  (h t hm).2 (ht.kind rfl)

theorem SpellsParams.placed {ns : List Node} (h : SpellsParams ts ns) (hs : Supplies lit word ts) :
    ∀ n ∈ ns, Placed lit word .parameter n := by
  induction h with
  | one ht hn => exact List.forall_mem_singleton.mpr (.param (hs.name (by simp) ht) (hs.name (by simp) hn))
  | more ht hn _ _ ih =>
    refine List.forall_mem_cons.mpr ⟨.param (hs.name (by simp) ht) (hs.name (by simp) hn), ?_⟩
    exact ih (hs.part fun t hm => by simp [hm])

theorem SpellsParamList.placed {ns : List Node} (h : SpellsParamList ts ns) (hs : Supplies lit word ts) :
    ∀ n ∈ ns, Placed lit word .parameter n := by
  rcases h with ⟨-, rfl⟩ | h
  · simp
  · exact h.placed hs

theorem SpellsReturns.names {returns : Option String} (h : SpellsReturns ts returns) (hs : Supplies lit word ts) :
    ∀ type, returns = Option.some type → word type := by
  cases h with
  | none => simp
  | some _ ht =>
    rintro _ ⟨⟩
    exact hs.name (by simp) ht

/-- Every node that tokens spell is in its place. -/
theorem Spells.placed {d : Nat} {p : Phrase} {ns : List Node} (h : Spells d p ts ns) (hs : Supplies lit word ts) :
    ∀ n ∈ ns, Placed lit word p.place n := by
  induction h with
  | lift _ _ ih => exact ih hs
  | binary hk _ hop _ ihl ihr =>
    have hl := List.forall_mem_singleton.mp (ihl (hs.part fun t ht => by simp [ht]))
    have hr := List.forall_mem_singleton.mp (ihr (hs.part fun t ht => by simp [ht]))
    exact List.forall_mem_singleton.mpr (.binary (precedence_of_stands hk hop) hl hr)
  | unary hop _ ih =>
    have h := List.forall_mem_singleton.mp (ih (hs.part fun t ht => by simp [ht]))
    exact List.forall_mem_singleton.mpr (.unary (unary_of_stands hop) h)
  | literal hv => exact List.forall_mem_singleton.mpr (.literal ((hs _ (by simp)).1 _ hv))
  | identifier ht => exact List.forall_mem_singleton.mpr (.identifier (hs.name (by simp) ht))
  | callPlain ht _ _ => exact List.forall_mem_singleton.mpr (.call (hs.name (by simp) ht) (by simp))
  | callArgs ht _ _ _ ih =>
    exact List.forall_mem_singleton.mpr (.call (hs.name (by simp) ht) (ih (hs.part fun t ht => by simp [ht])))
  | parens _ _ _ ih => exact ih (hs.part fun t ht => by simp [ht])
  | argsOne _ ih => exact ih hs
  | argsMore _ _ _ ih ihs =>
    have h := List.forall_mem_singleton.mp (ih (hs.part fun t ht => by simp [ht]))
    exact List.forall_mem_cons.mpr ⟨h, ihs (hs.part fun t ht => by simp [ht])⟩
  | varDeclPlain ht hn _ =>
    exact List.forall_mem_singleton.mpr (.varDecl (hs.name (by simp) ht) (hs.name (by simp) hn))
  | varDeclInit ht hn _ _ _ ih =>
    have h := List.forall_mem_singleton.mp (ih (hs.part fun t ht => by simp [ht]))
    exact List.forall_mem_singleton.mpr (.varInit (hs.name (by simp) ht) (hs.name (by simp) hn) h)
  | assignment hn _ _ _ ih =>
    have h := List.forall_mem_singleton.mp (ih (hs.part fun t ht => by simp [ht]))
    exact List.forall_mem_singleton.mpr (.assignment (hs.name (by simp) hn) h)
  | returnPlain _ _ => exact List.forall_mem_singleton.mpr .returnPlain
  | returnValue _ _ _ ih =>
    have h := List.forall_mem_singleton.mp (ih (hs.part fun t ht => by simp [ht]))
    exact List.forall_mem_singleton.mpr (.returnValue h)
  | display _ _ _ ih =>
    have h := List.forall_mem_singleton.mp (ih (hs.part fun t ht => by simp [ht]))
    exact List.forall_mem_singleton.mpr (.display h)
  | guarded _ hx _ _ ih ihb =>
    have hcond := List.forall_mem_singleton.mp (ih (hs.part fun t ht => by simp [ht]))
    have hbody := List.forall_mem_singleton.mp (ihb (hs.part fun t ht => by simp [ht]))
    rw [List.forall_mem_singleton]
    unfold guardOf? at hx
    split at hx
    · obtain rfl := Option.some.inj hx
      exact .ifStmt hcond hbody
    · obtain rfl := Option.some.inj hx
      exact .whileStmt hcond hbody
    · cases hx
  | function hn _ hps _ hrs _ ihb =>
    have hbody := List.forall_mem_singleton.mp (ihb (hs.part fun t ht => by simp [ht]))
    exact List.forall_mem_singleton.mpr (.function (hs.name (by simp) hn)
      (hps.placed (hs.part fun t ht => by simp [ht])) (hrs.names (hs.part fun t ht => by simp [ht])) hbody)
  | one _ ih => exact ih hs
  | more _ _ ih ihs =>
    have h := List.forall_mem_singleton.mp (ih (hs.part fun t ht => by simp [ht]))
    exact List.forall_mem_cons.mpr ⟨h, ihs (hs.part fun t ht => by simp [ht])⟩
  | block _ _ _ _ ih =>
    exact List.forall_mem_singleton.mpr (.block (by simp) (ih (hs.part fun t ht => by simp [ht])))

theorem SpellsProgram.placed {d : Nat} {body : List Node} (h : SpellsProgram d ts body) (hs : Supplies lit word ts) :
    ∀ n ∈ body, Placed lit word .statement n := by
  obtain ⟨us, last, rfl, -, ⟨-, rfl⟩ | hus⟩ := h
  · simp
  · exact hus.placed (hs.part fun t ht => by simp [ht])

end TillLang.Parse
