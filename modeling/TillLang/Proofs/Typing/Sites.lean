/-
  TillLang.Proofs.Typing.Sites — the occurrences of names in a program.

  `Node.sites` lists the occurrences of names that the checker looks up, each with its position and
  the declarations that the checker has come by there. In a parsed program no two occurrences have
  the same position, since each stands for a token of its own; so a position determines what the
  checker knew when it looked up the name there (`Looks.unique`).
-/

import TillLang.Proofs.Agreement
import TillLang.Proofs.Token.Places
import TillLang.Proofs.Typing.Reach

namespace TillLang

open Typing (Trail)
open Parse (Spells Phrase)
open scoped List

mutual

/-- The occurrences of names in a node, behind declarations. -/
def Node.sites (trail : Trail) : Node → List (Option Position × Trail)
  | .program body _ => sitesAlong trail body
  | .block statements _ => sitesAlong trail statements
  | .varDecl _ _ value _ | .returnStmt value _ | .display value _ => value.sites trail
  | .function name params returns body position =>
    body.sites ((trail.add [.function name params returns body position]).push.add params)
  | .ifStmt condition body _ | .whileStmt condition body _ => condition.sites trail ++ body.sites trail.push
  | .assignment _ value position => (position, trail) :: value.sites trail
  | .binary _ left right _ => left.sites trail ++ right.sites trail
  | .unary _ operand _ => operand.sites trail
  | .identifier _ position => [(position, trail)]
  | .call _ args position => (position, trail) :: sitesIn trail args
  | _ => []

/-- The occurrences of names in statements that stand one after the other. -/
def sitesAlong (trail : Trail) : List Node → List (Option Position × Trail)
  | [] => []
  | node :: rest => node.sites trail ++ sitesAlong (trail.add node.declarations) rest

/-- The occurrences of names in nodes that stand side by side. -/
def sitesIn (trail : Trail) : List Node → List (Option Position × Trail)
  | [] => []
  | node :: rest => node.sites trail ++ sitesIn trail rest

end

attribute [local simp] Node.sites sitesAlong sitesIn

/-! ## Every lookup is one of the sites -/

theorem sites_of_statements {body : Node} {statements : List Node} (h : body.statements? = some statements)
    (trail : Trail) : body.sites trail = sitesAlong trail statements := by
  cases body with
  | block ss position =>
    cases h
    simp
  | _ => cases h

theorem sites_subset_sitesIn {arg : Node} {args : List Node} (h : arg ∈ args) (trail : Trail) :
    arg.sites trail ⊆ sitesIn trail args := by
  induction args with
  | nil => cases h
  | cons node rest ih =>
    rw [sitesIn]
    rcases List.mem_cons.mp h with rfl | h
    · exact List.subset_append_left _ _
    · exact List.subset_append_of_subset_right _ (ih h)

/-- The operands of a chain of operators. -/
theorem sites_spineOnto (node : Node) (later : List Joint) (trail : Trail) :
    (node.spineOnto later).1.sites trail ⊆ node.sites trail ∧
      ∀ joint ∈ (node.spineOnto later).2, joint ∈ later ∨ joint.right.sites trail ⊆ node.sites trail := by
  fun_induction Node.spineOnto later node with
  | case1 later op left right position ih =>
    obtain ⟨hfirst, hjoints⟩ := ih
    rw [Node.sites]
    refine ⟨List.subset_append_of_subset_left _ hfirst, fun joint hj => ?_⟩
    rcases hjoints joint hj with hj | hj
    · rcases List.mem_cons.mp hj with rfl | hj
      · exact .inr (List.subset_append_right _ _)
      · exact .inl hj
    · exact .inr (List.subset_append_of_subset_left _ hj)
  | case2 later node => exact ⟨List.Subset.refl _, fun joint hj => .inl hj⟩

namespace Typing

variable {program : Node}

theorem Checks.sites {enclosing : Option Enclosing} {depth : Nat} {trail : Trail} {nodes : List Node}
    (h : Checks program enclosing depth trail nodes) : sitesAlong trail nodes ⊆ program.sites .start := by
  induction h with
  | program hb =>
    cases program with
    | program body position =>
      cases hb
      rw [Node.sites]
      exact List.Subset.refl _
    | _ => cases hb
  | next _ ih =>
    rw [sitesAlong, List.append_subset] at ih
    exact ih.2
  | @guarded _ _ trail node condition body _ _ _ hg hb ih =>
    rw [sitesAlong, List.append_subset] at ih
    rw [← sites_of_statements hb]
    have hbody : body.sites trail.push ⊆ node.sites trail := by
      cases node with
      | ifStmt c b position =>
        cases hg
        rw [Node.sites]
        exact List.subset_append_right _ _
      | whileStmt c b position =>
        cases hg
        rw [Node.sites]
        exact List.subset_append_right _ _
      | _ => cases hg
    exact List.Subset.trans hbody ih.1
  | function _ hb ih =>
    rw [sitesAlong, Node.sites, List.append_subset] at ih
    rw [← sites_of_statements hb]
    exact ih.1

/-- The first of the statements that a check comes to. -/
theorem Checks.sites_head {enclosing : Option Enclosing} {depth : Nat} {trail : Trail} {node : Node} {rest : List Node}
    (h : Checks program enclosing depth trail (node :: rest)) : node.sites trail ⊆ program.sites .start := by
  have hall := h.sites
  rw [sitesAlong, List.append_subset] at hall
  exact hall.1

theorem Infers.sites {depth : Nat} {trail : Trail} {node : Node} (h : Infers program depth trail node) :
    node.sites trail ⊆ program.sites .start := by
  induction h with
  | initializer h => simpa using h.sites_head
  | returned h => simpa using h.sites_head
  | displayed h => simpa using h.sites_head
  | assigned h =>
    have hnode := h.sites_head
    rw [Node.sites, List.cons_subset] at hnode
    exact hnode.2
  | @condition _ _ _ node _ _ _ h hg =>
    refine List.Subset.trans ?_ h.sites_head
    cases node with
    | ifStmt c b position =>
      cases hg
      rw [Node.sites]
      exact List.subset_append_left _ _
    | whileStmt c b position =>
      cases hg
      rw [Node.sites]
      exact List.subset_append_left _ _
    | _ => cases hg
  | operand _ ih => simpa using ih
  | first _ ih => exact List.Subset.trans (sites_spineOnto _ [] _).1 ih
  | right _ hj ih =>
    rcases (sites_spineOnto _ [] _).2 _ hj with hj | hj
    · cases hj
    · exact List.Subset.trans hj ih
  | argument _ ha ih =>
    rw [Node.sites, List.cons_subset] at ih
    exact List.Subset.trans (sites_subset_sitesIn ha _) ih.2

theorem Looks.mem_sites {trail : Trail} {name : String} {position : Option Position}
    (h : Looks program trail name position) : (position, trail) ∈ program.sites .start := by
  cases h with
  | read h => exact h.sites (by simp)
  | callee h => exact h.sites (by simp)
  | target h => exact h.sites_head (by simp)

end Typing

/-! ## Every site is a token of its own -/

/-- The places of the names among tokens. -/
def namePlaces (ts : List Token) : List (Option Position) := (ts.filter (·.kind = .name)).map Token.place

theorem namePlaces_append (ts us : List Token) : namePlaces (ts ++ us) = namePlaces ts ++ namePlaces us := by
  simp [namePlaces]

section

variable {ts us : List Token} {t : Token} {xs ys : List (Option Position)}

theorem namePlaces_name (h : xs <+ namePlaces ts) (ht : t.Stands .name) : t.place :: xs <+ namePlaces (t :: ts) := by
  rw [namePlaces, List.filter_cons_of_pos (by simpa using ht.kind rfl)]
  exact h.cons_cons _

theorem namePlaces_cons (h : xs <+ namePlaces ts) (t : Token) : xs <+ namePlaces (t :: ts) := by
  rw [← List.singleton_append, namePlaces_append]
  exact h.trans (List.sublist_append_right _ _)

theorem namePlaces_left (h : xs <+ namePlaces ts) (us : List Token) : xs <+ namePlaces (ts ++ us) := by
  rw [namePlaces_append]
  exact h.trans (List.sublist_append_left _ _)

theorem namePlaces_right (h : xs <+ namePlaces us) (ts : List Token) : xs <+ namePlaces (ts ++ us) := by
  rw [namePlaces_append]
  exact h.trans (List.sublist_append_right _ _)

theorem namePlaces_both (h : xs <+ namePlaces ts) (h' : ys <+ namePlaces us) : xs ++ ys <+ namePlaces (ts ++ us) := by
  rw [namePlaces_append]
  exact h.append h'

end

/-- The sites of what a phrase stands for. -/
def Parse.Phrase.sites (trail : Trail) (ns : List Node) : Phrase → List (Option Position × Trail)
  | .layer _ | .arguments | .block => sitesIn trail ns
  | .statement | .statements => sitesAlong trail ns

@[simp] theorem sitesIn_one (trail : Trail) (n : Node) : sitesIn trail [n] = n.sites trail := by
  simp

@[simp] theorem sitesAlong_one (trail : Trail) (n : Node) : sitesAlong trail [n] = n.sites trail := by
  simp

/-- The occurrences of names in a phrase are among its tokens, in order. -/
theorem Parse.Spells.sites {d : Nat} {p : Phrase} {ts : List Token} {ns : List Node} (h : Spells d p ts ns)
    (trail : Trail) : (p.sites trail ns).map Prod.fst <+ namePlaces ts := by
  induction h generalizing trail with
  | lift _ _ ih => exact ih trail
  | binary _ _ _ _ ihl ihr =>
    simp only [Phrase.sites, sitesIn_one, Node.sites, List.map_append] at ihl ihr ⊢
    exact namePlaces_both (ihl trail) (namePlaces_cons (ihr trail) _)
  | unary _ _ ih =>
    simp only [Phrase.sites, sitesIn_one, Node.sites] at ih ⊢
    exact namePlaces_cons (ih trail) _
  | literal => simp [Phrase.sites, Node.sites]
  | identifier ht =>
    simp only [Phrase.sites, sitesIn_one, Node.sites, List.map_cons, List.map_nil]
    exact namePlaces_name (List.nil_sublist _) ht
  | callPlain ht _ _ =>
    simp only [Phrase.sites, Node.sites, sitesIn]
    exact namePlaces_name (List.nil_sublist _) ht
  | callArgs ht _ _ _ ih =>
    simp only [Phrase.sites, sitesIn_one, Node.sites, List.map_cons] at ih ⊢
    exact namePlaces_name (namePlaces_cons (namePlaces_left (ih trail) _) _) ht
  | parens _ _ _ ih => exact namePlaces_cons (namePlaces_left (ih trail) _) _
  | argsOne _ ih => exact ih trail
  | argsMore _ _ _ ih ihs =>
    simp only [Phrase.sites, sitesIn_one] at ih ihs
    simp only [Phrase.sites, sitesIn, List.map_append]
    exact namePlaces_both (ih trail) (namePlaces_cons (ihs trail) _)
  | varDeclPlain => simp [Phrase.sites, Node.sites]
  | varDeclInit _ _ _ _ _ ih =>
    simp only [Phrase.sites, sitesIn_one, sitesAlong_one, Node.sites] at ih ⊢
    exact namePlaces_cons (namePlaces_cons (namePlaces_cons (namePlaces_left (ih trail) _) _) _) _
  | assignment hn _ _ _ ih =>
    simp only [Phrase.sites, sitesIn_one, sitesAlong_one, Node.sites, List.map_cons] at ih ⊢
    exact namePlaces_name (namePlaces_cons (namePlaces_left (ih trail) _) _) hn
  | returnPlain => simp [Phrase.sites, Node.sites]
  | returnValue _ _ _ ih =>
    simp only [Phrase.sites, sitesIn_one, sitesAlong_one, Node.sites] at ih ⊢
    exact namePlaces_cons (namePlaces_left (ih trail) _) _
  | display _ _ _ ih =>
    simp only [Phrase.sites, sitesIn_one, sitesAlong_one, Node.sites] at ih ⊢
    exact namePlaces_cons (namePlaces_left (ih trail) _) _
  | @guarded _ _ _ build _ _ n b _ hx _ _ ih ihb =>
    simp only [Phrase.sites, sitesIn_one, sitesAlong_one] at ih ihb ⊢
    have hsites : ∀ position, (build n b position).sites trail = n.sites trail ++ b.sites trail.push := by
      intro position
      unfold Parse.guardOf? at hx
      split at hx <;> cases hx <;> rw [Node.sites]
    rw [hsites, List.map_append]
    exact namePlaces_cons (namePlaces_both (ih trail) (ihb trail.push)) _
  | function _ _ _ _ _ _ ihb =>
    simp only [Phrase.sites, sitesIn_one, sitesAlong_one, Node.sites] at ihb ⊢
    exact namePlaces_cons (namePlaces_cons (namePlaces_right (namePlaces_cons (namePlaces_right (ihb _) _) _) _) _) _
  | one _ ih => exact ih trail
  | more _ _ ih ihs =>
    simp only [Phrase.sites, sitesAlong_one] at ih ihs
    simp only [Phrase.sites, sitesAlong, List.map_append]
    exact namePlaces_both (ih trail) (ihs _)
  | block _ _ _ _ ih =>
    simp only [Phrase.sites, sitesIn_one, Node.sites] at ih ⊢
    exact namePlaces_cons (namePlaces_cons (namePlaces_left (ih trail) _) _) _

theorem Token.place_injective {t u : Token} (h : t.place = u.place) : t.location = u.location := by
  simp only [place, location, Location.position, Json.nat, Option.some.injEq, Position.mk.injEq, Json.int.injEq,
    Int.ofNat_inj] at h
  simp [location, h.1, h.2]

/-- No two names of a text have the same place. -/
theorem nodup_namePlaces {source : String} {ts : List Token} (h : tokenize source = .ok ts) :
    (namePlaces ts).Nodup := by
  have hsub : ts.filter (·.kind = .name) <+ Token.ordinary ts := by
    refine List.monotone_filter_right ts fun t ht => ?_
    rw [of_decide_eq_true ht]
    rfl
  refine List.pairwise_map.mpr (((Token.tokenize_ordered h).sublist hsub).imp fun hb hp => ?_)
  exact hb.location_ne (Token.place_injective hp)

/-- No two occurrences of names in a parsed program have the same position. -/
theorem nodup_sites {frontend : Frontend} {depth : Nat} {source : String} {program : Node}
    (h : parseTo frontend depth source = .ok program) : ((program.sites .start).map Prod.fst).Nodup := by
  obtain ⟨tokens, body, d, htokens, -, rfl, hspell⟩ := parseTo_spells h
  refine (nodup_namePlaces htokens).sublist ?_
  obtain ⟨ts, last, rfl, -, ⟨-, rfl⟩ | hspell⟩ := hspell
  · simp
  · rw [Node.sites]
    exact namePlaces_left (hspell.sites .start) _

/-- What the checker has come by when it looks up the name at a position. -/
theorem Typing.Looks.unique {frontend : Frontend} {depth : Nat} {source : String} {program : Node}
    (hparse : parseTo frontend depth source = .ok program) {t t' : Trail} {name name' : String}
    {position : Option Position} (h : Looks program t name position) (h' : Looks program t' name' position) :
    t = t' := by
  have hsite := List.inj_on_of_nodup_map (nodup_sites hparse) h.mem_sites h'.mem_sites rfl
  exact (Prod.mk.inj hsite).2

end TillLang
