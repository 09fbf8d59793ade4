import DiceFormula.Proofs.Definite
import DiceFormula.Proofs.Explaining
import DiceFormula.Tree.Join

/-! Listings in order read back as tokens. A listing is always an expression, so that only the depth
limit can refuse it, and it gives the tree that was listed exactly when no operator of that tree
stands next to one of its own precedence on the side from which it is not read. -/
namespace DiceFormula

open Infix

def Literal.Definite : Literal → Prop
  | .number a => a.Definite
  | .faces values => ∀ a ∈ values, a.Definite

theorem Literal.Definite.same_self {content : Literal} (h : content.Definite) :
    content.same content = true := by
  cases content with
  | number a => exact Number.same_self h
  | faces values => exact Number.sameList_self h

namespace Tree

variable {t : Tree} {tokens : List Token}

theorem orZero_of_not_empty (hne : t.isEmpty = false) : t.orZero = t := by
  cases t with
  | empty => cases hne
  | leaf | node => rfl

theorem ofTokens_listed (hwf : t.WellFormed) (hne : t.isEmpty = false)
    (hlisted : tokens.map Token.symbol = listed 0 t) (source : Text) :
    ∃ place, ofTokens tokens source =
      if depthLimit < t.regrouped.depth then .error ⟨.tooDeep, place, source⟩
      else .ok t.regrouped := by
  have hclimbs := (writes_regrouped hwf hne 0).climbs_all
  rw [← hlisted] at hclimbs
  obtain ⟨place, htree⟩ := Build.tree_of_climbs hclimbs
  refine ⟨place, ?_⟩
  rw [ofTokens, htree]
  by_cases hdeep : depthLimit < t.regrouped.depth
  · rw [if_pos hdeep, if_pos hdeep]
  · rw [if_neg hdeep, if_neg hdeep]

/-- The listing of a tree, with every operator between its operands and parentheses only around what
binds more weakly, is read as that tree exactly when no operator of the tree stands next to one of
its own precedence on the wrong side. The empty tree counts as zero. -/
theorem ofTokens_inOrder_iff (t : Tree) (tokens : List Token) (source : Text) (hwf : t.WellFormed)
    (hdepth : t.depth ≤ depthLimit)
    (hliterals : ∀ content, .literal content ∈ t.symbols → content.Definite)
    (hlisted : tokens.map Token.symbol = (inOrder (fun _ => false) t).flatMap Item.symbols) :
    (∃ v, ofTokens tokens source = .ok v ∧ v.same t.orZero = true) ↔ t.Faithful := by
  cases hne : t.isEmpty with
  | true =>
    obtain rfl := eq_empty_of_isEmpty hne
    obtain rfl := List.map_eq_nil_iff.mp hlisted
    exact ⟨fun _ => trivial, fun _ => ⟨zero, rfl, rfl⟩⟩
  | false =>
    obtain ⟨place, hread⟩ := ofTokens_listed hwf hne hlisted source
    rw [hread, orZero_of_not_empty hne]
    constructor
    · rintro ⟨v, hv, hsame⟩
      split at hv
      · cases hv
      · cases hv
        exact faithful_of_same hsame
    · intro hfaithful
      have hsame := same_bare fun content hmem => (hliterals content hmem).same_self
      rw [regrouped_of_faithful hfaithful, depth_bare, if_neg (Nat.not_lt.mpr hdepth)]
      exact ⟨t.bare, rfl, hsame⟩

theorem ofTokens_inOrder_iff_product :
    (∃ v,
      ofTokens
          [⟨.operator .negate, 0⟩, ⟨.number (.int 2), 1⟩, ⟨.operator .power, 2⟩,
            ⟨.number (.int 3), 3⟩, ⟨.operator .power, 4⟩, ⟨.number (.int 2), 5⟩,
            ⟨.operator .multiply, 6⟩, ⟨.number (.int 2), 7⟩, ⟨.operator (.dice .plain), 8⟩,
            ⟨.literal (.faces Die.fudge), 9⟩] [] = .ok v ∧
        v.same
          (.node .multiply
            (.node .negate .empty
              (.node .power (.ofNumber (.int 2))
                (.node .power (.ofNumber (.int 3)) (.ofNumber (.int 2)) none) none) none)
            (.node (.dice .plain) (.ofNumber (.int 2)) (.leaf (.faces Die.fudge) none) none)
            none) = true) ∧
    ¬ ∃ v,
      ofTokens
          [⟨.opening, 0⟩, ⟨.number (.int 1), 1⟩, ⟨.operator .subtract, 2⟩, ⟨.number (.int 2), 3⟩,
            ⟨.operator .subtract, 4⟩, ⟨.number (.int 3), 5⟩, ⟨.closing, 6⟩,
            ⟨.operator .multiply, 7⟩, ⟨.number (.int 2), 8⟩] [] = .ok v ∧
        v.same
          (.node .multiply
            (.node .subtract (.ofNumber (.int 1))
              (.node .subtract (.ofNumber (.int 2)) (.ofNumber (.int 3)) none) none)
            (.ofNumber (.int 2)) none) = true := by
  constructor
  · refine (ofTokens_inOrder_iff
      (.node .multiply
        (.node .negate .empty
          (.node .power (.ofNumber (.int 2))
            (.node .power (.ofNumber (.int 3)) (.ofNumber (.int 2)) none) none) none)
        (.node (.dice .plain) (.ofNumber (.int 2)) (.leaf (.faces Die.fudge) none) none) none)
      _ _ (by decide) (by decide) ?_ rfl).mpr (by decide)
    intro content hmem
    simp only [ofNumber, symbols, List.mem_append, List.mem_cons, List.not_mem_nil,
      or_false, false_or, Symbol.literal.injEq, reduceCtorEq] at hmem
    rcases hmem with (rfl | rfl | rfl) | rfl | rfl
    case left.inr.inr =>
      intro a ha
      simp only [Die.fudge, List.mem_cons, List.not_mem_nil, or_false] at ha
      rcases ha with rfl | rfl | rfl <;> exact Number.definite_int _
    all_goals exact Number.definite_int _
  · refine (ofTokens_inOrder_iff
      (.node .multiply
        (.node .subtract (.ofNumber (.int 1))
          (.node .subtract (.ofNumber (.int 2)) (.ofNumber (.int 3)) none) none)
        (.ofNumber (.int 2)) none)
      _ _ (by decide) (by decide) ?_ rfl).not.mpr (by decide)
    intro content hmem
    simp only [ofNumber, symbols, List.mem_append, List.mem_cons, List.not_mem_nil,
      or_false, false_or, Symbol.literal.injEq, reduceCtorEq] at hmem
    rcases hmem with (rfl | rfl | rfl) | rfl <;> exact Number.definite_int _

end Tree

end DiceFormula
