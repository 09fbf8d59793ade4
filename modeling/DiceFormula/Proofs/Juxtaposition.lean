import DiceFormula.Proofs.Building
import DiceFormula.Proofs.Parentheses
import DiceFormula.Proofs.Stacks
import Mathlib.Data.List.Chain

/-! Which formulas are accepted although they are no infix expressions. Building only counts
operands, so an operator may stand on the wrong side of them. Where no operand begins directly after
another one has ended, the count leaves room for infix expressions alone. -/
namespace DiceFormula

namespace Infix

def beginsOperand : Symbol → Bool
  | .literal _ | .opening => true
  | .closing => false
  | .operator op => !op.takesLeft

def endsOperand : Symbol → Bool
  | .literal _ | .closing => true
  | .opening => false
  | .operator op => !op.takesRight

/-- No operand begins directly after another one has ended. -/
abbrev Separate (s : List Symbol) : Prop := s.IsChain fun a b => ¬ (endsOperand a ∧ beginsOperand b)

def fits (due : Bool) : List Symbol → Bool
  | [] => !due
  | a :: s => due == beginsOperand a && fits (!endsOperand a) s

theorem completes_eq (due : Bool) (opened : Nat) (s : List Symbol) :
    completes due opened s = (fits due s && nested .opening .closing opened s) := by
  induction s generalizing due opened with
  | nil => rfl
  | cons a s ih =>
    cases a with
    | literal => simp [completes, fits, nested, beginsOperand, endsOperand, ih, Bool.and_assoc]
    | operator op => simp [completes, fits, nested, beginsOperand, endsOperand, ih, Bool.and_assoc]
    | opening => simp [completes, fits, nested, beginsOperand, endsOperand, ih, Bool.and_assoc]
    | closing =>
      simp only [completes, fits, nested, beginsOperand, endsOperand, ih]
      grind

def weight : Symbol → Int
  | .literal _ => 1
  | .operator op => 1 - op.takesLeft.toNat - op.takesRight.toNat
  | _ => 0

def surplus : List Symbol → Int
  | [] => 0
  | a :: s => weight a + surplus s

theorem weight_eq (a : Symbol) :
    weight a = (beginsOperand a).toNat + (endsOperand a).toNat - 1 := by
  cases a with
  | operator op =>
    cases hl : op.takesLeft <;> cases hr : op.takesRight <;>
      simp [weight, beginsOperand, endsOperand, hl, hr]
  | _ => rfl

/-- Separate operands never outnumber the places for them, and they fill all places only in infix
order. -/
theorem surplus_le (s : List Symbol) (due : Bool) (hs : Separate s)
    (hfirst : ∀ a ∈ s.head?, due = false → beginsOperand a = false) :
    surplus s + (!due).toNat ≤ 1 ∧ (surplus s + (!due).toNat = 1 → fits due s = true) := by
  induction s generalizing due with
  | nil => cases due <;> simp [surplus, fits]
  | cons a s ih =>
    have hnext : ∀ b ∈ s.head?, (!endsOperand a) = false → beginsOperand b = false := by
      intro b hb hends
      cases s with
      | nil => cases hb
      | cons c s =>
        cases hb
        have hab := (List.isChain_cons_cons.mp hs).1
        have ha : endsOperand a = true := by simpa using hends
        simpa [ha] using hab
    obtain ⟨hle, heq⟩ := ih (!endsOperand a) hs.of_cons hnext
    rw [surplus, weight_eq]
    rw [Bool.not_not] at hle heq
    have hdue := hfirst a rfl
    cases due with
    | false =>
      have hb := hdue rfl
      simp only [fits, hb, Bool.not_false, Bool.toNat_true, Bool.toNat_false, beq_self_eq_true,
        Bool.true_and]
      exact ⟨by omega, fun h => heq (by omega)⟩
    | true =>
      cases hb : beginsOperand a with
      | false =>
        simp only [Bool.not_true, Bool.toNat_false]
        exact ⟨by omega, fun h => by omega⟩
      | true =>
        simp only [fits, hb, Bool.not_true, Bool.toNat_true, Bool.toNat_false, beq_self_eq_true,
          Bool.true_and]
        exact ⟨by omega, fun h => heq (by omega)⟩

theorem separate_of_fits (due : Bool) (s : List Symbol) (h : fits due s = true) :
    Separate s ∧ ∀ a ∈ s.head?, due = beginsOperand a := by
  induction s generalizing due with
  | nil => exact ⟨.nil, by simp⟩
  | cons a s ih =>
    simp only [fits, Bool.and_eq_true, beq_iff_eq] at h
    obtain ⟨hs, hfirst⟩ := ih _ h.2
    refine ⟨?_, by simpa using h.1⟩
    cases s with
    | nil => exact .singleton a
    | cons b s =>
      refine List.isChain_cons_cons.mpr ⟨?_, hs⟩
      have hb := hfirst b rfl
      simp [← hb]

theorem Phrase.exists_literal {part : Part} {s : List Symbol} (h : Phrase part s) :
    ∃ content, Symbol.literal content ∈ s := by
  induction h with
  | literal content => exact ⟨content, by simp⟩
  | group _ ih | single _ ih =>
    obtain ⟨content, hcontent⟩ := ih
    exact ⟨content, by simp [hcontent]⟩
  | operand _ _ _ ih | joined _ _ _ ih =>
    obtain ⟨content, hcontent⟩ := ih
    exact ⟨content, by simp [hcontent]⟩

end Infix

namespace Build
open Infix

def Pending.surplus : List Pending → Int
  | [] => 0
  | .operator op _ :: pending => Infix.weight (.operator op) + surplus pending
  | .opening _ :: pending => surplus pending

def Pending.isOpening : Pending → Bool
  | .operator _ _ => false
  | .opening _ => true

def Stacks.surplus (s : Stacks) : Int := s.operands.length + Pending.surplus s.pending

def Stacks.opened (s : Stacks) : Nat := s.pending.countP Pending.isOpening

theorem Reduces.surplus_eq {s s' : Stacks} (h : Reduces s s') : s'.surplus = s.surplus := by
  induction h with
  | refl => rfl
  | step hr _ ih =>
    obtain ⟨a, rest, rfl, hlength⟩ := reduce_cons hr
    rw [ih]
    simp only [Stacks.surplus, Pending.surplus, weight, List.length_cons]
    omega

theorem Reduces.opened_eq {s s' : Stacks} (h : Reduces s s') : s'.opened = s.opened := by
  induction h with
  | refl => rfl
  | step _ _ ih => simpa [Stacks.opened, Pending.isOpening] using ih

theorem Reduces.operands_ne_nil {s s' : Stacks} (h : Reduces s s') (hs : s.operands ≠ []) :
    s'.operands ≠ [] := by
  induction h with
  | refl => exact hs
  | step hr _ ih =>
    obtain ⟨a, rest, rfl, -⟩ := reduce_cons hr
    exact ih (List.cons_ne_nil a rest)

theorem run_cons {s : Stacks} {token : Token} {tokens : List Token} {operands : List Operand}
    (h : run s (token :: tokens) = .ok operands) :
    ∃ s', step s token = .ok s' ∧ run s' tokens = .ok operands := by
  unfold run steps at h
  cases hs : step s token with
  | error e => rw [hs] at h; cases h
  | ok s' =>
    rw [hs] at h
    exact ⟨s', rfl, h⟩

theorem step_counts {token : Token} {s s' : Stacks} (h : step s token = .ok s') :
    s'.surplus = s.surplus + weight token.symbol ∧
      (∀ rest, nested .opening .closing s.opened (token.symbol :: rest) =
        nested .opening .closing s'.opened rest) ∧
      (s.operands ≠ [] ∨ (∃ content, token.symbol = .literal content) → s'.operands ≠ []) := by
  rcases step_cases h with ⟨content, hsymbol, rfl⟩ | ⟨hsymbol, rfl⟩ | ⟨hsymbol, place, hr⟩ |
    ⟨op, u, hsymbol, hr, rfl⟩
  · rw [hsymbol]
    refine ⟨?_, fun rest => rfl, fun _ => List.cons_ne_nil _ _⟩
    simp only [Stacks.surplus, List.length_cons, weight]
    omega
  · rw [hsymbol]
    refine ⟨?_, fun rest => ?_, fun hs => ?_⟩
    · simp only [Stacks.surplus, Pending.surplus, weight]
      omega
    · simp [nested, Stacks.opened, Pending.isOpening, List.countP_cons]
    · simpa using hs
  · rw [hsymbol]
    have hsurplus := hr.surplus_eq
    have hopened := hr.opened_eq
    simp only [Stacks.surplus, Stacks.opened, Pending.surplus, List.countP_cons, Pending.isOpening,
      ↓reduceIte] at hsurplus hopened ⊢
    refine ⟨?_, fun rest => ?_, fun hs => ?_⟩
    · simp only [weight]
      omega
    · simp [nested, ← hopened]
    · exact hr.operands_ne_nil (by simpa using hs)
  · rw [hsymbol]
    have hsurplus := hr.surplus_eq
    have hopened := hr.opened_eq
    refine ⟨?_, fun rest => ?_, fun hs => ?_⟩
    · simp only [Stacks.surplus, Pending.surplus] at hsurplus ⊢
      omega
    · rw [← hopened]
      simp [nested, Stacks.opened, Pending.isOpening]
    · exact hr.operands_ne_nil (by simpa using hs)

theorem run_counts {tokens : List Token} {s : Stacks} {operands : List Operand}
    (h : run s tokens = .ok operands) :
    (operands.length : Int) = s.surplus + Infix.surplus (tokens.map Token.symbol) ∧
      nested .opening .closing s.opened (tokens.map Token.symbol) = true ∧
      (s.operands ≠ [] ∨ (∃ content, .literal content ∈ tokens.map Token.symbol) →
        operands ≠ []) := by
  induction tokens generalizing s with
  | nil =>
    have hr := reduces_of_finish (show finish s.pending s.operands = .ok operands from h)
    have hsurplus := hr.surplus_eq
    have hopened := hr.opened_eq
    simp only [Stacks.surplus, Stacks.opened, Pending.surplus, List.countP_nil] at hsurplus hopened
    refine ⟨by simpa [Stacks.surplus, Infix.surplus] using hsurplus, ?_, fun hs => ?_⟩
    · simp [nested, Stacks.opened, ← hopened]
    · exact hr.operands_ne_nil (by simpa using hs)
  | cons token tokens ih =>
    obtain ⟨s', hstep, hrun⟩ := run_cons h
    obtain ⟨hlength, hnested, hkept⟩ := ih hrun
    obtain ⟨hsurplus, hopened, hoperands⟩ := step_counts hstep
    rw [List.map_cons, Infix.surplus]
    refine ⟨by omega, (hopened _).trans hnested, ?_⟩
    rintro (hs | ⟨content, hmem⟩)
    · exact hkept (.inl (hoperands (.inl hs)))
    · rcases List.mem_cons.mp hmem with hfirst | hrest
      · exact hkept (.inl (hoperands (.inr ⟨content, hfirst.symm⟩)))
      · exact hkept (.inr ⟨content, hrest⟩)

theorem surplus_of_tree {tokens : List Token} {t : Tree} (h : tree tokens = .ok t)
    (hliteral : ∃ content, .literal content ∈ tokens.map Token.symbol) :
    Infix.surplus (tokens.map Token.symbol) = 1 ∧
      nested .opening .closing 0 (tokens.map Token.symbol) = true := by
  obtain ⟨operands, hrun, hsingle⟩ := exists_run_of_tree h
  obtain ⟨hlength, hnested, hkept⟩ := run_counts hrun
  obtain ⟨rfl, -⟩ | ⟨a, rfl, -⟩ := single_cases hsingle
  · exact absurd rfl (hkept (.inr hliteral))
  · simp only [Stacks.surplus, Pending.surplus, List.length_nil, List.length_singleton] at hlength
    exact ⟨by omega, hnested⟩

theorem isExpression_iff_of_tree {tokens : List Token} {t : Tree} (h : tree tokens = .ok t) :
    IsExpression (tokens.map Token.symbol) ↔
      (∃ content, .literal content ∈ tokens.map Token.symbol) ∧
      Separate (tokens.map Token.symbol) := by
  rw [isExpression_iff_completes, completes_eq, Bool.and_eq_true]
  constructor
  · rintro ⟨hfits, hnested⟩
    refine ⟨?_, (separate_of_fits true _ hfits).1⟩
    refine (isExpression_iff_completes.mpr ?_).exists_literal
    rw [completes_eq, hfits, hnested]
    rfl
  · rintro ⟨hliteral, hseparate⟩
    obtain ⟨hsurplus, hnested⟩ := surplus_of_tree h hliteral
    have hle := surplus_le _ true hseparate (by simp)
    exact ⟨hle.2 (by simp [hsurplus]), hnested⟩

theorem symbols_of_tree {tokens : List Token} {t : Tree} (h : tree tokens = .ok t)
    (hexpression : IsExpression (tokens.map Token.symbol)) :
    t.symbols = ungrouped (tokens.map Token.symbol) := by
  obtain ⟨u, hu⟩ := exists_climbs_of_completes hexpression.completes
  obtain ⟨place, htree⟩ := tree_of_climbs hu
  rw [h] at htree
  split at htree
  · cases htree
  · cases htree
    exact hu.isExpression.2

end Build

open Infix

/-- An accepted formula is an infix expression exactly when it names a literal and nowhere an
operand begins directly after another one has ended. Then its tree, read in order, is the formula
without parentheses. -/
theorem ofText_isExpression_iff {source : Text} {tokens : List Token} {t : Tree}
    (htokens : Token.ofText source = .ok tokens) (htree : Tree.ofText source = .ok t) :
    (IsExpression (tokens.map Token.symbol) ↔
      (∃ content, .literal content ∈ tokens.map Token.symbol) ∧
      Separate (tokens.map Token.symbol)) ∧
    (IsExpression (tokens.map Token.symbol) →
      t.symbols = ungrouped (tokens.map Token.symbol)) := by
  have hbuilt : Build.tree tokens = .ok t := by
    simp only [Tree.ofText, htokens, bind, Except.bind, Tree.ofTokens] at htree
    split at htree
    · next hbuilt =>
      cases htree
      exact hbuilt
    · cases htree
  exact ⟨Build.isExpression_iff_of_tree hbuilt, Build.symbols_of_tree hbuilt⟩

theorem ofText_isExpression_iff_grouped :
    IsExpression [.operator .negate, .opening, .number (.int 2), .operator .add,
      .number (.int 3), .closing,
      .operator .factorial] ∧
    (Tree.node .negate .empty
      (.node .factorial (.node .add (.ofNumber (.int 2)) (.ofNumber (.int 3)) none)
      .empty none) none).symbols =
      [.operator .negate, .number (.int 2), .operator .add, .number (.int 3),
        .operator .factorial] := by
  have h := @ofText_isExpression_iff (ascii ['-', '(', '2', '+', '3', ')', '!'])
    [⟨.operator .negate, 0⟩, ⟨.opening, 1⟩, ⟨.number (.int 2), 2⟩, ⟨.operator .add, 3⟩,
      ⟨.number (.int 3), 4⟩, ⟨.closing, 5⟩, ⟨.operator .factorial, 6⟩]
    (.node .negate .empty
      (.node .factorial (.node .add (.ofNumber (.int 2)) (.ofNumber (.int 3)) none)
      .empty none) none) (by decide +kernel) (by decide +kernel)
  have hexpression := h.1.mpr ⟨⟨.number (.int 2), by decide⟩, by decide⟩
  exact ⟨hexpression, h.2 hexpression⟩

/-- An operator behind both its operands is accepted, and so is a postfix operator before its
operand. -/
theorem ofText_misplaced_operator :
    (Token.ofText (ascii ['2', ' ', '3', ' ', '+']) =
        .ok [⟨.number (.int 2), 0⟩, ⟨.number (.int 3), 2⟩, ⟨.operator .add, 4⟩] ∧
      Tree.ofText (ascii ['2', ' ', '3', ' ', '+']) =
        .ok (.node .add (.ofNumber (.int 2)) (.ofNumber (.int 3)) none) ∧
      ¬ IsExpression [.number (.int 2), .number (.int 3), .operator .add]) ∧
    (Token.ofText (ascii ['!', '6']) = .ok [⟨.operator .factorial, 0⟩, ⟨.number (.int 6), 1⟩] ∧
      Tree.ofText (ascii ['!', '6']) = .ok (.node .factorial (.ofNumber (.int 6)) .empty none) ∧
      ¬ IsExpression [.operator .factorial, .number (.int 6)]) := by
  decide +kernel

end DiceFormula
