import DiceFormula.Token.Scan

/-! Balanced marks, of texts as well as of symbols. -/
namespace DiceFormula

theorem forall_prefix_cons {α : Type} {P : List α → Prop} {a : α} {s : List α} :
    (∀ u, u <+: a :: s → P u) ↔ P [] ∧ ∀ u, u <+: s → P (a :: u) := by
  constructor
  · intro h
    exact ⟨h [] List.nil_prefix, fun u hu => h (a :: u) (List.cons_prefix_cons.mpr ⟨rfl, hu⟩)⟩
  · intro h u hu
    cases u with
    | nil => exact h.1
    | cons b u =>
      obtain ⟨rfl, hrest⟩ := List.cons_prefix_cons.mp hu
      exact h.2 u hrest

section Marks
variable {α : Type} [DecidableEq α]

/-- As many marks open as close, and in no prefix more close than open. -/
def Balanced (opening closing : α) (s : List α) : Prop :=
  s.count closing = s.count opening ∧ ∀ u, u <+: s → u.count closing ≤ u.count opening

def nested (opening closing : α) (opened : Nat) : List α → Bool
  | [] => opened == 0
  | a :: s =>
    if a = opening then nested opening closing (opened + 1) s
    else if a = closing then 0 < opened && nested opening closing (opened - 1) s
    else nested opening closing opened s

variable {opening closing : α}

theorem nested_iff (hne : opening ≠ closing) (s : List α) (opened : Nat) :
    nested opening closing opened s = true ↔
      s.count closing = opened + s.count opening ∧
        ∀ u, u <+: s → u.count closing ≤ opened + u.count opening := by
  induction s generalizing opened with
  | nil =>
    simp only [nested, beq_iff_eq, List.count_nil, Nat.add_zero, List.prefix_nil]
    constructor
    · rintro rfl
      exact ⟨rfl, by rintro u rfl; simp⟩
    · rintro ⟨h, -⟩
      exact h.symm
  | cons a s ih =>
    rw [forall_prefix_cons]
    by_cases ho : a = opening
    · subst ho
      simp only [nested, ↓reduceIte, ih, List.count_cons_self, List.count_cons_of_ne hne,
        List.count_nil]
      grind
    · by_cases hc : a = closing
      · subst hc
        simp only [nested, if_neg ho, ↓reduceIte, Bool.and_eq_true, decide_eq_true_eq, ih,
          List.count_cons_self, List.count_cons_of_ne ho, List.count_nil]
        constructor
        · rintro ⟨hpos, htotal, hprefix⟩
          exact ⟨by omega, by omega, fun u hu => by have := hprefix u hu; omega⟩
        · rintro ⟨htotal, -, hprefix⟩
          have hfirst := hprefix [] List.nil_prefix
          simp only [List.count_nil] at hfirst
          exact ⟨by omega, by omega, fun u hu => by have := hprefix u hu; omega⟩
      · simp only [nested, if_neg ho, if_neg hc, ih, List.count_cons_of_ne ho,
          List.count_cons_of_ne hc, List.count_nil]
        grind

theorem nested_append {s t : List α} (h : ∀ a ∈ s, a ≠ opening ∧ a ≠ closing) (opened : Nat) :
    nested opening closing opened (s ++ t) = nested opening closing opened t := by
  induction s with
  | nil => rfl
  | cons a s ih =>
    rw [List.forall_mem_cons] at h
    rw [List.cons_append, nested, if_neg h.1.1, if_neg h.1.2]
    exact ih h.2

theorem nested_zero_iff (hne : opening ≠ closing) (s : List α) :
    nested opening closing 0 s = true ↔ Balanced opening closing s := by
  simp [nested_iff hne, Balanced]

end Marks

namespace Scan

theorem openingByte_ne : openingByte ≠ closingByte := by decide

theorem matchParentheses_eq_ok_iff (t : Text) (opened : List Nat) (place : Nat) :
    matchParentheses opened place t = .ok () ↔
      nested openingByte closingByte opened.length t = true := by
  induction t generalizing opened place with
  | nil => cases opened <;> simp [matchParentheses, nested, List.getLast?_cons]
  | cons b t ih =>
    by_cases ho : b = openingByte
    · simp [matchParentheses, nested, ho, ih]
    · by_cases hc : b = closingByte
      · cases opened <;> simp [matchParentheses, nested, hc, openingByte_ne.symm, ih]
      · simp [matchParentheses, nested, ho, hc, ih]

end Scan

end DiceFormula
