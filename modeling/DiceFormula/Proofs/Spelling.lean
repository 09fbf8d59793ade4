import DiceFormula.Proofs.Faces
import DiceFormula.Proofs.Munch

/-! What lexemes look like and where they may stand: their spelling, what has to stand directly
before them, and how far they are read. -/
namespace DiceFormula

namespace Operator

theorem not_of_isCodeByte {b : UInt8} (h : isCodeByte b = true) :
    Text.isDigit b = false ∧ Text.isBlank b = false ∧ Scan.isParenthesis b = false ∧
      b ≠ Scan.facesByte ∧ b ≠ Scan.fudgeByte := by
  obtain ⟨op, -, hmem⟩ := isCodeByte_iff.mp h
  have hall : ∀ op ∈ all, op.code.all (fun b => !Text.isDigit b && !Text.isBlank b &&
      !Scan.isParenthesis b && b != Scan.facesByte && b != Scan.fudgeByte) = true := by decide
  have hclass := List.all_eq_true.mp (hall op (mem_all op)) b hmem
  simpa [and_assoc] using hclass

theorem not_plusOrMinus_of_mem {op : Operator} (h : op.isPlusOrMinus = false) {b : UInt8}
    (hb : b ∈ op.code) : ¬ (b = Scan.plusByte ∨ b = Scan.minusByte) := by
  have hall : ∀ op ∈ all, op.isPlusOrMinus = false →
      op.code.all (fun b => b != Scan.plusByte && b != Scan.minusByte) = true := by decide
  have hclass := List.all_eq_true.mp (hall op (mem_all op) h) b hb
  simpa using hclass

end Operator

namespace Scan

/-- The symbols that a lexeme can stand for. A plus and a minus can each stand for two. -/
inductive Spells : Text → Symbol → Prop
  | number {digits : Text} : digits ≠ [] → (∀ b ∈ digits, Text.isDigit b = true) →
      (Text.value digits : Int) ≤ Word.greatest →
      Spells digits (.literal (.number (.int (Text.value digits))))
  | code {op : Operator} : op.typeable = true → op.isPlusOrMinus = false →
      Spells op.code (.operator op)
  | plus {op : Operator} : op = .add ∨ op = .affirm → Spells [plusByte] (.operator op)
  | minus {op : Operator} : op = .subtract ∨ op = .negate → Spells [minusByte] (.operator op)
  | opening : Spells [openingByte] .opening
  | closing : Spells [closingByte] .closing
  | faces {items : List Text} {values : Faces} : items ≠ [] → Reads items values →
      Spells (facesByte :: (Text.joined [commaByte] items ++ [facesEndByte]))
        (.literal (.faces values))
  | fudge : Spells [fudgeByte] (.literal (.faces Die.fudge))

/-- Faces follow dice, signs are where an operand is due, and a parenthesis agrees with the operator
before it. -/
def MayFollow (previous : Option Symbol) : Symbol → Prop
  | .literal (.number _) => True
  | .literal (.faces _) => followsDice previous = true
  | .operator op => op.isPlusOrMinus = true → (op.isSign = true ↔ operandDue previous = true)
  | .opening => ∀ op, previous = some (.operator op) → op.takesRight = true
  | .closing => ∀ op, previous = some (.operator op) → op.takesRight = false

def InOrder (previous : Option Symbol) : List Symbol → Prop
  | [] => True
  | symbol :: s => MayFollow previous symbol ∧ InOrder (some symbol) s

/-- A number and a code, other than a plus and a minus, are read as far as they go. -/
def EndsBefore (after : Text) : Symbol → Prop
  | .literal (.number _) => ∀ b ∈ after.head?, Text.isDigit b = false
  | .operator op => op.isPlusOrMinus = false →
      ∀ b ∈ after.head?, Operator.beginsCode (op.code ++ [b]) = false
  | _ => True

structure Leads (previous : Option Symbol) (run after : Text) (symbol : Symbol) : Prop where
  spells : Spells run symbol
  follows : MayFollow previous symbol
  ends : EndsBefore after symbol

variable {run after : Text} {symbol : Symbol} {previous : Option Symbol} {place extra : Nat}
  {b : UInt8} {rest : Text}

theorem Spells.ne_nil (h : Spells run symbol) : run ≠ [] := by
  cases h with
  | number hne => exact hne
  | code => exact Operator.code_ne_nil _
  | _ => simp

theorem Spells.isDigit {a : Number} (h : Spells run (.number a)) :
    ∀ b ∈ run, Text.isDigit b = true := by
  unfold Symbol.number at h
  cases h with
  | number _ hdigits => exact hdigits

theorem Spells.faces_ne_nil {values : Faces} (h : Spells run (.literal (.faces values))) :
    values ≠ [] := by
  cases h with
  | faces hne hreads =>
    cases hreads with
    | nil => exact absurd rfl hne
    | cons => simp
  | fudge => decide

theorem isDigit_of_isBlank (h : Text.isBlank b = true) : Text.isDigit b = false := by
  simp only [Text.isDigit, Text.isBlank] at *
  grind

theorem Spells.number_of_digit (h : Spells run symbol)
    (hb : b ∈ run.head? ∨ b ∈ run.getLast?) (hdigit : Text.isDigit b = true) :
    ∃ a, symbol = .number a := by
  cases h with
  | number => exact ⟨_, rfl⟩
  | code htypeable =>
    have hmem := hb.elim List.mem_of_mem_head? List.mem_of_mem_getLast?
    have hno := (Operator.not_of_isCodeByte (Operator.isCodeByte_iff.mpr ⟨_, htypeable, hmem⟩)).1
    rw [hdigit] at hno
    cases hno
  | @faces items values =>
    have hlast : (facesByte :: (Text.joined [commaByte] items ++ [facesEndByte])).getLast? =
        some facesEndByte := by
      rw [← List.cons_append, List.getLast?_concat]
    rw [hlast, List.head?_cons] at hb
    rcases hb with hb | hb
    · cases hb
      cases hdigit
    · cases hb
      cases hdigit
  | _ =>
    simp only [List.head?_cons, List.getLast?_singleton, or_self] at hb
    cases hb
    cases hdigit

theorem Spells.operator_of_isCodeByte (h : Spells run symbol) (hb : b ∈ run.head?)
    (hcode : Operator.isCodeByte b = true) : ∃ op, symbol = .operator op := by
  cases h with
  | number _ hdigits =>
    have hno := (Operator.not_of_isCodeByte hcode).1
    rw [hdigits b (List.mem_of_mem_head? hb)] at hno
    cases hno
  | code | plus | minus => exact ⟨_, rfl⟩
  | _ =>
    rw [List.head?_cons] at hb
    cases hb
    exact absurd hcode (by decide)

theorem Spells.not_parenthesis (h : Spells run symbol) (ho : symbol ≠ .opening)
    (hc : symbol ≠ .closing) : ∀ b ∈ run, isParenthesis b = false := by
  intro b hb
  cases h with
  | number _ hdigits =>
    have hdigit := hdigits b hb
    simp only [Text.isDigit] at hdigit
    have hopening : openingByte = 40 := rfl
    have hclosing : closingByte = 41 := rfl
    simp only [isParenthesis]
    grind
  | code htypeable =>
    exact (Operator.not_of_isCodeByte (Operator.isCodeByte_iff.mpr ⟨_, htypeable, hb⟩)).2.2.1
  | opening => exact absurd rfl ho
  | closing => exact absurd rfl hc
  | faces _ hreads =>
    rw [List.mem_cons, List.mem_append, List.mem_singleton] at hb
    rcases hb with rfl | hb | rfl
    · decide
    · have hno := hreads.bytes_joined b hb
      simpa using fun h => hno (.inr h)
    · decide
  | _ =>
    rw [List.mem_singleton] at hb
    rw [hb]
    decide

end Scan

end DiceFormula
