import DiceFormula.Token.Basic

/-! Infix notation over the operator table. An expression is recognised from left to right by
knowing only whether an operand is due and how many groups are open. -/
namespace DiceFormula.Infix

inductive Part
  | primary
  | operand
  | expression

/-- A primary is a literal or a group. Prefix operators before and postfix operators behind a
primary make an operand, and binary operators between operands make an expression. -/
inductive Phrase : Part → List Symbol → Prop
  | literal (content : Literal) : Phrase .primary [.literal content]
  | group {s : List Symbol} : Phrase .expression s → Phrase .primary (.opening :: s ++ [.closing])
  | operand {before after : List Operator} {s : List Symbol}
      (hbefore : ∀ op ∈ before, op.arity = .right) (hafter : ∀ op ∈ after, op.arity = .left) :
      Phrase .primary s → Phrase .operand (before.map .operator ++ s ++ after.map .operator)
  | single {s : List Symbol} : Phrase .operand s → Phrase .expression s
  | joined {s u : List Symbol} {op : Operator} : Phrase .expression s → op.arity = .both →
      Phrase .operand u → Phrase .expression (s ++ .operator op :: u)

abbrev IsExpression (s : List Symbol) : Prop := Phrase .expression s

theorem arity_cases (op : Operator) : op.arity = .right ∨ op.arity = .left ∨ op.arity = .both := by
  cases op <;> simp [Operator.arity]

theorem takes_of_arity_right {op : Operator} (h : op.arity = .right) :
    op.takesLeft = false ∧ op.takesRight = true := by
  simp [Operator.takesLeft, Operator.takesRight, h, Sides.hasLeft, Sides.hasRight]

theorem takes_of_arity_left {op : Operator} (h : op.arity = .left) :
    op.takesLeft = true ∧ op.takesRight = false := by
  simp [Operator.takesLeft, Operator.takesRight, h, Sides.hasLeft, Sides.hasRight]

theorem takes_of_arity_both {op : Operator} (h : op.arity = .both) :
    op.takesLeft = true ∧ op.takesRight = true := by
  simp [Operator.takesLeft, Operator.takesRight, h, Sides.hasLeft, Sides.hasRight]

theorem Phrase.operand_of_primary {s : List Symbol} (h : Phrase .primary s) :
    Phrase .operand s := by
  have hs := @Phrase.operand [] [] s (by simp) (by simp) h
  simpa using hs

theorem Phrase.expression_of_primary {s : List Symbol} (h : Phrase .primary s) : IsExpression s :=
  .single h.operand_of_primary

theorem Phrase.operand_postfixed {s : List Symbol} {op : Operator} (hop : op.arity = .left)
    (h : Phrase .operand s) : Phrase .operand (s ++ [.operator op]) := by
  cases h with
  | @operand before after s hbefore hafter inner =>
    have hall : ∀ o ∈ after ++ [op], o.arity = .left := by
      intro o ho
      rcases List.mem_append.mp ho with ho | ho
      · exact hafter o ho
      · exact List.mem_singleton.mp ho ▸ hop
    simpa using Phrase.operand hbefore hall inner

theorem Phrase.operand_prefixed {s : List Symbol} {op : Operator} (hop : op.arity = .right)
    (h : Phrase .operand s) : Phrase .operand (.operator op :: s) := by
  cases h with
  | @operand before after s hbefore hafter inner =>
    have hall : ∀ o ∈ op :: before, o.arity = .right := by
      intro o ho
      rcases List.mem_cons.mp ho with ho | ho
      · exact ho ▸ hop
      · exact hbefore o ho
    simpa using Phrase.operand hall hafter inner

theorem IsExpression.prefixed {op : Operator} (hop : op.arity = .right) {s : List Symbol}
    (h : IsExpression s) : IsExpression (.operator op :: s) := by
  unfold IsExpression at h
  generalize hp : Part.expression = part at h
  induction h with
  | literal | group | operand => cases hp
  | single inner => exact .single (inner.operand_prefixed hop)
  | joined _ hop' inner ih => exact .joined (ih rfl) hop' inner

theorem IsExpression.postfixed {op : Operator} (hop : op.arity = .left) {s : List Symbol}
    (h : IsExpression s) : IsExpression (s ++ [.operator op]) := by
  cases h with
  | single inner => exact .single (inner.operand_postfixed hop)
  | joined left hop' inner =>
    simpa using Phrase.joined left hop' (inner.operand_postfixed hop)

theorem IsExpression.append {op : Operator} (hop : op.arity = .both) {s u : List Symbol}
    (hs : IsExpression s) (hu : IsExpression u) : IsExpression (s ++ .operator op :: u) := by
  unfold IsExpression at hu
  generalize hp : Part.expression = part at hu
  induction hu with
  | literal | group | operand => cases hp
  | single inner => exact .joined hs hop inner
  | joined _ hop' inner ih => simpa using Phrase.joined (ih rfl) hop' inner

def completes (due : Bool) (opened : Nat) : List Symbol → Bool
  | [] => !due && opened == 0
  | .literal _ :: rest => due && completes false opened rest
  | .opening :: rest => due && completes true (opened + 1) rest
  | .closing :: rest => !due && 0 < opened && completes false (opened - 1) rest
  | .operator op :: rest => due == !op.takesLeft && completes op.takesRight opened rest

theorem completes_prefixed {before : List Operator} (h : ∀ op ∈ before, op.arity = .right)
    (opened : Nat) (s : List Symbol) :
    completes true opened (before.map .operator ++ s) = completes true opened s := by
  induction before with
  | nil => rfl
  | cons op before ih =>
    have ht := takes_of_arity_right (h op List.mem_cons_self)
    simpa [completes, ht.1, ht.2] using ih fun o ho => h o (List.mem_cons_of_mem _ ho)

theorem completes_postfixed {after : List Operator} (h : ∀ op ∈ after, op.arity = .left)
    (opened : Nat) (s : List Symbol) :
    completes false opened (after.map .operator ++ s) = completes false opened s := by
  induction after with
  | nil => rfl
  | cons op after ih =>
    have ht := takes_of_arity_left (h op List.mem_cons_self)
    simpa [completes, ht.1, ht.2] using ih fun o ho => h o (List.mem_cons_of_mem _ ho)

theorem Phrase.completes_append {part : Part} {s : List Symbol} (h : Phrase part s) :
    ∀ (opened : Nat) (rest : List Symbol),
      completes true opened (s ++ rest) = completes false opened rest := by
  induction h with
  | literal => intro opened rest; simp [completes]
  | group _ ih =>
    intro opened rest
    have hi := ih (opened + 1) (.closing :: rest)
    simpa [completes] using hi
  | operand hbefore hafter _ ih =>
    intro opened rest
    rw [List.append_assoc, List.append_assoc, completes_prefixed hbefore, ih,
      completes_postfixed hafter]
  | single _ ih => exact ih
  | joined _ hop _ ihs ihu =>
    intro opened rest
    have ht := takes_of_arity_both hop
    rw [List.append_assoc, ihs]
    simp [completes, ht.1, ht.2, ihu]

theorem IsExpression.completes {s : List Symbol} (h : IsExpression s) :
    completes true 0 s = true := by
  have hs := h.completes_append 0 []
  simpa [Infix.completes] using hs

end DiceFormula.Infix
