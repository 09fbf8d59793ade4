import DiceFormula.Proofs.Juxtaposition

/-! What a built tree is made of. On their way through the stacks literals keep their order and
operators their number, and none is lost or made up, also where the tokens are no infix expression.
-/
namespace DiceFormula

namespace Symbol

def literal? : Symbol → Option Literal
  | .literal content => some content
  | _ => none

def operator? : Symbol → Option Operator
  | .operator op => some op
  | _ => none

end Symbol

namespace Tree

def literals : Tree → List Literal
  | .empty => []
  | .leaf content _ => [content]
  | .node _ left right _ => left.literals ++ right.literals

def operators : Tree → List Operator
  | .empty => []
  | .leaf _ _ => []
  | .node op left right _ => op :: (left.operators ++ right.operators)

theorem WellFormed.literals_ne_nil {t : Tree} (h : t.WellFormed) (hne : t.isEmpty = false) :
    t.literals ≠ [] := by
  induction t with
  | empty => cases hne
  | leaf content known => exact List.cons_ne_nil content []
  | node op left right known ihleft ihright =>
    obtain ⟨hfits, hleft, hright⟩ := h
    rw [fits, Bool.and_eq_true, beq_iff_eq, beq_iff_eq] at hfits
    have hsides : left.isEmpty = false ∨ right.isEmpty = false := by
      obtain harity | harity | harity := Infix.arity_cases op
      · rw [(Infix.takes_of_arity_right harity).2] at hfits
        exact .inr ((Bool.not_eq_true' _).mp hfits.2.symm)
      · rw [(Infix.takes_of_arity_left harity).1] at hfits
        exact .inl ((Bool.not_eq_true' _).mp hfits.1.symm)
      · rw [(Infix.takes_of_arity_both harity).1] at hfits
        exact .inl ((Bool.not_eq_true' _).mp hfits.1.symm)
    obtain hside | hside := hsides
    · exact List.append_ne_nil_of_left_ne_nil (ihleft hleft hside) _
    · exact List.append_ne_nil_of_right_ne_nil _ (ihright hright hside)

end Tree

namespace Build

def Pending.operator? : Pending → Option Operator
  | .operator op _ => some op
  | .opening _ => none

def literalsOf (operands : List Operand) : List Literal :=
  operands.reverse.flatMap fun a => a.tree.literals

def operatorsOf (operands : List Operand) : List Operator :=
  operands.flatMap fun a => a.tree.operators

def Stacks.operators (s : Stacks) : List Operator :=
  s.pending.filterMap Pending.operator? ++ operatorsOf s.operands

variable {s s' : Stacks} {op : Operator} {place : Nat} {taken operands : List Operand} {a : Operand}

@[simp] theorem literalsOf_cons (a : Operand) (operands : List Operand) :
    literalsOf (a :: operands) = literalsOf operands ++ a.tree.literals := by
  simp [literalsOf]

@[simp] theorem literalsOf_append (taken rest : List Operand) :
    literalsOf (taken ++ rest) = literalsOf rest ++ literalsOf taken := by
  simp [literalsOf]

theorem Joined.literals (h : Joined op place taken a) : a.tree.literals = literalsOf taken := by
  cases h <;> simp [literalsOf, Tree.literals]

theorem Joined.operators_perm (h : Joined op place taken a) :
    a.tree.operators.Perm (op :: operatorsOf taken) := by
  cases h with
  | both left right => simpa [operatorsOf, Tree.operators] using List.perm_append_comm
  | left | right | neither => simp [operatorsOf, Tree.operators]

theorem Reduces.literalsOf_eq (h : Reduces s s') :
    literalsOf s'.operands = literalsOf s.operands := by
  induction h with
  | refl => rfl
  | step hreduce _ ih =>
    obtain ⟨taken, rest, a, rfl, rfl, -, hjoined⟩ := reduce_joined hreduce
    rw [ih, literalsOf_cons, literalsOf_append, hjoined.literals]

theorem Reduces.operators_perm (h : Reduces s s') : s'.operators.Perm s.operators := by
  induction h with
  | refl => exact .refl _
  | @step op place waiting operands reduced s hreduce _ ih =>
    obtain ⟨taken, rest, a, rfl, rfl, -, hjoined⟩ := reduce_joined hreduce
    refine ih.trans ?_
    have hnode := hjoined.operators_perm
    rw [List.perm_iff_count] at hnode ⊢
    intro b
    have hcount := hnode b
    simp only [Stacks.operators, operatorsOf, Pending.operator?, List.filterMap_cons,
      List.flatMap_cons, List.flatMap_append, List.count_append, List.count_cons] at hcount ⊢
    omega

theorem step_literals {token : Token} (h : step s token = .ok s') :
    literalsOf s'.operands = literalsOf s.operands ++ token.symbol.literal?.toList := by
  obtain ⟨content, hsymbol, rfl⟩ | ⟨hsymbol, rfl⟩ | ⟨hsymbol, place, hreduces⟩ |
    ⟨op, u, hsymbol, hreduces, rfl⟩ := step_cases h
  · rw [hsymbol, literalsOf_cons]
    rfl
  · rw [hsymbol]
    exact (List.append_nil _).symm
  · rw [hsymbol, ← hreduces.literalsOf_eq]
    exact (List.append_nil _).symm
  · rw [hsymbol, ← hreduces.literalsOf_eq]
    exact (List.append_nil _).symm

theorem step_operators {token : Token} (h : step s token = .ok s') :
    s'.operators.Perm (token.symbol.operator?.toList ++ s.operators) := by
  obtain ⟨content, hsymbol, rfl⟩ | ⟨hsymbol, rfl⟩ | ⟨hsymbol, place, hreduces⟩ |
    ⟨op, u, hsymbol, hreduces, rfl⟩ := step_cases h
  · rw [hsymbol]
    exact .refl _
  · rw [hsymbol]
    exact .refl _
  · rw [hsymbol]
    exact hreduces.operators_perm
  · rw [hsymbol]
    exact hreduces.operators_perm.cons op

theorem run_inventory {tokens : List Token} {left : List Operand} (h : run s tokens = .ok left) :
    literalsOf left = literalsOf s.operands ++ (tokens.map Token.symbol).filterMap Symbol.literal? ∧
      (operatorsOf left).Perm
        ((tokens.map Token.symbol).filterMap Symbol.operator? ++ s.operators) := by
  induction tokens generalizing s with
  | nil =>
    have hreduces := reduces_of_finish (show finish s.pending s.operands = .ok left from h)
    exact ⟨hreduces.literalsOf_eq.trans (List.append_nil _).symm, hreduces.operators_perm⟩
  | cons token tokens ih =>
    obtain ⟨s', hstep, hrun⟩ := run_cons h
    obtain ⟨hliterals, hoperators⟩ := ih hrun
    constructor
    · rw [hliterals, step_literals hstep, List.map_cons]
      cases hliteral : token.symbol.literal? with
      | none => simp [hliteral]
      | some content => simp [hliteral]
    · refine hoperators.trans (((step_operators hstep).append_left _).trans ?_)
      rw [List.map_cons, ← List.append_assoc]
      refine List.Perm.append_right _ ?_
      cases hoperator : token.symbol.operator? with
      | none => simp [hoperator]
      | some op => simp [hoperator]

theorem inventory_of_tree {tokens : List Token} {t : Tree} (h : tree tokens = .ok t)
    (hliteral : ∃ content, .literal content ∈ tokens.map Token.symbol) :
    t.literals = (tokens.map Token.symbol).filterMap Symbol.literal? ∧
      t.operators.Perm ((tokens.map Token.symbol).filterMap Symbol.operator?) := by
  obtain ⟨left, hrun, hsingle⟩ := exists_run_of_tree h
  have hinventory := run_inventory hrun
  obtain ⟨rfl, -⟩ | ⟨a, rfl, rfl⟩ := single_cases hsingle
  · exact absurd rfl ((run_counts hrun).2.2 (.inr hliteral))
  · simpa [literalsOf, operatorsOf, Stacks.operators] using hinventory

/-- Without a literal no operand is left, since a tree of operators alone is not well-formed. -/
theorem run_eq_nil {tokens : List Token} {left : List Operand}
    (h : run ⟨[], []⟩ tokens = .ok left)
    (hnone : ∀ content, .literal content ∉ tokens.map Token.symbol) : left = [] := by
  have hsymbols : (tokens.map Token.symbol).filterMap Symbol.literal? = [] := by
    rw [List.filterMap_eq_nil_iff]
    intro a ha
    cases a with
    | literal content => exact absurd ha (hnone content)
    | operator | opening | closing => rfl
  rw [List.eq_nil_iff_forall_not_mem]
  intro a ha
  have hsound := sound_of_run h a ha
  obtain ⟨content, hcontent⟩ :=
    List.exists_mem_of_ne_nil _ (hsound.wellFormed.literals_ne_nil hsound.nonempty)
  have hmem : content ∈ literalsOf left :=
    List.mem_flatMap.mpr ⟨a, List.mem_reverse.mpr ha, hcontent⟩
  rw [(run_inventory h).1, hsymbols] at hmem
  cases hmem

theorem parentheses_of_tree {tokens : List Token} {t : Tree} (h : tree tokens = .ok t)
    (hnone : ∀ content, .literal content ∉ tokens.map Token.symbol) :
    (∀ a ∈ tokens.map Token.symbol, a = .opening ∨ a = .closing) ∧
      nested .opening .closing 0 (tokens.map Token.symbol) = true ∧ t = .zero := by
  obtain ⟨left, hrun, hsingle⟩ := exists_run_of_tree h
  obtain rfl := run_eq_nil hrun hnone
  obtain ⟨-, hoperators⟩ := run_inventory hrun
  refine ⟨fun a ha => ?_, (run_counts hrun).2.1, ?_⟩
  · cases a with
    | literal content => exact absurd ha (hnone content)
    | operator op =>
      have hmem : op ∈ operatorsOf [] :=
        hoperators.mem_iff.mpr (List.mem_append_left _ (List.mem_filterMap.mpr ⟨_, ha, rfl⟩))
      cases hmem
    | opening => exact .inl rfl
    | closing => exact .inr rfl
  · cases hsingle
    rfl

end Build

/-- Whatever tokens are accepted, the tree holds their literals in order and their operators, each
with the operands that it takes. Without a literal there are only matched parentheses, and the tree
is zero. -/
theorem Tree.ofTokens_inventory (tokens : List Token) (source : Text) (t : Tree)
    (h : Tree.ofTokens tokens source = .ok t) :
    ((∃ content, .literal content ∈ tokens.map Token.symbol) →
      t.literals = (tokens.map Token.symbol).filterMap Symbol.literal? ∧
      t.operators.Perm ((tokens.map Token.symbol).filterMap Symbol.operator?) ∧
      t.isEmpty = false ∧ t.WellFormed ∧ t.depth ≤ depthLimit) ∧
    ((∀ content, .literal content ∉ tokens.map Token.symbol) →
      (∀ a ∈ tokens.map Token.symbol, a = .opening ∨ a = .closing) ∧
      Balanced .opening .closing (tokens.map Token.symbol) ∧ t = .zero) := by
  have htree := Build.tree_of_ofTokens h
  refine ⟨fun hliteral => ?_, fun hnone => ?_⟩
  · obtain ⟨hliterals, hoperators⟩ := Build.inventory_of_tree htree hliteral
    exact ⟨hliterals, hoperators, Build.sound_of_tree htree⟩
  · obtain ⟨hparentheses, hnested, hzero⟩ := Build.parentheses_of_tree htree hnone
    exact ⟨hparentheses, (nested_zero_iff (by decide) _).mp hnested, hzero⟩

theorem Tree.ofTokens_inventory_misplaced :
    let t : Tree :=
      .node .subtract (.ofNumber (.int 3)) (.node .factorial (.ofNumber (.int 5)) .empty none) none
    Tree.ofTokens [⟨.operator .factorial, 0⟩, ⟨.number (.int 3), 1⟩, ⟨.number (.int 5), 3⟩,
      ⟨.operator .subtract, 4⟩] [] = .ok t ∧
    t.literals = [.number (.int 3), .number (.int 5)] ∧ t.operators.Perm [.factorial, .subtract] ∧
    Tree.ofTokens [⟨.opening, 0⟩, ⟨.opening, 1⟩, ⟨.closing, 2⟩, ⟨.closing, 3⟩] [] = .ok .zero ∧
    Balanced .opening .closing [Symbol.opening, .opening, .closing, .closing] := by
  intro t
  have htree : Tree.ofTokens [⟨.operator .factorial, 0⟩, ⟨.number (.int 3), 1⟩,
    ⟨.number (.int 5), 3⟩,
      ⟨.operator .subtract, 4⟩] [] = .ok t := by decide
  have hzero : Tree.ofTokens [⟨.opening, 0⟩, ⟨.opening, 1⟩, ⟨.closing, 2⟩, ⟨.closing, 3⟩] [] =
      .ok .zero := by decide
  obtain ⟨hliterals, hoperators, -⟩ :=
    (Tree.ofTokens_inventory _ _ _ htree).1 ⟨.number (.int 3), by decide⟩
  obtain ⟨-, hbalanced, -⟩ := (Tree.ofTokens_inventory _ _ _ hzero).2 (by simp)
  exact ⟨htree, hliterals, hoperators, hzero, hbalanced⟩

end DiceFormula
