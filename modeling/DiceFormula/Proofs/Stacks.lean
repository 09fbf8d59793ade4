import DiceFormula.Proofs.Building

/-! What a token can do to the two stacks. Operators leave the stack only by being reduced, one
after the other from the top, and every token then puts one thing on a stack or takes one opening
parenthesis off. -/
namespace DiceFormula.Build

inductive Reduces : Stacks → Stacks → Prop
  | refl (s : Stacks) : Reduces s s
  | step {op : Operator} {place : Nat} {waiting : List Pending} {operands reduced : List Operand}
      {s : Stacks} : reduce op place operands = .ok reduced → Reduces ⟨waiting, reduced⟩ s →
      Reduces ⟨.operator op place :: waiting, operands⟩ s

variable {waiting : List Pending} {operands : List Operand} {s s' : Stacks}

theorem reduces_of_reduceBefore {incoming : Operator}
    (h : reduceBefore incoming waiting operands = .ok s) : Reduces ⟨waiting, operands⟩ s := by
  induction waiting generalizing operands with
  | nil =>
    cases h
    exact .refl _
  | cons first waiting ih =>
    cases first with
    | opening place =>
      cases h
      exact .refl _
    | operator op place =>
      simp only [reduceBefore] at h
      split at h
      · split at h
        · next reduced hr => exact .step hr (ih h)
        · cases h
      · cases h
        exact .refl _

theorem reduces_of_close {position : Nat} (h : close position waiting operands = .ok s) :
    ∃ place, Reduces ⟨waiting, operands⟩ ⟨.opening place :: s.pending, s.operands⟩ := by
  induction waiting generalizing operands with
  | nil => cases h
  | cons first waiting ih =>
    cases first with
    | opening place =>
      cases h
      exact ⟨place, .refl _⟩
    | operator op place =>
      simp only [close] at h
      split at h
      · next reduced hr =>
        obtain ⟨place, hs⟩ := ih h
        exact ⟨place, .step hr hs⟩
      · cases h

theorem reduces_of_finish {left : List Operand} (h : finish waiting operands = .ok left) :
    Reduces ⟨waiting, operands⟩ ⟨[], left⟩ := by
  induction waiting generalizing operands with
  | nil =>
    cases h
    exact .refl _
  | cons first waiting ih =>
    cases first with
    | opening place => cases h
    | operator op place =>
      simp only [finish] at h
      split at h
      · next reduced hr => exact .step hr (ih h)
      · cases h

theorem reduces_of_pushOperator {op : Operator} {position : Nat}
    (h : pushOperator op position s = .ok s') :
    ∃ u, Reduces s u ∧ s' = ⟨.operator op position :: u.pending, u.operands⟩ := by
  unfold pushOperator at h
  split at h
  · cases hb : reduceBefore op s.pending s.operands with
    | error e => rw [hb] at h; cases h
    | ok u =>
      rw [hb] at h
      cases h
      exact ⟨u, reduces_of_reduceBefore hb, rfl⟩
  · cases h
    exact ⟨s, .refl s, rfl⟩

theorem step_cases {token : Token} (h : step s token = .ok s') :
    (∃ content, token.symbol = .literal content ∧
      s' = ⟨s.pending, ⟨.leaf content none, token.position, 1⟩ :: s.operands⟩) ∨
    (token.symbol = .opening ∧ s' = ⟨.opening token.position :: s.pending, s.operands⟩) ∨
    (token.symbol = .closing ∧ ∃ place, Reduces s ⟨.opening place :: s'.pending, s'.operands⟩) ∨
    (∃ op u, token.symbol = .operator op ∧ Reduces s u ∧
      s' = ⟨.operator op token.position :: u.pending, u.operands⟩) := by
  unfold step at h
  split at h
  · next content hsymbol =>
    cases h
    exact .inl ⟨content, hsymbol, rfl⟩
  · next hsymbol =>
    cases h
    exact .inr (.inl ⟨hsymbol, rfl⟩)
  · next hsymbol => exact .inr (.inr (.inl ⟨hsymbol, reduces_of_close h⟩))
  · next op hsymbol =>
    obtain ⟨u, hu, hs⟩ := reduces_of_pushOperator h
    exact .inr (.inr (.inr ⟨op, u, hsymbol, hu, hs⟩))

/-- An operator with the operands that it takes, the right one first. -/
inductive Joined (op : Operator) (place : Nat) : List Operand → Operand → Prop
  | both (left right : Operand) : op.takesLeft = true → op.takesRight = true →
      Joined op place [right, left]
        ⟨.node op left.tree right.tree none, left.position, 1 + max left.depth right.depth⟩
  | left (left : Operand) : op.takesLeft = true → op.takesRight = false →
      Joined op place [left] ⟨.node op left.tree .empty none, left.position, 1 + left.depth⟩
  | right (right : Operand) : op.takesLeft = false → op.takesRight = true →
      Joined op place [right] ⟨.node op .empty right.tree none, place, 1 + right.depth⟩
  | neither : op.takesLeft = false → op.takesRight = false →
      Joined op place [] ⟨.node op .empty .empty none, place, 1⟩

variable {op : Operator} {place : Nat} {reduced : List Operand}

theorem Joined.length {taken : List Operand} {a : Operand} (h : Joined op place taken a) :
    taken.length = op.takesLeft.toNat + op.takesRight.toNat := by
  cases h with
  | both left right hleft hright => rw [hleft, hright]; rfl
  | left left hleft hright => rw [hleft, hright]; rfl
  | right right hleft hright => rw [hleft, hright]; rfl
  | neither hleft hright => rw [hleft, hright]; rfl

theorem eq_cons_of_join {start depth : Nat} {left right : Tree} {rest : List Operand}
    (h : (do return (← join op place left right start depth) :: rest) = Except.ok reduced) :
    reduced = ⟨.node op left right none, start, depth⟩ :: rest ∧ depth ≤ depthLimit := by
  unfold join at h
  split at h
  · cases h
  · next hdepth =>
    cases h
    exact ⟨rfl, Nat.le_of_not_lt hdepth⟩

theorem reduce_joined (h : reduce op place operands = .ok reduced) :
    ∃ taken rest a, operands = taken ++ rest ∧ reduced = a :: rest ∧ a.depth ≤ depthLimit ∧
      Joined op place taken a := by
  unfold reduce at h
  split at h
  · next right left rest hleft hright =>
    obtain ⟨rfl, hdepth⟩ := eq_cons_of_join h
    exact ⟨[right, left], rest, _, rfl, rfl, hdepth, .both left right hleft hright⟩
  · next left rest hleft hright =>
    obtain ⟨rfl, hdepth⟩ := eq_cons_of_join h
    exact ⟨[left], rest, _, rfl, rfl, hdepth, .left left hleft hright⟩
  · next right rest hleft hright =>
    obtain ⟨rfl, hdepth⟩ := eq_cons_of_join h
    exact ⟨[right], rest, _, rfl, rfl, hdepth, .right right hleft hright⟩
  · next hleft hright =>
    obtain ⟨rfl, hdepth⟩ := eq_cons_of_join h
    exact ⟨[], _, _, rfl, rfl, hdepth, .neither hleft hright⟩
  · cases h

theorem reduce_cons (h : reduce op place operands = .ok reduced) :
    ∃ a rest, reduced = a :: rest ∧
      rest.length + op.takesLeft.toNat + op.takesRight.toNat = operands.length := by
  obtain ⟨taken, rest, a, rfl, rfl, -, hjoined⟩ := reduce_joined h
  refine ⟨a, rest, rfl, ?_⟩
  rw [List.length_append, hjoined.length]
  omega

def Pending.position : Pending → Nat
  | .operator _ position | .opening position => position

structure Stacks.All (P : Operand → Prop) (Q : Nat → Prop) (s : Stacks) : Prop where
  operands : ∀ a ∈ s.operands, P a
  pending : ∀ p ∈ s.pending, Q p.position

theorem single_cases {t : Tree} (h : single operands = .ok t) :
    (operands = [] ∧ t = .zero) ∨ ∃ a, operands = [a] ∧ a.tree = t := by
  unfold single at h
  split at h
  · next hreverse =>
    cases h
    exact .inl ⟨List.reverse_eq_nil_iff.mp hreverse, rfl⟩
  · next only hreverse =>
    cases h
    exact .inr ⟨only, List.reverse_eq_iff.mp hreverse, rfl⟩
  · cases h

theorem exists_run_of_tree {tokens : List Token} {t : Tree} (h : tree tokens = .ok t) :
    ∃ left, run ⟨[], []⟩ tokens = .ok left ∧ single left = .ok t := by
  rw [tree_eq_run] at h
  cases hrun : run ⟨[], []⟩ tokens with
  | error e =>
    rw [hrun] at h
    cases h
  | ok left =>
    rw [hrun] at h
    exact ⟨left, rfl, h⟩

section All

/-! What holds of the literals among the tokens, and is kept when operands are joined, holds of
everything on the stacks and of the whole tree. -/

variable {P : Operand → Prop} {Q : Nat → Prop}
  (hjoin : ∀ op place taken a, Q place → (∀ b ∈ taken, P b) → a.depth ≤ depthLimit →
    Joined op place taken a → P a)
include hjoin

theorem Reduces.all (h : Reduces s s') (hall : s.All P Q) : s'.All P Q := by
  induction h with
  | refl => exact hall
  | step hreduce _ ih =>
    obtain ⟨taken, rest, a, rfl, rfl, hdepth, hjoined⟩ := reduce_joined hreduce
    obtain ⟨hoperands, hpending⟩ := hall
    rw [List.forall_mem_cons] at hpending
    rw [List.forall_mem_append] at hoperands
    refine ih ⟨List.forall_mem_cons.mpr ⟨?_, hoperands.2⟩, hpending.2⟩
    exact hjoin _ _ taken a hpending.1 hoperands.1 hdepth hjoined

theorem step_all {token : Token} (hplace : Q token.position)
    (hleaf : ∀ content, token.symbol = .literal content → P ⟨.leaf content none, token.position, 1⟩)
    (h : step s token = .ok s') (hall : s.All P Q) : s'.All P Q := by
  obtain ⟨content, hsymbol, rfl⟩ | ⟨-, rfl⟩ | ⟨-, place, hreduces⟩ | ⟨op, u, -, hreduces, rfl⟩ :=
    step_cases h
  · exact ⟨List.forall_mem_cons.mpr ⟨hleaf content hsymbol, hall.operands⟩, hall.pending⟩
  · exact ⟨hall.operands, List.forall_mem_cons.mpr ⟨hplace, hall.pending⟩⟩
  · obtain ⟨hoperands, hpending⟩ := hreduces.all hjoin hall
    exact ⟨hoperands, (List.forall_mem_cons.mp hpending).2⟩
  · obtain ⟨hoperands, hpending⟩ := hreduces.all hjoin hall
    exact ⟨hoperands, List.forall_mem_cons.mpr ⟨hplace, hpending⟩⟩

theorem steps_all {tokens : List Token} (hplace : ∀ token ∈ tokens, Q token.position)
    (hleaf : ∀ token ∈ tokens, ∀ content, token.symbol = .literal content →
      P ⟨.leaf content none, token.position, 1⟩)
    (h : steps s tokens = .ok s') (hall : s.All P Q) : s'.All P Q := by
  induction tokens generalizing s with
  | nil =>
    cases h
    exact hall
  | cons token rest ih =>
    rw [List.forall_mem_cons] at hplace hleaf
    simp only [steps] at h
    split at h
    · next s₁ hstep => exact ih hplace.2 hleaf.2 h (step_all hjoin hplace.1 hleaf.1 hstep hall)
    · cases h

theorem run_all {tokens : List Token} {left : List Operand}
    (hplace : ∀ token ∈ tokens, Q token.position)
    (hleaf : ∀ token ∈ tokens, ∀ content, token.symbol = .literal content →
      P ⟨.leaf content none, token.position, 1⟩)
    (h : run s tokens = .ok left) (hall : s.All P Q) : ∀ a ∈ left, P a := by
  unfold run at h
  cases hsteps : steps s tokens with
  | error e =>
    rw [hsteps] at h
    cases h
  | ok s' =>
    rw [hsteps] at h
    have hfinish : finish s'.pending s'.operands = .ok left := h
    exact ((reduces_of_finish hfinish).all hjoin
      (steps_all hjoin hplace hleaf hsteps hall)).operands

theorem tree_all {tokens : List Token} {t : Tree} (hplace : ∀ token ∈ tokens, Q token.position)
    (hleaf : ∀ token ∈ tokens, ∀ content, token.symbol = .literal content →
      P ⟨.leaf content none, token.position, 1⟩)
    (h : tree tokens = .ok t) : t = .zero ∨ ∃ a, P a ∧ a.tree = t := by
  obtain ⟨left, hrun, hsingle⟩ := exists_run_of_tree h
  have hleft := run_all hjoin hplace hleaf hrun ⟨by simp, by simp⟩
  obtain ⟨-, rfl⟩ | ⟨a, rfl, rfl⟩ := single_cases hsingle
  · exact .inl rfl
  · exact .inr ⟨a, hleft a List.mem_cons_self, rfl⟩

end All

theorem tree_induction {P : Tree → Prop} {tokens : List Token} {t : Tree} (hzero : P .zero)
    (hleaf : ∀ token ∈ tokens, ∀ content, token.symbol = .literal content → P (.leaf content none))
    (hnode : ∀ op left right, (left = .empty ∨ P left) → (right = .empty ∨ P right) →
      P (.node op left right none))
    (h : tree tokens = .ok t) : P t := by
  have hall := @tree_all (fun a => P a.tree) (fun _ => True) ?_ tokens t (fun _ _ => trivial)
    (fun token htoken content hsymbol => hleaf token htoken content hsymbol) h
  · obtain rfl | ⟨a, ha, rfl⟩ := hall
    · exact hzero
    · exact ha
  · intro op place taken a _ htaken _ hjoined
    cases hjoined with
    | both left right =>
      exact hnode _ _ _ (.inr (htaken left (by simp))) (.inr (htaken right (by simp)))
    | left left => exact hnode _ _ _ (.inr (htaken left (by simp))) (.inl rfl)
    | right right => exact hnode _ _ _ (.inl rfl) (.inr (htaken right (by simp)))
    | neither => exact hnode _ _ _ (.inl rfl) (.inl rfl)

/-- Every operator has the operands that it takes, and the tree is as deep as it is said to be. -/
structure Operand.Sound (a : Operand) : Prop where
  nonempty : a.tree.isEmpty = false
  wellFormed : a.tree.WellFormed
  depth : a.depth = a.tree.depth
  shallow : a.depth ≤ depthLimit

theorem Joined.sound {taken : List Operand} {a : Operand} (h : Joined op place taken a)
    (hdepth : a.depth ≤ depthLimit) (htaken : ∀ b ∈ taken, b.Sound) : a.Sound := by
  cases h with
  | both left right hleft hright =>
    have hl := htaken left (by simp)
    have hr := htaken right (by simp)
    refine ⟨rfl, ⟨?_, hl.wellFormed, hr.wellFormed⟩, ?_, hdepth⟩
    · rw [Tree.fits, hleft, hright, hl.nonempty, hr.nonempty]
      rfl
    · simp only [Tree.depth, hl.depth, hr.depth]
  | left left hleft hright =>
    have hl := htaken left (by simp)
    refine ⟨rfl, ⟨?_, hl.wellFormed, trivial⟩, ?_, hdepth⟩
    · rw [Tree.fits, hleft, hright, hl.nonempty]
      rfl
    · simp [Tree.depth, hl.depth]
  | right right hleft hright =>
    have hr := htaken right (by simp)
    refine ⟨rfl, ⟨?_, trivial, hr.wellFormed⟩, ?_, hdepth⟩
    · rw [Tree.fits, hleft, hright, hr.nonempty]
      rfl
    · simp [Tree.depth, hr.depth]
  | neither hleft hright =>
    refine ⟨rfl, ⟨?_, trivial, trivial⟩, rfl, hdepth⟩
    rw [Tree.fits, hleft, hright]
    rfl

theorem sound_of_run {tokens : List Token} {left : List Operand}
    (h : run ⟨[], []⟩ tokens = .ok left) : ∀ a ∈ left, a.Sound :=
  run_all (Q := fun _ => True) (fun _ _ _ _ _ htaken hdepth hjoined => hjoined.sound hdepth htaken)
    (fun _ _ => trivial) (fun _ _ _ _ => ⟨rfl, trivial, rfl, by simp [depthLimit]⟩) h
    ⟨by simp, by simp⟩

theorem sound_of_tree {tokens : List Token} {t : Tree} (h : tree tokens = .ok t) :
    t.isEmpty = false ∧ t.WellFormed ∧ t.depth ≤ depthLimit := by
  obtain ⟨left, hrun, hsingle⟩ := exists_run_of_tree h
  obtain ⟨-, rfl⟩ | ⟨a, rfl, rfl⟩ := single_cases hsingle
  · exact ⟨rfl, trivial, by simp [Tree.zero, Tree.ofNumber, Tree.depth, depthLimit]⟩
  · have ha := sound_of_run hrun a List.mem_cons_self
    exact ⟨ha.nonempty, ha.wellFormed, ha.depth ▸ ha.shallow⟩

theorem tree_of_ofTokens {tokens : List Token} {source : Text} {t : Tree}
    (h : Tree.ofTokens tokens source = .ok t) : tree tokens = .ok t := by
  unfold Tree.ofTokens at h
  split at h
  · next htree =>
    cases h
    exact htree
  · cases h

theorem ofText_eq_ofTokens {source : Text} {tokens : List Token}
    (h : Token.ofText source = .ok tokens) : Tree.ofText source = Tree.ofTokens tokens source := by
  rw [Tree.ofText, h]
  rfl

theorem known_of_tree {tokens : List Token} {t : Tree} (h : tree tokens = .ok t) : t.known = none :=
  tree_induction (P := fun t => t.known = none) rfl (fun _ _ _ _ => rfl) (fun _ _ _ _ _ => rfl) h

end DiceFormula.Build
