import DiceFormula.Proofs.Climbing
import DiceFormula.Tree.Build

/-! The two stacks build the tree that precedence climbing reads. An operator is finished late, when
something comes that cannot stand in its right operand, but never with another tree; a tree that is
too deep is refused at the first node below the limit. -/
namespace DiceFormula.Build
open Infix

def run (s : Stacks) (tokens : List Token) : Except Located (List Operand) := do
  let s ← steps s tokens
  finish s.pending s.operands

theorem tree_eq_run (tokens : List Token) : tree tokens = run ⟨[], []⟩ tokens >>= single := by
  unfold tree run
  cases steps ⟨[], []⟩ tokens <;> rfl

section Run
variable {waiting : List Pending} {operands : List Operand} {tokens : List Token}

theorem run_literal (content : Literal) (position : Nat) :
    run ⟨waiting, operands⟩ (⟨.literal content, position⟩ :: tokens) =
      run ⟨waiting, ⟨.leaf content none, position, 1⟩ :: operands⟩ tokens := rfl

theorem run_opening (position : Nat) :
    run ⟨waiting, operands⟩ (⟨.opening, position⟩ :: tokens) =
      run ⟨.opening position :: waiting, operands⟩ tokens := rfl

theorem run_closing (place position : Nat) :
    run ⟨.opening place :: waiting, operands⟩ (⟨.closing, position⟩ :: tokens) =
      run ⟨waiting, operands⟩ tokens := rfl

theorem run_prefixed {op : Operator} (hop : op.arity = .right) (position : Nat) :
    run ⟨waiting, operands⟩ (⟨.operator op, position⟩ :: tokens) =
      run ⟨.operator op position :: waiting, operands⟩ tokens := by
  simp only [run, steps, step, pushOperator, (takes_of_arity_right hop).1]
  rfl

def Tops : Option Operator → List Pending → Prop
  | none, waiting => waiting = [] ∨ ∃ position below, waiting = .opening position :: below
  | some op, waiting => ∃ position below, waiting = .operator op position :: below

theorem run_open {pending : Option Operator} (htops : Tops pending waiting) {op : Operator}
    (hopen : closes pending op = false) (position : Nat) :
    run ⟨waiting, operands⟩ (⟨.operator op, position⟩ :: tokens) =
      run ⟨.operator op position :: waiting, operands⟩ tokens := by
  have hkeep : reduceBefore op waiting operands = .ok ⟨waiting, operands⟩ := by
    cases pending with
    | none =>
      rcases htops with rfl | ⟨place, below, rfl⟩
      · rfl
      · rfl
    | some first =>
      obtain ⟨place, below, rfl⟩ := htops
      have hfirst : first.reducesBefore op = false := by simpa [closes] using hopen
      simp [reduceBefore, hfirst]
  cases hleft : op.takesLeft with
  | false => simp only [run, steps, step, pushOperator, hleft]; rfl
  | true => simp only [run, steps, step, pushOperator, hleft, hkeep]; rfl

theorem run_stops {op : Operator} (h : Stops (some op) (tokens.map Token.symbol)) (place : Nat) :
    run ⟨.operator op place :: waiting, operands⟩ tokens =
      reduce op place operands >>= fun operands => run ⟨waiting, operands⟩ tokens := by
  match tokens, h with
  | [], _ =>
    simp only [run, steps]
    cases hr : reduce op place operands <;> simp [bind, Except.bind, finish, hr]
  | ⟨.closing, position⟩ :: tokens, _ =>
    simp only [run, steps, step, close]
    cases hr : reduce op place operands <;> rfl
  | ⟨.operator next, position⟩ :: tokens, h =>
    have hleft : next.takesLeft = true := by
      rcases arity_cases next with hn | hn | hn
      · exact absurd hn h.1
      · exact (takes_of_arity_left hn).1
      · exact (takes_of_arity_both hn).1
    have hreduces : op.reducesBefore next = true := by simpa [Stops, closes] using h.2
    simp only [run, steps, step, pushOperator, hleft, reduceBefore, hreduces]
    cases hr : reduce op place operands <;> rfl

end Run

def Operand.ofTree (t : Tree) (start : Nat) : Operand := ⟨t, start, t.depth⟩

def grown (t : Tree) (start place : Nat) (operands : List Operand) :
    Except Located (List Operand) :=
  if depthLimit < t.depth then .error (.tooDeep, place) else .ok (.ofTree t start :: operands)

theorem reduce_prefixed {op : Operator} (hop : op.arity = .right) (right : Tree) (start place : Nat)
    (operands : List Operand) :
    reduce op place (.ofTree right start :: operands) =
      grown (.node op .empty right none) place place operands := by
  have htakes := takes_of_arity_right hop
  have hdepth : (Tree.node op .empty right none).depth = 1 + right.depth := by simp [Tree.depth]
  simp only [reduce, htakes.1, htakes.2, join, grown, Operand.ofTree, hdepth]
  split <;> rfl

theorem reduce_postfixed {op : Operator} (hop : op.arity = .left) (left : Tree) (start place : Nat)
    (operands : List Operand) :
    reduce op place (.ofTree left start :: operands) =
      grown (.node op left .empty none) start place operands := by
  have htakes := takes_of_arity_left hop
  have hdepth : (Tree.node op left .empty none).depth = 1 + left.depth := by simp [Tree.depth]
  simp only [reduce, htakes.1, htakes.2, join, grown, Operand.ofTree, hdepth]
  split <;> rfl

theorem reduce_binary {op : Operator} (hop : op.arity = .both) (left right : Tree)
    (start start' place : Nat) (operands : List Operand) :
    reduce op place (.ofTree right start' :: .ofTree left start :: operands) =
      grown (.node op left right none) start place operands := by
  have htakes := takes_of_arity_both hop
  have hdepth : (Tree.node op left right none).depth = 1 + max left.depth right.depth := rfl
  simp only [reduce, htakes.1, htakes.2, join, grown, Operand.ofTree, hdepth]
  split <;> rfl

/-- A computation puts the tree on top of the operands and goes on with tokens of the rest, or it
fails because the tree is too deep. -/
def Delivers (waiting : List Pending) (operands : List Operand) (t : Tree) (rest : List Symbol)
    (r : Except Located (List Operand)) : Prop :=
  ∃ tokens start place, tokens.map Token.symbol = rest ∧
    r = grown t start place operands >>= fun operands => run ⟨waiting, operands⟩ tokens

theorem Delivers.of_grown {waiting : List Pending} {operands operands' : List Operand}
    {part t : Tree}
    {rest : List Symbol} {start place : Nat} {next : List Operand → Except Located (List Operand)}
    (hpart : part.depth ≤ t.depth)
    (h : part.depth ≤ depthLimit →
      Delivers waiting operands t rest (next (.ofTree part start :: operands'))) :
    Delivers waiting operands t rest (grown part start place operands' >>= next) := by
  by_cases hdeep : depthLimit < part.depth
  -- Nothing is said of the tokens that are left then, so any that read as the rest will do.
  · have ht : depthLimit < t.depth := by omega
    refine ⟨rest.map (⟨·, 0⟩), 0, place, by simp [Function.comp_def], ?_⟩
    simp only [grown, if_pos hdeep, if_pos ht]
    rfl
  · have hnext := h (by omega)
    simp only [grown, if_neg hdeep]
    exact hnext

def Holds (operands : List Operand) : Option Tree → List Operand → Prop
  | none, held => held = operands
  | some left, held => left.depth ≤ depthLimit ∧ ∃ start, held = .ofTree left start :: operands

theorem delivers_of_climbs {pending : Option Operator} {left : Option Tree} {s rest : List Symbol}
    {t : Tree} (h : Climbs pending left s t rest) :
    ∀ {waiting : List Pending} {operands held : List Operand} {tokens : List Token},
      Tops pending waiting → tokens.map Token.symbol = s → Holds operands left held →
      Delivers waiting operands t rest (run ⟨waiting, held⟩ tokens) := by
  induction h with
  | literal _ ih =>
    intro waiting operands held tokens htops hs hheld
    obtain ⟨⟨_, position⟩, tokens, rfl, rfl, htokens⟩ := List.map_eq_cons_iff.mp hs
    obtain rfl : held = operands := hheld
    rw [run_literal]
    exact ih htops htokens ⟨by simp [Tree.depth, depthLimit], position, rfl⟩
  | group _ hafter ihinner ih =>
    intro waiting operands held tokens htops hs hheld
    obtain ⟨⟨_, position⟩, tokens, rfl, rfl, htokens⟩ := List.map_eq_cons_iff.mp hs
    obtain rfl : held = operands := hheld
    obtain ⟨tokens, start, place, hcons, hrun⟩ :=
      @ihinner (.opening position :: waiting) held _ _ (.inr ⟨position, waiting, rfl⟩) htokens rfl
    obtain ⟨⟨_, _⟩, tokens, rfl, rfl, hrest⟩ := List.map_eq_cons_iff.mp hcons
    rw [run_opening, hrun]
    refine Delivers.of_grown hafter.depth_le fun hdepth => ?_
    rw [run_closing]
    exact ih htops hrest ⟨hdepth, start, rfl⟩
  | @prefixed _ op _ _ _ _ _ hop hright hafter ihright ih =>
    intro waiting operands held tokens htops hs hheld
    obtain ⟨⟨_, position⟩, tokens, rfl, rfl, htokens⟩ := List.map_eq_cons_iff.mp hs
    obtain rfl : held = operands := hheld
    obtain ⟨tokens, start, place, rfl, hrun⟩ :=
      @ihright (.operator op position :: waiting) held _ _ ⟨position, waiting, rfl⟩ htokens rfl
    have hnode := hafter.depth_le
    -- The right operand is finished first: it may be too deep itself, and then the node is.
    rw [run_prefixed hop, hrun]
    refine Delivers.of_grown (Nat.le_trans ?_ hnode) fun _ => ?_
    · simp only [Tree.depth]; omega
    rw [run_stops hright.stops, reduce_prefixed hop]
    exact Delivers.of_grown hnode fun hdepth => ih htops rfl ⟨hdepth, position, rfl⟩
  | @postfixed _ op _ _ _ _ hop hopen hafter ih =>
    intro waiting operands held tokens htops hs hheld
    obtain ⟨⟨_, position⟩, tokens, rfl, rfl, rfl⟩ := List.map_eq_cons_iff.mp hs
    obtain ⟨-, start, rfl⟩ := hheld
    rw [run_open htops hopen, run_stops (hafter.stops_of_postfix hop), reduce_postfixed hop]
    exact Delivers.of_grown hafter.depth_le fun hdepth => ih htops rfl ⟨hdepth, start, rfl⟩
  | @binary _ op _ _ _ _ _ _ hop hopen hright hafter ihright ih =>
    intro waiting operands held tokens htops hs hheld
    obtain ⟨⟨_, position⟩, tokens, rfl, rfl, htokens⟩ := List.map_eq_cons_iff.mp hs
    obtain ⟨-, start, rfl⟩ := hheld
    obtain ⟨tokens, start', place, rfl, hrun⟩ :=
      @ihright (.operator op position :: waiting) _ _ _ ⟨position, waiting, rfl⟩ htokens rfl
    have hnode := hafter.depth_le
    rw [run_open htops hopen, hrun]
    refine Delivers.of_grown (Nat.le_trans ?_ hnode) fun _ => ?_
    · simp only [Tree.depth]; omega
    rw [run_stops hright.stops, reduce_binary hop]
    exact Delivers.of_grown hnode fun hdepth => ih htops rfl ⟨hdepth, start, rfl⟩
  | closed | ungroup | finished =>
    intro waiting operands held tokens htops hs hheld
    obtain ⟨hdepth, start, rfl⟩ := hheld
    refine ⟨tokens, start, 0, hs, ?_⟩
    simp only [grown, if_neg (Nat.not_lt.mpr hdepth)]
    rfl

theorem tree_of_climbs {tokens : List Token} {t : Tree}
    (h : Climbs none none (tokens.map Token.symbol) t []) :
    ∃ place, tree tokens = if depthLimit < t.depth then .error (.tooDeep, place) else .ok t := by
  obtain ⟨rest, start, place, hrest, hrun⟩ :=
    @delivers_of_climbs _ _ _ _ _ h [] [] _ _ (Or.inl rfl) rfl rfl
  obtain rfl := List.map_eq_nil_iff.mp hrest
  refine ⟨place, ?_⟩
  rw [tree_eq_run, hrun]
  unfold grown
  split <;> rfl

/-- Precedence climbing reads exactly one tree from an expression. Building gives that tree when it
is within the depth limit, and otherwise refuses it. -/
theorem ofTokens_expression (tokens : List Token) (source : Text)
    (h : IsExpression (tokens.map Token.symbol)) :
    ∃ t, (∀ other, Climbs none none (tokens.map Token.symbol) other [] ↔ other = t) ∧
      (t.depth ≤ depthLimit → Tree.ofTokens tokens source = .ok t) ∧
      (depthLimit < t.depth →
        ∃ offset, Tree.ofTokens tokens source = .error ⟨.tooDeep, offset, source⟩) := by
  obtain ⟨t, ht⟩ := exists_climbs_of_completes h.completes
  obtain ⟨place, htree⟩ := tree_of_climbs ht
  refine ⟨t, fun other => ⟨fun hother => (ht.unique hother).1, fun hother => hother ▸ ht⟩, ?_, ?_⟩
  · intro hdepth
    simp only [Tree.ofTokens, htree, if_neg (Nat.not_lt.mpr hdepth)]
  · intro hdepth
    refine ⟨place, ?_⟩
    simp only [Tree.ofTokens, htree, if_pos hdepth]

theorem ofTokens_power_of_negated :
    IsExpression [.number (.int 2), .operator .power, .operator .negate, .number (.int 3),
      .operator .multiply, .number (.int 4)] ∧
    Tree.ofTokens [⟨.number (.int 2), 0⟩, ⟨.operator .power, 1⟩, ⟨.operator .negate, 2⟩,
        ⟨.number (.int 3), 3⟩, ⟨.operator .multiply, 4⟩, ⟨.number (.int 4), 5⟩] [] =
      .ok (.node .multiply (.node .power (.ofNumber (.int 2))
        (.node .negate .empty (.ofNumber (.int 3)) none) none) (.ofNumber (.int 4)) none) := by
  have hexpression : IsExpression [.number (.int 2), .operator .power, .operator .negate,
      .number (.int 3), .operator .multiply, .number (.int 4)] := by decide
  obtain ⟨t, hunique, hshallow, -⟩ := ofTokens_expression
    [⟨.number (.int 2), 0⟩, ⟨.operator .power, 1⟩, ⟨.operator .negate, 2⟩, ⟨.number (.int 3), 3⟩,
      ⟨.operator .multiply, 4⟩, ⟨.number (.int 4), 5⟩] [] hexpression
  have hclimbs : Climbs none none [.number (.int 2), .operator .power, .operator .negate,
      .number (.int 3), .operator .multiply, .number (.int 4)]
      (.node .multiply (.node .power (.ofNumber (.int 2))
        (.node .negate .empty (.ofNumber (.int 3)) none) none) (.ofNumber (.int 4)) none) [] :=
    .literal (.binary rfl rfl
      (.prefixed rfl (.literal (.closed (by decide) rfl)) (.closed (by decide) rfl))
      (.binary rfl rfl (.literal .finished) .finished))
  obtain rfl := (hunique _).mp hclimbs
  exact ⟨hexpression, hshallow (by decide)⟩

end DiceFormula.Build
