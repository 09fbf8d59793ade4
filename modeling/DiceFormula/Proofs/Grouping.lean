import DiceFormula.Formula
import DiceFormula.Proofs.Definite
import DiceFormula.Proofs.Inventory
import DiceFormula.Proofs.Tiling

/-! A group is read as if it stood alone. The tokens of a formula with a modifier are those of the
formula in parentheses and an addition, so their tree is that of the formula under an addition. -/
namespace DiceFormula

namespace Build
variable {op : Operator} {place position start : Nat} {waiting below : List Pending}
  {operands left reduced more : List Operand} {s s' : Stacks} {tokens rest : List Token} {t : Tree}

theorem reduce_of_joined {taken : List Operand} {a : Operand} (h : Joined op place taken a)
    (hdepth : a.depth ≤ depthLimit) (rest : List Operand) :
    reduce op place (taken ++ rest) = .ok (a :: rest) := by
  cases h with
  | both _ _ hleft hright | left _ hleft hright | right _ hleft hright | neither hleft hright =>
    simp only [reduce, hleft, hright, join, List.cons_append, List.nil_append,
      if_neg (Nat.not_lt.mpr hdepth)]
    rfl

theorem reduce_append (h : reduce op place operands = .ok reduced) (more : List Operand) :
    reduce op place (operands ++ more) = .ok (reduced ++ more) := by
  obtain ⟨taken, rest, a, rfl, rfl, hdepth, hjoined⟩ := reduce_joined h
  rw [List.append_assoc, List.cons_append]
  exact reduce_of_joined hjoined hdepth (rest ++ more)

def Stacks.within (s : Stacks) (place : Nat) (below : List Pending)
    (more : List Operand) : Stacks :=
  ⟨s.pending ++ .opening place :: below, s.operands ++ more⟩

theorem reduceBefore_within {incoming : Operator}
    (h : reduceBefore incoming waiting operands = .ok s) :
    reduceBefore incoming (waiting ++ .opening place :: below) (operands ++ more) =
      .ok (s.within place below more) := by
  induction waiting generalizing operands with
  | nil =>
    cases h
    rfl
  | cons first waiting ih =>
    cases first with
    | opening =>
      cases h
      rfl
    | operator op position =>
      simp only [reduceBefore] at h
      simp only [List.cons_append, reduceBefore]
      split at h
      · next hreduces =>
        rw [if_pos hreduces]
        split at h
        · next reduced hreduce =>
          rw [reduce_append hreduce]
          exact ih h
        · cases h
      · next hreduces =>
        cases h
        rw [if_neg hreduces]
        rfl

theorem close_within (h : close position waiting operands = .ok s) :
    close position (waiting ++ .opening place :: below) (operands ++ more) =
      .ok (s.within place below more) := by
  induction waiting generalizing operands with
  | nil => cases h
  | cons first waiting ih =>
    cases first with
    | opening =>
      cases h
      rfl
    | operator op place =>
      simp only [close] at h
      split at h
      · next reduced hreduce =>
        simp only [List.cons_append, close, reduce_append hreduce]
        exact ih h
      · cases h

theorem close_of_finish (h : finish waiting operands = .ok left) :
    close position (waiting ++ .opening place :: below) (operands ++ more) =
      .ok ⟨below, left ++ more⟩ := by
  induction waiting generalizing operands with
  | nil =>
    cases h
    rfl
  | cons first waiting ih =>
    cases first with
    | opening => cases h
    | operator op place =>
      simp only [finish] at h
      split at h
      · next reduced hreduce =>
        simp only [List.cons_append, close, reduce_append hreduce]
        exact ih h
      · cases h

theorem step_within {token : Token} (h : step s token = .ok s') :
    step (s.within place below more) token = .ok (s'.within place below more) := by
  unfold step at h ⊢
  split at h
  · cases h
    rfl
  · cases h
    rfl
  · exact close_within h
  · next op hsymbol =>
    unfold pushOperator at h ⊢
    split at h
    · next hleft =>
      cases hbefore : reduceBefore op s.pending s.operands with
      | error e =>
        rw [hbefore] at h
        cases h
      | ok u =>
        rw [hbefore] at h
        cases h
        rw [if_pos hleft, Stacks.within, reduceBefore_within hbefore]
        rfl
    · next hleft =>
      cases h
      rw [if_neg hleft]
      rfl

theorem steps_within (h : steps s tokens = .ok s') :
    steps (s.within place below more) tokens = .ok (s'.within place below more) := by
  induction tokens generalizing s with
  | nil =>
    cases h
    rfl
  | cons token tokens ih =>
    simp only [steps] at h ⊢
    split at h
    · next s₁ hstep =>
      rw [step_within hstep]
      exact ih h
    · cases h

theorem steps_append (s : Stacks) (tokens rest : List Token) :
    steps s (tokens ++ rest) = steps s tokens >>= fun s => steps s rest := by
  induction tokens generalizing s with
  | nil => rfl
  | cons token tokens ih =>
    simp only [List.cons_append, steps]
    cases step s token with
    | error e => rfl
    | ok s' => exact ih s'

theorem run_grouped (h : run ⟨[], []⟩ tokens = .ok left) (place position : Nat)
    (below : List Pending) (more : List Operand) (rest : List Token) :
    run ⟨below, more⟩ (⟨.opening, place⟩ :: (tokens ++ ⟨.closing, position⟩ :: rest)) =
      run ⟨below, left ++ more⟩ rest := by
  unfold run at h
  cases hsteps : steps ⟨[], []⟩ tokens with
  | error e =>
    rw [hsteps] at h
    cases h
  | ok s =>
    rw [hsteps] at h
    have hclose : step (s.within place below more) ⟨.closing, position⟩ =
      .ok ⟨below, left ++ more⟩ :=
      close_of_finish h
    have hwithin : steps ⟨.opening place :: below, more⟩ tokens = .ok (s.within place below more) :=
      steps_within hsteps
    rw [run_opening, run, steps_append, hwithin]
    simp only [run, bind, Except.bind, steps, hclose]

theorem run_of_tree (h : tree tokens = .ok t)
    (hliteral : ∃ content, .literal content ∈ tokens.map Token.symbol) :
    ∃ start, run ⟨[], []⟩ tokens = .ok [.ofTree t start] := by
  obtain ⟨left, hrun, hsingle⟩ := exists_run_of_tree h
  obtain ⟨rfl, -⟩ | ⟨a, rfl, rfl⟩ := single_cases hsingle
  · exact absurd rfl ((run_counts hrun).2.2 (.inr hliteral))
  · refine ⟨a.position, ?_⟩
    rw [hrun, Operand.ofTree, ← (sound_of_run hrun a List.mem_cons_self).depth]

theorem run_modifierTokens (t : Tree) (start : Nat) (m : Number) :
    run ⟨[], [.ofTree t start]⟩ (Formula.modifierTokens m) =
      grown (.node .add t (.ofNumber m) none) start 0 [] := by
  have htops : Tops none ([] : List Pending) := .inl rfl
  have hstops : Infix.Stops (some .add) (([] : List Token).map Token.symbol) := trivial
  have hadd : Operator.add.arity = .both := rfl
  rw [Formula.modifierTokens, Symbol.number, run_open htops rfl, run_literal, run_stops hstops,
    ← reduce_binary hadd t (.ofNumber m) start 0 0 []]
  exact bind_pure _

theorem tree_of_run_modified (m : Number)
    (h : run ⟨[], []⟩ tokens = run ⟨[], [.ofTree t start]⟩ (Formula.modifierTokens m)) :
    tree tokens =
      if depthLimit < (Tree.node .add t (.ofNumber m) none).depth then .error (.tooDeep, 0)
      else .ok (.node .add t (.ofNumber m) none) := by
  rw [tree_eq_run, h, run_modifierTokens, grown]
  split <;> rfl

theorem tree_of_run_modifierTokens (m : Number)
    (h : run ⟨[], []⟩ tokens = run ⟨[], []⟩ (Formula.modifierTokens m)) :
    tree tokens = .error (.lacksLeft .add, 0) := by
  rw [tree_eq_run, h]
  rfl

end Build

theorem Scan.definite_of_face {t : Text} {a : Number} (h : face? t = some a) : a.Definite := by
  unfold face? at h
  split at h
  · next l _ =>
    split at h
    · next hrange =>
      cases h
      unfold RealLiteral.inRange at hrange
      rw [Number.Definite, Number.toReal]
      cases hnearest : l.nearest with
      | finite | zero => rfl
      | nan | infinite => simp [hnearest] at hrange
    · cases h
  · cases h

theorem Scan.Reads.definite {items : List Text} {values : Faces} (h : Reads items values) :
    ∀ a ∈ values, a.Definite := by
  induction h with
  | nil => simp
  | cons hface _ ih => exact List.forall_mem_cons.mpr ⟨definite_of_face hface, ih⟩

theorem Scan.Spells.same_self {run : Text} {content : Literal} (h : Spells run (.literal content)) :
    content.same content = true := by
  cases h with
  | number => exact Number.same_self (Number.definite_int _)
  | faces _ hreads => exact Number.sameList_self hreads.definite
  | fudge => decide

theorem Build.same_self_of_tree {tokens : List Token} {t : Tree}
    (hliteral : ∀ token ∈ tokens, ∀ content, token.symbol = .literal content →
      content.same content = true) (h : tree tokens = .ok t) : t.same t = true := by
  refine tree_induction (P := fun t => t.same t = true) (by decide) hliteral ?_ h
  intro op left right hleft hright
  have hleft : left.same left = true := hleft.elim (by rintro rfl; rfl) id
  have hright : right.same right = true := hright.elim (by rintro rfl; rfl) id
  simp only [Tree.same, beq_self_eq_true, hleft, hright, Bool.and_self]

theorem Token.same_self_of_ofText {source : Text} {tokens : List Token}
    (h : ofText source = .ok tokens) :
    ∀ token ∈ tokens, ∀ content, token.symbol = .literal content → content.same content = true := by
  obtain ⟨tiles, rfl, htiled, -⟩ := ofText_eq_ok_iff.mp h
  intro token htoken content hcontent
  obtain ⟨tile, htile, rfl⟩ := List.mem_map.mp htoken
  obtain ⟨-, before, hleads⟩ := htiled.leads rfl tile htile
  exact (hcontent ▸ hleads.spells).same_self

namespace Formula

/-- A text that has a number or a list of faces in it, or a number itself. -/
def NamesLiteral : Formula → Prop
  | .text source => ∃ tokens, Token.ofText source = .ok tokens ∧
      ∃ content, .literal content ∈ tokens.map Token.symbol
  | .number _ => True
  | .tree _ => False

theorem namesLiteral_iff {source : Text} {tokens : List Token}
    (htokens : Token.ofText source = .ok tokens) :
    (text source).NamesLiteral ↔ ∃ content, .literal content ∈ tokens.map Token.symbol := by
  constructor
  · rintro ⟨others, hothers, hnamed⟩
    rw [htokens] at hothers
    cases hothers
    exact hnamed
  · exact fun hnamed => ⟨tokens, htokens, hnamed⟩

theorem exists_tree_of_compile {source : Text} {m : Number} {t : Tree}
    (h : (text source).compile m = .ok t) :
    ∃ tokens u, Token.ofText source = .ok tokens ∧ Build.tree tokens = .ok u ∧
      t = modified m u := by
  unfold compile at h
  cases hread : Tree.ofText source with
  | error e =>
    simp only [toTree, hread] at h
    cases h
  | ok u =>
    simp only [toTree, hread] at h
    cases h
    obtain ⟨tokens, htokens, hbuilt⟩ := exists_of_bind_eq_ok hread
    exact ⟨tokens, u, htokens, Build.tree_of_ofTokens hbuilt, rfl⟩

@[simp] theorem modified_zero (t : Tree) : modified (.int 0) t = t := rfl

theorem modified_of_ne {k : Int} (hk : k ≠ 0) {t : Tree} (hne : t.isEmpty = false) :
    modified (.int k) t = .node .add t (.ofNumber (.int k)) none := by
  have horZero : t.orZero = t := by
    cases t with
    | empty => cases hne
    | leaf | node => rfl
  simp [modified, Number.same, Number.zero, hk, horZero]

theorem tokens_text_of_ne {source : Text} {tokens : List Token} {k : Int} (hk : k ≠ 0)
    (htokens : Token.ofText source = .ok tokens) :
    (text source).tokens (.int k) =
      .ok (⟨.opening, 0⟩ :: (tokens ++ ⟨.closing, 0⟩ :: modifierTokens (.int k))) := by
  simp only [Formula.tokens, htokens, Number.same, Number.zero, beq_iff_eq, hk, ↓reduceIte]
  rfl

theorem tree_of_tokens_text {source : Text} {tokens : List Token} {k : Int} {t : Tree}
    (htokens : Token.ofText source = .ok tokens) (hbuilt : Build.tree tokens = .ok t)
    (hliteral : k ≠ 0 → ∃ content, .literal content ∈ tokens.map Token.symbol) :
    ∃ all, (text source).tokens (.int k) = .ok all ∧
      Build.tree all = if depthLimit < (modified (.int k) t).depth then .error (.tooDeep, 0)
        else .ok (modified (.int k) t) := by
  obtain ⟨hne, -, hdepth⟩ := Build.sound_of_tree hbuilt
  by_cases hk : k = 0
  · subst hk
    refine ⟨tokens, ?_, ?_⟩
    · simp only [Formula.tokens, htokens]
      rfl
    · rw [modified_zero, if_neg (Nat.not_lt.mpr hdepth), hbuilt]
  · obtain ⟨start, hrun⟩ := Build.run_of_tree hbuilt (hliteral hk)
    have hgrouped := Build.run_grouped hrun 0 0 [] [] (modifierTokens (.int k))
    refine ⟨_, tokens_text_of_ne hk htokens, ?_⟩
    rw [modified_of_ne hk hne]
    exact Build.tree_of_run_modified _ hgrouped

/-- A formula without a literal is compiled to zero, but its group leaves no operand to add to. -/
theorem tree_of_tokens_bare {source : Text} {tokens : List Token} {k : Int} {t : Tree}
    (hk : k ≠ 0) (htokens : Token.ofText source = .ok tokens) (hbuilt : Build.tree tokens = .ok t)
    (hnone : ∀ content, .literal content ∉ tokens.map Token.symbol) :
    t = .zero ∧ ∃ all, (text source).tokens (.int k) = .ok all ∧
      Build.tree all = .error (.lacksLeft .add, 0) := by
  obtain ⟨left, hrun, -⟩ := Build.exists_run_of_tree hbuilt
  obtain rfl := Build.run_eq_nil hrun hnone
  have hgrouped := Build.run_grouped hrun 0 0 [] [] (modifierTokens (.int k))
  exact ⟨(Build.parentheses_of_tree hbuilt hnone).2.2, _, tokens_text_of_ne hk htokens,
    Build.tree_of_run_modifierTokens _ hgrouped⟩

theorem tree_of_tokens_number (n k : Int) :
    ∃ all, (number (.int n)).tokens (.int k) = .ok all ∧
      Build.tree all = if depthLimit < (modified (.int k) (.ofNumber (.int n))).depth
        then .error (.tooDeep, 0) else .ok (modified (.int k) (.ofNumber (.int n))) := by
  by_cases hk : k = 0
  · subst hk
    exact ⟨_, rfl, rfl⟩
  · refine ⟨⟨.number (.int n), 0⟩ :: modifierTokens (.int k), ?_, ?_⟩
    · simp [Formula.tokens, Number.same, Number.zero, hk]
    · rw [modified_of_ne hk rfl]
      exact Build.tree_of_run_modified (.int k) rfl

theorem depth_modified {k : Int} {t : Tree} (hne : t.isEmpty = false) (h : t.depth ≤ depthLimit) :
    (modified (.int k) t).depth ≤ depthLimit + if k = 0 then 0 else 1 := by
  by_cases hk : k = 0
  · subst hk
    exact h
  · rw [modified_of_ne hk hne, if_neg hk]
    simp only [Tree.depth, Tree.ofNumber]
    have hlimit : 1 ≤ depthLimit := by decide
    omega

theorem same_self_modified {k : Int} {t : Tree} (hne : t.isEmpty = false) (h : t.same t = true) :
    (modified (.int k) t).same (modified (.int k) t) = true := by
  by_cases hk : k = 0
  · subst hk
    exact h
  · rw [modified_of_ne hk hne]
    simp [Tree.same, Tree.ofNumber, Literal.same, Number.same, h]

theorem ofTokens_of_tree {tokens : List Token} {t : Tree}
    (h : Build.tree tokens = if depthLimit < t.depth then .error (.tooDeep, 0) else .ok t)
    (shown : Text) :
    (t.depth ≤ depthLimit → Tree.ofTokens tokens shown = .ok t) ∧
      (depthLimit < t.depth → Tree.ofTokens tokens shown = .error ⟨.tooDeep, 0, shown⟩) := by
  constructor
  · intro hshallow
    rw [Tree.ofTokens, h, if_neg (Nat.not_lt.mpr hshallow)]
  · intro hdeep
    rw [Tree.ofTokens, h, if_pos hdeep]

/-- The tokens of a formula are read as the tree that the formula is compiled to. Only the addition
of a modifier can make that tree too deep to be read, and only it lacks an operand, namely where the
formula names no literal and is compiled as zero. -/
theorem tokens_agree {f : Formula} {k : Int} {t : Tree}
    (hf : (∃ source, f = .text source) ∨ ∃ n, f = .number (.int n))
    (hcompile : f.compile (.int k) = .ok t) :
    ∃ tokens, f.tokens (.int k) = .ok tokens ∧
      t.depth ≤ depthLimit + (if k = 0 then 0 else 1) ∧ t.same t = true ∧
      ∀ shown,
        (k = 0 ∨ f.NamesLiteral →
          (t.depth ≤ depthLimit → Tree.ofTokens tokens shown = .ok t) ∧
          (depthLimit < t.depth → Tree.ofTokens tokens shown = .error ⟨.tooDeep, 0, shown⟩)) ∧
        (¬ (k = 0 ∨ f.NamesLiteral) →
          t = .node .add .zero (.ofNumber (.int k)) none ∧
          Tree.ofTokens tokens shown = .error ⟨.lacksLeft .add, 0, shown⟩) := by
  obtain ⟨source, rfl⟩ | ⟨n, rfl⟩ := hf
  · obtain ⟨tokens, u, htokens, hbuilt, rfl⟩ := exists_tree_of_compile hcompile
    obtain ⟨hne, -, hdepth⟩ := Build.sound_of_tree hbuilt
    have hsame : u.same u = true :=
      Build.same_self_of_tree (Token.same_self_of_ofText htokens) hbuilt
    by_cases hnamed : k = 0 ∨ (text source).NamesLiteral
    · obtain ⟨all, hall, htree⟩ := tree_of_tokens_text htokens hbuilt fun hk =>
        (namesLiteral_iff htokens).mp (hnamed.resolve_left hk)
      exact ⟨all, hall, depth_modified hne hdepth, same_self_modified hne hsame, fun shown =>
        ⟨fun _ => ofTokens_of_tree htree shown, fun hunnamed => absurd hnamed hunnamed⟩⟩
    · obtain ⟨hk, hbare⟩ := not_or.mp hnamed
      rw [namesLiteral_iff htokens, not_exists] at hbare
      obtain ⟨rfl, all, hall, htree⟩ := tree_of_tokens_bare hk htokens hbuilt hbare
      refine ⟨all, hall, depth_modified hne hdepth, same_self_modified hne hsame, fun shown =>
        ⟨fun h => absurd h hnamed, fun _ => ⟨modified_of_ne hk rfl, ?_⟩⟩⟩
      rw [Tree.ofTokens, htree]
  · cases hcompile
    obtain ⟨all, hall, htree⟩ := tree_of_tokens_number n k
    have hsame : (Tree.ofNumber (.int n)).same (.ofNumber (.int n)) = true :=
      Number.same_self (Number.definite_int n)
    exact ⟨all, hall, depth_modified rfl (by simp [Tree.ofNumber, Tree.depth, depthLimit]),
      same_self_modified rfl hsame, fun shown =>
        ⟨fun _ => ofTokens_of_tree htree shown, fun hunnamed => absurd (.inr trivial) hunnamed⟩⟩

theorem tokens_agree_behind :
    (text (ascii ['2', ' ', '3', ' ', '+'])).NamesLiteral ∧
    (text (ascii ['2', ' ', '3', ' ', '+'])).compile (.int (-4)) =
      .ok (.node .add (.node .add (.ofNumber (.int 2)) (.ofNumber (.int 3)) none)
        (.ofNumber (.int (-4))) none) ∧
    (∃ tokens, (text (ascii ['2', ' ', '3', ' ', '+'])).tokens (.int (-4)) = .ok tokens ∧
      Tree.ofTokens tokens [] =
        .ok (.node .add (.node .add (.ofNumber (.int 2)) (.ofNumber (.int 3)) none)
          (.ofNumber (.int (-4))) none)) ∧
    (text (ascii ['(', ')'])).compile (.int 5) =
      .ok (.node .add .zero (.ofNumber (.int 5)) none) ∧
    ∃ tokens, (text (ascii ['(', ')'])).tokens (.int 5) = .ok tokens ∧
      Tree.ofTokens tokens [] = .error ⟨.lacksLeft .add, 0, []⟩ := by
  have htokens : Token.ofText (ascii ['2', ' ', '3', ' ', '+']) =
      .ok [⟨.number (.int 2), 0⟩, ⟨.number (.int 3), 2⟩, ⟨.operator .add, 4⟩] := by decide +kernel
  have hliteral : (text (ascii ['2', ' ', '3', ' ', '+'])).NamesLiteral :=
    ⟨_, htokens, .number (.int 2), List.mem_cons_self⟩
  have hcompile : (text (ascii ['2', ' ', '3', ' ', '+'])).compile (.int (-4)) =
      .ok (.node .add (.node .add (.ofNumber (.int 2)) (.ofNumber (.int 3)) none)
        (.ofNumber (.int (-4))) none) := by
    have hread : Tree.ofText (ascii ['2', ' ', '3', ' ', '+']) =
        .ok (.node .add (.ofNumber (.int 2)) (.ofNumber (.int 3)) none) := by decide +kernel
    simp only [compile, toTree, hread]
    rfl
  have hgroup : Token.ofText (ascii ['(', ')']) = .ok [⟨.opening, 0⟩, ⟨.closing, 1⟩] := by
    decide +kernel
  have hunnamed : ¬ ((5 : Int) = 0 ∨ (text (ascii ['(', ')'])).NamesLiteral) := by
    rw [namesLiteral_iff hgroup]
    simp
  have hcompile' : (text (ascii ['(', ')'])).compile (.int 5) =
      .ok (.node .add .zero (.ofNumber (.int 5)) none) := by
    have hread : Tree.ofText (ascii ['(', ')']) = .ok .zero := by decide +kernel
    simp only [compile, toTree, hread]
    rfl
  obtain ⟨tokens, hall, -, -, hshown⟩ := tokens_agree (.inl ⟨_, rfl⟩) hcompile
  obtain ⟨tokens', hall', -, -, hshown'⟩ := tokens_agree (.inl ⟨_, rfl⟩) hcompile'
  exact ⟨hliteral, hcompile, ⟨tokens, hall, ((hshown []).1 (.inr hliteral)).1 (by decide)⟩,
    hcompile', tokens', hall', ((hshown' []).2 hunnamed).2⟩

def negations (count : Nat) : Text := List.replicate count Scan.minusByte ++ ascii ['1']

def negated : Nat → Tree
  | 0 => .ofNumber .one
  | count + 1 => .node .negate .empty (negated count) none

@[simp] theorem depth_negated (count : Nat) : (negated count).depth = count + 1 := by
  induction count with
  | zero => rfl
  | succ count ih =>
    simp only [negated, Tree.depth, ih]
    omega

theorem climbs_negated (count : Nat) (pending : Option Operator) :
    Infix.Climbs pending none (List.replicate count (.operator .negate) ++ [.number .one])
      (negated count) [] := by
  induction count generalizing pending with
  | zero => exact .literal .finished
  | succ count ih => exact .prefixed rfl (ih (some .negate)) .finished

theorem tiled_negations (count : Nat) {previous : Option Symbol}
    (hdue : Scan.operandDue previous = true) (place : Nat) :
    ∃ tiles, Scan.Tiled previous place (negations count) tiles ∧
      tiles.map (·.symbol) = List.replicate count (.operator .negate) ++ [.number .one] := by
  induction count generalizing previous place with
  | zero =>
    have hleads : Scan.Leads previous (ascii ['1']) [] (.number .one) :=
      ⟨.number (by decide) (List.all_eq_true.mp rfl) (by decide), trivial, fun _ hb => nomatch hb⟩
    have htiled :=
      @Scan.Tiled.tile previous place [] (ascii ['1']) [] (.number .one) [] (by simp) hleads
      (.done (by simp))
    exact ⟨_, htiled, rfl⟩
  | succ count ih =>
    have hleads : Scan.Leads previous [Scan.minusByte] (negations count) (.operator .negate) :=
      ⟨.minus (.inr rfl), fun _ => ⟨fun _ => hdue, fun _ => rfl⟩, nofun⟩
    obtain ⟨tiles, htiled, hsymbols⟩ := @ih (some (.operator .negate)) rfl (place + 0 + 1)
    have htiled := @Scan.Tiled.tile previous place [] [Scan.minusByte] (negations count)
      (.operator .negate) tiles (by simp) hleads htiled
    refine ⟨_, htiled, ?_⟩
    simp only [List.map_cons, hsymbols, List.replicate_succ, List.cons_append]

theorem exists_tokens_negations (count : Nat) : ∃ tokens,
    Token.ofText (negations count) = .ok tokens ∧
      tokens.map Token.symbol = List.replicate count (.operator .negate) ++ [.number .one] := by
  obtain ⟨tiles, htiled, hsymbols⟩ := @tiled_negations count none rfl 0
  have hbalanced : Balanced Symbol.opening .closing (tiles.map (·.symbol)) := by
    rw [← nested_zero_iff (by decide), hsymbols, nested_append (by simp)]
    rfl
  refine ⟨_, Token.ofText_eq_ok_iff.mpr ⟨tiles, rfl, htiled, hbalanced⟩, ?_⟩
  rw [List.map_map]
  exact hsymbols

/-- A sum that is compiled is too deep to be read from its tokens, and one of nothing lacks its left
operand there. -/
theorem tokens_disagree :
    ((text (negations 999)).compile (.int 5) =
        .ok (.node .add (negated 999) (.ofNumber (.int 5)) none) ∧
      ∃ tokens offset, (text (negations 999)).tokens (.int 5) = .ok tokens ∧
        Tree.ofTokens tokens [] = .error ⟨.tooDeep, offset, []⟩) ∧
    ((text []).compile (.int 5) = .ok (.node .add .zero (.ofNumber (.int 5)) none) ∧
      ∃ tokens offset, (text []).tokens (.int 5) = .ok tokens ∧
        Tree.ofTokens tokens [] = .error ⟨.lacksLeft .add, offset, []⟩) := by
  obtain ⟨tokens, htokens, hsymbols⟩ := exists_tokens_negations 999
  have hbuilt : Build.tree tokens = .ok (negated 999) := by
    have hclimbs := climbs_negated 999 none
    rw [← hsymbols] at hclimbs
    obtain ⟨place, htree⟩ := Build.tree_of_climbs hclimbs
    rw [htree, depth_negated, if_neg (by decide)]
  have hmodified : modified (.int 5) (negated 999) =
      .node .add (negated 999) (.ofNumber (.int 5)) none := modified_of_ne (by decide) rfl
  constructor
  · obtain ⟨all, hall, htree⟩ := tree_of_tokens_text htokens hbuilt (k := 5) fun _ =>
      ⟨.number .one, hsymbols ▸ List.mem_append_right _ List.mem_cons_self⟩
    have hdeep : depthLimit < (modified (.int 5) (negated 999)).depth := by
      rw [hmodified, Tree.depth, depth_negated]
      decide
    rw [if_pos hdeep] at htree
    refine ⟨?_, all, 0, hall, ?_⟩
    · have hread : Tree.ofText (negations 999) = .ok (negated 999) := by
        rw [Build.ofText_eq_ofTokens htokens, Tree.ofTokens, hbuilt]
      rw [← hmodified]
      simp only [compile, toTree, hread]
    · rw [Tree.ofTokens, htree]
  · have htokens : Token.ofText [] = .ok [] := by decide +kernel
    refine ⟨?_, [⟨.opening, 0⟩, ⟨.closing, 0⟩, ⟨.operator .add, 0⟩, ⟨.number (.int 5), 0⟩], 0,
      ?_, ?_⟩
    · have hread : Tree.ofText [] = .ok .zero := by decide +kernel
      simp only [compile, toTree, hread]
      rfl
    · simp only [Formula.tokens, htokens]
      rfl
    · decide +kernel

end Formula

end DiceFormula
