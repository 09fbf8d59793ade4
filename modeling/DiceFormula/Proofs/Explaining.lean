import DiceFormula.Chance.Script
import DiceFormula.Proofs.Regrouping
import DiceFormula.Proofs.Rereading

/-! The explanation of a total shows a formula. Below the precedence of rolls nothing of it depends
on chance, and it can be read again. -/
namespace DiceFormula

open Infix

namespace Tree

variable {σ τ : Type} {source : Source σ} {s s' : σ} {t u : Tree} {a : Number} {xs ys : List Item}
  {x y : Text}

theorem not_shownAsValue {op : Operator} (h : op.precedence < rollPrecedence) (left right : Tree)
    (known : Option Value) : shownAsValue (.node op left right known) = false := by
  simpa [shownAsValue, precedenceAtLeast] using h

@[simp] theorem listed_bare (above : Nat) (t : Tree) : listed above t.bare = listed above t := by
  induction t generalizing above with
  | empty | leaf => rfl
  | node op left right known ihleft ihright => simp only [bare, listed_node, ihleft, ihright]

@[simp] theorem symbols_bare (t : Tree) : t.bare.symbols = t.symbols := by
  induction t with
  | empty | leaf => rfl
  | node op left right known ihleft ihright => simp only [bare, symbols, ihleft, ihright]

theorem shownItems_inOrderBelow (hsettled : u.Settled source)
    (hlow : ∀ op, .operator op ∈ u.symbols → op.precedence < rollPrecedence) (above : Nat) :
    shownItems (inOrderBelow shownAsValue above u) =
      .ok ((listed above u).flatMap Symbol.shown) := by
  induction u generalizing above with
  | empty => rfl
  | leaf content known =>
    cases hsettled
    simp [inOrderBelow, listed, Item.symbols, shownItems, Item.shown, shown, Tree.known,
      Symbol.shown, Literal.text]
  | node op left right known ihleft ihright =>
    obtain ⟨-, hleft, hright⟩ := hsettled
    simp only [symbols, List.mem_append, List.mem_cons] at hlow
    have hop := not_shownAsValue (hlow op (.inr (.inl rfl))) left right known
    have hself : (Item.node (.node op left right known)).shown = .ok op.text := by
      simp [Item.shown, shown, hop]
    have hitems := shownItems_append (ihleft hleft (fun o ho => hlow o (.inl ho)) op.precedence)
      (shownItems_cons hself (ihright hright (fun o ho => hlow o (.inr (.inr ho))) op.precedence))
    rw [inOrderBelow, listed_node]
    simp only [hop, Bool.false_eq_true, ↓reduceIte]
    split
    · have hclosing : shownItems [.closing] = .ok (ascii [')']) := rfl
      have hopening : Item.opening.shown = .ok (ascii ['(']) := rfl
      rw [shownItems_cons hopening (shownItems_append hitems hclosing)]
      simp [List.flatMap_append, Symbol.shown]
    · rw [hitems]
      simp [List.flatMap_append, Symbol.shown]

theorem explain_of_unknown (hne : t.isEmpty = false) (hunknown : t.known = none)
    (hevaluate : t.evaluate source s = (.ok a, u, s')) (h : u.explanation = .ok x) :
    t.explain source s = (.ok x, u, s') := by
  simp [explain, hne, hunknown, hevaluate, h]

theorem literal_mem_symbols {content : Literal} {above : Nat}
    (h : .literal content ∈ listed above t) :
    .literal content ∈ t.symbols := by
  induction t generalizing above with
  | empty => cases h
  | leaf other known => simpa [listed, inOrderBelow, Item.symbols, symbols] using h
  | node op left right known ihleft ihright =>
    rw [listed_node] at h
    have hparts : .literal content ∈ listed op.precedence left ∨
        .literal content ∈ listed op.precedence right := by
      dsimp only at h
      split at h <;> simpa using h
    rw [symbols, List.mem_append, List.mem_cons]
    rcases hparts with hleft | hright
    · exact .inl (ihleft hleft)
    · exact .inr (.inr (ihright hright))

theorem whole_listed (h : ∀ content, .literal content ∈ t.symbols → (Symbol.literal content).Whole)
    (above : Nat) : ∀ a ∈ listed above t, a.Whole := by
  intro a ha
  cases a with
  | literal content => exact h content (literal_mem_symbols ha)
  | operator | opening | closing => trivial

theorem ofText_listed (hwf : t.WellFormed) (hne : t.isEmpty = false)
    (hwhole : ∀ content, .literal content ∈ t.symbols → (Symbol.literal content).Whole) :
    ∃ place, Tree.ofText ((listed 0 t).flatMap Symbol.shown) =
      if depthLimit < t.regrouped.depth
      then .error ⟨.tooDeep, place, (listed 0 t).flatMap Symbol.shown⟩ else .ok t.regrouped := by
  have hclimbs := (writes_regrouped hwf hne 0).climbs_all
  obtain ⟨tokens, htokens, hlisted⟩ := ofText_shown hclimbs.isExpression.1 (whole_listed hwhole 0)
  rw [← hlisted] at hclimbs
  obtain ⟨place, htree⟩ := Build.tree_of_climbs hclimbs
  refine ⟨place, ?_⟩
  simp only [Tree.ofText, htokens, bind, Except.bind, Tree.ofTokens, htree]
  by_cases hdeep : depthLimit < t.regrouped.depth
  · simp only [if_pos hdeep]
  · simp only [if_neg hdeep]

theorem same_bare (h : ∀ content, .literal content ∈ t.symbols → content.same content = true) :
    t.bare.same t = true := by
  induction t with
  | empty => rfl
  | leaf content known => exact h content (by simp [symbols])
  | node op left right known ihleft ihright =>
    simp only [symbols, List.mem_append, List.mem_cons] at h
    have hleft := ihleft fun content hmem => h content (.inl hmem)
    have hright := ihright fun content hmem => h content (.inr (.inr hmem))
    simp only [bare, same, beq_self_eq_true, hleft, hright, Bool.and_self]

/-- The explanation of a total shows a formula and, behind the first blank, the total. Below the
precedence of rolls, where all literals are whole numbers, the formula is read as the tree that was
evaluated exactly when no operator of that tree stands next to one of its own precedence on the
wrong side. -/
theorem explain_reads_iff (source : Source σ) (s s' : σ) (t u : Tree) (a : Number)
    (hwf : t.WellFormed) (hne : t.isEmpty = false) (hdepth : t.depth ≤ depthLimit)
    (hliterals : ∀ content, .literal content ∈ t.symbols →
      ∃ n : Nat, content = .number (.int n) ∧ (n : Int) ≤ Word.greatest)
    (hoperators : ∀ op, .operator op ∈ t.symbols → op.precedence < rollPrecedence)
    (hevaluate : t.evaluate source s = (.ok a, u, s')) :
    ∃ formula,
      (∀ (τ : Type) (other : Source τ) (r : τ),
        u.explain other r = (.ok (formula ++ ascii [' ', '=', ' '] ++ a.text), u, r)) ∧
      (t.known = none →
        t.explain source s = (.ok (formula ++ ascii [' ', '=', ' '] ++ a.text), u, s')) ∧
      (∀ b ∈ formula, Text.isBlank b = false) ∧
      ((∃ v, Tree.ofText formula = .ok v ∧ v.same t = true) ↔ t.Faithful) := by
  obtain ⟨hsettled, htotal, hbare⟩ := evaluate_settled hevaluate
  have hlow : ∀ op, .operator op ∈ u.symbols → op.precedence < rollPrecedence := by
    rwa [← symbols_bare, hbare, symbols_bare]
  have hnonempty : u.isEmpty = false := (isEmpty_of_bare_eq hbare).trans hne
  have hitems := shownItems_inOrderBelow hsettled hlow 0
  rw [← listed_bare, hbare, listed_bare] at hitems
  have hexplanation := explanation_of_shown hitems htotal
  have hknown := hsettled.known_isSome hnonempty
  refine ⟨(listed 0 t).flatMap Symbol.shown, fun τ other r => ?_,
    fun hunknown => explain_of_unknown hne hunknown hevaluate hexplanation, ?_, ?_⟩
  · rw [explain_of_known hknown, hexplanation]
    rfl
  · intro b hb
    obtain ⟨a, ha, hb⟩ := List.mem_flatMap.mp hb
    exact Symbol.not_isBlank_shown (whole_listed hliterals 0 a ha) b hb
  · obtain ⟨place, hread⟩ := ofText_listed hwf hne hliterals
    rw [hread]
    constructor
    · rintro ⟨v, hv, hsame⟩
      split at hv
      · cases hv
      · cases hv
        exact faithful_of_same hsame
    · intro hfaithful
      rw [regrouped_of_faithful hfaithful, depth_bare, if_neg (Nat.not_lt.mpr hdepth)]
      refine ⟨_, rfl, same_bare fun content hmem => ?_⟩
      obtain ⟨n, rfl, -⟩ := hliterals content hmem
      simp [Literal.same, Number.same]

theorem explain_reads_iff_product : ∃ formula,
    ((Tree.node .multiply (.node .negate .empty (.ofNumber (.int 2)) none)
        (.node .subtract (.ofNumber (.int 5)) (.ofNumber (.int 3)) none) none).explain
      (Script.source 0) (Script.steady 4)).1 =
        .ok (formula ++ ascii [' ', '=', ' '] ++ (Number.int (-4)).text) ∧
    ∃ v, Tree.ofText formula = .ok v ∧
      v.same (.node .multiply (.node .negate .empty (.ofNumber (.int 2)) none)
        (.node .subtract (.ofNumber (.int 5)) (.ofNumber (.int 3)) none) none) = true := by
  obtain ⟨formula, -, hexplain, -, hreads⟩ := explain_reads_iff (Script.source 0) (Script.steady 4)
    (Script.steady 4)
    (.node .multiply (.node .negate .empty (.ofNumber (.int 2)) none)
      (.node .subtract (.ofNumber (.int 5)) (.ofNumber (.int 3)) none) none)
    (.node .multiply
      (.node .negate .empty (.leaf (.number (.int 2)) (some (.number (.int 2))))
        (some (.number (.int (-2)))))
      (.node .subtract (.leaf (.number (.int 5)) (some (.number (.int 5))))
        (.leaf (.number (.int 3)) (some (.number (.int 3)))) (some (.number (.int 2))))
      (some (.number (.int (-4)))))
    (.int (-4)) (by decide) rfl (by decide)
    (by
      intro content hmem
      simp only [ofNumber, symbols, List.mem_append, List.mem_cons, List.not_mem_nil,
        or_false, false_or, Symbol.literal.injEq, reduceCtorEq] at hmem
      rcases hmem with rfl | rfl | rfl
      · exact ⟨2, rfl, by decide⟩
      · exact ⟨5, rfl, by decide⟩
      · exact ⟨3, rfl, by decide⟩)
    (by
      intro op hmem
      simp only [ofNumber, symbols, List.mem_append, List.mem_cons, List.not_mem_nil,
        or_false, false_or, Symbol.operator.injEq, reduceCtorEq] at hmem
      rcases hmem with rfl | rfl | rfl <;> decide)
    (by decide +kernel)
  exact ⟨formula, congrArg Prod.fst (hexplain rfl), hreads.mpr (by decide)⟩

/-- A difference taken away again is shown without its parentheses, and the total does not belong to
what is shown. -/
theorem explain_nested_difference :
    Tree.ofText (ascii ['1', '-', '(', '2', '-', '3', ')']) =
      .ok (.node .subtract (.ofNumber (.int 1))
        (.node .subtract (.ofNumber (.int 2)) (.ofNumber (.int 3)) none) none) ∧
    ((Tree.node .subtract (.ofNumber (.int 1))
        (.node .subtract (.ofNumber (.int 2)) (.ofNumber (.int 3)) none) none).explain
      (Script.source 0) (Script.steady 4)).1 =
      .ok (ascii ['1', '-', '2', '-', '3'] ++ ascii [' ', '=', ' ', '2']) ∧
    Tree.ofText (ascii ['1', '-', '2', '-', '3']) =
      .ok (.node .subtract (.node .subtract (.ofNumber (.int 1)) (.ofNumber (.int 2)) none)
        (.ofNumber (.int 3)) none) ∧
    (Tree.node .subtract (.node .subtract (.ofNumber (.int 1)) (.ofNumber (.int 2)) none)
        (.ofNumber (.int 3)) none).same
      (.node .subtract (.ofNumber (.int 1))
        (.node .subtract (.ofNumber (.int 2)) (.ofNumber (.int 3)) none) none) = false := by
  decide +kernel

end Tree

end DiceFormula
