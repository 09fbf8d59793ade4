import DiceFormula.Chance.Script
import DiceFormula.Proofs.Applying
import DiceFormula.Proofs.Evaluating
import DiceFormula.Proofs.Stacks
import Mathlib.Data.List.Induction

/-! What a tree remembers of its evaluations. The root keeps the value of the last one that got to
it. An evaluation that breaks off after that leaves new values below old ones. -/
namespace DiceFormula.Tree

structure Call where
  State : Type
  source : Source State
  state : State

def Call.outcome (call : Call) (t : Tree) : Except Fault (Option Value) :=
  (run call.source t call.state).1

def Call.BreaksOff (call : Call) (t : Tree) : Prop := ∃ fault, call.outcome t = .error fault

def after (t : Tree) : List Call → Tree
  | [] => t
  | call :: rest => after (t.evaluate call.source call.state).2.1 rest

/-- Every node that is shown by its operator keeps what the operator makes of the values that its
operands keep. -/
def Consistent (t : Tree) : Prop :=
  ∀ op left right known, .node (.node op left right known) ∈ inOrder shownAsValue t →
    op.precedence < rollPrecedence →
    ∃ v, known = some v ∧ ∀ (τ : Type) (other : Source τ) (r : τ),
      op.apply other left.known right.known r = (.ok v, r)

/-- The value of the formula that is shown, where a roll stands for the value shown for it. -/
def displayed : Tree → Except Fault (Option Value)
  | .empty => .ok none
  | .leaf _ known => .ok known
  | .node op left right known =>
    if op.precedence < rollPrecedence then do
      let a ← displayed left
      let b ← displayed right
      return some (← op.compute a b)
    else .ok known

variable {σ : Type} {source : Source σ} {s : σ} {t u : Tree}

theorem after_append (t : Tree) (earlier later : List Call) :
    t.after (earlier ++ later) = (t.after earlier).after later := by
  induction earlier generalizing t with
  | nil => rfl
  | cons call earlier ih => exact ih _

theorem tree_evaluate (source : Source σ) (t : Tree) (s : σ) :
    (t.evaluate source s).2.1 = (run source t s).2.1 := by
  rw [evaluate]
  split
  · next h => rw [h]
  · next h => split <;> rw [h]

theorem after_snoc (t : Tree) (calls : List Call) (call : Call) :
    t.after (calls ++ [call]) = (run call.source (t.after calls) call.state).2.1 := by
  rw [after_append]
  exact tree_evaluate _ _ _

theorem known_after_breaksOff {calls : List Call} {call : Call}
    (h : call.BreaksOff (t.after calls)) :
    (t.after (calls ++ [call])).known = (t.after calls).known := by
  obtain ⟨fault, houtcome⟩ := h
  rw [after_snoc]
  exact known_run_error (Prod.ext houtcome rfl)

theorem settled_after {calls : List Call} {call : Call} {v : Option Value}
    (h : call.outcome (t.after calls) = .ok v) :
    (t.after (calls ++ [call])).Settled call.source ∧ (t.after (calls ++ [call])).known = v := by
  rw [after_snoc]
  exact run_settled (Prod.ext h rfl)

theorem consistent_of_settled (h : t.Settled source) : t.Consistent := by
  intro op left right known hmem hlow
  obtain ⟨⟨v, s, s', happly, hknown⟩, -⟩ := (settled_of_listed h hmem).1
  refine ⟨v, hknown, fun τ other r => ?_⟩
  rw [Operator.apply_of_low hlow] at happly ⊢
  rw [(Prod.mk.inj happly).1]

theorem displayed_of_settled (h : t.Settled source) : t.displayed = .ok t.known := by
  induction t with
  | empty | leaf => rfl
  | node op left right known ihleft ihright =>
    obtain ⟨⟨v, s, s', happly, hknown⟩, hleft, hright⟩ := h
    rw [displayed]
    split
    · next hlow =>
      rw [Operator.apply_of_low hlow] at happly
      rw [ihleft hleft, ihright hright]
      simp only [bind, Except.bind, (Prod.mk.inj happly).1, hknown]
      rfl
    · rfl

theorem exists_last (h : t.known = none) {calls : List Call} {v : Value}
    (hknown : (t.after calls).known = some v) :
    ∃ earlier last later, calls = earlier ++ last :: later ∧
      last.outcome (t.after earlier) = .ok (some v) ∧
      ∀ tried next rest, later = tried ++ next :: rest →
        next.BreaksOff (t.after (earlier ++ last :: tried)) := by
  induction calls using List.reverseRecOn with
  | nil =>
    rw [after, h] at hknown
    cases hknown
  | append_singleton calls call ih =>
    cases houtcome : call.outcome (t.after calls) with
    | ok w =>
      obtain rfl : w = some v := (settled_after houtcome).2.symm.trans hknown
      refine ⟨calls, call, [], rfl, houtcome, fun tried next rest hnil => ?_⟩
      cases tried <;> cases hnil
    | error fault =>
      have hbreaks : call.BreaksOff (t.after calls) := ⟨fault, houtcome⟩
      -- A call that breaks off leaves the root as it was, so an earlier one has put the value
      -- there.
      rw [known_after_breaksOff hbreaks] at hknown
      obtain ⟨earlier, last, later, rfl, hlast, hlater⟩ := ih hknown
      refine ⟨earlier, last, later ++ [call], by simp, hlast, fun tried next rest hsplit => ?_⟩
      rcases List.eq_nil_or_concat rest with rfl | ⟨rest, other, rfl⟩
      · obtain ⟨rfl, hnext⟩ := List.append_inj' hsplit rfl
        cases hnext
        exact hbreaks
      · have hinit : later = tried ++ next :: rest := by
          have hsplit : later ++ [call] = (tried ++ next :: rest) ++ [other] := by
            simpa using hsplit
          exact (List.append_inj' hsplit rfl).1
        exact hlater tried next rest hinit

theorem explanation_eq_ok {text : Text} (h : t.explanation = .ok text) :
    ∃ formula a, shownItems (inOrder shownAsValue t) = .ok formula ∧ totalOf t.known = .ok a ∧
      text = formula ++ ascii [' ', '=', ' '] ++ a.text := by
  obtain ⟨formula, hformula, h⟩ := exists_of_bind_eq_ok h
  obtain ⟨a, htotal, htext⟩ := exists_of_bind_eq_ok h
  cases htext
  exact ⟨formula, a, hformula, htotal, rfl⟩

/-- A tree that was just built is evaluated again and again, and then explained without an
evaluation. The total is that of the last evaluation that got to the root. When none came after that
one, every operator that is shown was applied to the values that are shown, and the total is the
value of the formula that is shown. -/
theorem explain_after_calls (tokens : List Token) (source : Text) (t : Tree)
    (h : ofTokens tokens source = .ok t) (calls : List Call) (v : Value)
    (hknown : (t.after calls).known = some v) :
    ∃ earlier last later, calls = earlier ++ last :: later ∧
      last.outcome (t.after earlier) = .ok (some v) ∧
      (∀ tried next rest, later = tried ++ next :: rest →
        next.BreaksOff (t.after (earlier ++ last :: tried))) ∧
      (∀ (τ : Type) (other : Source τ) (r : τ),
        ((t.after calls).explain other r).2 = (t.after calls, r) ∧
        ∀ text, ((t.after calls).explain other r).1 = .ok text →
          ∃ formula a, shownItems (inOrder shownAsValue (t.after calls)) = .ok formula ∧
            v.total = .ok a ∧ text = formula ++ ascii [' ', '=', ' '] ++ a.text) ∧
      (later = [] → (t.after calls).Consistent ∧ (t.after calls).displayed = .ok (some v)) := by
  have hunknown := Build.known_of_tree (Build.tree_of_ofTokens h)
  obtain ⟨earlier, last, later, rfl, hlast, hlater⟩ := exists_last hunknown hknown
  refine ⟨earlier, last, later, rfl, hlast, hlater, fun τ other r => ?_, ?_⟩
  · rw [explain_of_known (Option.isSome_of_eq_some hknown)]
    refine ⟨rfl, fun text htext => ?_⟩
    cases hexplanation : (t.after (earlier ++ last :: later)).explanation with
    | error fault =>
      rw [hexplanation] at htext
      cases htext
    | ok text' =>
      rw [hexplanation] at htext
      cases htext
      obtain ⟨formula, a, hformula, htotal, htext⟩ := explanation_eq_ok hexplanation
      rw [hknown] at htotal
      exact ⟨formula, a, hformula, htotal, htext⟩
  · rintro rfl
    obtain ⟨hsettled, -⟩ := settled_after hlast
    refine ⟨consistent_of_settled hsettled, ?_⟩
    rw [displayed_of_settled hsettled, hknown]

def Call.ofAnswers (answers : List Int) : Call := ⟨Script, Script.source 0, ⟨answers, none, [], 0⟩⟩

theorem explain_after_calls_second :
    ((Tree.node .add (.ofNumber (.int 1)) (.node (.dice .plain) (.ofNumber (.int 1))
      (.ofNumber (.int 6)) none) none).after [.ofAnswers [], .ofAnswers [5]]).displayed =
        .ok (some (.number (.int 6))) := by
  obtain ⟨earlier, last, later, hcalls, -, hlater, -, hconsistent⟩ := explain_after_calls
    [⟨.number (.int 1), 0⟩, ⟨.operator .add, 1⟩, ⟨.number (.int 1), 2⟩,
      ⟨.operator (.dice .plain), 3⟩,
      ⟨.number (.int 6), 4⟩] []
    (.node .add (.ofNumber (.int 1)) (.node (.dice .plain) (.ofNumber (.int 1))
      (.ofNumber (.int 6)) none) none) (by decide) [.ofAnswers [], .ofAnswers [5]]
        (.number (.int 6))
    (by decide +kernel)
  match earlier, hcalls with
  | [], hcalls =>
    cases hcalls
    obtain ⟨fault, hfault⟩ := hlater [] (.ofAnswers [5]) [] rfl
    have houtcome : (Call.ofAnswers [5]).outcome ((Tree.node .add (.ofNumber (.int 1))
        (.node (.dice .plain) (.ofNumber (.int 1)) (.ofNumber (.int 6)) none) none).after
          [.ofAnswers []]) = .ok (some (.number (.int 6))) := by decide +kernel
    cases hfault.symm.trans houtcome
  | [_], hcalls =>
    cases hcalls
    exact (hconsistent rfl).2
  | _ :: _ :: _, hcalls => simp at hcalls

/-- A reciprocal is evaluated once, and then again with a divisor of zero. The new divisor is shown
with the old quotient. -/
theorem explain_after_division_by_zero :
    ∃ t u, Tree.ofText (ascii ['1', '/', '(', '1', 'd', '6', '-', '1', ')']) = .ok t ∧
      t.after [.ofAnswers [3], .ofAnswers [1]] = u ∧
      u.explain (Script.source 0) (Script.steady 4) =
        (.ok (ascii ['1', '/', '(', '[', 'd', '6', ':', ' ', '1', ']', '-', '1', ')'] ++
          ascii [' ', '=', ' ', '0', '.', '5']), u, Script.steady 4) ∧
      u.displayed = .error .divisionByZero ∧ ¬ u.Consistent := by
  refine ⟨.node .divide (.ofNumber (.int 1)) (.node .subtract (.node (.dice .plain)
      (.ofNumber (.int 1)) (.ofNumber (.int 6)) none) (.ofNumber (.int 1)) none) none,
    .node .divide (.leaf (.number (.int 1)) (some (.number (.int 1))))
      (.node .subtract
        (.node (.dice .plain) (.leaf (.number (.int 1)) (some (.number (.int 1))))
          (.leaf (.number (.int 6)) (some (.number (.int 6))))
          (some (.roll ⟨[.int 1], .sides 6, [], false⟩)))
        (.leaf (.number (.int 1)) (some (.number (.int 1)))) (some (.number (.int 0))))
      (some (.number (.real (.finite (1 / 2))))),
    by decide +kernel, by decide +kernel, by decide +kernel, by decide +kernel,
    fun hconsistent => ?_⟩
  obtain ⟨v, -, happly⟩ :=
    hconsistent .divide _ _ _ (List.mem_cons_of_mem _ List.mem_cons_self) (by decide)
  have hzero := happly Script (Script.source 0) (Script.steady 4)
  have hfault : Operator.divide.compute (some (.number (.int 1))) (some (.number (.int 0))) =
      .error .divisionByZero := by decide +kernel
  rw [Operator.apply_of_low (by decide)] at hzero
  cases hfault.symm.trans (Prod.mk.inj hzero).1

end DiceFormula.Tree
