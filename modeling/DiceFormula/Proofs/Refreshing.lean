import DiceFormula.Chance.Script
import DiceFormula.Proofs.Remembering
import DiceFormula.Proofs.Requests

/-! Old values and new ones. What a tree remembers has no say in its evaluation, and one that comes
to a total leaves nothing of it. An explanation asked for then is made of the new values alone, so
that it neither draws nor fails, and is the same as often as it is asked for. -/
namespace DiceFormula.Tree

variable {σ ε α : Type} {source : Source σ} {t u : Tree}

/-- Two runs come to the same end. A result leaves the same tree, and a failure trees that differ at
most in the values that they keep. -/
inductive SameEnd : Except ε α × Tree × σ → Except ε α × Tree × σ → Prop
  | ok (a : α) (t : Tree) (s : σ) : SameEnd (.ok a, t, s) (.ok a, t, s)
  | error (e : ε) (t u : Tree) (s : σ) (h : t.bare = u.bare) :
      SameEnd (.error e, t, s) (.error e, u, s)

def explanations (t : Tree) : List Call → List (Except Failure Text)
  | [] => []
  | call :: rest =>
    (t.explain call.source call.state).1 :: explanations (t.explain call.source call.state).2.1 rest

theorem run_sameEnd (h : t.bare = u.bare) (s : σ) : SameEnd (run source t s) (run source u s) := by
  induction t generalizing u s with
  | empty =>
    cases u with
    | empty => exact .ok none .empty s
    | leaf | node => cases h
  | leaf content known =>
    cases u with
    | leaf content' known' =>
      cases h
      exact .ok _ _ s
    | empty | node => cases h
  | node op left right known ihleft ihright =>
    cases u with
    | empty | leaf => cases h
    | node op' left' right' known' =>
      obtain ⟨rfl, hleft, hright, -⟩ := Tree.node.inj h
      have hends := ihleft hleft s
      rw [run, run]
      generalize run source left s = x at hends
      generalize run source left' s = y at hends
      cases hends with
      | error fault l l' s₁ hl => exact .error fault _ _ s₁ (by simp only [bare, hl, hright])
      | ok a l s₁ =>
        have hends := ihright hright s₁
        dsimp only
        generalize run source right s₁ = x at hends
        generalize run source right' s₁ = y at hends
        cases hends with
        | error fault r r' s₂ hr => exact .error fault _ _ s₂ (by simp only [bare, hr])
        | ok b r s₂ =>
          dsimp only
          -- From here on only the old value of the root could differ, and it is replaced or stays.
          rcases op.apply source a b s₂ with ⟨fault | v, s₃⟩
          · exact .error fault _ _ s₃ rfl
          · exact .ok _ _ s₃

theorem evaluate_sameEnd (h : t.bare = u.bare) (s : σ) :
    SameEnd (t.evaluate source s) (u.evaluate source s) := by
  have hends := @run_sameEnd σ source t u h s
  rw [evaluate, evaluate]
  generalize run source t s = x at hends
  generalize run source u s = y at hends
  cases hends with
  | error fault t' u' s' hbare => exact .error _ _ _ s' hbare
  | ok v t' s' =>
    dsimp only
    cases totalOf v with
    | ok a => exact .ok a t' s'
    | error fault => exact .error _ _ _ s' rfl

theorem explanations_of_explain {text : Text}
    (h : ∀ call : Call, t.explain call.source call.state = (.ok text, t, call.state))
    (calls : List Call) :
    t.explanations calls = List.replicate calls.length (.ok text) := by
  induction calls with
  | nil => rfl
  | cons call calls ih => rw [explanations, h call, ih, List.length_cons, List.replicate_succ]

/-- Two trees that were built alike are evaluated alike, whatever values they keep from before: with
the same draws to the same total or failure. After a total the explanation only shows what the tree
now keeps. It asks nothing of any source, leaves the tree as it is, ends with the total, and does
not change when it is asked for again. -/
theorem evaluate_afresh (tokens : List Token) (written : Text) (built t u : Tree)
    (hbuilt : ofTokens tokens written = .ok built) (ht : t.bare = built.bare)
    (hu : u.bare = built.bare) (source : Source σ) (s : σ) :
    SameEnd (t.evaluate source s) (u.evaluate source s) ∧
    (∀ draws, SameEnd (t.evaluate source.recorded (s, draws))
      (u.evaluate source.recorded (s, draws))) ∧
    ∀ a t' s', t.evaluate source s = (.ok a, t', s') →
      ∃ formula text, shownItems (t'.inOrder shownAsValue) = .ok formula ∧
        text = formula ++ ascii [' ', '=', ' '] ++ a.text ∧
        (∀ call : Call, t'.explain call.source call.state = (.ok text, t', call.state) ∧
          ∀ notes, t'.explain call.source.noted (call.state, notes) =
            (.ok text, t', call.state, notes)) ∧
        ∀ calls, t'.explanations calls = List.replicate calls.length (.ok text) := by
  have hbare : t.bare = u.bare := ht.trans hu.symm
  refine ⟨evaluate_sameEnd hbare s, fun draws => evaluate_sameEnd hbare (s, draws),
    fun a t' s' hevaluate => ?_⟩
  have hne : t.isEmpty = false :=
    (isEmpty_of_bare_eq ht).trans (Build.sound_of_tree (Build.tree_of_ofTokens hbuilt)).1
  obtain ⟨hsettled, htotal, hkept⟩ := evaluate_settled hevaluate
  have hknown : t'.known.isSome = true :=
    hsettled.known_isSome ((isEmpty_of_bare_eq hkept).trans hne)
  obtain ⟨formula, hformula⟩ := hsettled.exists_shown
  have hexplain {τ : Type} (other : Source τ) (r : τ) :
      t'.explain other r = (.ok (formula ++ ascii [' ', '=', ' '] ++ a.text), t', r) := by
    rw [explain_of_known hknown, explanation_of_shown hformula htotal]
    rfl
  exact ⟨formula, _, hformula, rfl,
    fun call => ⟨hexplain call.source call.state, fun notes =>
      hexplain call.source.noted (call.state, notes)⟩,
    explanations_of_explain fun call => hexplain call.source call.state⟩

theorem evaluate_afresh_stale :
    ∃ (built t t' : Tree) (text : Text), ofText (ascii ['1', 'd', '6', '+', '2']) = .ok built ∧
      t.bare = built.bare ∧
      t.known = some (.number (.int 99)) ∧
      t.evaluate (Script.source 0) (Script.steady 4) = (.ok (.int 6), t', Script.steady 4) ∧
      built.evaluate (Script.source 0) (Script.steady 4) = (.ok (.int 6), t', Script.steady 4) ∧
      t'.explanations [.ofAnswers [], .ofAnswers [5]] = [.ok text, .ok text] := by
  let tokens : List Token := [⟨.literal (.number (.int 1)), 0⟩, ⟨.operator (.dice .plain), 1⟩,
    ⟨.literal (.number (.int 6)), 2⟩, ⟨.operator .add, 3⟩, ⟨.literal (.number (.int 2)), 4⟩]
  let built : Tree :=
    .node .add (.node (.dice .plain) (.ofNumber (.int 1)) (.ofNumber (.int 6)) none)
    (.ofNumber (.int 2)) none
  let t : Tree := .node .add (.node (.dice .plain) (.ofNumber (.int 1)) (.ofNumber (.int 6))
      (some (.roll ⟨[.int 2], .sides 6, [], false⟩))) (.ofNumber (.int 2))
        (some (.number (.int 99)))
  have hbuilt : ofTokens tokens [] = .ok built := by decide
  have htotal : (t.evaluate (Script.source 0) (Script.steady 4)).1 = .ok (.int 6) := by
    decide +kernel
  have hstate : (t.evaluate (Script.source 0) (Script.steady 4)).2.2 = Script.steady 4 := by
    decide +kernel
  obtain ⟨hends, -, hexplained⟩ :=
    evaluate_afresh tokens [] built t built hbuilt rfl rfl (Script.source 0) (Script.steady 4)
  rcases hevaluate : t.evaluate (Script.source 0) (Script.steady 4) with ⟨outcome, t', s'⟩
  rw [hevaluate] at htotal hstate hends
  obtain rfl : outcome = .ok (.int 6) := htotal
  obtain rfl : s' = Script.steady 4 := hstate
  obtain ⟨formula, text, -, -, -, hagain⟩ := hexplained _ _ _ hevaluate
  refine ⟨built, t, t', text, by decide +kernel, rfl, rfl, hevaluate, ?_, hagain _⟩
  generalize hfresh : built.evaluate (Script.source 0) (Script.steady 4) = fresh at hends
  cases hends
  rfl

end DiceFormula.Tree
