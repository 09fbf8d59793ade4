import DiceFormula.Chance.Script
import DiceFormula.Formula
import DiceFormula.Proofs.Applying
import DiceFormula.Proofs.Definite
import DiceFormula.Proofs.Stacks
import DiceFormula.Proofs.Tiling

/-! The ways to the total of a formula agree. A modifier is added to the total, or an addition is
put at the root before anything is evaluated; what is explained afterwards is shown from the values
that were kept. -/
namespace DiceFormula

variable {σ α β : Type}

/-- Both computations succeed with results that belong together, or both fail, and chance is left in
the same state. -/
def Rolling.Agree (R : α → β → Prop) (x : Rolling σ Failure α) (y : Rolling σ Failure β)
    (s : σ) : Prop :=
  (∃ a b t, x s = (.ok a, t) ∧ y s = (.ok b, t) ∧ R a b) ∨
    ∃ e e' t, x s = (.error e, t) ∧ y s = (.error e', t)

theorem Scan.Spells.exists_int {run : Text} {a : Number} (h : Spells run (.literal (.number a))) :
    ∃ n, a = .int n := by
  cases h with
  | number => exact ⟨_, rfl⟩

theorem Tree.ofText_definite {source : Text} {t : Tree} (h : Tree.ofText source = .ok t) :
    t.isEmpty = false ∧ t.Definite := by
  obtain ⟨tokens, htokens, h⟩ := exists_of_bind_eq_ok h
  obtain ⟨tiles, rfl, htiled, -⟩ := Token.ofText_eq_ok_iff.mp htokens
  refine Build.tree_induction (P := fun t => t.isEmpty = false ∧ t.Definite)
    ⟨rfl, Number.definite_int 0⟩ ?_ ?_ (Build.tree_of_ofTokens h)
  · intro token htoken content hcontent
    obtain ⟨tile, htile, rfl⟩ := List.mem_map.mp htoken
    obtain ⟨-, before, hleads⟩ := htiled.leads rfl tile htile
    cases content with
    | faces values => exact ⟨rfl, trivial⟩
    | number a =>
      obtain ⟨n, rfl⟩ := (hcontent ▸ hleads.spells).exists_int
      exact ⟨rfl, Number.definite_int n⟩
  -- Of the operands only the right one matters: no sign has another.
  · rintro op left right - (rfl | ⟨-, hright⟩)
    · exact ⟨rfl, fun _ => trivial⟩
    · exact ⟨rfl, fun _ => hright⟩

namespace Tree

@[simp] theorem inMode_normal (t : Tree) : t.inMode .normal = t := by
  induction t with
  | empty | leaf => rfl
  | node op left right known ihleft ihright =>
    have hop : op.inMode .normal = op := by
      cases op with
      | dice throw => cases throw <;> rfl
      | _ => rfl
    rw [inMode, hop, ihleft, ihright]

variable {source : Source σ} {s s' : σ} {t u : Tree} {a m : Number}

theorem compute_add (v : Value) (m : Number) : Operator.add.compute (some v) (some (.number m)) = do
    let a ← v.total
    return .number (← a.add m) := by
  cases htotal : v.total <;> simp only [Operator.compute, Operator.operand, htotal] <;> rfl

theorem evaluate_addition (hne : t.isEmpty = false) (m : Number) (s : σ) :
    ∃ u, (node .add t (.ofNumber m) none).evaluate source s = match t.evaluate source s with
      | (.error failure, _, s) => (.error failure, u, s)
      | (.ok a, _, s) => ((a.add m).mapError .evaluation, u, s) := by
  rcases hrun : run source t s with ⟨fault | v, u, s'⟩
  · refine ⟨.node .add u (.ofNumber m) none, ?_⟩
    simp only [evaluate, run, hrun]
  · obtain ⟨hsettled, rfl⟩ := run_settled hrun
    have hbare := @bare_run σ source t s
    rw [hrun] at hbare
    have hne' : u.isEmpty = false := (isEmpty_of_bare_eq hbare).trans hne
    obtain ⟨v, hv⟩ := Option.isSome_iff_exists.mp (hsettled.known_isSome hne')
    have hadd : Operator.add.apply source (some v) (some (.number m)) s' =
        (do let a ← v.total; return .number (← a.add m), s') := by
      rw [Operator.apply_of_low (by decide), compute_add]
    simp only [evaluate, run, hrun, hv, ofNumber, Literal.value, hadd, totalOf]
    cases v.total with
    | error fault => exact ⟨_, rfl⟩
    | ok a =>
      cases hab : a.add m with
      | error fault =>
        simp only [hab, bind, Except.bind]
        exact ⟨_, rfl⟩
      | ok b =>
        simp only [hab, bind, Except.bind]
        exact ⟨_, rfl⟩

def totalWith (source : Source σ) (t : Tree) (modifier : Number) :
    Rolling σ Failure Number := fun s =>
  match t.evaluate source s with
  | (.error failure, _, s) => (.error failure, s)
  | (.ok a, _, s) =>
    match a.add modifier with
    | .ok sum => (.ok sum, s)
    | .error fault => (.error (.fault fault), s)

theorem evaluate_modified (hne : t.isEmpty = false) (hdefinite : t.Definite) (k : Int) (s : σ) :
    (∃ a b u s', t.totalWith source (.int k) s = (.ok b, s') ∧
      (Formula.modified (.int k) t).evaluate source s = (.ok a, u, s') ∧ a.same b = true) ∨
    ∃ e e' u s', t.totalWith source (.int k) s = (.error e, s') ∧
      (Formula.modified (.int k) t).evaluate source s = (.error e', u, s') := by
  unfold totalWith
  -- No addition is put at the root for a modifier of zero, while zero is added to the total all the
  -- same.
  by_cases hk : k = 0
  · have hmodified : Formula.modified (.int k) t = t := by
      simp [Formula.modified, hk, Number.same, Number.zero]
    rw [hmodified]
    rcases hevaluate : t.evaluate source s with ⟨e | a, u, s'⟩
    · exact .inr ⟨e, e, u, s', rfl, rfl⟩
    · obtain ⟨b, hb, hsame⟩ := Number.add_zero (evaluate_definite hdefinite hevaluate)
      have hb : a.add (.int k) = .ok b := hk ▸ hb
      refine .inl ⟨a, b, u, s', ?_, rfl, hsame⟩
      dsimp only
      rw [hb]
  · have hmodified : Formula.modified (.int k) t = .node .add t (.ofNumber (.int k)) none := by
      cases t with
      | empty => cases hne
      | leaf | node => simp [Formula.modified, hk, Number.same, Number.zero, orZero]
    obtain ⟨u, hu⟩ := @evaluate_addition σ source t hne (.int k) s
    rw [hmodified, hu]
    rcases t.evaluate source s with ⟨e | a, v, s'⟩
    · exact .inr ⟨e, e, u, s', rfl, rfl⟩
    · dsimp only
      cases hb : a.add (.int k) with
      | error fault => exact .inr ⟨.fault fault, .evaluation fault, u, s', rfl, rfl⟩
      | ok b => exact .inl ⟨b, b, u, s', rfl, rfl, Number.same_self (Number.definite_add hb)⟩

end Tree

namespace Formula

inductive Written : Formula → Prop
  | text (source : Text) : Written (.text source)
  | compiled {source : Text} {modifier : Number} {t u : Tree} :
      compile (.text source) modifier = .ok u → t.bare = u.bare → Written (.tree t)

/-- A text shows the formula and its modifier, and behind them a total that is equal to this one. -/
def Explains (f : Formula) (mode : Mode) (modifier b : Number) (text : Text) : Prop :=
  ∃ (t u : Tree) (formula : Text) (a : Number), f.toTree = .ok t ∧
    u.bare = (modified modifier (t.inMode mode)).bare ∧
    Tree.shownItems (u.inOrder Tree.shownAsValue) = .ok formula ∧ Tree.totalOf u.known = .ok a ∧
    text = formula ++ ascii [' ', '=', ' '] ++ a.text ∧ a.same b = true

def compiledTotal (source : Source σ) (f : Formula) (modifier : Number) :
    Rolling σ Failure Number :=
  fun s =>
    match compile f modifier with
    | .error failure => (.error failure, s)
    | .ok t =>
      match t.evaluate source s with
      | (result, _, s) => (result, s)

variable {f : Formula} {source : Source σ} {s : σ} {mode : Mode} {t : Tree}

theorem Written.definite (hf : f.Written) (ht : f.toTree = .ok t) :
    t.isEmpty = false ∧ t.Definite := by
  cases hf with
  | text source => exact Tree.ofText_definite ht
  | @compiled source modifier t u hcompile hbare =>
    cases ht
    rw [Tree.isEmpty_of_bare_eq hbare, ← Tree.definite_bare, hbare, Tree.definite_bare]
    simp only [compile, toTree] at hcompile
    cases hv : Tree.ofText source with
    | error e =>
      rw [hv] at hcompile
      cases hcompile
    | ok v =>
      rw [hv] at hcompile
      cases hcompile
      unfold modified
      -- The modifier itself may be no number: an addition at the root refuses it.
      split
      · exact Tree.ofText_definite hv
      · exact ⟨rfl, fun hsign => by cases hsign⟩

theorem Written.total_eq (hf : f.Written) (source : Source σ) (mode : Mode)
    (modifier : Number) (s : σ) :
    f.total source mode modifier s = match f.toTree with
      | .error error => (.error (.parse error), s)
      | .ok t => (t.inMode mode).totalWith source modifier s := by
  cases hf <;> rfl

theorem explain_evaluated {t u : Tree} {a : Number} {s' : σ} (hne : t.isEmpty = false)
    (h : t.evaluate source s = (.ok a, u, s')) :
    ∃ formula, Tree.shownItems (u.inOrder Tree.shownAsValue) = .ok formula ∧
      u.explain source s' = (.ok (formula ++ ascii [' ', '=', ' '] ++ a.text), u, s') := by
  obtain ⟨hsettled, htotal, hbare⟩ := Tree.evaluate_settled h
  have hne' : u.isEmpty = false := (Tree.isEmpty_of_bare_eq hbare).trans hne
  obtain ⟨formula, hformula⟩ := hsettled.exists_shown
  refine ⟨formula, hformula, ?_⟩
  rw [Tree.explain_of_known (hsettled.known_isSome hne'), Tree.explanation_of_shown hformula htotal]
  rfl

theorem isEmpty_modified (modifier : Number) (t : Tree) (h : t.isEmpty = false) :
    (modified modifier t).isEmpty = false := by
  unfold modified
  split
  · exact h
  · rfl

theorem agree_explanation (hf : f.Written) (mode : Mode) (k : Int) (source : Source σ) (s : σ) :
    Rolling.Agree (f.Explains mode (.int k)) (f.total source mode (.int k))
      (f.explanation source mode (.int k)) s := by
  unfold Rolling.Agree explanation
  rw [hf.total_eq]
  cases ht : f.toTree with
  | error e => exact .inr ⟨.parse e, .parse e, s, rfl, rfl⟩
  | ok t =>
    obtain ⟨hne, hdefinite⟩ := hf.definite ht
    rw [← Tree.isEmpty_inMode mode] at hne
    rw [← Tree.definite_inMode mode] at hdefinite
    obtain ⟨a, b, u, s', hb, ha, hsame⟩ | ⟨e, e', u, s', he, he'⟩ :=
      @Tree.evaluate_modified σ source _ hne hdefinite k s
    · obtain ⟨formula, hformula, hexplain⟩ := explain_evaluated (isEmpty_modified _ _ hne) ha
      obtain ⟨-, htotal, hbare⟩ := Tree.evaluate_settled ha
      refine .inl ⟨b, _, s', hb, ?_, t, u, formula, a, ht, hbare, hformula, htotal, rfl, hsame⟩
      simp only [ha, hexplain]
    · refine .inr ⟨e, e', s', he, ?_⟩
      simp only [he']

theorem agree_compiledTotal (text : Text) (k : Int) (source : Source σ) (s : σ) :
    Rolling.Agree (fun a b => b.same a = true) ((Formula.text text).total source .normal (.int k))
      ((Formula.text text).compiledTotal source (.int k)) s := by
  unfold Rolling.Agree compiledTotal
  rw [(Written.text text).total_eq]
  simp only [compile, toTree]
  cases ht : Tree.ofText text with
  | error e => exact .inr ⟨.parse e, .parse e, s, rfl, rfl⟩
  | ok t =>
    obtain ⟨hne, hdefinite⟩ := Tree.ofText_definite ht
    simp only [Tree.inMode_normal]
    obtain ⟨a, b, u, s', hb, ha, hsame⟩ | ⟨e, e', u, s', he, he'⟩ :=
      @Tree.evaluate_modified σ source _ hne hdefinite k s
    · refine .inl ⟨b, a, s', hb, ?_, hsame⟩
      simp only [ha]
    · refine .inr ⟨e, e', s', he, ?_⟩
      simp only [he']

/-- The total of a formula belongs to its explanation, and it is the total of the tree compiled from
it. Both draw the same, as is seen when the draws are kept, and fail together. -/
theorem total_agrees (source : Source σ) (f : Formula) (hf : f.Written) (mode : Mode)
    (k : Int) (s : σ) (draws : List Draw) :
    Rolling.Agree (f.Explains mode (.int k)) (f.total source mode (.int k))
      (f.explanation source mode (.int k)) s ∧
    Rolling.Agree (f.Explains mode (.int k)) (f.total source.recorded mode (.int k))
      (f.explanation source.recorded mode (.int k)) (s, draws) ∧
    ∀ text, f = .text text →
      Rolling.Agree (fun a b => b.same a = true) (f.total source .normal (.int k))
        (f.compiledTotal source (.int k)) s ∧
      Rolling.Agree (fun a b => b.same a = true) (f.total source.recorded .normal (.int k))
        (f.compiledTotal source.recorded (.int k)) (s, draws) := by
  refine ⟨agree_explanation hf mode k source s,
    agree_explanation hf mode k source.recorded (s, draws), ?_⟩
  rintro text rfl
  exact ⟨agree_compiledTotal text k source s, agree_compiledTotal text k source.recorded (s, draws)⟩

theorem total_agrees_throw :
    ∃ text, (Formula.tree (.node (.dice .plain) (.ofNumber (.int 1)) (.ofNumber (.int 6))
        (some (.number (.int 2))))).explanation (Script.source 0) .normal (.int 3)
          (Script.steady 4) =
      (.ok text, Script.steady 4) ∧
    (Formula.tree (.node (.dice .plain) (.ofNumber (.int 1)) (.ofNumber (.int 6))
        (some (.number (.int 2))))).Explains .normal (.int 3) (.int 7) text := by
  have hcompile : compile (.text (ascii ['1', 'd', '6'])) (.int 0) =
      .ok (.node (.dice .plain) (.ofNumber (.int 1)) (.ofNumber (.int 6)) none) := by decide +kernel
  have hf : (Formula.tree (.node (.dice .plain) (.ofNumber (.int 1)) (.ofNumber (.int 6))
      (some (.number (.int 2))))).Written := .compiled hcompile rfl
  have htotal : (Formula.tree (.node (.dice .plain) (.ofNumber (.int 1)) (.ofNumber (.int 6))
      (some (.number (.int 2))))).total (Script.source 0) .normal (.int 3) (Script.steady 4) =
        (.ok (.int 7), Script.steady 4) := by decide +kernel
  obtain ⟨a, text, s', ha, htext, hexplains⟩ | ⟨e, e', s', he, -⟩ :=
    (total_agrees (Script.source 0) _ hf .normal 3 (Script.steady 4) []).1
  · cases htotal.symm.trans ha
    exact ⟨text, htext, hexplains⟩
  · cases htotal.symm.trans he

end Formula

end DiceFormula
