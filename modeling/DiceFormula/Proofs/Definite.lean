import DiceFormula.Mode
import DiceFormula.Proofs.Applying
import DiceFormula.Proofs.Evaluating
import DiceFormula.Proofs.Munch

/-! Values that are numbers at all. Every operation refuses a result that is none, so that only a
sign hands one on, from a literal that was none to begin with. -/
namespace DiceFormula

namespace Binary64

theorem isNaN_round (q : Rat) : (round q).isNaN = false := by
  unfold round
  split
  · rfl
  · dsimp only
    split
    · rfl
    · split <;> rfl

theorem isNaN_neg (x : Binary64) : x.neg.isNaN = x.isNaN := by
  cases x <;> rfl

theorem same_add_zero {x : Binary64} (h : x.isNaN = false) :
    (x.add (.zero false)).isNaN = false ∧ x.same (x.add (.zero false)) = true := by
  cases x with
  | nan => cases h
  | infinite | zero | finite => simp [add, isNaN, same, place]

end Binary64

namespace Number

def Definite (a : Number) : Prop := a.toReal.isNaN = false

variable {a b c : Number}

theorem definite_int (n : Int) : (int n).Definite := Binary64.isNaN_round n

theorem definite_of_ofReal {x : Binary64} (h : ofReal x = .ok a) : a.Definite := by
  unfold ofReal at h
  split at h
  · cases h
  · next hnan =>
    cases h
    exact (Bool.not_eq_true _).mp hnan

theorem definite_of_exactOr {exact : Traced (Option Int)} {real : Unit → Binary64}
    (h : (exactOr exact real).value = .ok a) : a.Definite := by
  rw [exactOr, Traced.value_bind] at h
  split at h
  · cases h
    exact definite_int _
  · exact definite_of_ofReal h

theorem definite_add (h : a.add b = .ok c) : c.Definite := by
  unfold add addTraced at h
  split at h
  · exact definite_of_exactOr h
  · exact definite_of_ofReal h

theorem definite_sub (h : a.sub b = .ok c) : c.Definite := by
  unfold sub subTraced at h
  split at h
  · exact definite_of_exactOr h
  · exact definite_of_ofReal h

theorem definite_mul (h : a.mul b = .ok c) : c.Definite := by
  unfold mul mulTraced at h
  split at h
  · exact definite_of_exactOr h
  · exact definite_of_ofReal h

theorem definite_div (h : a.div b = .ok c) : c.Definite := by
  unfold div at h
  split at h
  · cases h
  · exact definite_of_ofReal h

theorem definite_mod (h : a.mod b = .ok c) : c.Definite := by
  unfold mod modTraced at h
  split at h
  · cases h
  · split at h
    · cases h
      exact definite_int _
    · exact definite_of_ofReal h

theorem definite_power (h : a.power b = .ok c) : c.Definite := by
  unfold power powerTraced at h
  split at h
  · cases h
  · split at h
    · split at h
      · exact definite_of_exactOr h
      · exact definite_of_ofReal h
    · exact definite_of_ofReal h

theorem definite_neg (h : a.Definite) : a.neg.Definite := by
  cases a with
  | int n =>
    rw [neg, negTraced, Traced.value_bind]
    split
    · exact definite_int _
    · exact (Binary64.isNaN_neg _).trans (Binary64.isNaN_round _)
  | real x => exact (Binary64.isNaN_neg x).trans h

theorem definite_risingProduct {factors : Nat} {next : Int} (ha : a.Definite)
    (h : (risingProduct a next factors).value = .ok b) : b.Definite := by
  induction factors generalizing a next with
  | zero =>
    cases h
    exact ha
  | succ factors ih =>
    rw [risingProduct, Traced.value_bind] at h
    split at h
    · next product hproduct => exact ih (definite_mul hproduct) h
    · cases h

theorem definite_factorial {n : Int} (h : factorial n = .ok a) : a.Definite := by
  unfold factorial factorialTraced at h
  split at h
  · cases h
  · split at h
    · cases h
    · exact definite_risingProduct (definite_int 1) h

theorem definite_ofBool (b : Bool) : (ofBool b).Definite := by
  cases b <;> exact definite_int _

theorem definite_sumFrom {values : List Number} (ha : a.Definite) (h : sumFrom a values = .ok b) :
    b.Definite := by
  induction values generalizing a with
  | nil =>
    cases h
    exact ha
  | cons first rest ih =>
    rw [sumFrom] at h
    split at h
    · next next hnext => exact ih (definite_add hnext) h
    · cases h

theorem same_self (h : a.Definite) : a.same a = true := by
  cases a with
  | int n => simp [same]
  | real x =>
    cases x with
    | nan => cases h
    | infinite | zero | finite => simp [same, toReal, Binary64.same, Binary64.place]

theorem sameList_self {numbers : List Number} (h : ∀ a ∈ numbers, a.Definite) :
    sameList numbers numbers = true := by
  induction numbers with
  | nil => rfl
  | cons a numbers ih =>
    rw [List.forall_mem_cons] at h
    rw [sameList, same_self h.1, ih h.2]
    rfl

theorem add_zero (h : a.Definite) : ∃ b, a.add .zero = .ok b ∧ a.same b = true := by
  obtain ⟨hnan, hsame⟩ := Binary64.same_add_zero h
  have hzero : Number.zero.toReal = .zero false := by decide
  have hreal : ofReal (a.toReal.add Number.zero.toReal) =
      .ok (.real (a.toReal.add (.zero false))) := by
    rw [hzero, ofReal, hnan]
    rfl
  cases a with
  | real x => exact ⟨_, hreal, hsame⟩
  | int n =>
    by_cases hlow : n < Word.least
    · have hsum : (Word.sum? n 0).value = none := by
        simp [Word.sum?, hlow]
      refine ⟨.real ((int n).toReal.add (.zero false)), ?_, hsame⟩
      rw [← hreal]
      simp only [add, addTraced, zero, exactOr, Traced.value_bind, hsum]
      rfl
    · have hsum : (Word.sum? n 0).value = some n := by
        simp [Word.sum?, hlow]
      refine ⟨.int n, ?_, by simp [same]⟩
      simp only [add, addTraced, zero, exactOr, Traced.value_bind, hsum]
      rfl

end Number

def Value.Definite : Value → Prop
  | .number a => a.Definite
  | _ => True

theorem Value.definite_total {v : Value} (hv : v.Definite) {a : Number} (h : v.total = .ok a) :
    a.Definite := by
  cases v with
  | number b =>
    cases h
    exact hv
  | faces values => exact Number.definite_sumFrom (Number.definite_int 0) h
  | roll r => exact Number.definite_sumFrom (Number.definite_int 0) h

namespace Operator

variable {σ : Type} {source : Source σ} {s t : σ} {op : Operator} {v : Value}

theorem definite_arithmetic {left right : Value} {n : Number} (h : op.arithmetic left right = .ok n)
    (hright : op.isSign = true → right.Definite) : n.Definite := by
  cases op with
  | factorial =>
    obtain ⟨m, -, hm⟩ := exists_of_bind_eq_ok h
    exact Number.definite_factorial hm
  | negate =>
    cases right with
    | number a =>
      cases h
      exact Number.definite_neg (hright rfl)
    | faces | roll => cases h
  | affirm =>
    cases right with
    | number a =>
      cases h
      exact hright rfl
    | faces | roll => cases h
  | power =>
    obtain ⟨⟨a, b⟩, -, hab⟩ := exists_of_bind_eq_ok h
    exact Number.definite_power hab
  | multiply =>
    obtain ⟨⟨a, b⟩, -, hab⟩ := exists_of_bind_eq_ok h
    exact Number.definite_mul hab
  | divide =>
    obtain ⟨⟨a, b⟩, -, hab⟩ := exists_of_bind_eq_ok h
    exact Number.definite_div hab
  | modulo =>
    obtain ⟨⟨a, b⟩, -, hab⟩ := exists_of_bind_eq_ok h
    exact Number.definite_mod hab
  | subtract =>
    obtain ⟨⟨a, b⟩, -, hab⟩ := exists_of_bind_eq_ok h
    exact Number.definite_sub hab
  | add =>
    obtain ⟨⟨a, b⟩, -, hab⟩ := exists_of_bind_eq_ok h
    exact Number.definite_add hab
  -- A comparison gives one or zero, and so does the arithmetic of operators that have none.
  | _ =>
    obtain ⟨⟨a, b⟩, -, hab⟩ := exists_of_bind_eq_ok h
    cases hab
    exact Number.definite_ofBool _

theorem act_cases {left right : Value} (h : op.act source left right s = (.ok v, t)) :
    (∃ r, v = .roll r) ∨ ∃ n, v = .number n ∧ op.arithmetic left right = .ok n := by
  cases op with
  | dice | keep | clamp | rerollEqual | rerollBeyond | threshold =>
    obtain ⟨r, st, -, hresult⟩ := Rolling.bind_eq_ok h
    cases hresult
    exact .inl ⟨r, rfl⟩
  | _ =>
    obtain ⟨n, st, hn, hresult⟩ := Rolling.bind_eq_ok h
    cases hresult
    exact .inr ⟨n, rfl, (Prod.mk.inj hn).1⟩

theorem definite_operand {taken summed : Bool} {missing : Fault} {given : Option Value}
    (h : operand taken summed missing given = .ok v) (hgiven : ∀ w, given = some w → w.Definite) :
    v.Definite := by
  unfold operand at h
  split at h
  · cases h
    exact Number.definite_int 0
  · cases given with
    | none => cases h
    | some w =>
      dsimp only at h
      split at h
      · obtain ⟨a, htotal, hv⟩ := exists_of_bind_eq_ok h
        cases hv
        exact Value.definite_total (hgiven w rfl) htotal
      · cases h
        exact hgiven _ rfl

theorem definite_apply {left right : Option Value} (h : op.apply source left right s = (.ok v, t))
    (hright : op.isSign = true → ∀ w, right = some w → w.Definite) : v.Definite := by
  obtain ⟨a, st, -, h⟩ := Rolling.bind_eq_ok h
  obtain ⟨b, st', hb, h⟩ := Rolling.bind_eq_ok h
  obtain ⟨r, rfl⟩ | ⟨n, rfl, hn⟩ := act_cases h
  · trivial
  · exact definite_arithmetic hn fun hsign => definite_operand (Prod.mk.inj hb).1 (hright hsign)

end Operator

namespace Tree

variable {σ : Type} {source : Source σ} {s s' : σ} {t u : Tree}

/-- No literal that is no number is at the top or only below signs. -/
def Definite : Tree → Prop
  | .empty => True
  | .leaf content _ => content.value.Definite
  | .node op _ right _ => op.isSign = true → right.Definite

theorem run_definite (h : t.Definite) {v : Value} (hrun : run source t s = (.ok (some v), u, s')) :
    v.Definite := by
  induction t generalizing s s' u v with
  | empty => cases hrun
  | leaf content known =>
    cases hrun
    exact h
  | node op left right known ihleft ihright =>
    obtain ⟨a, left', s₁, b, right', s₂, w, hleft, hright, happly, hv, -⟩ := run_node_ok hrun
    cases hv
    exact Operator.definite_apply happly fun hsign w hb => ihright (h hsign) (hb ▸ hright)

theorem evaluate_definite (h : t.Definite) {a : Number}
    (hevaluate : t.evaluate source s = (.ok a, u, s')) : a.Definite := by
  obtain ⟨v, hrun, htotal⟩ := evaluate_eq_ok_iff.mp hevaluate
  cases v with
  | none =>
    cases htotal
    exact Number.definite_int 0
  | some v => exact Value.definite_total (run_definite h hrun) htotal

@[simp] theorem definite_bare (t : Tree) : t.bare.Definite ↔ t.Definite := by
  induction t with
  | empty | leaf => rfl
  | node op left right known _ ihright => simp only [bare, Definite, ihright]

@[simp] theorem definite_inMode (mode : Mode) (t : Tree) :
    (t.inMode mode).Definite ↔ t.Definite := by
  induction t with
  | empty | leaf => rfl
  | node op left right known _ ihright =>
    have hsign : (op.inMode mode).isSign = op.isSign := by
      cases op <;> rfl
    simp only [inMode, Definite, hsign, ihright]

end Tree

end DiceFormula
