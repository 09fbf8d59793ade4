import DiceFormula.Proofs.Reshaping

/-! Modes put on a tree one after the other. The ways of throwing dice form a chain, and a mode
lifts every die to its own place in the chain and leaves those above it alone. So only the strongest
of several modes counts, wherever it comes and however often. -/
namespace DiceFormula

def Throw.strength : Throw → Nat
  | .plain => 0
  | .average => 1
  | .critical => 2
  | .maximum => 3

namespace Mode

def strength : Mode → Nat
  | .normal => 0
  | .average => 1
  | .critical => 2
  | .maximum => 3

theorem strength_throw (mode : Mode) (throw : Throw) :
    (mode.throw throw).strength = max mode.strength throw.strength := by
  cases mode <;> cases throw <;> rfl

end Mode

theorem Throw.eq_of_strength {throw other : Throw} (h : throw.strength = other.strength) :
    throw = other := by
  cases throw <;> cases other <;> simp [strength] at h ⊢

variable {mode weaker : Mode}

namespace Mode

theorem throw_stronger (h : weaker.strength ≤ mode.strength) (throw : Throw) :
    mode.throw (weaker.throw throw) = mode.throw throw := by
  apply Throw.eq_of_strength
  rw [strength_throw, strength_throw, strength_throw, ← Nat.max_assoc, Nat.max_eq_left h]

theorem throw_weaker (h : weaker.strength ≤ mode.strength) (throw : Throw) :
    weaker.throw (mode.throw throw) = mode.throw throw := by
  apply Throw.eq_of_strength
  rw [strength_throw, strength_throw, ← Nat.max_assoc, Nat.max_eq_right h]

end Mode

namespace Tree

theorem inMode_inMode {first second both : Mode}
    (h : ∀ throw, second.throw (first.throw throw) = both.throw throw)
    (t : Tree) : (t.inMode first).inMode second = t.inMode both := by
  induction t with
  | empty | leaf => rfl
  | node op left right known ihLeft ihRight =>
    have hop : (op.inMode first).inMode second = op.inMode both := by
      cases op with
      | dice throw => exact congrArg Operator.dice (h throw)
      | _ => rfl
    rw [inMode, inMode, inMode, hop, ihLeft, ihRight]

def rewrittenBy (modes : List Mode) (t : Tree) : Except Fault Tree :=
  modes.foldlM (fun t mode => t.rewritten mode) t

theorem rewrittenBy_cons (mode : Mode) (modes : List Mode) (t : Tree) :
    t.rewrittenBy (mode :: modes) = (t.inMode mode).rewrittenBy modes := by
  rw [rewrittenBy, List.foldlM_cons, rewritten_eq]
  rfl

theorem rewrittenBy_after {modes : List Mode} (h : ∀ m ∈ modes, m.strength ≤ mode.strength)
    (t : Tree) :
    (t.inMode mode).rewrittenBy modes = .ok (t.inMode mode) := by
  induction modes with
  | nil => rfl
  | cons m modes ih =>
    obtain ⟨hm, hmodes⟩ := List.forall_mem_cons.mp h
    rw [rewrittenBy_cons, inMode_inMode (Mode.throw_weaker hm), ih hmodes]

theorem rewrittenBy_eq {modes : List Mode} (hmode : mode ∈ modes)
    (h : ∀ m ∈ modes, m.strength ≤ mode.strength)
    (t : Tree) : t.rewrittenBy modes = .ok (t.inMode mode) := by
  induction modes generalizing t with
  | nil => cases hmode
  | cons m modes ih =>
    obtain ⟨hm, hmodes⟩ := List.forall_mem_cons.mp h
    rw [rewrittenBy_cons]
    obtain rfl | hlater := List.mem_cons.mp hmode
    · exact rewrittenBy_after hmodes t
    · -- What the first mode did is overridden when the strongest one comes.
      rw [ih hlater hmodes, inMode_inMode (Mode.throw_stronger hm)]

def plainDice : Tree → Tree
  | .empty => .empty
  | .leaf content known => .leaf content known
  | .node (.dice _) left right known => .node (.dice .plain) left.plainDice right.plainDice known
  | .node op left right known => .node op left.plainDice right.plainDice known

@[simp] theorem plainDice_inMode (mode : Mode) (t : Tree) :
    (t.inMode mode).plainDice = t.plainDice := by
  induction t with
  | empty | leaf => rfl
  | node op left right known ihLeft ihRight =>
    cases op <;> simp only [inMode, Operator.inMode, plainDice, ihLeft, ihRight]

/-- Of several modes put on a tree in any order, some of them perhaps more than once, the strongest
one prevails as if it were the only one. The result differs from the tree in how dice are thrown and
in nothing else. -/
theorem rewrittenBy_strongest (t : Tree) (modes : List Mode) (mode : Mode) (hmode : mode ∈ modes)
    (hstrongest : ∀ m ∈ modes, m.strength ≤ mode.strength) :
    t.rewrittenBy modes = t.rewritten mode ∧ t.rewritten mode = .ok (t.inMode mode) ∧
      (t.inMode mode).plainDice = t.plainDice := by
  rw [rewritten_eq]
  exact ⟨rewrittenBy_eq hmode hstrongest t, rfl, plainDice_inMode mode t⟩

theorem rewrittenBy_strongest_critical :
    let t : Tree := .node (.keep .high)
      (.node (.dice .average)
        (.node (.dice .plain) (.ofNumber (.int 1)) (.ofNumber (.int 4)) none)
        (.node (.dice .maximum) (.ofNumber (.int 2)) (.ofNumber (.int 3)) none)
        (some (.number (.int 5))))
      (.node (.dice .critical) (.ofNumber (.int 1)) (.ofNumber (.int 2)) none) none
    let u : Tree := .node (.keep .high)
      (.node (.dice .critical)
        (.node (.dice .critical) (.ofNumber (.int 1)) (.ofNumber (.int 4)) none)
        (.node (.dice .maximum) (.ofNumber (.int 2)) (.ofNumber (.int 3)) none)
        (some (.number (.int 5))))
      (.node (.dice .critical) (.ofNumber (.int 1)) (.ofNumber (.int 2)) none) none
    t.rewrittenBy [.average, .critical, .average, .critical] = .ok u ∧
    u.plainDice = t.plainDice := by
  intro t u
  obtain ⟨hall, hone, hplain⟩ :=
    rewrittenBy_strongest t [.average, .critical, .average, .critical] .critical
      (by decide) (by decide)
  exact ⟨hall.trans hone, hplain⟩

end Tree

end DiceFormula
