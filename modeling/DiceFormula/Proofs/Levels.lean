import DiceFormula.Proofs.Climbing

/-! Infix notation in layers. Outside parentheses an operand of an operator holds only operators of
a level that the operator allows on that side, and what binds more weakly stands in parentheses.
Climbing reads such notation back. -/
namespace DiceFormula

namespace Operator

def leftLevel (op : Operator) : Nat :=
  if op.associativity = .right then op.precedence + 1 else op.precedence

def rightLevel (op : Operator) : Nat :=
  if op.arity = .both ∧ op.associativity = .left then op.precedence + 1 else op.precedence

theorem precedence_le_leftLevel (op : Operator) : op.precedence ≤ op.leftLevel := by
  unfold leftLevel
  split <;> omega

theorem precedence_le_rightLevel (op : Operator) : op.precedence ≤ op.rightLevel := by
  unfold rightLevel
  split <;> omega

theorem reducesBefore_of_leftLevel {op other : Operator} (hop : op.arity ≠ .right)
    (h : op.leftLevel ≤ other.precedence) : other.reducesBefore op = true := by
  have hall : ∀ op ∈ all, ∀ other ∈ all, op.arity ≠ .right → op.leftLevel ≤ other.precedence →
      other.reducesBefore op = true := by decide +kernel
  exact hall op (mem_all op) other (mem_all other) hop h

theorem not_reducesBefore_of_rightLevel {op other : Operator} (hop : op.arity ≠ .left)
    (hother : other.arity ≠ .right) (h : op.rightLevel ≤ other.precedence) :
    op.reducesBefore other = false := by
  have hall : ∀ op ∈ all, ∀ other ∈ all, op.arity ≠ .left → other.arity ≠ .right →
      op.rightLevel ≤ other.precedence → op.reducesBefore other = false := by decide +kernel
  exact hall op (mem_all op) other (mem_all other) hop hother h

end Operator

def Tree.hasPrecedence (level : Nat) : Tree → Bool
  | .node op _ _ _ => op.precedence == level
  | _ => false

namespace Infix

/-- The symbols of a tree in which all operators outside parentheses have at least the precedence of
the level. -/
inductive Writes : Nat → List Symbol → Tree → Prop
  | literal {level : Nat} (content : Literal) : Writes level [.literal content] (.leaf content none)
  | group {level lower : Nat} {s : List Symbol} {t : Tree} : t.hasPrecedence lower = true →
      lower < level → Writes 0 s t → Writes level (.opening :: s ++ [.closing]) t
  | prefixed {level : Nat} {s : List Symbol} {op : Operator} {right : Tree} : op.arity = .right →
      level ≤ op.precedence → Writes op.rightLevel s right →
      Writes level (.operator op :: s) (.node op .empty right none)
  | postfixed {level : Nat} {s : List Symbol} {op : Operator} {left : Tree} : op.arity = .left →
      level ≤ op.precedence → Writes op.leftLevel s left →
      Writes level (s ++ [.operator op]) (.node op left .empty none)
  | binary {level : Nat} {s u : List Symbol} {op : Operator} {left right : Tree} :
      op.arity = .both →
      level ≤ op.precedence → Writes op.leftLevel s left → Writes op.rightLevel u right →
      Writes level (s ++ .operator op :: u) (.node op left right none)

def Completes (level : Nat) (s : List Symbol) : Prop :=
  ∀ op : Operator, level ≤ op.precedence → Stops (some op) s

def Admits (level : Nat) (pending : Option Operator) : Prop :=
  ∀ op : Operator, op.arity ≠ .right → level ≤ op.precedence → closes pending op = false

variable {level other : Nat} {pending : Option Operator} {s rest : List Symbol} {t : Tree}

theorem Completes.mono (h : Completes level s) (hle : level ≤ other) : Completes other s :=
  fun op hop => h op (Nat.le_trans hle hop)

theorem Admits.mono (h : Admits level pending) (hle : level ≤ other) : Admits other pending :=
  fun op harity hop => h op harity (Nat.le_trans hle hop)

theorem completes_closing : Completes level (.closing :: s) := fun _ _ => trivial

theorem completes_nil : Completes level [] := fun _ _ => trivial

theorem completes_operator {op : Operator} (hop : op.arity ≠ .right) :
    Completes op.leftLevel (.operator op :: s) :=
  fun _ hlevel => ⟨hop, Operator.reducesBefore_of_leftLevel hop hlevel⟩

theorem admits_none : Admits level none := fun _ _ _ => rfl

theorem admits_some {op : Operator} (hop : op.arity ≠ .left) : Admits op.rightLevel (some op) :=
  fun _ hother hlevel => Operator.not_reducesBefore_of_rightLevel hop hother hlevel

theorem Stops.climbs {op : Operator} (h : Stops (some op) rest) :
    Climbs (some op) (some t) rest t rest := by
  match rest, h with
  | [], _ => exact .finished
  | .closing :: _, _ => exact .ungroup
  | .operator _ :: _, h => exact .closed h.1 h.2

theorem Writes.climbs (h : Writes level s t) :
    ∀ {pending : Option Operator} {rest : List Symbol} {u : Tree} {rest' : List Symbol},
      Admits level pending → Completes level rest → Climbs pending (some t) rest u rest' →
      Climbs pending none (s ++ rest) u rest' := by
  -- What pends, and what follows the notation, stay open: a part is read inside of any whole that
  -- lets it in.
  induction h with
  | literal content =>
    intro pending rest u rest' _ _ hafter
    exact .literal hafter
  | group _ _ _ ih =>
    intro pending rest u rest' _ _ hafter
    rw [List.append_assoc]
    exact .group (ih admits_none completes_closing .ungroup) hafter
  | @prefixed level s op right hop hlevel _ ih =>
    intro pending rest u rest' _ hrest hafter
    have hright : op.arity ≠ .left := by simp [hop]
    have hdeep := hrest.mono (Nat.le_trans hlevel op.precedence_le_rightLevel)
    exact .prefixed hop (ih (admits_some hright) hdeep (hrest op hlevel).climbs) hafter
  | @postfixed level s op left hop hlevel _ ih =>
    intro pending rest u rest' hadmits _ hafter
    have hleft : op.arity ≠ .right := by simp [hop]
    have hdeep := hadmits.mono (Nat.le_trans hlevel op.precedence_le_leftLevel)
    rw [List.append_assoc]
    exact ih hdeep (completes_operator hleft) (.postfixed hop (hadmits op hleft hlevel) hafter)
  | @binary level s u op left right hop hlevel _ _ ihleft ihright =>
    intro pending rest v rest' hadmits hrest hafter
    have hleft : op.arity ≠ .right := by simp [hop]
    have hright : op.arity ≠ .left := by simp [hop]
    have hadmits' := hadmits.mono (Nat.le_trans hlevel op.precedence_le_leftLevel)
    have hrest' := hrest.mono (Nat.le_trans hlevel op.precedence_le_rightLevel)
    have hoperand := ihright (admits_some hright) hrest' (hrest op hlevel).climbs
    rw [List.append_assoc]
    exact ihleft hadmits' (completes_operator hleft)
      (.binary hop (hadmits op hleft hlevel) hoperand hafter)

theorem Writes.climbs_all (h : Writes level s t) : Climbs none none s t [] := by
  have hclimbs := h.climbs admits_none completes_nil .finished
  rwa [List.append_nil] at hclimbs

theorem Writes.succ (h : Writes level s t) (hne : t.hasPrecedence level = false) :
    Writes (level + 1) s t := by
  have hlt {op : Operator} {left right : Tree} (hroot : t = .node op left right none)
      (hlevel : level ≤ op.precedence) : level + 1 ≤ op.precedence := by
    subst hroot
    have hother : op.precedence ≠ level := by simpa [Tree.hasPrecedence] using hne
    omega
  cases h with
  | literal content => exact .literal content
  | group hroot hlevel inner => exact .group hroot (Nat.lt_succ_of_lt hlevel) inner
  | prefixed hop hlevel inner => exact .prefixed hop (hlt rfl hlevel) inner
  | postfixed hop hlevel inner => exact .postfixed hop (hlt rfl hlevel) inner
  | binary hop hlevel left right => exact .binary hop (hlt rfl hlevel) left right

end Infix

end DiceFormula
