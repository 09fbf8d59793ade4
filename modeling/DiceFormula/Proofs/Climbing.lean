import DiceFormula.Proofs.Infix
import DiceFormula.Tree.Basic

/-! Precedence climbing, the reading of infix notation that needs no stacks. It gives every
expression one tree, and only expressions have one. -/
namespace DiceFormula

/-- The literals and operators of a tree, each operator between its operands. -/
def Tree.symbols : Tree → List Symbol
  | .empty => []
  | .leaf content _ => [.literal content]
  | .node op left right _ => left.symbols ++ .operator op :: right.symbols

namespace Infix

def ungrouped (s : List Symbol) : List Symbol := s.filter fun a => a ≠ .opening && a ≠ .closing

def closes (pending : Option Operator) (op : Operator) : Bool := pending.any (·.reducesBefore op)

/-- `Climbs pending left s t rest` reads the right operand of the pending operator, or a whole
expression when none is pending. Of it `left` has been read, if anything; the symbols `s` complete
it to `t` and leave `rest`. Only an operator that the pending one does not reduce before may stand
in its right operand. -/
inductive Climbs : Option Operator → Option Tree → List Symbol → Tree → List Symbol → Prop
  | literal {pending content s t rest} :
      Climbs pending (some (.leaf content none)) s t rest →
      Climbs pending none (.literal content :: s) t rest
  | group {pending s inner u t rest} :
      Climbs none none s inner (.closing :: u) → Climbs pending (some inner) u t rest →
      Climbs pending none (.opening :: s) t rest
  | prefixed {pending op s right u t rest} : op.arity = .right →
      Climbs (some op) none s right u →
      Climbs pending (some (.node op .empty right none)) u t rest →
      Climbs pending none (.operator op :: s) t rest
  | postfixed {pending op left s t rest} : op.arity = .left → closes pending op = false →
      Climbs pending (some (.node op left .empty none)) s t rest →
      Climbs pending (some left) (.operator op :: s) t rest
  | binary {pending op left s right u t rest} : op.arity = .both → closes pending op = false →
      Climbs (some op) none s right u → Climbs pending (some (.node op left right none)) u t rest →
      Climbs pending (some left) (.operator op :: s) t rest
  | closed {pending op left s} : op.arity ≠ .right → closes pending op = true →
      Climbs pending (some left) (.operator op :: s) left (.operator op :: s)
  | ungroup {pending left s} : Climbs pending (some left) (.closing :: s) left (.closing :: s)
  | finished {pending left} : Climbs pending (some left) [] left []

def Stops (pending : Option Operator) : List Symbol → Prop
  | [] => True
  | .closing :: _ => True
  | .operator op :: _ => op.arity ≠ .right ∧ closes pending op = true
  | _ => False

variable {pending : Option Operator} {left : Option Tree} {s rest : List Symbol} {t : Tree}

theorem Climbs.stops (h : Climbs pending left s t rest) : Stops pending rest := by
  induction h with
  | literal _ ih => exact ih
  | group _ _ _ ih => exact ih
  | prefixed _ _ _ _ ih => exact ih
  | postfixed _ _ _ ih => exact ih
  | binary _ _ _ _ _ ih => exact ih
  | closed hop hclosed => exact ⟨hop, hclosed⟩
  | ungroup => trivial
  | finished => trivial

theorem reducesBefore_of_arity_left {op : Operator} (h : op.arity = .left) (next : Operator) :
    op.reducesBefore next = true := by
  have hall : ∀ next ∈ Operator.all, Operator.factorial.reducesBefore next = true := by decide
  cases op with
  | factorial => exact hall next (Operator.mem_all next)
  | _ => simp [Operator.arity] at h

theorem Climbs.stops_of_postfix {left : Tree} (h : Climbs pending (some left) s t rest)
    {op : Operator} (hop : op.arity = .left) : Stops (some op) s := by
  have hcloses (next : Operator) : closes (some op) next = true := by
    simp [closes, reducesBefore_of_arity_left hop]
  cases h with
  | postfixed harity => exact ⟨by simp [harity], hcloses _⟩
  | binary harity => exact ⟨by simp [harity], hcloses _⟩
  | closed harity => exact ⟨harity, hcloses _⟩
  | ungroup => trivial
  | finished => trivial

theorem Climbs.unique (h : Climbs pending left s t rest) :
    ∀ {t' : Tree} {rest' : List Symbol}, Climbs pending left s t' rest' → t' = t ∧
    rest' = rest := by
  induction h with
  | literal _ ih =>
    intro t' rest' h'
    cases h' with
    | literal h' => exact ih h'
  | group _ _ ihinner ih =>
    intro t' rest' h'
    cases h' with
    | group hinner h' =>
      obtain ⟨rfl, hu⟩ := ihinner hinner
      cases hu
      exact ih h'
  | prefixed _ _ _ ihright ih =>
    intro t' rest' h'
    cases h' with
    | prefixed _ hright h' =>
      obtain ⟨rfl, rfl⟩ := ihright hright
      exact ih h'
  | postfixed harity hopen _ ih =>
    intro t' rest' h'
    cases h' with
    | postfixed _ _ h' => exact ih h'
    | binary harity' => simp [harity] at harity'
    | closed _ hclosed => simp [hopen] at hclosed
  | binary harity hopen _ _ ihright ih =>
    intro t' rest' h'
    cases h' with
    | postfixed harity' => simp [harity] at harity'
    | binary _ _ hright h' =>
      obtain ⟨rfl, rfl⟩ := ihright hright
      exact ih h'
    | closed _ hclosed => simp [hopen] at hclosed
  | closed harity hclosed =>
    intro t' rest' h'
    cases h' with
    | postfixed _ hopen => simp [hopen] at hclosed
    | binary _ hopen => simp [hopen] at hclosed
    | closed => exact ⟨rfl, rfl⟩
  | ungroup =>
    intro t' rest' h'
    cases h'
    exact ⟨rfl, rfl⟩
  | finished =>
    intro t' rest' h'
    cases h'
    exact ⟨rfl, rfl⟩

theorem Climbs.depth_le {left : Tree} (h : Climbs pending (some left) s t rest) :
    left.depth ≤ t.depth := by
  generalize hl : some left = l at h
  induction h generalizing left with
  | literal | group | prefixed => cases hl
  | @postfixed _ op inner _ _ _ _ _ _ ih =>
    cases hl
    exact Nat.le_trans (by simp only [Tree.depth]; omega) (ih rfl)
  | binary _ _ _ _ _ ih =>
    cases hl
    exact Nat.le_trans (by simp only [Tree.depth]; omega) (ih rfl)
  | closed | ungroup | finished =>
    cases hl
    exact Nat.le_refl _

def Reaches (pending : Option Operator) (left : Option Tree) (opened : Nat)
    (s : List Symbol) : Prop :=
  ∃ t rest, Climbs pending left s t rest ∧ completes false opened rest = true ∧
  rest.length ≤ s.length

def ReachesBelow (n : Nat) : Prop :=
  ∀ {pending : Option Operator} {left : Option Tree} {opened : Nat} {s : List Symbol},
    s.length < n → completes left.isNone opened s = true → Reaches pending left opened s

theorem Stops.exists_closing {opened : Nat} {u : List Symbol} (hstops : Stops none u)
    (hu : completes false (opened + 1) u = true) :
    ∃ v, u = .closing :: v ∧ completes false opened v = true := by
  cases u with
  | nil => simp [completes] at hu
  | cons a v =>
    cases a with
    | literal => simp [Stops] at hstops
    | opening => simp [Stops] at hstops
    | operator op => simp [Stops, closes] at hstops
    | closing => exact ⟨v, rfl, by simpa [completes] using hu⟩

theorem ReachesBelow.due {n : Nat} (below : ReachesBelow n) {opened : Nat} {a : Symbol}
    (hn : s.length < n) (hs : completes true opened (a :: s) = true) :
    Reaches pending none opened (a :: s) := by
  cases a with
  | literal content =>
    simp only [completes, Bool.true_and] at hs
    obtain ⟨t, rest, ht, hrest, hlen⟩ :=
      @below pending (some (.leaf content none)) _ _ hn hs
    exact ⟨t, rest, .literal ht, hrest, Nat.le_succ_of_le hlen⟩
  | opening =>
    simp only [completes, Bool.true_and] at hs
    obtain ⟨inner, u, hinner, hu, hlen⟩ := @below none none _ _ hn hs
    obtain ⟨v, rfl, hv⟩ := hinner.stops.exists_closing hu
    simp only [List.length_cons] at hlen
    obtain ⟨t, rest, ht, hrest, hlen'⟩ := @below pending (some inner) _ _ (by omega) hv
    exact ⟨t, rest, .group hinner ht, hrest, by simp only [List.length_cons]; omega⟩
  | closing => simp [completes] at hs
  | operator op =>
    rcases arity_cases op with hop | hop | hop
    · have htakes := takes_of_arity_right hop
      simp only [completes, htakes.1, htakes.2, Bool.not_false, beq_self_eq_true,
        Bool.true_and] at hs
      obtain ⟨right, u, hright, hu, hlen⟩ := @below (some op) none _ _ hn hs
      obtain ⟨t, rest, ht, hrest, hlen'⟩ :=
        @below pending (some (.node op .empty right none)) _ _ (by omega) hu
      exact ⟨t, rest, .prefixed hop hright ht, hrest, by simp only [List.length_cons]; omega⟩
    · simp [completes, takes_of_arity_left hop] at hs
    · simp [completes, takes_of_arity_both hop] at hs

theorem ReachesBelow.read {n : Nat} (below : ReachesBelow n) {left : Tree} {opened : Nat}
    {a : Symbol} (hn : s.length < n) (hs : completes false opened (a :: s) = true) :
    Reaches pending (some left) opened (a :: s) := by
  cases a with
  | literal content => simp [completes] at hs
  | opening => simp [completes] at hs
  | closing => exact ⟨left, _, .ungroup, hs, Nat.le_refl _⟩
  | operator op =>
    by_cases hright : op.arity = .right
    · simp [completes, takes_of_arity_right hright] at hs
    by_cases hcloses : closes pending op = true
    · exact ⟨left, _, .closed hright hcloses, hs, Nat.le_refl _⟩
    have hopen : closes pending op = false := by simpa using hcloses
    rcases arity_cases op with hop | hop | hop
    · exact absurd hop hright
    · have htakes := takes_of_arity_left hop
      simp only [completes, htakes.1, htakes.2, Bool.not_true, beq_self_eq_true,
        Bool.true_and] at hs
      obtain ⟨t, rest, ht, hrest, hlen⟩ :=
        @below pending (some (.node op left .empty none)) _ _ hn hs
      exact ⟨t, rest, .postfixed hop hopen ht, hrest, Nat.le_succ_of_le hlen⟩
    · have htakes := takes_of_arity_both hop
      simp only [completes, htakes.1, htakes.2, Bool.not_true, beq_self_eq_true,
        Bool.true_and] at hs
      obtain ⟨right, u, hright, hu, hlen⟩ := @below (some op) none _ _ hn hs
      obtain ⟨t, rest, ht, hrest, hlen'⟩ :=
        @below pending (some (.node op left right none)) _ _ (by omega) hu
      exact ⟨t, rest, .binary hop hopen hright ht, hrest, by simp only [List.length_cons]; omega⟩

theorem reachesBelow (n : Nat) : ReachesBelow n := by
  induction n with
  | zero => intro _ _ _ s hn; omega
  | succ n ih =>
    intro pending left opened s hn hs
    match left, s with
    | none, [] => simp [completes] at hs
    | some left, [] => exact ⟨left, [], .finished, hs, Nat.le_refl _⟩
    | none, _ :: _ => exact ih.due (Nat.lt_of_succ_lt_succ hn) hs
    | some _, _ :: _ => exact ih.read (Nat.lt_of_succ_lt_succ hn) hs

def Covers : Option Tree → List Symbol → Prop
  | none, u => u = []
  | some t, u => IsExpression u ∧ t.symbols = ungrouped u

theorem Climbs.covers (h : Climbs pending left s t rest) :
    ∀ {u : List Symbol}, Covers left u → ∃ v, s = v ++ rest ∧ Covers (some t) (u ++ v) := by
  induction h with
  | @literal _ content _ _ _ _ ih =>
    intro u hu
    obtain rfl : u = [] := hu
    have hleaf : Covers (some (.leaf content none)) [.literal content] :=
      ⟨(Phrase.literal content).expression_of_primary, by simp [Tree.symbols, ungrouped]⟩
    obtain ⟨v, rfl, hv⟩ := ih hleaf
    exact ⟨.literal content :: v, rfl, hv⟩
  | group _ _ ihinner ih =>
    intro u hu
    obtain rfl : u = [] := hu
    obtain ⟨v, rfl, hv⟩ := ihinner (u := []) rfl
    have hgroup := (Phrase.group hv.1).expression_of_primary
    obtain ⟨w, rfl, hw⟩ := ih ⟨hgroup, by simpa [ungrouped] using hv.2⟩
    exact ⟨.opening :: v ++ .closing :: w, by simp, by simpa using hw⟩
  | @prefixed _ op _ _ _ _ _ hop _ _ ihright ih =>
    intro u hu
    obtain rfl : u = [] := hu
    obtain ⟨v, rfl, hv⟩ := ihright (u := []) rfl
    obtain ⟨w, rfl, hw⟩ := ih ⟨hv.1.prefixed hop, by simpa [Tree.symbols, ungrouped] using hv.2⟩
    exact ⟨.operator op :: v ++ w, by simp, by simpa using hw⟩
  | postfixed hop _ _ ih =>
    intro u hu
    obtain ⟨v, rfl, hv⟩ := ih ⟨hu.1.postfixed hop, by simpa [Tree.symbols, ungrouped] using hu.2⟩
    exact ⟨_ :: v, rfl, by simpa using hv⟩
  | @binary _ op left _ right _ _ _ hop _ _ _ ihright ih =>
    intro u hu
    obtain ⟨v, rfl, hv⟩ := ihright (u := []) rfl
    have hsymbols : (Tree.node op left right none).symbols =
        ungrouped (u ++ .operator op :: ([] ++ v)) := by
      rw [Tree.symbols, hu.2, hv.2]
      simp [ungrouped]
    obtain ⟨w, rfl, hw⟩ := ih ⟨hu.1.append hop hv.1, hsymbols⟩
    exact ⟨.operator op :: v ++ w, by simp, by simpa using hw⟩
  | closed | ungroup | finished =>
    intro u hu
    exact ⟨[], rfl, by simpa using hu⟩

theorem Climbs.isExpression (h : Climbs none none s t []) :
    IsExpression s ∧ t.symbols = ungrouped s := by
  obtain ⟨v, hv, hcovers⟩ := h.covers (u := []) rfl
  rw [List.append_nil] at hv
  exact hv ▸ hcovers

theorem exists_climbs_of_completes (h : completes true 0 s = true) :
    ∃ t, Climbs none none s t [] := by
  obtain ⟨t, rest, ht, hrest, -⟩ :=
    @reachesBelow (s.length + 1) none none 0 s (Nat.lt_succ_self _) h
  have hstops := ht.stops
  match rest, hstops with
  | [], _ => exact ⟨t, ht⟩
  | .closing :: _, _ => simp [completes] at hrest
  | .operator op :: _, hstops => simp [Stops, closes] at hstops

theorem isExpression_iff_completes : IsExpression s ↔ completes true 0 s = true := by
  constructor
  · exact IsExpression.completes
  · intro h
    obtain ⟨t, ht⟩ := exists_climbs_of_completes h
    exact ht.isExpression.1

instance : DecidablePred IsExpression := fun _ => decidable_of_iff _ isExpression_iff_completes.symm

end Infix

end DiceFormula
