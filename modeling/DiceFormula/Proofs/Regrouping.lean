import DiceFormula.Proofs.Evaluating
import DiceFormula.Proofs.Levels
import DiceFormula.Tree.Listing

/-! What a listing in order says. Parentheses stand in it where an operator binds more weakly than
the one above it, and nowhere else, so that operators of one precedence are always read from their
own side. A tree in which one of them stands on the other side is read as another tree. -/
namespace DiceFormula

open Infix

namespace Operator

theorem alike_of_precedence {op other : Operator} (h : other.precedence = op.precedence) :
    other.arity = op.arity ∧ other.associativity = op.associativity := by
  have hall : ∀ op ∈ all, ∀ other ∈ all, other.precedence = op.precedence →
      other.arity = op.arity ∧ other.associativity = op.associativity := by decide +kernel
  exact hall op (mem_all op) other (mem_all other) h

theorem associativity_cases (op : Operator) :
    op.associativity = .left ∨ op.associativity = .right := by
  cases op <;> simp [associativity]

theorem levels_of_left {op : Operator} (hop : op.arity = .both) (h : op.associativity = .left) :
    op.leftLevel = op.precedence ∧ op.rightLevel = op.precedence + 1 := by
  simp [leftLevel, rightLevel, hop, h]

theorem levels_of_right {op : Operator} (h : op.associativity = .right) :
    op.leftLevel = op.precedence + 1 ∧ op.rightLevel = op.precedence := by
  simp [leftLevel, rightLevel, h]

theorem rightLevel_of_prefix {op : Operator} (h : op.arity = .right) :
    op.rightLevel = op.precedence := by
  simp [rightLevel, h]

theorem leftLevel_of_postfix {op : Operator} (h : op.arity = .left) :
    op.leftLevel = op.precedence := by
  cases op with
  | factorial => rfl
  | _ => cases h

end Operator

namespace Tree

/-- The operator between two trees, put below the operators of its precedence on the left edge of
the second. -/
def attachLeft (op : Operator) (left : Tree) : Tree → Tree
  | .node other a b known =>
    if other.precedence = op.precedence then .node other (attachLeft op left a) b none
    else .node op left (.node other a b known) none
  | right => .node op left right none

def attachRight (op : Operator) (right : Tree) : Tree → Tree
  | .node other a b known =>
    if other.precedence = op.precedence then .node other a (attachRight op right b) none
    else .node op (.node other a b known) right none
  | left => .node op left right none

/-- The tree that a listing in order is read as. -/
def regrouped : Tree → Tree
  | .empty => .empty
  | .leaf content _ => .leaf content none
  | .node op left right _ =>
    if op.arity = .both then
      if op.associativity = .right then attachRight op right.regrouped left.regrouped
      else attachLeft op left.regrouped right.regrouped
    else .node op left.regrouped right.regrouped none

/-- No operator stands next to one of its own precedence on the side from which it is not read. -/
def Faithful : Tree → Prop
  | .empty => True
  | .leaf _ _ => True
  | .node op left right _ =>
    (op.arity = .both → op.associativity = .left → right.hasPrecedence op.precedence = false) ∧
      (op.arity = .both → op.associativity = .right → left.hasPrecedence op.precedence = false) ∧
      left.Faithful ∧ right.Faithful

instance decidableWellFormed : DecidablePred WellFormed
  | .empty => .isTrue trivial
  | .leaf _ _ => .isTrue trivial
  | .node op left right _ =>
    have := decidableWellFormed left
    have := decidableWellFormed right
    inferInstanceAs (Decidable (fits op left right ∧ left.WellFormed ∧ right.WellFormed))

instance decidableFaithful : DecidablePred Faithful
  | .empty => .isTrue trivial
  | .leaf _ _ => .isTrue trivial
  | .node op left right _ =>
    have := decidableFaithful left
    have := decidableFaithful right
    inferInstanceAs (Decidable (
      (op.arity = .both → op.associativity = .left → right.hasPrecedence op.precedence = false) ∧
        (op.arity = .both → op.associativity = .right → left.hasPrecedence op.precedence = false) ∧
        left.Faithful ∧ right.Faithful))

section Attach
variable {op : Operator} {left right : Tree}

theorem attachLeft_of_not (h : right.hasPrecedence op.precedence = false) :
    attachLeft op left right = .node op left right none := by
  cases right with
  | empty | leaf => rfl
  | node other a b known =>
    have hne : other.precedence ≠ op.precedence := by simpa [hasPrecedence] using h
    rw [attachLeft, if_neg hne]

theorem attachRight_of_not (h : left.hasPrecedence op.precedence = false) :
    attachRight op right left = .node op left right none := by
  cases left with
  | empty | leaf => rfl
  | node other a b known =>
    have hne : other.precedence ≠ op.precedence := by simpa [hasPrecedence] using h
    rw [attachRight, if_neg hne]

theorem exists_node_of_hasPrecedence {t : Tree} {level : Nat} (h : t.hasPrecedence level = true) :
    ∃ other a b known, t = .node other a b known ∧ other.precedence = level := by
  cases t with
  | empty | leaf => cases h
  | node other a b known => exact ⟨other, a, b, known, rfl, by simpa [hasPrecedence] using h⟩

theorem hasPrecedence_attachLeft (level : Nat) :
    (attachLeft op left right).hasPrecedence level = (op.precedence == level) := by
  cases right with
  | empty | leaf => rfl
  | node other a b known =>
    rw [attachLeft]
    split
    · next h => simp only [hasPrecedence, h]
    · rfl

theorem hasPrecedence_attachRight (level : Nat) :
    (attachRight op right left).hasPrecedence level = (op.precedence == level) := by
  cases left with
  | empty | leaf => rfl
  | node other a b known =>
    rw [attachRight]
    split
    · next h => simp only [hasPrecedence, h]
    · rfl

@[simp] theorem symbols_attachLeft :
    (attachLeft op left right).symbols = left.symbols ++ .operator op :: right.symbols := by
  induction right with
  | empty | leaf => rfl
  | node other a b known iha =>
    rw [attachLeft]
    split
    · simp only [symbols, iha, List.append_assoc, List.cons_append]
    · rfl

@[simp] theorem symbols_attachRight :
    (attachRight op right left).symbols = left.symbols ++ .operator op :: right.symbols := by
  induction left with
  | empty | leaf => rfl
  | node other a b known _ ihb =>
    rw [attachRight]
    split
    · simp only [symbols, ihb, List.append_assoc, List.cons_append]
    · rfl

end Attach

theorem hasPrecedence_regrouped (t : Tree) (level : Nat) :
    t.regrouped.hasPrecedence level = t.hasPrecedence level := by
  cases t with
  | empty | leaf => rfl
  | node op left right known =>
    rw [regrouped]
    split
    · split
      · exact hasPrecedence_attachRight level
      · exact hasPrecedence_attachLeft level
    · rfl

@[simp] theorem symbols_regrouped (t : Tree) : t.regrouped.symbols = t.symbols := by
  induction t with
  | empty | leaf => rfl
  | node op left right known ihleft ihright =>
    rw [regrouped]
    split
    · split
      · rw [symbols_attachRight, ihleft, ihright, symbols]
      · rw [symbols_attachLeft, ihleft, ihright, symbols]
    · rw [symbols, ihleft, ihright, symbols]

theorem regrouped_of_faithful {t : Tree} (h : t.Faithful) : t.regrouped = t.bare := by
  induction t with
  | empty | leaf => rfl
  | node op left right known ihleft ihright =>
    obtain ⟨hleft, hright, hfleft, hfright⟩ := h
    rw [regrouped, bare, ← ihleft hfleft, ← ihright hfright]
    split
    · next hop =>
      split
      · next hassoc => exact attachRight_of_not (by rw [hasPrecedence_regrouped, hright hop hassoc])
      · next hassoc =>
        have hassoc := op.associativity_cases.resolve_right hassoc
        exact attachLeft_of_not (by rw [hasPrecedence_regrouped, hleft hop hassoc])
    · rfl

theorem length_symbols_of_same {t u : Tree} (h : t.same u = true) :
    t.symbols.length = u.symbols.length := by
  induction t generalizing u with
  | empty | leaf =>
    cases u with
    | empty | leaf => first | rfl | cases h
    | node => cases h
  | node op left right known ihleft ihright =>
    cases u with
    | empty | leaf => cases h
    | node op' left' right' known' =>
      simp only [same, Bool.and_eq_true] at h
      simp only [symbols, List.length_append, List.length_cons, ihleft h.1.2, ihright h.2]

section Same
variable {op : Operator} {left right left' right' : Tree} {known : Option Value}

theorem of_attachLeft_same (hlength : left.symbols.length = left'.symbols.length)
    (h : (attachLeft op left right).same (.node op left' right' known) = true) :
    right.hasPrecedence op.precedence = false ∧ left.same left' = true ∧
    right.same right' = true := by
  cases hroot : right.hasPrecedence op.precedence with
  | false =>
    rw [attachLeft_of_not hroot] at h
    simp only [same, Bool.and_eq_true] at h
    exact ⟨rfl, h.1.2, h.2⟩
  | true =>
    obtain ⟨other, a, b, _, rfl, hother⟩ := exists_node_of_hasPrecedence hroot
    rw [attachLeft, if_pos hother] at h
    simp only [same, Bool.and_eq_true] at h
    have hgrown := length_symbols_of_same h.1.2
    simp only [symbols_attachLeft, List.length_append, List.length_cons] at hgrown
    omega

theorem of_attachRight_same (hlength : right.symbols.length = right'.symbols.length)
    (h : (attachRight op right left).same (.node op left' right' known) = true) :
    left.hasPrecedence op.precedence = false ∧ left.same left' = true ∧
    right.same right' = true := by
  cases hroot : left.hasPrecedence op.precedence with
  | false =>
    rw [attachRight_of_not hroot] at h
    simp only [same, Bool.and_eq_true] at h
    exact ⟨rfl, h.1.2, h.2⟩
  | true =>
    obtain ⟨other, a, b, _, rfl, hother⟩ := exists_node_of_hasPrecedence hroot
    rw [attachRight, if_pos hother] at h
    simp only [same, Bool.and_eq_true] at h
    have hgrown := length_symbols_of_same h.2
    simp only [symbols_attachRight, List.length_append, List.length_cons] at hgrown
    omega

end Same

theorem faithful_of_same {t : Tree} (h : t.regrouped.same t = true) : t.Faithful := by
  induction t with
  | empty | leaf => trivial
  | node op left right known ihleft ihright =>
    rw [regrouped] at h
    split at h
    · next hop =>
      split at h
      · next hassoc =>
        have hparts := of_attachRight_same (congrArg List.length right.symbols_regrouped) h
        rw [hasPrecedence_regrouped] at hparts
        refine ⟨fun _ hleft => ?_, fun _ _ => hparts.1, ihleft hparts.2.1, ihright hparts.2.2⟩
        rw [hassoc] at hleft
        cases hleft
      · next hassoc =>
        have hparts := of_attachLeft_same (congrArg List.length left.symbols_regrouped) h
        rw [hasPrecedence_regrouped] at hparts
        exact ⟨fun _ _ => hparts.1, fun _ hright => absurd hright hassoc, ihleft hparts.2.1,
          ihright hparts.2.2⟩
    · next hop =>
      simp only [same, Bool.and_eq_true] at h
      exact ⟨fun hboth => absurd hboth hop, fun hboth => absurd hboth hop, ihleft h.1.2,
        ihright h.2⟩

end Tree

namespace Infix

variable {level : Nat} {s u : List Symbol} {op : Operator} {left right : Tree}

theorem Writes.operands {known : Option Value}
    (h : Writes op.precedence s (.node op left right known)) (hop : op.arity = .both) :
    ∃ u v, s = u ++ .operator op :: v ∧ Writes op.leftLevel u left ∧
      Writes op.rightLevel v right := by
  cases h with
  | group hroot hlower =>
    simp only [Tree.hasPrecedence, beq_iff_eq] at hroot
    omega
  | prefixed harity => simp [hop] at harity
  | postfixed harity => simp [hop] at harity
  | binary _ _ hleft hright => exact ⟨_, _, rfl, hleft, hright⟩

theorem Writes.attachLeft (hop : op.arity = .both) (hassoc : op.associativity = .left)
    (hlevel : level ≤ op.precedence) (hleft : Writes op.precedence s left)
    (hright : Writes op.precedence u right) :
    Writes level (s ++ .operator op :: u) (Tree.attachLeft op left right) := by
  have hlevels := Operator.levels_of_left hop hassoc
  induction right generalizing level u with
  | empty =>
    cases hright
    contradiction
  | leaf content known => exact .binary hop hlevel (hlevels.1 ▸ hleft) (hlevels.2 ▸ hright.succ rfl)
  | node other a b known iha =>
    rw [Tree.attachLeft]
    split
    · next hother =>
      have halike := Operator.alike_of_precedence hother
      have hboth := halike.1.trans hop
      have hsides := Operator.levels_of_left hboth (halike.2.trans hassoc)
      rw [← hother] at hright
      obtain ⟨v, w, rfl, ha, hb⟩ := hright.operands hboth
      rw [hsides.1, hother] at ha
      -- The left operand of the root has the level of the root, as the whole tree has.
      have hinner := iha (Nat.le_refl _) ha
      rw [← hother, ← hsides.1] at hinner
      rw [← List.cons_append, ← List.append_assoc]
      exact .binary hboth (hother ▸ hlevel) hinner hb
    · next hother =>
      have hroot : (Tree.node other a b known).hasPrecedence op.precedence = false := by
        simpa [Tree.hasPrecedence] using hother
      exact .binary hop hlevel (hlevels.1 ▸ hleft) (hlevels.2 ▸ hright.succ hroot)

theorem Writes.attachRight (hop : op.arity = .both) (hassoc : op.associativity = .right)
    (hlevel : level ≤ op.precedence) (hleft : Writes op.precedence s left)
    (hright : Writes op.precedence u right) :
    Writes level (s ++ .operator op :: u) (Tree.attachRight op right left) := by
  have hlevels := Operator.levels_of_right hassoc
  induction left generalizing level s with
  | empty =>
    cases hleft
    contradiction
  | leaf content known => exact .binary hop hlevel (hlevels.1 ▸ hleft.succ rfl) (hlevels.2 ▸ hright)
  | node other a b known _ ihb =>
    rw [Tree.attachRight]
    split
    · next hother =>
      have halike := Operator.alike_of_precedence hother
      have hboth := halike.1.trans hop
      have hsides := Operator.levels_of_right (halike.2.trans hassoc)
      rw [← hother] at hleft
      obtain ⟨v, w, rfl, ha, hb⟩ := hleft.operands hboth
      rw [hsides.2, hother] at hb
      have hinner := ihb (Nat.le_refl _) hb
      rw [← hother, ← hsides.2] at hinner
      rw [List.append_assoc, List.cons_append]
      exact .binary hboth (hother ▸ hlevel) ha hinner
    · next hother =>
      have hroot : (Tree.node other a b known).hasPrecedence op.precedence = false := by
        simpa [Tree.hasPrecedence] using hother
      exact .binary hop hlevel (hlevels.1 ▸ hleft.succ hroot) (hlevels.2 ▸ hright)

end Infix

namespace Tree

def Item.symbols : Item → List Symbol
  | .node (.leaf content _) => [.literal content]
  | .node (.node op _ _ _) => [.operator op]
  | .node .empty => []
  | .opening => [.opening]
  | .closing => [.closing]

def listed (above : Nat) (t : Tree) : List Symbol :=
  (inOrderBelow (fun _ => false) above t).flatMap Item.symbols

theorem listed_node (above : Nat) (op : Operator) (left right : Tree) (known : Option Value) :
    listed above (.node op left right known) =
      let s := listed op.precedence left ++ .operator op :: listed op.precedence right
      if op.precedence < above then .opening :: s ++ [.closing] else s := by
  simp only [listed, inOrderBelow, Bool.false_eq_true, ↓reduceIte]
  split <;> simp [Item.symbols, List.flatMap_append]

theorem eq_empty_of_isEmpty {t : Tree} (h : t.isEmpty = true) : t = .empty := by
  cases t with
  | empty => rfl
  | leaf | node => cases h

theorem writes_regrouped {t : Tree} (hwf : t.WellFormed) (hne : t.isEmpty = false) (above : Nat) :
    Writes above (listed above t) t.regrouped := by
  induction t generalizing above with
  | empty => cases hne
  | leaf content known => exact .literal content
  | node op left right known ihleft ihright =>
    obtain ⟨hfits, hwfleft, hwfright⟩ := hwf
    simp only [fits, Bool.and_eq_true, beq_iff_eq] at hfits
    -- Parentheses change the level but not the symbols inside, so these are written first, at any
    -- level.
    have hplain {level : Nat} (hlevel : level ≤ op.precedence) :
        Writes level (listed op.precedence left ++ .operator op :: listed op.precedence right)
          (Tree.node op left right known).regrouped := by
      rw [regrouped]
      rcases arity_cases op with hop | hop | hop
      · have htakes := takes_of_arity_right hop
        simp only [htakes, Bool.false_eq, Bool.not_eq_false', Bool.true_eq,
          Bool.not_eq_true'] at hfits
        obtain rfl := eq_empty_of_isEmpty hfits.1
        rw [if_neg (by simp [hop])]
        refine .prefixed hop hlevel ?_
        rw [Operator.rightLevel_of_prefix hop]
        exact ihright hwfright hfits.2 _
      · have htakes := takes_of_arity_left hop
        simp only [htakes, Bool.false_eq, Bool.not_eq_false', Bool.true_eq,
          Bool.not_eq_true'] at hfits
        obtain rfl := eq_empty_of_isEmpty hfits.2
        rw [if_neg (by simp [hop])]
        refine .postfixed hop hlevel ?_
        rw [Operator.leftLevel_of_postfix hop]
        exact ihleft hwfleft hfits.1 _
      · have htakes := takes_of_arity_both hop
        simp only [htakes, Bool.true_eq, Bool.not_eq_true'] at hfits
        have hleft := ihleft hwfleft hfits.1 op.precedence
        have hright := ihright hwfright hfits.2 op.precedence
        rw [if_pos hop]
        split
        · next hassoc => exact hleft.attachRight hop hassoc hlevel hright
        · next hassoc =>
          exact hleft.attachLeft hop (op.associativity_cases.resolve_right hassoc) hlevel hright
    have hroot : (Tree.node op left right known).regrouped.hasPrecedence op.precedence = true := by
      rw [hasPrecedence_regrouped]
      simp [hasPrecedence]
    rw [listed_node]
    split
    · next hlower => exact .group hroot hlower (hplain (Nat.zero_le _))
    · next hlower => exact hplain (Nat.not_lt.mp hlower)

end Tree

end DiceFormula
