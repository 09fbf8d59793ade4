import DiceFormula.Proofs.Agreeing
import DiceFormula.Shelf

/-! Trees that are built, copied, joined and rewritten. Each operator of such a tree keeps the
operands it takes, so that copies and joins pass the check of a new node, and a mode finds an
operator of the same sides for every one that it replaces. -/
namespace DiceFormula

namespace Tree

theorem wellFormed_orZero {t : Tree} (h : t.WellFormed) : t.orZero.WellFormed := by
  cases t with
  | empty => trivial
  | leaf | node => exact h

theorem fits_of_arity_both {op : Operator} (harity : op.arity = .both) {left right : Tree}
    (hleft : left.isEmpty = false) (hright : right.isEmpty = false) :
    fits op left right = true := by
  simp [fits, Operator.takesLeft, Operator.takesRight, harity, Sides.hasLeft, Sides.hasRight,
    hleft, hright]

theorem fits_orZero {op : Operator} (harity : op.arity = .both) (left right : Tree) :
    fits op left.orZero right.orZero = true :=
  fits_of_arity_both harity (isEmpty_orZero left) (isEmpty_orZero right)

theorem fits_of_arity {op replaced : Operator} (harity : op.arity = replaced.arity)
    (left right : Tree) :
    fits op left right = fits replaced left right := by
  simp only [fits, Operator.takesLeft, Operator.takesRight, harity]

theorem wellFormed_combine {op : Operator} {left right t : Tree} (h : combine op left right = .ok t)
    (hleft : left.WellFormed) (hright : right.WellFormed) : t.WellFormed := by
  unfold combine at h
  split at h
  · next harity =>
    cases h
    exact ⟨fits_orZero harity left right, wellFormed_orZero hleft, wellFormed_orZero hright⟩
  · cases h

def copy : Tree → Except Fault Tree
  | .empty => .ok .empty
  | .leaf content known => .ok (.leaf content known)
  | .node op left right known => do
    let left ← left.copy
    let right ← right.copy
    let _ ← ofOperands op left right
    return .node op left right known

theorem ofOperands_of_fits {op : Operator} {left right : Tree} (h : fits op left right = true) :
    ofOperands op left right = .ok (.node op left right none) := if_pos h

theorem copy_eq {t : Tree} (h : t.WellFormed) : t.copy = .ok t := by
  induction t with
  | empty | leaf => rfl
  | node op left right known ihLeft ihRight =>
    obtain ⟨hfits, hleft, hright⟩ := h
    have hnode : (do let _ ← ofOperands op left right; return .node op left right known) =
        (.ok (.node op left right known) : Except Fault Tree) := by
      rw [ofOperands_of_fits hfits]
      rfl
    rw [copy, ihLeft hleft, ihRight hright]
    exact hnode

def join (op : Operator) (left right : Tree) : Except Fault Tree :=
  if op.arity = .both then do
    let left ← left.copy
    let right ← right.copy
    ofOperands op left.orZero right.orZero
  else .error (.notBinary op)

theorem join_eq (op : Operator) {left right : Tree} (hleft : left.WellFormed)
    (hright : right.WellFormed) :
    join op left right = combine op left right := by
  unfold join combine
  split
  · next harity =>
    rw [copy_eq hleft, copy_eq hright]
    exact ofOperands_of_fits (fits_orZero harity left right)
  · rfl

theorem setRootOperator_wellFormed {op : Operator} {t u : Tree} (h : t.setRootOperator op = .ok u)
    (ht : t.WellFormed) : u.WellFormed ∧ u.isEmpty = t.isEmpty := by
  cases t with
  | empty | leaf =>
    cases h
    exact ⟨ht, rfl⟩
  | node replaced left right known =>
    obtain ⟨hfits, hleft, hright⟩ := ht
    rw [setRootOperator] at h
    by_cases harity : op.arity = replaced.arity
    · rw [if_pos harity] at h
      cases h
      exact ⟨⟨(fits_of_arity harity left right).trans hfits, hleft, hright⟩, rfl⟩
    · rw [if_neg harity] at h
      cases h

theorem setOperator_wellFormed {op : Operator} {path : List Turn} {t u : Tree}
    (h : t.setOperator op path = .ok u) (ht : t.WellFormed) :
    u.WellFormed ∧ u.isEmpty = t.isEmpty := by
  induction path generalizing t u with
  | nil => exact setRootOperator_wellFormed h ht
  | cons turn path ih =>
    cases t with
    | empty | leaf =>
      cases turn <;> cases h <;> exact ⟨ht, rfl⟩
    | node other left right known =>
      obtain ⟨hfits, hleft, hright⟩ := ht
      cases turn with
      | left =>
        obtain ⟨changed, hchanged, hnode⟩ := exists_of_bind_eq_ok h
        obtain ⟨hwf, hempty⟩ := ih hchanged hleft
        cases hnode
        exact ⟨⟨by rwa [fits, hempty], hwf, hright⟩, rfl⟩
      | right =>
        obtain ⟨changed, hchanged, hnode⟩ := exists_of_bind_eq_ok h
        obtain ⟨hwf, hempty⟩ := ih hchanged hright
        cases hnode
        exact ⟨⟨by rwa [fits, hempty], hleft, hwf⟩, rfl⟩

theorem wellFormed_inMode {t : Tree} (mode : Mode) (h : t.WellFormed) :
    (t.inMode mode).WellFormed := by
  induction t with
  | empty | leaf => exact h
  | node op left right known ihLeft ihRight =>
    obtain ⟨hfits, hleft, hright⟩ := h
    refine ⟨?_, ihLeft hleft, ihRight hright⟩
    rwa [fits_of_arity (Operator.arity_inMode mode op), fits, isEmpty_inMode, isEmpty_inMode]

def replaceEach (codes : List Text) (replacement : Operator) : Tree → Except Fault Tree
  | .node op left right known => do
    let left ← left.replaceEach codes replacement
    let right ← right.replaceEach codes replacement
    let t := .node op left right known
    if codes.contains op.code then t.setRootOperator replacement else return t
  | t => .ok t

def replaceOperators (codes : List Text) (code : Text) (t : Tree) : Except Fault Tree :=
  match Operator.ofCode? code with
  | some replacement => t.replaceEach codes replacement
  | none => .error (.unknownOperator code)

def rewritten (mode : Mode) (t : Tree) : Except Fault Tree :=
  match mode with
  | .normal => .ok t
  | .average => t.replaceOperators [ascii ['d']] (ascii ['d', 'a'])
  | .critical => t.replaceOperators [ascii ['d'], ascii ['d', 'a']] (ascii ['d', 'c'])
  | .maximum =>
    t.replaceOperators [ascii ['d'], ascii ['d', 'a'], ascii ['d', 'c']] (ascii ['d', 'm'])

theorem replaceEach_eq {codes : List Text} {replacement : Operator} {mode : Mode}
    (h : ∀ op ∈ Operator.all, (if codes.contains op.code then replacement else op) =
      op.inMode mode ∧
      (codes.contains op.code = true → replacement.arity = op.arity)) (t : Tree) :
    t.replaceEach codes replacement = .ok (t.inMode mode) := by
  induction t with
  | empty | leaf => rfl
  | node op left right known ihLeft ihRight =>
    obtain ⟨hmode, harity⟩ := h op (Operator.mem_all op)
    have hroot : (if codes.contains op.code then
        setRootOperator replacement (.node op (left.inMode mode) (right.inMode mode) known)
        else .ok (.node op (left.inMode mode) (right.inMode mode) known)) =
          .ok ((Tree.node op left right known).inMode mode) := by
      rw [inMode, ← hmode]
      split
      · next hcode => exact if_pos (harity hcode)
      · rfl
    rw [replaceEach, ihLeft, ihRight]
    exact hroot

theorem rewritten_eq (mode : Mode) (t : Tree) : t.rewritten mode = .ok (t.inMode mode) := by
  cases mode with
  | normal => exact congrArg Except.ok (inMode_normal t).symm
  | average => exact replaceEach_eq (by decide +kernel) t
  | critical => exact replaceEach_eq (by decide +kernel) t
  | maximum => exact replaceEach_eq (by decide +kernel) t

end Tree

namespace Shelf

inductive Step
  | parse (name : Text) (source : Text)
  | build (name : Text) (tokens : List Token) (source : Text)
  | number (name : Text) (a : Number)
  | combine (name : Text) (op : Operator) (left right : Text)
  | absorb (name : Text) (op : Operator) (other : Text)
  | copy (name other : Text)
  | rewrite (name : Text) (mode : Mode)
  | setOperator (name : Text) (path : List Tree.Turn) (op : Operator)

def receive (shelf : Shelf) (name : Text) : Option Tree → Shelf
  | some t => shelf.put name t
  | none => shelf

/-- The shelf after a step; one that is refused changes nothing. -/
def perform (shelf : Shelf) : Step → Shelf
  | .parse name source => shelf.receive name (Tree.ofText source).toOption
  | .build name tokens source => shelf.receive name (Tree.ofTokens tokens source).toOption
  | .number name a => shelf.put name (.ofNumber a)
  | .combine name op left right =>
    shelf.receive name do (Tree.join op (← shelf.find? left) (← shelf.find? right)).toOption
  | .absorb name op other => (shelf.absorb op name other).toOption.getD shelf
  | .copy name other => shelf.receive name do (← shelf.find? other).copy.toOption
  | .rewrite name mode => shelf.receive name do ((← shelf.find? name).rewritten mode).toOption
  | .setOperator name path op =>
    shelf.receive name do ((← shelf.find? name).setOperator op path).toOption

def after (shelf : Shelf) (steps : List Step) : Shelf := steps.foldl perform shelf

def WellFormed (shelf : Shelf) : Prop := ∀ name t, shelf.find? name = some t → t.WellFormed

variable {shelf : Shelf}

theorem wellFormed_nil : WellFormed [] := nofun

theorem WellFormed.put (h : shelf.WellFormed) {name : Text} {t : Tree} (ht : t.WellFormed) :
    (shelf.put name t).WellFormed := by
  intro other u hu
  by_cases hname : other = name
  · rw [hname, find?_put_self] at hu
    cases hu
    exact ht
  · rw [find?_put_of_ne shelf t hname] at hu
    exact h other u hu

theorem WellFormed.receive (h : shelf.WellFormed) {name : Text} {r : Option Tree}
    (hr : ∀ t, r = some t → t.WellFormed) : (shelf.receive name r).WellFormed := by
  cases r with
  | some t => exact h.put (hr t rfl)
  | none => exact h

theorem WellFormed.absorb (h : shelf.WellFormed) {op : Operator} {name other : Text}
    {shelf' : Shelf} (habsorb : shelf.absorb op name other = .ok shelf') : shelf'.WellFormed := by
  obtain ⟨t, ht, habsorb⟩ := exists_of_bind_eq_ok habsorb
  obtain ⟨u, hu, habsorb⟩ := exists_of_bind_eq_ok habsorb
  have htaken : (if other = name then .empty else u : Tree).WellFormed := by
    split
    · trivial
    · exact h other u (get_eq_ok_iff.mp hu)
  split at habsorb
  next joined hjoined =>
    cases habsorb
    have hwf := Tree.wellFormed_combine hjoined (h name t (get_eq_ok_iff.mp ht)) htaken
    exact WellFormed.put (h.put (t := .empty) trivial) hwf
  next => cases habsorb

theorem WellFormed.perform (h : shelf.WellFormed) (step : Step) :
    (shelf.perform step).WellFormed := by
  cases step with
  | parse name source =>
    refine h.receive fun t ht => ?_
    obtain ⟨tokens, htokens, ht⟩ := exists_of_bind_eq_ok (eq_ok_of_toOption ht)
    exact (Build.sound_of_tree (Build.tree_of_ofTokens ht)).2.1
  | build name tokens source =>
    refine h.receive fun t ht => ?_
    exact (Build.sound_of_tree (Build.tree_of_ofTokens (eq_ok_of_toOption ht))).2.1
  | number name a => exact h.put (t := .ofNumber a) trivial
  | combine name op left right =>
    refine h.receive fun t ht => ?_
    obtain ⟨a, ha, ht⟩ := Option.bind_eq_some_iff.mp ht
    obtain ⟨b, hb, ht⟩ := Option.bind_eq_some_iff.mp ht
    have hjoin := eq_ok_of_toOption ht
    rw [Tree.join_eq op (h left a ha) (h right b hb)] at hjoin
    exact Tree.wellFormed_combine hjoin (h left a ha) (h right b hb)
  | absorb name op other =>
    rw [Shelf.perform]
    cases habsorb : shelf.absorb op name other with
    | ok shelf' => exact h.absorb habsorb
    | error refusal => exact h
  | copy name other =>
    refine h.receive fun t ht => ?_
    obtain ⟨u, hu, ht⟩ := Option.bind_eq_some_iff.mp ht
    have hcopy := eq_ok_of_toOption ht
    rw [Tree.copy_eq (h other u hu)] at hcopy
    cases hcopy
    exact h other t hu
  | rewrite name mode =>
    refine h.receive fun t ht => ?_
    obtain ⟨u, hu, ht⟩ := Option.bind_eq_some_iff.mp ht
    have hrewritten := eq_ok_of_toOption ht
    rw [Tree.rewritten_eq] at hrewritten
    cases hrewritten
    exact Tree.wellFormed_inMode mode (h name u hu)
  | setOperator name path op =>
    refine h.receive fun t ht => ?_
    obtain ⟨u, hu, ht⟩ := Option.bind_eq_some_iff.mp ht
    exact (Tree.setOperator_wellFormed (eq_ok_of_toOption ht) (h name u hu)).1

theorem WellFormed.after (h : shelf.WellFormed) (steps : List Step) :
    (shelf.after steps).WellFormed := by
  induction steps generalizing shelf with
  | nil => exact h
  | cons step steps ih => exact ih (h.perform step)

end Shelf

end DiceFormula
