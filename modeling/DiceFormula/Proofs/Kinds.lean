import DiceFormula.Mode
import DiceFormula.Proofs.Evaluating
import DiceFormula.Proofs.Throwing
import DiceFormula.Tree.Build

/-! The operators of a tree fix the kinds of its values. After an evaluation that completes, what
throws dice or works on a roll keeps a roll of a die that can be thrown, every other operator keeps
a number, and what works on a roll has a left operand that makes one. -/
namespace DiceFormula

variable {σ : Type} {source : Source σ} {s s' : σ}

/-- The value is of the kind that the operator fixes: a roll of a die that can be thrown, or else a
number. -/
def Operator.Makes (op : Operator) : Value → Prop
  | .roll r => op.makesRoll = true ∧ r.die.Throwable
  | .number _ => op.makesRoll = false
  | .faces _ => False

namespace Tree

variable {t u left right node : Tree} {known : Option Value} {op : Operator} {p : Tree → Prop}

def nodes (t : Tree) : List Tree := t.preOrder fun _ => false

theorem nodes_node : (Tree.node op left right known).nodes =
    .node op left right known :: (left.nodes ++ right.nodes) := rfl

theorem forall_nodes_node : (∀ node ∈ (Tree.node op left right known).nodes, p node) ↔
    p (.node op left right known) ∧
      (∀ node ∈ left.nodes, p node) ∧ ∀ node ∈ right.nodes, p node := by
  rw [nodes_node, List.forall_mem_cons, List.forall_mem_append]

theorem of_forall_nodes (hempty : p .empty) (h : ∀ node ∈ t.nodes, p node) : p t := by
  cases t with
  | empty => exact hempty
  | leaf | node => exact h _ List.mem_cons_self

@[simp] theorem nodes_bare (t : Tree) : t.bare.nodes = t.nodes.map bare := by
  induction t with
  | empty | leaf => rfl
  | node op left right known ihleft ihright =>
    rw [bare, nodes_node, nodes_node, ihleft, ihright, List.map_cons, List.map_append]
    rfl

def makesRoll : Tree → Bool
  | .node op _ _ _ => op.makesRoll
  | _ => false

def OnRoll : Tree → Prop
  | .node op left _ _ => op.editsRoll = true → left.makesRoll = true
  | _ => True

def HasKind : Tree → Prop
  | .empty => True
  | .leaf content known => known = some content.value
  | .node op _ _ known => ∃ v, known = some v ∧ op.Makes v

@[simp] theorem makesRoll_bare (t : Tree) : t.bare.makesRoll = t.makesRoll := by
  cases t <;> rfl

@[simp] theorem onRoll_bare (t : Tree) : t.bare.OnRoll ↔ t.OnRoll := by
  cases t with
  | empty | leaf => rfl
  | node op left right known => simp only [bare, OnRoll, makesRoll_bare]

theorem forall_onRoll_bare (t : Tree) :
    (∀ node ∈ t.bare.nodes, node.OnRoll) ↔ ∀ node ∈ t.nodes, node.OnRoll := by
  simp only [nodes_bare, List.forall_mem_map, onRoll_bare]

theorem HasKind.makes_roll {r : Roll} (h : t.HasKind) (hknown : t.known = some (.roll r)) :
    t.makesRoll = true ∧ r.die.Throwable := by
  cases t with
  | empty => cases hknown
  | leaf content known =>
    obtain rfl : known = some content.value := h
    cases content <;> cases hknown
  | node op left right known =>
    obtain ⟨v, hv, hmakes⟩ := h
    obtain rfl : v = .roll r := Option.some.inj (hv.symm.trans hknown)
    exact hmakes

theorem apply_kinds {v : Value} (hleft : left.HasKind)
    (h : op.apply source left.known right.known s = (.ok v, s')) :
    op.Makes v ∧ (op.editsRoll = true → left.makesRoll = true) := by
  obtain ⟨made, -, hyields⟩ := op.apply_yields h
  cases hyields with
  | number n hop =>
    have hedits : op.editsRoll = false := (Bool.or_eq_false_iff.mp hop).2
    exact ⟨hop, fun hedits' => absurd hedits' (Bool.eq_false_iff.mp hedits)⟩
  | thrown throw r hop hdie hshown =>
    subst hop
    exact ⟨⟨rfl, hdie⟩, fun hedits => by cases hedits⟩
  | edited r' hop hedited =>
    obtain ⟨r, k, hroll, -, hedits⟩ := hedited
    obtain ⟨hmakes, hdie⟩ := hleft.makes_roll hroll
    exact ⟨⟨Bool.or_eq_true_iff.mpr (.inr hop), hedits.die.symm ▸ hdie⟩, fun _ => hmakes⟩

theorem Settled.kinds (h : t.Settled source) : ∀ node ∈ t.nodes, node.HasKind ∧ node.OnRoll := by
  induction t with
  | empty => exact List.forall_mem_nil _
  | leaf content known => exact List.forall_mem_singleton.mpr ⟨h, trivial⟩
  | node op left right known ihleft ihright =>
    obtain ⟨⟨v, s, s', happly, hknown⟩, hleft, hright⟩ := h
    -- An edited roll has the die of the left operand, so that its kind has to be known first.
    have hkind : left.HasKind := of_forall_nodes trivial fun node hnode =>
      (ihleft hleft node hnode).1
    obtain ⟨hmakes, honRoll⟩ := apply_kinds hkind happly
    exact forall_nodes_node.mpr ⟨⟨⟨v, hknown, hmakes⟩, honRoll⟩, ihleft hleft, ihright hright⟩

/-- The values that an evaluation leaves are of the kinds that the operators fix, and an operator
that works on a roll gets one from its left operand. A tree in which one does not is never
evaluated, whatever the source. -/
theorem evaluate_kinds (source : Source σ) (t : Tree) (s : σ) :
    (∀ a u s', t.evaluate source s = (.ok a, u, s') →
      u.bare = t.bare ∧ ∀ node ∈ u.nodes, node.HasKind ∧ node.OnRoll) ∧
    ((∃ node ∈ t.nodes, ¬ node.OnRoll) →
      ∃ failure u s', t.evaluate source s = (.error failure, u, s')) := by
  have hkinds : ∀ a u s', t.evaluate source s = (.ok a, u, s') →
      u.bare = t.bare ∧ ∀ node ∈ u.nodes, node.HasKind ∧ node.OnRoll := by
    intro a u s' h
    obtain ⟨hsettled, -, hbare⟩ := evaluate_settled h
    exact ⟨hbare, hsettled.kinds⟩
  refine ⟨hkinds, ?_⟩
  rintro ⟨misused, hmem, hmisused⟩
  rcases hrun : t.evaluate source s with ⟨failure | a, u, s'⟩
  · exact ⟨failure, u, s', rfl⟩
  · obtain ⟨hbare, hall⟩ := hkinds a u s' hrun
    have honRoll : ∀ node ∈ t.nodes, node.OnRoll := by
      rw [← forall_onRoll_bare, ← hbare, forall_onRoll_bare]
      exact fun node hmem => (hall node hmem).2
    exact absurd (honRoll misused hmem) hmisused

theorem evaluate_kinds_keep :
    (∃ t u, Tree.ofText (ascii ['1', 'd', '6', 'h', '1']) = .ok t ∧
      (t.inMode .maximum).evaluate (Script.source 0) (Script.steady 4) =
        (.ok (.int 6), u, Script.steady 4) ∧
      ∀ node ∈ u.nodes, node.HasKind ∧ node.OnRoll) ∧
    ∃ t, Tree.ofText (ascii ['(', '1', 'd', '6', '+', '1', ')', 'h', '1']) = .ok t ∧
      ∃ failure u s', (t.inMode .maximum).evaluate (Script.source 0) (Script.steady 4) =
        (.error failure, u, s') := by
  constructor
  · let t : Tree := .node (.keep .high)
      (.node (.dice .plain) (.ofNumber (.int 1)) (.ofNumber (.int 6)) none)
      (.ofNumber (.int 1)) none
    let u : Tree := .node (.keep .high)
      (.node (.dice .maximum) (.leaf (.number (.int 1)) (some (.number (.int 1))))
        (.leaf (.number (.int 6)) (some (.number (.int 6))))
        (some (.roll ⟨[.int 6], .sides 6, [], false⟩)))
      (.leaf (.number (.int 1)) (some (.number (.int 1))))
      (some (.roll ⟨[.int 6], .sides 6, [], false⟩))
    have hevaluate : (t.inMode .maximum).evaluate (Script.source 0) (Script.steady 4) =
        (.ok (.int 6), u, Script.steady 4) := by decide +kernel
    exact ⟨t, u, by decide +kernel, hevaluate,
      ((evaluate_kinds (Script.source 0) (t.inMode .maximum) (Script.steady 4)).1 _ _ _
        hevaluate).2⟩
  · let t : Tree := .node (.keep .high)
      (.node .add (.node (.dice .plain) (.ofNumber (.int 1)) (.ofNumber (.int 6)) none)
        (.ofNumber (.int 1)) none)
      (.ofNumber (.int 1)) none
    have hmisused : ¬ (t.inMode .maximum).OnRoll := fun h => Bool.false_ne_true (h rfl)
    exact ⟨t, by decide +kernel,
      (evaluate_kinds (Script.source 0) (t.inMode .maximum) (Script.steady 4)).2
        ⟨_, List.mem_cons_self, hmisused⟩⟩

end Tree

end DiceFormula
