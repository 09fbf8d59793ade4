import DiceFormula.Chance.Script
import DiceFormula.Proofs.Climbing
import DiceFormula.Proofs.Kinds
import DiceFormula.Tree.Build

/-! Natural rolls. Where all dice are left to chance, a value of a roll was drawn for its die, or an
operator on the way to the roll put it in: a bound, or the verdict of a threshold. So a natural face
of a die with twenty sides was drawn unless it was put in, and then it need not have been. -/
namespace DiceFormula

variable {σ : Type} {source : Source σ} {s s' : σ} {draws draws' : List Draw}

theorem Die.eq_of_same_sides {die : Die} {count : Int} (h : die.same (.sides count) = true) :
    die = .sides count := by
  cases die with
  | sides sides => rw [eq_of_beq h]
  | faces => cases h

namespace Tree

variable {t u node left right : Tree} {op : Operator} {known v : Option Value} {a : Number}

theorem mem_nodes_of_preOrder {stops : Tree → Bool} (h : node ∈ t.preOrder stops) :
    node ∈ t.nodes := by
  induction t with
  | empty => cases h
  | leaf => exact h
  | node op left right known ihleft ihright =>
    rw [preOrder] at h
    rw [nodes_node]
    split at h
    · rw [List.mem_singleton.mp h]
      exact List.mem_cons_self
    · refine (List.mem_cons.mp h).elim (fun hself => hself ▸ List.mem_cons_self) fun hbelow => ?_
      refine List.mem_cons_of_mem _ (List.mem_append.mpr ?_)
      exact (List.mem_append.mp hbelow).imp ihleft ihright

def Chancy (t : Tree) : Prop :=
  .operator (.dice .average) ∉ t.symbols ∧ .operator (.dice .maximum) ∉ t.symbols

instance (t : Tree) : Decidable t.Chancy := inferInstanceAs (Decidable (_ ∧ _))

theorem chancy_node : (Tree.node op left right known).Chancy ↔
    (op ≠ .dice .average ∧ op ≠ .dice .maximum) ∧ left.Chancy ∧ right.Chancy := by
  simp only [Chancy, symbols, List.mem_append, List.mem_cons, Symbol.operator.injEq, not_or,
    ne_comm (a := op)]
  tauto

/-- The operator of the node put the value in, or one that worked on the same roll before. -/
def PutIn (a : Number) : Tree → Prop
  | .node op left right _ =>
    op.editsRoll = true ∧ ((∃ k, totalOf right.known = .ok k ∧ op.PutsIn k a) ∨ left.PutIn a)
  | _ => False

/-- Every value of a roll that the node keeps was drawn or put in. -/
def Sourced (draws : List Draw) (t : Tree) : Prop :=
  ∀ r, t.known = some (.roll r) → ∀ a ∈ r.values, r.die.Shown draws a ∨ t.PutIn a

theorem Sourced.mono (h : t.Sourced draws) (hmore : draws ⊆ draws') : t.Sourced draws' :=
  fun r hknown a ha => (h r hknown a ha).imp_left (·.mono hmore)

theorem sourced_empty : Tree.empty.Sourced draws := by
  intro r hknown
  cases hknown

theorem apply_sourced {w : Value} {made : List Draw}
    (hchancy : op ≠ .dice .average ∧ op ≠ .dice .maximum) (hleft : left.Sourced draws)
    (h : op.Yields left.known right.known made w) :
    (Tree.node op left right (some w)).Sourced (made ++ draws) := by
  intro r hknown a ha
  obtain rfl : w = .roll r := Option.some.inj hknown
  cases h with
  | thrown throw r hop hdie hshown =>
    subst hop
    have hthrow : throw = .plain ∨ throw = .critical := by
      cases throw with
      | plain => exact .inl rfl
      | critical => exact .inr rfl
      | average => exact absurd rfl hchancy.1
      | maximum => exact absurd rfl hchancy.2
    exact .inl ((hshown hthrow a ha).mono (List.subset_append_left made draws))
  | edited r hop hedited =>
    obtain ⟨before, k, hroll, hbound, hdie, hvalues⟩ := hedited
    rw [hdie]
    obtain hbefore | hshown | hputs := hvalues a ha
    · exact (hleft before hroll a hbefore).imp (·.mono (List.subset_append_right made draws))
        fun hput => ⟨hop, .inr hput⟩
    · exact .inl (hshown.mono (List.subset_append_left made draws))
    · exact .inr ⟨hop, .inl ⟨k, hbound, hputs⟩⟩

theorem run_sourced (hchancy : t.Chancy) (h : run source t s = (.ok v, u, s')) :
    ∃ made, (∀ draws, run source.recorded t (s, draws) = (.ok v, u, s', made ++ draws)) ∧
      ∀ node ∈ u.nodes, node.Sourced made := by
  induction t generalizing s s' u v with
  | empty =>
    cases h
    exact ⟨[], fun _ => rfl, List.forall_mem_nil _⟩
  | leaf content known =>
    cases h
    refine ⟨[], fun _ => rfl, List.forall_mem_singleton.mpr fun r hknown => ?_⟩
    cases content <;> cases hknown
  | node op left right known ihleft ihright =>
    obtain ⟨a, left', s₁, b, right', s₂, w, hleft, hright, happly, rfl, rfl⟩ := run_node_ok h
    obtain ⟨hop, hchancyLeft, hchancyRight⟩ := chancy_node.mp hchancy
    obtain ⟨madeLeft, hrunLeft, hsourcedLeft⟩ := ihleft hchancyLeft hleft
    obtain ⟨madeRight, hrunRight, hsourcedRight⟩ := ihright hchancyRight hright
    obtain ⟨made, happlied, hyields⟩ := op.apply_yields happly
    obtain ⟨-, rfl⟩ := run_settled hleft
    obtain ⟨-, rfl⟩ := run_settled hright
    -- The latest draws stand first: the operator draws after its right operand, and that after the
    -- left one.
    refine ⟨made ++ (madeRight ++ madeLeft), fun draws => ?_, ?_⟩
    · simp only [run, hrunLeft, hrunRight, happlied, List.append_assoc]
    · have hbelow : ∀ node ∈ left'.nodes, node.Sourced (madeRight ++ madeLeft) := fun node hnode =>
        (hsourcedLeft node hnode).mono (List.subset_append_right _ _)
      have hroot : left'.Sourced (madeRight ++ madeLeft) := of_forall_nodes sourced_empty hbelow
      refine forall_nodes_node.mpr ⟨?_, fun node hnode => ?_, fun node hnode => ?_⟩
      · exact apply_sourced hop hroot hyields
      · exact (hbelow node hnode).mono (List.subset_append_right _ _)
      · exact ((hsourcedRight node hnode).mono (List.subset_append_left _ _)).mono
          (List.subset_append_right _ _)

/-- An outermost roll of a die with twenty sides shows the face because an operator put it in. -/
def PutsNatural (face : Int) (t : Tree) : Prop :=
  ∃ node ∈ t.preOrder hasTwentySided, ∃ r, node.twentySided = some r ∧
    ∃ a ∈ r.values, (Number.int face).same a = true ∧ node.PutIn a

theorem twentySided_eq_some {r : Roll} (h : t.twentySided = some r) :
    t.known = some (.roll r) ∧ r.die = .sides 20 := by
  unfold twentySided at h
  split at h
  · next r' hknown =>
    split at h
    · next hdie =>
      obtain rfl := Option.some.inj h
      exact ⟨hknown, Die.eq_of_same_sides hdie⟩
    · cases h
  · cases h

theorem uniform_of_shown {face : Int} (h : (Die.sides 20).Shown draws a)
    (hface : (Number.int face).same a = true) :
    .uniform 1 20 face ∈ draws := by
  obtain ⟨draw, hdraw, hshows⟩ := h
  cases draw with
  | uniform low high result =>
    simp only [Die.shows, Option.ite_none_right_eq_some, Option.some.injEq] at hshows
    obtain ⟨⟨rfl, rfl⟩, rfl⟩ := hshows
    rw [Number.same_int, beq_iff_eq] at hface
    exact hface ▸ hdraw
  | pick => cases hshows

theorem natural_of_sourced {face : Int} (h : ∀ node ∈ t.nodes, node.Sourced draws)
    (hnatural : t.showsNatural face = true) : .uniform 1 20 face ∈ draws ∨ t.PutsNatural face := by
  obtain ⟨node, hnode, hshows⟩ := List.any_eq_true.mp hnatural
  split at hshows
  · next r hr =>
    obtain ⟨hknown, hdie⟩ := twentySided_eq_some hr
    obtain ⟨a, ha, hsame⟩ := List.any_eq_true.mp hshows
    obtain hshown | hput := h node (mem_nodes_of_preOrder hnode) r hknown a ha
    · exact .inl (uniform_of_shown (hdie ▸ hshown) hsame)
    · exact .inr ⟨node, hnode, r, hr, a, ha, hsame, hput⟩
  · cases hshows

/-- After an evaluation with all dice left to chance a natural one or twenty was drawn for a die
with twenty sides, unless an operator put it in. -/
theorem evaluate_natural (source : Source σ) (t : Tree) (s : σ) (total : Number) (u : Tree) (s' : σ)
    (hchancy : t.Chancy) (h : t.evaluate source s = (.ok total, u, s')) :
    ∃ draws, t.evaluate source.recorded (s, []) = (.ok total, u, s', draws) ∧
      (u.isFail = true → .uniform 1 20 1 ∈ draws ∨ u.PutsNatural 1) ∧
      (u.isCritical = true → .uniform 1 20 20 ∈ draws ∨ u.PutsNatural 20) := by
  obtain ⟨v, hrun, htotal⟩ := evaluate_eq_ok_iff.mp h
  obtain ⟨draws, hrecorded, hsourced⟩ := run_sourced hchancy hrun
  have hrecorded := hrecorded []
  rw [List.append_nil] at hrecorded
  exact ⟨draws, evaluate_eq_ok_iff.mpr ⟨v, hrecorded, htotal⟩, natural_of_sourced hsourced,
    natural_of_sourced hsourced⟩

theorem evaluate_natural_reroll :
    ∃ u draws, Tree.evaluate (Script.source 0).recorded
        (.node (.rerollEqual .once)
          (.node (.dice .plain) (.ofNumber (.int 1)) (.ofNumber (.int 20)) none)
          (.ofNumber (.int 20)) none) (⟨[20, 1], none, [], 0⟩, []) =
        (.ok (.int 1), u, ⟨[], none, [], 0⟩, draws) ∧
      u.isFail = true ∧ .uniform 1 20 1 ∈ draws := by
  let u : Tree := .node (.rerollEqual .once)
    (.node (.dice .plain) (.leaf (.number (.int 1)) (some (.number (.int 1))))
      (.leaf (.number (.int 20)) (some (.number (.int 20))))
      (some (.roll ⟨[.int 20], .sides 20, [], false⟩)))
    (.leaf (.number (.int 20)) (some (.number (.int 20))))
    (some (.roll ⟨[.int 1], .sides 20, [.int 20], false⟩))
  obtain ⟨draws, hrecorded, hfail, -⟩ := evaluate_natural (Script.source 0)
    (.node (.rerollEqual .once)
      (.node (.dice .plain) (.ofNumber (.int 1)) (.ofNumber (.int 20)) none)
      (.ofNumber (.int 20)) none) ⟨[20, 1], none, [], 0⟩ (.int 1) u ⟨[], none, [], 0⟩ (by decide)
    (by decide +kernel)
  have hnatural : u.isFail = true := by decide
  refine ⟨u, draws, hrecorded, hnatural, (hfail hnatural).resolve_right ?_⟩
  rintro ⟨node, hnode, r, -, a, -, -, hput⟩
  obtain rfl : node = u := List.mem_singleton.mp hnode
  obtain ⟨-, ⟨k, -, hputs⟩ | ⟨hedits, -⟩⟩ := hput
  · exact hputs
  · cases hedits

/-- A thirteen counted by a threshold shows a one, and a seven raised to twenty shows a twenty. -/
theorem natural_not_drawn :
    (∃ t u draws, Tree.ofText (ascii ['1', 'd', '2', '0', 't', '5']) = .ok t ∧ t.Chancy ∧
      t.evaluate (Script.source 0).recorded (⟨[13], none, [], 0⟩, []) =
        (.ok (.int 1), u, ⟨[], none, [], 0⟩, draws) ∧ u.isFail = true ∧ .uniform 1 20 1 ∉ draws) ∧
    ∃ t u draws, Tree.ofText (ascii ['1', 'd', '2', '0', 'f', '2', '0']) = .ok t ∧ t.Chancy ∧
      t.evaluate (Script.source 0).recorded (⟨[7], none, [], 0⟩, []) =
        (.ok (.int 20), u, ⟨[], none, [], 0⟩, draws) ∧ u.isCritical = true ∧
        .uniform 1 20 20 ∉ draws := by
  constructor
  · exact ⟨.node (.threshold .low)
      (.node (.dice .plain) (.ofNumber (.int 1)) (.ofNumber (.int 20)) none)
      (.ofNumber (.int 5)) none,
      .node (.threshold .low)
        (.node (.dice .plain) (.leaf (.number (.int 1)) (some (.number (.int 1))))
          (.leaf (.number (.int 20)) (some (.number (.int 20))))
          (some (.roll ⟨[.int 13], .sides 20, [], false⟩)))
        (.leaf (.number (.int 5)) (some (.number (.int 5))))
        (some (.roll ⟨[.int 1], .sides 20, [.int 13], false⟩)),
      [.uniform 1 20 13], by decide +kernel, by decide, by decide +kernel, by decide, by decide⟩
  · exact ⟨.node (.clamp .low)
      (.node (.dice .plain) (.ofNumber (.int 1)) (.ofNumber (.int 20)) none)
      (.ofNumber (.int 20)) none,
      .node (.clamp .low)
        (.node (.dice .plain) (.leaf (.number (.int 1)) (some (.number (.int 1))))
          (.leaf (.number (.int 20)) (some (.number (.int 20))))
          (some (.roll ⟨[.int 7], .sides 20, [], false⟩)))
        (.leaf (.number (.int 20)) (some (.number (.int 20))))
        (some (.roll ⟨[.int 20], .sides 20, [.int 7], false⟩)),
      [.uniform 1 20 7], by decide +kernel, by decide, by decide +kernel, by decide, by decide⟩

end Tree

end DiceFormula
