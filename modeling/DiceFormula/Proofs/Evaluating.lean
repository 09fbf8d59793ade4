import DiceFormula.Tree.Listing

/-! What an evaluation leaves in a tree. One that completes gives every node the value that its
operator makes of the values below it, and changes nothing else; one that breaks off leaves the
nodes above the fault as they were. -/
namespace DiceFormula.Tree

variable {σ : Type} {source : Source σ} {s s' : σ} {t u left right : Tree} {known v : Option Value}
  {op : Operator} {a : Number} {items xs ys : List Item} {x y : Text}

def bare : Tree → Tree
  | .empty => .empty
  | .leaf content _ => .leaf content none
  | .node op left right _ => .node op left.bare right.bare none

@[simp] theorem isEmpty_bare (t : Tree) : t.bare.isEmpty = t.isEmpty := by
  cases t <;> rfl

theorem isEmpty_of_bare_eq (h : t.bare = u.bare) : t.isEmpty = u.isEmpty := by
  rw [← isEmpty_bare, h, isEmpty_bare]

@[simp] theorem depth_bare (t : Tree) : t.bare.depth = t.depth := by
  induction t with
  | empty | leaf => rfl
  | node op left right known ihleft ihright => simp only [bare, depth, ihleft, ihright]

/-- Every node keeps the value of its literal, or the value that its operator makes of the values
that its operands keep. -/
def Settled (source : Source σ) : Tree → Prop
  | .empty => True
  | .leaf content known => known = some content.value
  | .node op left right known =>
    (∃ w s s', op.apply source left.known right.known s = (.ok w, s') ∧ known = some w) ∧
      left.Settled source ∧ right.Settled source

theorem Settled.known_isSome (h : t.Settled source) (hne : t.isEmpty = false) :
    t.known.isSome = true := by
  cases t with
  | empty => cases hne
  | leaf content known => exact Option.isSome_of_eq_some h
  | node op left right known =>
    obtain ⟨⟨w, _, _, _, hknown⟩, -⟩ := h
    exact Option.isSome_of_eq_some hknown

theorem run_node_ok (h : run source (.node op left right known) s = (.ok v, u, s')) :
    ∃ a left' s₁ b right' s₂ w, run source left s = (.ok a, left', s₁) ∧
      run source right s₁ = (.ok b, right', s₂) ∧ op.apply source a b s₂ = (.ok w, s') ∧
      v = some w ∧ u = .node op left' right' (some w) := by
  rw [run] at h
  split at h
  · cases h
  · next a left' s₁ hleft =>
    split at h
    · cases h
    · next b right' s₂ hright =>
      split at h
      · cases h
      · next w s₃ happly =>
        cases h
        exact ⟨a, left', s₁, b, right', s₂, w, hleft, hright, happly, rfl, rfl⟩

theorem run_settled (h : run source t s = (.ok v, u, s')) : u.Settled source ∧ u.known = v := by
  induction t generalizing s s' u v with
  | empty =>
    cases h
    exact ⟨trivial, rfl⟩
  | leaf content known =>
    cases h
    exact ⟨rfl, rfl⟩
  | node op left right known ihleft ihright =>
    obtain ⟨a, left', s₁, b, right', s₂, w, hleft, hright, happly, rfl, rfl⟩ := run_node_ok h
    obtain ⟨hsettled, rfl⟩ := ihleft hleft
    obtain ⟨hsettled', rfl⟩ := ihright hright
    exact ⟨⟨⟨w, s₂, s', happly, rfl⟩, hsettled, hsettled'⟩, rfl⟩

theorem bare_run (t : Tree) (s : σ) : (run source t s).2.1.bare = t.bare := by
  induction t generalizing s with
  | empty | leaf => rfl
  | node op left right known ihleft ihright =>
    have hleft := ihleft s
    rw [run]
    split
    · next hrun =>
      rw [hrun] at hleft
      simp only [bare, hleft]
    · next s₁ hrun =>
      have hright := ihright s₁
      rw [hrun] at hleft
      split
      · next hrun =>
        rw [hrun] at hright
        simp only [bare, hleft, hright]
      · next hrun =>
        rw [hrun] at hright
        split <;> simp only [bare, hleft, hright]

theorem known_run_error {fault : Fault} (h : run source t s = (.error fault, u, s')) :
    u.known = t.known := by
  cases t with
  | empty | leaf => cases h
  | node op left right known =>
    rw [run] at h
    split at h
    · cases h
      rfl
    · split at h
      · cases h
        rfl
      · split at h
        · cases h
          rfl
        · cases h

theorem explain_of_known (hknown : t.known.isSome = true) (source : Source σ) (s : σ) :
    t.explain source s = (t.explanation.mapError .fault, t, s) := by
  have hne : t.isEmpty = false := by
    cases t with
    | empty => cases hknown
    | leaf | node => rfl
  simp only [explain, hne, hknown, Bool.false_eq_true, ↓reduceIte]
  cases t.explanation <;> rfl

theorem evaluate_eq_ok_iff : t.evaluate source s = (.ok a, u, s') ↔
    ∃ v, run source t s = (.ok v, u, s') ∧ totalOf v = .ok a := by
  constructor
  · intro h
    rw [evaluate] at h
    split at h
    · cases h
    · next v u s' hrun =>
      split at h
      · next a htotal =>
        cases h
        exact ⟨v, hrun, htotal⟩
      · cases h
  · rintro ⟨v, hrun, htotal⟩
    simp only [evaluate, hrun, htotal]

theorem evaluate_settled (h : t.evaluate source s = (.ok a, u, s')) :
    u.Settled source ∧ totalOf u.known = .ok a ∧ u.bare = t.bare := by
  have hbare := @bare_run σ source t s
  obtain ⟨v, hrun, htotal⟩ := evaluate_eq_ok_iff.mp h
  obtain ⟨hsettled, rfl⟩ := run_settled hrun
  rw [hrun] at hbare
  exact ⟨hsettled, htotal, hbare⟩

theorem explanation_of_shown (hitems : shownItems (inOrder shownAsValue t) = .ok x)
    (htotal : totalOf t.known = .ok a) :
    t.explanation = .ok (x ++ ascii [' ', '=', ' '] ++ a.text) := by
  simp only [explanation, hitems, htotal, bind, Except.bind]
  rfl

theorem shownItems_append (hxs : shownItems xs = .ok x) (hys : shownItems ys = .ok y) :
    shownItems (xs ++ ys) = .ok (x ++ y) := by
  induction xs generalizing x with
  | nil =>
    cases hxs
    exact hys
  | cons item xs ih =>
    simp only [shownItems] at hxs
    split at hxs
    · cases hxs
    · next first hitem =>
      split at hxs
      · cases hxs
      · next others hothers =>
        cases hxs
        simp only [List.cons_append, shownItems, hitem, ih hothers, List.append_assoc]

theorem shownItems_cons {item : Item} (hitem : item.shown = .ok x) (hxs : shownItems xs = .ok y) :
    shownItems (item :: xs) = .ok (x ++ y) := by
  simp only [shownItems, hitem, hxs]

theorem exists_shownItems (h : ∀ item ∈ items, ∃ x, item.shown = .ok x) :
    ∃ x, shownItems items = .ok x := by
  induction items with
  | nil => exact ⟨[], rfl⟩
  | cons item items ih =>
    obtain ⟨⟨x, hx⟩, hitems⟩ := List.forall_mem_cons.mp h
    obtain ⟨y, hy⟩ := ih hitems
    exact ⟨x ++ y, shownItems_cons hx hy⟩

theorem settled_of_listed {above : Nat} (h : t.Settled source)
    (hmem : .node u ∈ inOrderBelow shownAsValue above t) :
    u.Settled source ∧ u.isEmpty = false := by
  induction t generalizing above with
  | empty => cases hmem
  | leaf content known =>
    obtain rfl : u = .leaf content known := by simpa [inOrderBelow] using hmem
    exact ⟨h, rfl⟩
  | node op left right known ihleft ihright =>
    have hcases : u = .node op left right known ∨
        .node u ∈ inOrderBelow shownAsValue op.precedence left ∨
        .node u ∈ inOrderBelow shownAsValue op.precedence right := by
      simp only [inOrderBelow] at hmem
      split at hmem
      · exact .inl (by simpa using hmem)
      · have hitems : Item.node u ∈ inOrderBelow shownAsValue op.precedence left ++
            .node (.node op left right known) :: inOrderBelow shownAsValue op.precedence right := by
          split at hmem <;> simpa using hmem
        rw [List.mem_append, List.mem_cons, Item.node.injEq] at hitems
        exact or_left_comm.mp hitems
    obtain rfl | hleft | hright := hcases
    · exact ⟨h, rfl⟩
    · exact ihleft h.2.1 hleft
    · exact ihright h.2.2 hright

theorem Settled.exists_shown (h : t.Settled source) :
    ∃ x, shownItems (inOrder shownAsValue t) = .ok x := by
  refine exists_shownItems fun item hitem => ?_
  cases item with
  | opening | closing => exact ⟨_, rfl⟩
  | node u =>
    obtain ⟨hsettled, hne⟩ := settled_of_listed h hitem
    obtain ⟨v, hv⟩ := Option.isSome_iff_exists.mp (hsettled.known_isSome hne)
    simp only [Item.shown, shown, hv]
    split
    · split
      · exact ⟨_, rfl⟩
      · exact ⟨_, rfl⟩
    · exact ⟨_, rfl⟩

end DiceFormula.Tree
