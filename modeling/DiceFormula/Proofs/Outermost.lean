import DiceFormula.Proofs.Naturals
import DiceFormula.Tree.Join

/-! Natural rolls by their places. The nodes of a tree stand at the ends of paths from the root, and
those above a node at the beginnings of its path. A listing that stops at some nodes has exactly the
nodes that stand below none of them, so that a natural face is looked for in just those rolls of a
die with twenty sides that no other such roll stands above, whatever stands in the other branches.
-/
namespace DiceFormula.Tree

variable {t node : Tree} {p : Tree → Prop} {stops : Tree → Bool} {turn : Turn} {path : List Turn}

def branch : Turn → Tree → Tree
  | .left, .node _ left _ _ => left
  | .right, .node _ _ right _ => right
  | _, _ => .empty

def nodeAt? : List Turn → Tree → Option Tree
  | [], t => if t.isEmpty then none else some t
  | turn :: path, t => nodeAt? path (t.branch turn)

@[simp] theorem nodeAt?_empty (path : List Turn) : nodeAt? path .empty = none := by
  induction path with
  | nil => rfl
  | cons turn path ih => cases turn <;> exact ih

theorem nodeAt?_root (hne : t.isEmpty = false) : nodeAt? [] t = some t := by
  rw [nodeAt?, hne]
  rfl

/-- None of the nodes above the end of the path is such a node. -/
def Clear (p : Tree → Prop) (path : List Turn) (t : Tree) : Prop :=
  ∀ upper above, upper <+: path → upper ≠ path → nodeAt? upper t = some above → ¬ p above

@[simp] theorem clear_nil (p : Tree → Prop) (t : Tree) : t.Clear p [] :=
  fun _ _ hprefix hne => absurd (List.prefix_nil.mp hprefix) hne

theorem clear_cons (hne : t.isEmpty = false) :
    t.Clear p (turn :: path) ↔ ¬ p t ∧ (t.branch turn).Clear p path := by
  constructor
  · intro h
    refine ⟨h [] t List.nil_prefix (List.cons_ne_nil turn path).symm (nodeAt?_root hne), ?_⟩
    intro upper above hprefix hupper
    exact h (turn :: upper) above (List.cons_prefix_cons.mpr ⟨rfl, hprefix⟩) fun hcons =>
      hupper (List.cons.inj hcons).2
  · rintro ⟨hstops, hbranch⟩ upper above hprefix hupper habove
    cases upper with
    | nil => exact Option.some.inj ((nodeAt?_root hne).symm.trans habove) ▸ hstops
    | cons other upper =>
      obtain ⟨rfl, htail⟩ := List.cons_prefix_cons.mp hprefix
      exact hbranch upper above htail (fun heq => hupper (congrArg _ heq)) habove

theorem exists_path {P : List Turn → Prop} :
    (∃ path, P path) ↔ P [] ∨ (∃ path, P (.left :: path)) ∨ ∃ path, P (.right :: path) := by
  constructor
  · rintro ⟨_ | ⟨_ | _, path⟩, h⟩
    · exact .inl h
    · exact .inr (.inl ⟨path, h⟩)
    · exact .inr (.inr ⟨path, h⟩)
  · rintro (h | ⟨path, h⟩ | ⟨path, h⟩)
    · exact ⟨_, h⟩
    · exact ⟨_, h⟩
    · exact ⟨_, h⟩

theorem clear_root (hne : t.isEmpty = false) :
    (nodeAt? [] t = some node ∧ t.Clear p []) ↔ t = node := by
  rw [nodeAt?_root hne, Option.some.injEq]
  exact and_iff_left (clear_nil p t)

theorem exists_clear_cons (hne : t.isEmpty = false) (turn : Turn) :
    (∃ path, nodeAt? (turn :: path) t = some node ∧ t.Clear p (turn :: path)) ↔
      ¬ p t ∧ ∃ path, nodeAt? path (t.branch turn) = some node ∧ (t.branch turn).Clear p path := by
  simp only [nodeAt?, clear_cons hne, and_left_comm, exists_and_left]

theorem mem_preOrder_iff :
    node ∈ t.preOrder stops ↔ ∃ path, nodeAt? path t = some node ∧
    t.Clear (stops · = true) path := by
  induction t with
  | empty => simp [preOrder]
  | leaf content known =>
    have hne : (Tree.leaf content known).isEmpty = false := rfl
    rw [exists_path, clear_root hne, preOrder, List.mem_singleton, eq_comm]
    simp only [nodeAt?, branch, nodeAt?_empty, reduceCtorEq, false_and, exists_false, or_false]
  | node op left right known ihleft ihright =>
    have hne : (Tree.node op left right known).isEmpty = false := rfl
    rw [exists_path, clear_root hne, exists_clear_cons hne .left, exists_clear_cons hne .right,
      branch, branch, ← ihleft, ← ihright, eq_comm, preOrder]
    split
    · next hstops => simp [hstops]
    · next hstops => simp [hstops]

def KeepsTwentySided (t : Tree) : Prop := ∃ r, t.known = some (.roll r) ∧ r.die = .sides 20

theorem twentySided_of_known {r : Roll} (hknown : t.known = some (.roll r))
    (hdie : r.die = .sides 20) :
    t.twentySided = some r := by
  simp [twentySided, hknown, hdie, Die.same]

theorem hasTwentySided_iff : t.hasTwentySided = true ↔ t.KeepsTwentySided := by
  rw [hasTwentySided, Option.isSome_iff_exists]
  constructor
  · rintro ⟨r, hr⟩
    exact ⟨r, twentySided_eq_some hr⟩
  · rintro ⟨r, hknown, hdie⟩
    exact ⟨r, twentySided_of_known hknown hdie⟩

/-- At the end of the path stands a roll of a die with twenty sides that shows the face, and no such
roll stands above it. -/
def NaturalAt (face : Int) (path : List Turn) (t : Tree) : Prop :=
  ∃ node r, nodeAt? path t = some node ∧ node.known = some (.roll r) ∧ r.die = .sides 20 ∧
    (∃ a ∈ r.values, (Number.int face).same a = true) ∧ t.Clear KeepsTwentySided path

theorem showsNatural_iff (face : Int) (t : Tree) :
    t.showsNatural face = true ↔ ∃ path, t.NaturalAt face path := by
  have hclear (path : List Turn) :
      t.Clear (hasTwentySided · = true) path ↔ t.Clear KeepsTwentySided path := by
    simp only [hasTwentySided_iff]
  rw [showsNatural, List.any_eq_true]
  constructor
  · rintro ⟨node, hnode, hshows⟩
    obtain ⟨path, hpath, habove⟩ := mem_preOrder_iff.mp hnode
    split at hshows
    · next r hr =>
      obtain ⟨hknown, hdie⟩ := twentySided_eq_some hr
      exact ⟨path, node, r, hpath, hknown, hdie, List.any_eq_true.mp hshows,
        (hclear path).mp habove⟩
    · cases hshows
  · rintro ⟨path, node, r, hpath, hknown, hdie, hface, habove⟩
    refine ⟨node, mem_preOrder_iff.mpr ⟨path, hpath, (hclear path).mpr habove⟩, ?_⟩
    rw [twentySided_of_known hknown hdie]
    exact List.any_eq_true.mpr hface

/-- A natural twenty and a natural one are looked for in the outermost rolls of a die with twenty
sides, and in all of them: whatever the nodes keep, the answer is yes exactly when such a roll shows
the face and no other one stands above it. -/
theorem natural_iff_outermost (t : Tree) :
    (t.isCritical = true ↔ ∃ path, t.NaturalAt 20 path) ∧
    (t.isFail = true ↔ ∃ path, t.NaturalAt 1 path) :=
  ⟨showsNatural_iff 20 t, showsNatural_iff 1 t⟩

/-- A twenty that was thrown again is hidden below what came for it, and one on the other side of a
sum is not. -/
example :
    let thrown : Tree := .node (.dice .plain) (.ofNumber (.int 1)) (.ofNumber (.int 20))
      (some (.roll ⟨[.int 20], .sides 20, [], false⟩))
    let again : Tree := .node (.rerollEqual .once) thrown (.ofNumber (.int 20))
      (some (.roll ⟨[.int 3], .sides 20, [.int 20], false⟩))
    again.isCritical = false ∧ (Tree.node .add again thrown none).isCritical = true := by decide

end DiceFormula.Tree
