import DiceFormula.Proofs.Conservation

/-! Where the values of a roll come from. Dice that are thrown show what was drawn for them, and so
do the values that are thrown again. A bound and the verdicts of a threshold are put in the place of
values without a draw. All the time a roll keeps its die, which is one that can be thrown. What an
operator can do is said once, in `Yields`. -/
namespace DiceFormula

variable {σ : Type} {source : Source σ} {die : Die} {s t : σ} {draws draws' : List Draw}
  {a : Number}

namespace Die

def Throwable : Die → Prop
  | .sides count => 1 ≤ count
  | .faces values => values ≠ []

theorem throwable_of_check (h : die.check = .ok ()) : die.Throwable := by
  cases die with
  | sides count =>
    rw [check] at h
    split at h
    · cases h
    · next hsides => exact Int.not_lt.mp hsides
  | faces values =>
    cases values with
    | nil => cases h
    | cons a rest => exact List.cons_ne_nil a rest

def Shown (die : Die) (draws : List Draw) (a : Number) : Prop :=
  ∃ draw ∈ draws, die.shows draw = some a

theorem Shown.mono (h : die.Shown draws a) (hmore : draws ⊆ draws') : die.Shown draws' a := by
  obtain ⟨draw, hmem, hshows⟩ := h
  exact ⟨draw, hmore hmem, hshows⟩

end Die

theorem Source.throwDice_shown {count : Nat} {thrown values : List Number}
    (h : source.recorded.throwDice die count thrown (s, draws) = (.ok values, t, draws'))
    (hthrown : ∀ a ∈ thrown, die.Shown draws a) : ∀ a ∈ values, die.Shown draws' a := by
  induction count generalizing thrown s draws with
  | zero =>
    cases h
    exact fun a ha => hthrown a (List.mem_reverse.mp ha)
  | succ count ih =>
    rw [throwDice] at h
    split at h
    · next b st hthrow =>
      obtain ⟨draw, hdraws, hshows⟩ := throwDie_recorded hthrow
      obtain ⟨s₁, draws₁⟩ := st
      obtain rfl : draws₁ = draw :: draws := hdraws
      refine ih h fun a ha => ?_
      obtain rfl | ha := List.mem_cons.mp ha
      · exact ⟨draw, List.mem_cons_self, hshows⟩
      · exact (hthrown a ha).mono (List.subset_cons_self draw draws)
    · cases h

theorem Visited.Balanced.shown {v : Visited} {values : List Number}
    (h : v.Balanced die values [] draws)
    (ha : a ∈ v.kept ∨ a ∈ v.aside) : a ∈ values ∨ die.Shown draws a := by
  obtain ⟨⟨drawn, hshows, hbalance⟩, -⟩ := h
  have hmem : a ∈ values ++ drawn := hbalance.subset (by simpa using ha)
  refine (List.mem_append.mp hmem).imp_right fun hdrawn => ?_
  have hshown : some a ∈ draws.reverse.map die.shows := hshows ▸ List.mem_map_of_mem hdrawn
  obtain ⟨draw, hdraw, hshows⟩ := List.mem_map.mp hshown
  exact ⟨draw, List.mem_reverse.mp hdraw, hshows⟩

namespace Roll

variable {r r' : Roll}

theorem mem_ofValues {values : List Number} : a ∈ (ofValues values die).values ↔ a ∈ values :=
  (List.mergeSort_perm _ _).mem_iff

theorem throwMany_shown {count : Nat}
    (h : throwMany source.recorded count die (s, draws) = (.ok r, t, draws')) :
    r.die = die ∧ die.Throwable ∧ ∀ a ∈ r.values, die.Shown draws' a := by
  obtain ⟨_, ⟨s₁, draws₁⟩, hcheck, h⟩ := Rolling.bind_eq_ok h
  obtain ⟨values, st, hthrow, hresult⟩ := Rolling.bind_eq_ok h
  cases hresult
  exact ⟨rfl, Die.throwable_of_check (Prod.mk.inj hcheck).1,
    fun a ha => Source.throwDice_shown hthrow (by simp) a (mem_ofValues.mp ha)⟩

theorem throwable_of_replicate {count : Int} {number : Except Fault Number} (h : (do
    let dice ← diceCount count
    die.check
    return ofValues (List.replicate dice (← number)) die) = .ok r) : r.die.Throwable := by
  obtain ⟨dice, -, h⟩ := exists_of_bind_eq_ok h
  obtain ⟨_, hcheck, h⟩ := exists_of_bind_eq_ok h
  obtain ⟨a, -, h⟩ := exists_of_bind_eq_ok h
  cases h
  exact Die.throwable_of_check hcheck

theorem mem_keepLowest {k : Int} (h : a ∈ (r.keepLowest k).values) :
    a ∈ r.values :=
  List.mem_of_mem_take h

theorem mem_keepHighest {k : Int} (h : a ∈ (r.keepHighest k).values) :
    a ∈ r.values :=
  List.mem_of_mem_drop h

theorem mem_clampWhere {fails : Number → Bool} {bound : Number}
    (h : a ∈ (r.clampWhere fails bound).values) :
    a ∈ r.values ∨ a = bound := by
  obtain ⟨b, hb, rfl⟩ := List.mem_map.mp ((settle_perm _).mem_iff.mp h)
  split
  · exact .inr rfl
  · exact .inl hb

theorem mem_judge {passes : Number → Bool} (h : a ∈ (r.judge passes).values) :
    a = .zero ∨ a = .one := by
  have hverdict : a ∈ r.values.map fun b => Number.ofBool (passes b) :=
    (List.mergeSort_perm _ _).mem_iff.mp h
  obtain ⟨b, -, rfl⟩ := List.mem_map.mp hverdict
  cases passes b
  · exact .inl rfl
  · exact .inr rfl

theorem mem_afterVisit {v : Visited} (h : a ∈ (r.afterVisit v).values) : a ∈ v.kept :=
  List.mem_reverse.mp ((settle_perm _).mem_iff.mp h)

end Roll

namespace Value

variable {v : Value} {role : Role}

theorem roll?_eq_ok {r : Roll} (h : v.roll? role = .ok r) : v = .roll r := by
  cases v with
  | roll => cases h; rfl
  | number | faces => cases h

theorem number?_eq_ok (h : v.number? role = .ok a) : v = .number a := by
  cases v with
  | number => cases h; rfl
  | roll | faces => cases h

theorem integer?_eq_ok {k : Int} (h : v.integer? role = .ok k) : v = .number (.int k) := by
  obtain ⟨b, hb, h⟩ := exists_of_bind_eq_ok h
  obtain rfl := number?_eq_ok hb
  cases b with
  | int => cases h; rfl
  | real => cases h

end Value

namespace Operator

variable {op : Operator} {left right v : Value} {r' : Roll}

theorem throwDice_shown {throw : Throw} {r : Roll}
    (h : throwDice source.recorded throw left right (s, draws) = (.ok r, t, draws')) :
    r.die.Throwable ∧
      (throw = .plain ∨ throw = .critical → ∀ a ∈ r.values, r.die.Shown draws' a) := by
  obtain ⟨count, st, hcount, h⟩ := Rolling.bind_eq_ok h
  cases throw with
  | plain | critical =>
    obtain ⟨die, st, -, h⟩ := Rolling.bind_eq_ok h
    obtain ⟨dice, st, -, h⟩ := Rolling.bind_eq_ok h
    obtain ⟨rfl, hdie, hshown⟩ := Roll.throwMany_shown h
    exact ⟨hdie, fun _ => hshown⟩
  | average | maximum =>
    obtain ⟨die, st, -, h⟩ := Rolling.bind_eq_ok h
    exact ⟨Roll.throwable_of_replicate (Prod.mk.inj h).1, fun hthrow => by simp at hthrow⟩

/-- What an operator that works on a roll may put in the place of a value without a draw. -/
def PutsIn (op : Operator) (k a : Number) : Prop :=
  match op with
  | .clamp _ => a = k
  | .threshold _ => a = .zero ∨ a = .one
  | _ => False

/-- A roll of the same die, in which every value was there before, was drawn or was put in. -/
structure Edits (op : Operator) (r : Roll) (k : Number) (draws : List Draw) (r' : Roll) : Prop where
  die : r'.die = r.die
  values : ∀ a ∈ r'.values, a ∈ r.values ∨ r.die.Shown draws a ∨ op.PutsIn k a

def Edited (op : Operator) (left right : Option Value) (draws : List Draw) (r' : Roll) : Prop :=
  ∃ r k, left = some (.roll r) ∧ Tree.totalOf right = .ok k ∧ op.Edits r k draws r'

theorem Edits.edited {r : Roll} {k : Number} (h : op.Edits r k draws r') :
    op.Edited (some (.roll r)) (some (.number k)) draws r' := ⟨r, k, rfl, rfl, h⟩

theorem keepDice_edited {side : End} (h : keepDice side left right = .ok r') (draws : List Draw) :
    (keep side).Edited (some left) (some right) draws r' := by
  obtain ⟨r, hr, h⟩ := exists_of_bind_eq_ok h
  obtain ⟨k, hk, h⟩ := exists_of_bind_eq_ok h
  obtain rfl := Value.roll?_eq_ok hr
  obtain rfl := Value.integer?_eq_ok hk
  cases side with
  | low =>
    cases h
    exact Edits.edited ⟨rfl, fun a ha => .inl (Roll.mem_keepLowest ha)⟩
  | high =>
    cases h
    exact Edits.edited ⟨rfl, fun a ha => .inl (Roll.mem_keepHighest ha)⟩

theorem clampDice_edited {side : End} (h : clampDice side left right = .ok r') (draws : List Draw) :
    (clamp side).Edited (some left) (some right) draws r' := by
  obtain ⟨r, hr, h⟩ := exists_of_bind_eq_ok h
  obtain ⟨k, hk, h⟩ := exists_of_bind_eq_ok h
  obtain rfl := Value.roll?_eq_ok hr
  obtain rfl := Value.number?_eq_ok hk
  cases side with
  | low | high =>
    cases h
    exact Edits.edited ⟨Roll.settle_die _, fun a ha => (Roll.mem_clampWhere ha).imp_right .inr⟩

theorem judgeDice_edited {side : End} (h : judgeDice side left right = .ok r') (draws : List Draw) :
    (threshold side).Edited (some left) (some right) draws r' := by
  obtain ⟨r, hr, h⟩ := exists_of_bind_eq_ok h
  obtain ⟨k, hk, h⟩ := exists_of_bind_eq_ok h
  obtain rfl := Value.roll?_eq_ok hr
  obtain rfl := Value.integer?_eq_ok hk
  cases side with
  | low | high =>
    cases h
    exact Edits.edited ⟨rfl, fun a ha => .inr (.inr (Roll.mem_judge ha))⟩

theorem reroll_edited {pace : Pace} {trigger : Trigger}
    (h : reroll source.recorded pace trigger left right (s, []) = (.ok r', t, draws))
    (op : Operator) :
    op.Edited (some left) (some right) draws r' := by
  have hreroll := h
  obtain ⟨r, ⟨s₁, draws₁⟩, hr, h⟩ := Rolling.bind_eq_ok h
  obtain ⟨k, st, hk, -⟩ := Rolling.bind_eq_ok h
  obtain rfl := Value.roll?_eq_ok (Prod.mk.inj hr).1
  obtain rfl := Value.number?_eq_ok (Prod.mk.inj hk).1
  obtain ⟨v, hvisit, rfl⟩ := reroll_visited hreroll
  refine Edits.edited ⟨Roll.settle_die _, fun a ha => ?_⟩
  exact (hvisit.shown (.inl (Roll.mem_afterVisit ha))).imp_right .inl

def makesRoll (op : Operator) : Bool := op.isDice || op.editsRoll

inductive Yields (op : Operator) (left right : Option Value) (draws : List Draw) : Value → Prop
  | number (n : Number) (hop : op.makesRoll = false) : Yields op left right draws (.number n)
  | thrown (throw : Throw) (r : Roll) (hop : op = .dice throw) (hdie : r.die.Throwable)
      (hshown : throw = .plain ∨ throw = .critical → ∀ a ∈ r.values, r.die.Shown draws a) :
      Yields op left right draws (.roll r)
  | edited (r' : Roll) (hop : op.editsRoll = true) (hedited : op.Edited left right draws r') :
      Yields op left right draws (.roll r')

theorem act_yields (h : op.act source.recorded left right (s, []) = (.ok v, t, draws)) :
    op.Yields (some left) (some right) draws v := by
  cases op with
  | dice throw =>
    obtain ⟨r, st, hthrow, hresult⟩ := Rolling.bind_eq_ok h
    cases hresult
    obtain ⟨hdie, hshown⟩ := throwDice_shown hthrow
    exact .thrown throw r rfl hdie hshown
  | keep side =>
    obtain ⟨r', st, hkeep, hresult⟩ := Rolling.bind_eq_ok h
    cases hresult
    exact .edited r' rfl (keepDice_edited (Prod.mk.inj hkeep).1 draws)
  | clamp side =>
    obtain ⟨r', st, hclamp, hresult⟩ := Rolling.bind_eq_ok h
    cases hresult
    exact .edited r' rfl (clampDice_edited (Prod.mk.inj hclamp).1 draws)
  | threshold side =>
    obtain ⟨r', st, hjudge, hresult⟩ := Rolling.bind_eq_ok h
    cases hresult
    exact .edited r' rfl (judgeDice_edited (Prod.mk.inj hjudge).1 draws)
  | rerollEqual | rerollBeyond =>
    obtain ⟨r', st, hreroll, hresult⟩ := Rolling.bind_eq_ok h
    cases hresult
    exact .edited r' rfl (reroll_edited hreroll _)
  | _ =>
    obtain ⟨n, st, -, hresult⟩ := Rolling.bind_eq_ok h
    cases hresult
    exact .number n rfl

theorem operand_unsummed {missing : Fault} {given : Option Value}
    (h : operand true false missing given = .ok v) :
    given = some v := by
  cases given with
  | none => cases h
  | some w => cases h; rfl

theorem operand_summed {missing : Fault} {given : Option Value}
    (h : operand true true missing given = .ok v) :
    Tree.totalOf given = Tree.totalOf (some v) := by
  cases given with
  | none => cases h
  | some w =>
    obtain ⟨n, htotal, hv⟩ := exists_of_bind_eq_ok h
    cases hv
    exact htotal

theorem apply_yields {left right : Option Value} {s' : σ}
    (h : op.apply source left right s = (.ok v, s')) :
    ∃ made, (∀ draws, op.apply source.recorded left right (s, draws) = (.ok v, s', made ++ draws)) ∧
      op.Yields left right made v := by
  obtain ⟨made, hmade⟩ := @prepends_apply σ source op left right s
  rw [h] at hmade
  refine ⟨made, hmade, ?_⟩
  have hrecorded := hmade []
  rw [List.append_nil] at hrecorded
  obtain ⟨a, ⟨s₁, draws₁⟩, hleft, hact⟩ := Rolling.bind_eq_ok hrecorded
  cases (Prod.mk.inj hleft).2
  obtain ⟨b, ⟨s₂, draws₂⟩, hright, hact⟩ := Rolling.bind_eq_ok hact
  cases (Prod.mk.inj hright).2
  cases act_yields hact with
  | number n hop => exact .number n hop
  | thrown throw r hop hdie hshown => exact .thrown throw r hop hdie hshown
  | edited r' hop hedited =>
    obtain ⟨r, k, ha, hb, hedits⟩ := hedited
    obtain ⟨harity, hsummed⟩ := sides_of_editsRoll hop
    rw [takesLeft, harity, hsummed] at hleft
    rw [takesRight, harity, hsummed] at hright
    exact .edited r' hop ⟨r, k, (operand_unsummed (Prod.mk.inj hleft).1).trans ha,
      (operand_summed (Prod.mk.inj hright).1).trans hb, hedits⟩

end Operator

end DiceFormula
