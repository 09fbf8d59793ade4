import DiceFormula.Proofs.InPlace

/-! Raising and lowering the values of a roll to a bound. The values are gone through in place, and
the bound takes the place of each one that is beyond it. Integers in order stay in order, so that a
clamp makes of every one of them its maximum or its minimum with the bound, and obeys the laws of
these. -/
namespace DiceFormula

namespace End

/-- What a bound leaves of an integer: nothing below a bound at the low end, and nothing above one
at the high end. -/
def limit (side : End) (bound n : Int) : Int :=
  match side with
  | .low => max n bound
  | .high => min n bound

def beyond (side : End) (bound n : Int) : Bool :=
  match side with
  | .low => n < bound
  | .high => bound < n

variable (side : End) (a b n : Int)

theorem limit_eq_ite : side.limit b n = if side.beyond b n then b else n := by
  cases side <;> simp only [limit, beyond, decide_eq_true_eq] <;> split <;> omega

theorem limit_mono {m n : Int} (h : m ≤ n) : side.limit b m ≤ side.limit b n := by
  cases side <;> simp only [limit] <;> omega

theorem ascending_map_limit {numbers : List Int} (h : numbers.Pairwise (· ≤ ·)) :
    (numbers.map (side.limit b)).Pairwise (· ≤ ·) :=
  List.pairwise_map.mpr (h.imp (side.limit_mono b))

@[simp] theorem limit_limit : side.limit b (side.limit a n) = side.limit (side.limit a b) n := by
  cases side <;> simp only [limit] <;> omega

@[simp] theorem limit_self : side.limit b b = b := by
  cases side <;> simp only [limit] <;> omega

theorem beyond_limit : side.beyond b (side.limit b n) = false := by
  cases side <;> exact decide_eq_false (by simp only [limit]; omega)

theorem map_limit_limit (numbers : List Int) :
    (numbers.map (side.limit a)).map (side.limit b) =
      numbers.map (side.limit (side.limit a b)) := by
  simp only [List.map_map, Function.comp_def, limit_limit]

theorem map_limit_comm {low high : Int} (h : low ≤ high) (numbers : List Int) :
    (numbers.map (End.low.limit low)).map (End.high.limit high) =
      (numbers.map (End.high.limit high)).map (End.low.limit low) := by
  have hcomm (n : Int) :
      End.high.limit high (End.low.limit low n) = End.low.limit low (End.high.limit high n) := by
    simp only [limit]
    omega
  simp only [List.map_map, Function.comp_def, hcomm]

theorem filter_beyond_limit (numbers : List Int) :
    (numbers.map (side.limit b)).filter (side.beyond b) = [] := by
  simp only [List.filter_map, Function.comp_def, beyond_limit, List.filter_false, List.map_nil]

end End

namespace Roll

/-- The values are these integers, in ascending order, and nothing keeps the roll from staying in
order. -/
structure Lists (r : Roll) (numbers : List Int) : Prop where
  values : r.values = numbers.map Number.int
  ascending : numbers.Pairwise (· ≤ ·)
  unsuspended : r.suspended = false

variable {r : Roll} {numbers : List Int}

theorem sort_ints (h : numbers.Pairwise (· ≤ ·)) :
    sort (numbers.map Number.int) = numbers.map Number.int := by
  have hle : (numbers.map Number.int).Pairwise fun a b => a.le b = true :=
    List.pairwise_map.mpr (h.imp fun hle => (Number.le_int _ _).trans (decide_eq_true hle))
  exact List.mergeSort_of_pairwise hle

theorem Lists.settle_eq (h : r.Lists numbers) : r.settle = r := by
  obtain ⟨values, die, discards, suspended⟩ := r
  obtain ⟨rfl, hascending, rfl⟩ := h
  simp only [settle, Bool.false_eq_true, ↓reduceIte, sort_ints hascending]

def clamp (r : Roll) (side : End) (bound : Number) : Roll :=
  match side with
  | .low => r.raiseTo bound
  | .high => r.lowerTo bound

theorem clampDice_eq (r : Roll) (side : End) (bound : Number) :
    Operator.clampDice side (.roll r) (.number bound) = .ok (r.clamp side bound) := by
  cases side <;> rfl

theorem onCopy_clamp {σ : Type} (r : Roll) (side : End) (bound : Number) :
    Work.onCopy r (Work.clamp side bound) = (pure (r.clamp side bound) : Rolling σ Fault Roll) := by
  cases side with
  | low => exact Work.onCopy_clamp r (·.lt bound) bound
  | high => exact Work.onCopy_clamp r (bound.lt ·) bound

theorem clampWhere_ints (h : r.values = numbers.map Number.int) {fails : Number → Bool} {side : End}
    {bound : Int} (hfails : ∀ n, fails (.int n) = side.beyond bound n) :
    r.clampWhere fails (.int bound) = settle { r with
      values := (numbers.map (side.limit bound)).map Number.int
      discards := r.discards ++ (numbers.filter (side.beyond bound)).map Number.int } := by
  have hvalue (n : Int) :
      (if fails (.int n) then .int bound else .int n) = Number.int (side.limit bound n) := by
    rw [hfails, End.limit_eq_ite, apply_ite Number.int]
  have hdiscards : fails ∘ Number.int = side.beyond bound := funext hfails
  simp only [clampWhere, h, List.map_map, List.filter_map, Function.comp_def, hvalue, ← hdiscards]

theorem Lists.clamp_eq (h : r.Lists numbers) (side : End) (bound : Int) :
    r.clamp side (.int bound) = { r with
      values := (numbers.map (side.limit bound)).map Number.int
      discards := r.discards ++ (numbers.filter (side.beyond bound)).map Number.int } := by
  have hclamp : r.clamp side (.int bound) = settle { r with
      values := (numbers.map (side.limit bound)).map Number.int
      discards := r.discards ++ (numbers.filter (side.beyond bound)).map Number.int } := by
    cases side with
    | low => exact clampWhere_ints h.values fun n => Number.lt_int n bound
    | high => exact clampWhere_ints h.values fun n => Number.lt_int bound n
  exact hclamp.trans
    (Lists.settle_eq ⟨rfl, side.ascending_map_limit bound h.ascending, h.unsuspended⟩)

theorem Lists.clamp (h : r.Lists numbers) (side : End) (bound : Int) :
    (r.clamp side (.int bound)).Lists (numbers.map (side.limit bound)) := by
  rw [h.clamp_eq]
  exact ⟨rfl, side.ascending_map_limit bound h.ascending, h.unsuspended⟩

theorem Lists.discards_clamp (h : r.Lists numbers) (side : End) (bound : Int) :
    (r.clamp side (.int bound)).discards = r.discards ++
      (numbers.filter (side.beyond bound)).map Number.int := by
  rw [h.clamp_eq]

theorem Lists.clamp_clamp_self (h : r.Lists numbers) (side : End) (bound : Int) :
    (r.clamp side (.int bound)).clamp side (.int bound) = r.clamp side (.int bound) := by
  rw [(h.clamp side bound).clamp_eq, side.map_limit_limit, side.limit_self,
    side.filter_beyond_limit, List.map_nil, List.append_nil, h.clamp_eq]

theorem Lists.values_clamp_clamp (h : r.Lists numbers) (side : End) (first second : Int) :
    ((r.clamp side (.int first)).clamp side (.int second)).values =
      (r.clamp side (.int (side.limit first second))).values := by
  rw [((h.clamp side first).clamp side second).values, (h.clamp side _).values,
    side.map_limit_limit]

theorem Lists.values_clamp_comm (h : r.Lists numbers) {low high : Int} (hle : low ≤ high) :
    ((r.clamp .low (.int low)).clamp .high (.int high)).values =
      ((r.clamp .high (.int high)).clamp .low (.int low)).values := by
  rw [((h.clamp .low low).clamp .high high).values, ((h.clamp .high high).clamp .low low).values,
    End.map_limit_comm hle]

/-- Floors and ceilings of a roll of integers in order, put in place by place. Every value becomes
the maximum or the minimum of itself and the bound, and they still are in order; just the values
beyond the bound are put aside, in order too. A bound that is put in again changes nothing, of two
bounds at one end the stricter one counts, and a floor and a ceiling above it can change places. -/
theorem clamp_limits {σ : Type} (r : Roll) (numbers : List Int) (side : End)
    (bound other low high : Int) (h : r.Lists numbers) :
    Work.onCopy r (Work.clamp side (.int bound)) =
      (pure (r.clamp side (.int bound)) : Rolling σ Fault Roll) ∧
      (r.clamp side (.int bound)).Lists (numbers.map (side.limit bound)) ∧
      (r.clamp side (.int bound)).discards = r.discards ++
        (numbers.filter (side.beyond bound)).map Number.int ∧
      (numbers.filter (side.beyond bound)).Pairwise (· ≤ ·) ∧
      (r.clamp side (.int bound)).clamp side (.int bound) = r.clamp side (.int bound) ∧
      ((r.clamp side (.int bound)).clamp side (.int other)).values =
        (r.clamp side (.int (side.limit bound other))).values ∧
      (low ≤ high → ((r.clamp .low (.int low)).clamp .high (.int high)).values =
        ((r.clamp .high (.int high)).clamp .low (.int low)).values) := by
  exact ⟨onCopy_clamp r side (.int bound), h.clamp side bound, h.discards_clamp side bound,
    h.ascending.filter _,
    h.clamp_clamp_self side bound, h.values_clamp_clamp side bound other, h.values_clamp_comm⟩

theorem clamp_limits_three :
    let r : Roll := ⟨[.int 1, .int 3, .int 3, .int 6], .sides 6, [.int 2], false⟩
    (∀ s : Unit, Work.onCopy r (Work.clamp .low (.int 3)) s =
      (.ok ⟨[.int 3, .int 3, .int 3, .int 6], .sides 6, [.int 2, .int 1], false⟩, s)) ∧
      (r.clamp .low (.int 3)).clamp .low (.int 3) = r.clamp .low (.int 3) ∧
      ((r.clamp .high (.int 5)).clamp .low (.int 3)).values = [.int 3, .int 3, .int 3, .int 5] := by
  intro r
  have hr : r.Lists [1, 3, 3, 6] := ⟨rfl, by decide, rfl⟩
  obtain ⟨hcopy, hlists, hdiscards, -, hself, -, hcomm⟩ :=
    clamp_limits (σ := Unit) r [1, 3, 3, 6] .low 3 4 3 5 hr
  refine ⟨fun s => ?_, hself, ?_⟩
  · rw [hcopy, hr.clamp_eq]
    rfl
  · rw [← hcomm (by decide), (hlists.clamp .high 5).values]
    rfl

end Roll

end DiceFormula
