import DiceFormula.Chance.Script
import DiceFormula.Proofs.Applying
import DiceFormula.Proofs.Recording
import Mathlib.Data.List.Induction

/-! What an operator does to a roll leaves an account. Nothing that was rolled or put aside before
is lost, and whatever is new was thrown for it or stands in for a value that was put aside. -/
namespace DiceFormula

theorem Number.le_of_isInteger {a b : Number} (ha : a.isInteger = true) (hb : b.isInteger = true) :
    a.le b = decide (a.truncated ≤ b.truncated) := by
  cases a with
  | real => cases ha
  | int m =>
    cases b with
    | real => cases hb
    | int n => exact le_int m n

theorem Number.isInteger_ofBool (b : Bool) : (ofBool b).isInteger = true := by
  cases b <;> rfl

namespace Die

def Integral : Die → Prop
  | .sides _ => True
  | .faces values => ∀ a ∈ values, a.isInteger = true

def shows : Die → Draw → Option Number
  | .sides count, .uniform low high result =>
    if low = 1 ∧ high = count then some (.int result) else none
  | .faces values, .pick count index => if count = values.length then values[index]? else none
  | _, _ => none

theorem Integral.isInteger {die : Die} (h : die.Integral) {draw : Draw} {a : Number}
    (hshows : die.shows draw = some a) : a.isInteger = true := by
  cases die with
  | sides count =>
    cases draw with
    | uniform low high result =>
      simp only [shows, Option.ite_none_right_eq_some, Option.some.injEq] at hshows
      rw [← hshows.2]
      rfl
    | pick => cases hshows
  | faces values =>
    cases draw with
    | uniform => cases hshows
    | pick count index =>
      simp only [shows, Option.ite_none_right_eq_some] at hshows
      exact h a (List.mem_of_getElem? hshows.2)

end Die

namespace Roll

/-- A roll of integers in ascending order, which stays in order. -/
structure Orderly (r : Roll) : Prop where
  integers : ∀ a ∈ r.values, a.isInteger = true
  ascending : r.values.Pairwise fun a b => a.le b = true
  unsuspended : r.suspended = false
  integral : r.die.Integral

/-- What became of a roll: so many values are left, no value is lost, and these were introduced. -/
structure Account (r r' : Roll) (introduced : List Number) (count : Nat) : Prop where
  die : r'.die = r.die
  discards : r.discards <+: r'.discards
  balance : (r'.values ++ r'.discards).Perm (r.values ++ r.discards ++ introduced)
  count : r'.values.length = count
  orderly : r'.Orderly

variable {r : Roll}

theorem sort_ascending {values : List Number} (h : ∀ a ∈ values, a.isInteger = true) :
    (sort values).Pairwise fun a b => a.le b = true := by
  have hmap : (sort values).map Number.truncated =
      (values.map Number.truncated).mergeSort fun m n => decide (m ≤ n) :=
    List.map_mergeSort fun a ha b hb => Number.le_of_isInteger (h a ha) (h b hb)
  have hsorted : (sort values).Pairwise fun a b => a.truncated ≤ b.truncated := by
    rw [← List.pairwise_map, hmap]
    exact (List.pairwise_mergeSort (by simp only [decide_eq_true_eq]; omega)
      (by simp only [Bool.or_eq_true, decide_eq_true_eq]; omega) _).imp of_decide_eq_true
  refine hsorted.imp_of_mem fun ha hb hle => ?_
  have hmem : ∀ a, a ∈ sort values → a.isInteger = true := fun a ha =>
    h a ((List.mergeSort_perm _ _).mem_iff.mp ha)
  rw [Number.le_of_isInteger (hmem _ ha) (hmem _ hb)]
  exact decide_eq_true hle

theorem Orderly.account_of_sublist (h : r.Orderly) {kept aside : List Number}
    (hkept : kept.Sublist r.values) (hbalance : (kept ++ aside).Perm r.values) :
    r.Account { r with values := kept, discards := r.discards ++ aside } [] kept.length where
  die := rfl
  discards := List.prefix_append _ _
  balance := by
    rw [List.perm_iff_count] at hbalance ⊢
    intro a
    have hcount := hbalance a
    simp only [List.count_append, List.count_nil] at hcount ⊢
    omega
  count := rfl
  orderly := ⟨fun a ha => h.integers a (hkept.subset ha), h.ascending.sublist hkept, h.unsuspended,
    h.integral⟩

theorem Orderly.account_keepLowest (h : r.Orderly) (k : Int) :
    r.Account (r.keepLowest k) [] (min r.values.length k.toNat) := by
  have hbalance : (r.values.take k.toNat ++ r.values.drop k.toNat).Perm r.values := by
    rw [List.take_append_drop]
  have haccount := h.account_of_sublist (List.take_sublist k.toNat r.values) hbalance
  rwa [List.length_take, Nat.min_comm] at haccount

theorem Orderly.account_keepHighest (h : r.Orderly) (k : Int) :
    r.Account (r.keepHighest k) [] (min r.values.length k.toNat) := by
  have hbalance : (r.values.drop (r.values.length - k.toNat) ++
      r.values.take (r.values.length - k.toNat)).Perm r.values := by
    refine List.perm_append_comm.trans ?_
    rw [List.take_append_drop]
  have haccount := h.account_of_sublist (List.drop_sublist _ r.values) hbalance
  have hcount : r.values.length - (r.values.length - k.toNat) = min r.values.length k.toNat := by
    omega
  rwa [List.length_drop, hcount] at haccount

theorem Orderly.account_settle (h : r.Orderly) {values aside introduced : List Number}
    (hintegers : ∀ a ∈ values, a.isInteger = true)
    (hbalance : (values ++ aside).Perm (r.values ++ introduced))
    (hlength : values.length = r.values.length) :
    r.Account (settle { r with values := values, discards := r.discards ++ aside }) introduced
      r.values.length := by
  have hsettle : settle { r with values := values, discards := r.discards ++ aside } =
      { r with values := sort values, discards := r.discards ++ aside } := by
    simp [settle, h.unsuspended]
  have hsort : (sort values).Perm values := List.mergeSort_perm _ _
  rw [hsettle]
  -- Sorting only changes the order, so the balance is that of the values as they were set.
  refine ⟨rfl, List.prefix_append _ _, ?_, hsort.length_eq.trans hlength,
    fun a ha => hintegers a (hsort.mem_iff.mp ha), sort_ascending hintegers,
    h.unsuspended, h.integral⟩
  rw [List.perm_iff_count] at hbalance hsort ⊢
  intro a
  have hcount := hbalance a
  have hsorted := hsort a
  simp only [List.count_append] at hcount ⊢
  omega

theorem replace_perm (fails : Number → Bool) (bound : Number) (values : List Number) :
    ((values.map fun a => if fails a then bound else a) ++ values.filter fails).Perm
      (values ++ List.replicate (values.countP fails) bound) := by
  induction values with
  | nil => exact .refl _
  | cons a values ih =>
    rw [List.perm_iff_count] at ih ⊢
    intro b
    have hcount := ih b
    by_cases hfails : fails a = true
    · simp only [List.map_cons, hfails, ↓reduceIte, List.filter_cons_of_pos,
        List.countP_cons_of_pos, List.replicate_succ, List.count_append,
        List.count_cons] at hcount ⊢
      omega
    · simp only [List.map_cons, hfails, Bool.false_eq_true, ↓reduceIte, not_false_eq_true,
        List.filter_cons_of_neg, List.countP_cons_of_neg, List.cons_append,
        List.count_cons] at hcount ⊢
      omega

theorem Orderly.account_clampWhere (h : r.Orderly) (fails : Number → Bool) {bound : Number}
    (hbound : bound.isInteger = true) :
    r.Account (r.clampWhere fails bound) (List.replicate (r.values.countP fails) bound)
      r.values.length := by
  refine h.account_settle (fun a ha => ?_) (replace_perm fails bound r.values) (List.length_map _)
  obtain ⟨b, hb, rfl⟩ := List.mem_map.mp ha
  split
  · exact hbound
  · exact h.integers b hb

theorem Orderly.account_judge (h : r.Orderly) (passes : Number → Bool) :
    r.Account (r.judge passes) (r.values.map fun a => .ofBool (passes a)) r.values.length := by
  have hjudge : r.judge passes = settle { r with
      values := r.values.map fun a => .ofBool (passes a)
      discards := r.discards ++ r.values } := by
    simp [judge, ofValues, addDiscards, settle, h.unsuspended]
  rw [hjudge]
  refine h.account_settle (fun a ha => ?_) List.perm_append_comm (List.length_map _)
  obtain ⟨b, -, rfl⟩ := List.mem_map.mp ha
  exact Number.isInteger_ofBool _

end Roll

/-- Values still to be visited, values visited and put aside, and the draws made for them since all
these values were to be visited. -/
structure Visited.Balanced (die : Die) (values : List Number) (v : Visited) (pending : List Number)
    (draws : List Draw) : Prop where
  balance : ∃ drawn, draws.reverse.map die.shows = drawn.map some ∧
    (v.kept ++ v.aside ++ pending).Perm (values ++ drawn)
  count : v.kept.length + pending.length = values.length

namespace Visited

variable {die : Die} {values pending : List Number} {v : Visited} {draws : List Draw} {a b : Number}

theorem balanced_start (die : Die) (values : List Number) :
    Balanced die values ⟨[], []⟩ values [] :=
  ⟨⟨[], rfl, by simp⟩, by simp⟩

theorem Balanced.keep (h : v.Balanced die values (a :: pending) draws) :
    (v.keep a).Balanced die values pending draws := by
  obtain ⟨⟨drawn, hshows, hbalance⟩, hcount⟩ := h
  refine ⟨⟨drawn, hshows, List.Perm.trans ?_ hbalance⟩, ?_⟩
  · rw [List.perm_iff_count]
    intro c
    simp only [Visited.keep, List.count_append, List.count_cons]
    omega
  · simp only [Visited.keep, List.length_cons] at hcount ⊢
    omega

theorem Balanced.putAside (h : v.Balanced die values (a :: pending) draws) {draw : Draw}
    (hshows : die.shows draw = some b) :
    (v.putAside a).Balanced die values (b :: pending) (draw :: draws) := by
  obtain ⟨⟨drawn, hdrawn, hbalance⟩, hcount⟩ := h
  refine ⟨⟨drawn ++ [b], by simp [hdrawn, hshows], ?_⟩, ?_⟩
  · rw [List.perm_iff_count] at hbalance ⊢
    intro c
    have hsame := hbalance c
    simp only [Visited.putAside, List.count_append, List.count_cons, List.count_nil] at hsame ⊢
    omega
  · simpa [Visited.putAside] using hcount

end Visited

namespace Source

variable {σ : Type} {source : Source σ} {die : Die} {fires : Number → Bool} {s t : σ}
  {draws draws' : List Draw} {values pending : List Number} {v v' : Visited} {a : Number}

theorem throwDie_recorded (h : source.recorded.throwDie die (s, draws) = (.ok a, t, draws')) :
    ∃ draw, draws' = draw :: draws ∧ die.shows draw = some a := by
  obtain ⟨_, ⟨s₁, draws₁⟩, hcheck, h⟩ := Rolling.bind_eq_ok h
  obtain ⟨-, hstate⟩ := Prod.mk.inj hcheck
  cases hstate
  cases die with
  | sides count =>
    obtain ⟨n, ⟨s₂, draws₂⟩, hdraw, h⟩ := Rolling.bind_eq_ok h
    cases h
    simp only [recorded] at hdraw
    split at hdraw
    · cases hdraw
      exact ⟨.uniform 1 count n, rfl, by simp [Die.shows]⟩
    · cases hdraw
  | faces values =>
    dsimp only [choice] at h
    split at h
    · cases h
    · obtain ⟨i, ⟨s₂, draws₂⟩, hdraw, h⟩ := Rolling.bind_eq_ok h
      cases h
      simp only [recorded] at hdraw
      split at hdraw
      · cases hdraw
        exact ⟨.pick values.length i, rfl, by simp [Die.shows]⟩
      · cases hdraw

theorem rerollOnce_balanced (hv : v.Balanced die values pending draws)
    (h : source.recorded.rerollOnce die fires pending v (s, draws) = (.ok v', t, draws')) :
    v'.Balanced die values [] draws' := by
  induction pending generalizing v s draws with
  | nil =>
    cases h
    exact hv
  | cons a rest ih =>
    rw [rerollOnce] at h
    split at h
    · split at h
      -- The value thrown takes the place of the one put aside and is kept whatever it is.
      · next b st hthrow =>
        obtain ⟨draw, hdraws, hshows⟩ := throwDie_recorded hthrow
        obtain ⟨s₁, draws₁⟩ := st
        obtain rfl : draws₁ = draw :: draws := hdraws
        exact ih (hv.putAside hshows).keep h
      · cases h
    · exact ih hv.keep h

theorem rerollValue_balanced {trials : Nat} (hv : v.Balanced die values (a :: pending) draws)
    (h : source.recorded.rerollValue die fires trials a v (s, draws) = (.ok v', t, draws')) :
    v'.Balanced die values pending draws' := by
  induction trials generalizing v a s draws with
  | zero =>
    rw [rerollValue] at h
    split at h
    · cases h
    · cases h
      exact hv.keep
  | succ trials ih =>
    rw [rerollValue] at h
    split at h
    · split at h
      · next b st hthrow =>
        obtain ⟨draw, hdraws, hshows⟩ := throwDie_recorded hthrow
        obtain ⟨s₁, draws₁⟩ := st
        obtain rfl : draws₁ = draw :: draws := hdraws
        exact ih (hv.putAside hshows) h
      · cases h
    · cases h
      exact hv.keep

theorem rerollUntil_balanced (hv : v.Balanced die values pending draws)
    (h : source.recorded.rerollUntil die fires pending v (s, draws) = (.ok v', t, draws')) :
    v'.Balanced die values [] draws' := by
  induction pending generalizing v s draws with
  | nil =>
    cases h
    exact hv
  | cons a rest ih =>
    rw [rerollUntil] at h
    split at h
    · next v₁ st hvalue => exact ih (rerollValue_balanced hv hvalue) h
    · cases h

end Source

theorem Roll.Orderly.account_afterVisit {r : Roll} {v : Visited} {draws : List Draw} (h : r.Orderly)
    (hv : v.Balanced r.die r.values [] draws) :
    ∃ drawn, draws.reverse.map r.die.shows = drawn.map some ∧
      r.Account (r.afterVisit v) drawn r.values.length := by
  obtain ⟨⟨drawn, hshows, hbalance⟩, hcount⟩ := hv
  have hdrawn : ∀ a ∈ drawn, a.isInteger = true := by
    intro a ha
    have hmem : some a ∈ draws.reverse.map r.die.shows := hshows ▸ List.mem_map_of_mem ha
    obtain ⟨draw, -, hdraw⟩ := List.mem_map.mp hmem
    exact h.integral.isInteger hdraw
  refine ⟨drawn, hshows, h.account_settle (fun a ha => ?_) ?_ (by simpa using hcount)⟩
  · have hmem : a ∈ r.values ++ drawn := hbalance.subset (by simp [List.mem_reverse.mp ha])
    rcases List.mem_append.mp hmem with hmem | hmem
    · exact h.integers a hmem
    · exact hdrawn a hmem
  · rw [List.perm_iff_count] at hbalance ⊢
    intro a
    have hsame := hbalance a
    simp only [List.count_append, List.count_nil, List.count_reverse] at hsame ⊢
    omega

namespace Operator

def editsRoll : Operator → Bool
  | .keep _ | .clamp _ | .rerollEqual _ | .rerollBeyond _ _ _ | .threshold _ => true
  | _ => false

def rerolls : Operator → Bool
  | .rerollEqual _ | .rerollBeyond _ _ _ => true
  | _ => false

def introduced (op : Operator) (r : Roll) (k : Number) (drawn : List Number) : List Number :=
  match op with
  | .clamp .low => List.replicate (r.values.countP (·.lt k)) k
  | .clamp .high => List.replicate (r.values.countP (k.lt ·)) k
  | .threshold .low => r.values.map fun a => .ofBool (k.le a)
  | .threshold .high => r.values.map fun a => .ofBool (a.le k)
  | .rerollEqual _ | .rerollBeyond _ _ _ => drawn
  | _ => []

def remaining (op : Operator) (k : Int) (count : Nat) : Nat :=
  match op with
  | .keep _ => min count k.toNat
  | _ => count

variable {σ : Type} {source : Source σ} {op : Operator} {r : Roll} {k : Int} {v : Value} {s t : σ}
  {draws : List Draw}

theorem sides_of_editsRoll (hop : op.editsRoll = true) : op.arity = .both ∧ op.summed = .right := by
  cases op with
  | keep | clamp | rerollEqual | rerollBeyond | threshold => exact ⟨rfl, rfl⟩
  | _ => cases hop

theorem apply_of_editsRoll (hop : op.editsRoll = true) {right : Value} {a : Number}
    (hright : right.total = .ok a) (source : Source σ) (r : Roll) (s : σ) :
    op.apply source (some (.roll r)) (some right) s = op.act source (.roll r) (.number a) s := by
  obtain ⟨harity, hsummed⟩ := sides_of_editsRoll hop
  have hoperand (fault : Fault) : operand true true fault (some right) = .ok (.number a) := by
    simp only [operand, hright, Bool.not_true, Bool.false_eq_true, ↓reduceIte]
    rfl
  simp only [apply, takesLeft, takesRight, harity, hsummed, Sides.hasLeft, Sides.hasRight, hoperand]
  rfl

theorem reroll_roll (source : Source σ) (pace : Pace) (trigger : Trigger) (r : Roll)
    (a : Number) (s : σ) :
    reroll source pace trigger (.roll r) (.number a) s = match pace with
      | .once => r.rerollOnce source trigger a s
      | .untilSettled => r.rerollUntil source trigger a s := by
  cases pace <;> rfl

theorem reroll_visited {pace : Pace} {trigger : Trigger} {r r' : Roll} {target : Number}
    (hreroll : reroll source.recorded pace trigger (.roll r) (.number target) (s, []) =
      (.ok r', t, draws)) :
    ∃ v, v.Balanced r.die r.values [] draws ∧ r' = r.afterVisit v := by
  have hstart := Visited.balanced_start r.die r.values
  rw [reroll_roll] at hreroll
  cases pace with
  | once =>
    obtain ⟨v, st, hvisit, hresult⟩ := Rolling.bind_eq_ok hreroll
    cases hresult
    exact ⟨v, Source.rerollOnce_balanced hstart hvisit, rfl⟩
  | untilSettled =>
    obtain ⟨_, ⟨s₁, draws₁⟩, hcheck, hreroll⟩ := Rolling.bind_eq_ok hreroll
    cases (Prod.mk.inj hcheck).2
    obtain ⟨endless, ⟨s₂, draws₂⟩, hendless, hreroll⟩ := Rolling.bind_eq_ok hreroll
    cases (Prod.mk.inj hendless).2
    cases endless with
    | true => cases hreroll
    | false =>
      obtain ⟨v, st, hvisit, hresult⟩ := Rolling.bind_eq_ok hreroll
      cases hresult
      exact ⟨v, Source.rerollUntil_balanced hstart hvisit, rfl⟩

theorem reroll_account (h : r.Orderly) {pace : Pace} {trigger : Trigger} {r' : Roll}
    (hreroll : reroll source.recorded pace trigger (.roll r) (.number (.int k)) (s, []) =
      (.ok r', t, draws)) :
    ∃ drawn, draws.reverse.map r.die.shows = drawn.map some ∧
      r.Account r' drawn r.values.length := by
  obtain ⟨v, hvisit, rfl⟩ := reroll_visited hreroll
  exact h.account_afterVisit hvisit

theorem act_account (hop : op.editsRoll = true) (h : r.Orderly)
    (hact : op.act source.recorded (.roll r) (.number (.int k)) (s, []) = (.ok v, t, draws)) :
    ∃ r' drawn, v = .roll r' ∧ draws.reverse.map r.die.shows = drawn.map some ∧
      (op.rerolls = false → drawn = []) ∧
      r.Account r' (op.introduced r (.int k) drawn) (op.remaining k r.values.length) := by
  cases op with
  | keep side =>
    cases side with
    | low =>
      cases hact
      exact ⟨_, [], rfl, rfl, fun _ => rfl, h.account_keepLowest k⟩
    | high =>
      cases hact
      exact ⟨_, [], rfl, rfl, fun _ => rfl, h.account_keepHighest k⟩
  | clamp side =>
    cases side with
    | low =>
      cases hact
      exact ⟨_, [], rfl, rfl, fun _ => rfl, h.account_clampWhere _ rfl⟩
    | high =>
      cases hact
      exact ⟨_, [], rfl, rfl, fun _ => rfl, h.account_clampWhere _ rfl⟩
  | threshold side =>
    cases side with
    | low =>
      cases hact
      exact ⟨_, [], rfl, rfl, fun _ => rfl, h.account_judge _⟩
    | high =>
      cases hact
      exact ⟨_, [], rfl, rfl, fun _ => rfl, h.account_judge _⟩
  | rerollEqual pace =>
    obtain ⟨r', st, hreroll, hresult⟩ := Rolling.bind_eq_ok hact
    cases hresult
    obtain ⟨drawn, hshows, haccount⟩ := reroll_account h hreroll
    exact ⟨r', drawn, rfl, hshows, fun hno => (by cases hno), haccount⟩
  | rerollBeyond pace side spelling =>
    obtain ⟨r', st, hreroll, hresult⟩ := Rolling.bind_eq_ok hact
    cases hresult
    obtain ⟨drawn, hshows, haccount⟩ := reroll_account h hreroll
    exact ⟨r', drawn, rfl, hshows, fun hno => (by cases hno), haccount⟩
  | _ => cases hop

/-- An operator that makes a roll of a roll puts every value aside that it replaces. The draws that
were made show what a reroll introduced; the other operators draw nothing. -/
theorem apply_account (source : Source σ) (op : Operator) (r : Roll) (right : Value)
    (k : Int) (v : Value) (s s' : σ) (hop : op.editsRoll = true) (hr : r.Orderly)
    (hright : right.total = .ok (.int k))
    (h : op.apply source (some (.roll r)) (some right) s = (.ok v, s')) :
    ∃ r' draws drawn, v = .roll r' ∧
      op.apply source.recorded (some (.roll r)) (some right) (s, []) = (.ok v, s', draws) ∧
      draws.reverse.map r.die.shows = drawn.map some ∧ (op.rerolls = false → drawn = []) ∧
      r.Account r' (op.introduced r (.int k) drawn) (op.remaining k r.values.length) := by
  obtain ⟨draws, hrecorded⟩ := @mirrors_apply σ source op (some (.roll r)) (some right) s []
  rw [h] at hrecorded
  have hact := hrecorded
  rw [apply_of_editsRoll hop hright] at hact
  obtain ⟨r', drawn, rfl, hshows, hquiet, haccount⟩ := act_account hop hr hact
  exact ⟨r', draws, drawn, rfl, hrecorded, hshows, hquiet, haccount⟩

theorem drawn_unique {draws : List Draw} {die : Die} {drawn known : List Number}
    (hshows : draws.reverse.map die.shows = drawn.map some)
    (hknown : draws.reverse.map die.shows = known.map some) : drawn = known :=
  (List.map_inj_right fun _ _ => Option.some.inj).mp (hshows.symm.trans hknown)

/-- Values above five are thrown again until none is left: a six gives another six and then a three.
Values below three are thrown again once: a one gives a two, which stays. -/
theorem apply_account_rerolls :
    let r : Roll := ⟨[.int 1, .int 6], .sides 6, [.int 4], false⟩
    let settled : Roll := ⟨[.int 1, .int 3], .sides 6, [.int 4, .int 6, .int 6], false⟩
    let once : Roll := ⟨[.int 2, .int 6], .sides 6, [.int 4, .int 1], false⟩
    (Operator.rerollBeyond .untilSettled .high .sign).apply (Script.source 5).recorded
        (some (.roll r)) (some (.number (.int 5))) (⟨[6, 3], none, [], 0⟩, []) =
      (.ok (.roll settled), ⟨[], none, [], 0⟩, [.uniform 1 6 3, .uniform 1 6 6]) ∧
    r.Account settled [.int 6, .int 3] 2 ∧
    (Operator.rerollBeyond .once .low .sign).apply (Script.source 5).recorded (some (.roll r))
        (some (.number (.int 3))) (⟨[2, 5], none, [], 0⟩, []) =
      (.ok (.roll once), ⟨[5], none, [], 0⟩, [.uniform 1 6 2]) ∧
    r.Account once [.int 2] 2 := by
  intro r settled once
  have hr : r.Orderly := ⟨by decide, by decide, rfl, trivial⟩
  have hsettled : settled.settle = settled := by
    simp [settled, Roll.settle, Roll.sort, List.mergeSort_of_pairwise]
  have honce : once.settle = once := by
    simp [once, Roll.settle, Roll.sort, List.mergeSort_of_pairwise]
  obtain ⟨_, draws, drawn, ⟨⟩, hrecorded, hshows, -, haccount⟩ :=
    apply_account (Script.source 5) (.rerollBeyond .untilSettled .high .sign) r (.number (.int 5)) 5
      (.roll settled.settle) ⟨[6, 3], none, [], 0⟩ ⟨[], none, [], 0⟩ rfl hr rfl rfl
  obtain ⟨_, draws', drawn', ⟨⟩, hrecorded', hshows', -, haccount'⟩ :=
    apply_account (Script.source 5) (.rerollBeyond .once .low .sign) r (.number (.int 3)) 3
      (.roll once.settle) ⟨[2, 5], none, [], 0⟩ ⟨[5], none, [], 0⟩ rfl hr rfl rfl
  obtain rfl : [.uniform 1 6 3, .uniform 1 6 6] = draws := congrArg (fun x => x.2.2) hrecorded
  obtain rfl : [.uniform 1 6 2] = draws' := congrArg (fun x => x.2.2) hrecorded'
  obtain rfl := @drawn_unique _ _ _ [.int 6, .int 3] hshows rfl
  obtain rfl := @drawn_unique _ _ _ [.int 2] hshows' rfl
  rw [hsettled] at hrecorded haccount
  rw [honce] at hrecorded' haccount'
  exact ⟨hrecorded, haccount, hrecorded', haccount'⟩

end Operator

end DiceFormula
