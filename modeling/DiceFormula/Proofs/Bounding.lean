import DiceFormula.Chance.Script
import DiceFormula.Proofs.Capping
import DiceFormula.Proofs.Evaluating
import DiceFormula.Proofs.Gathering
import DiceFormula.Proofs.Keeping
import DiceFormula.Proofs.Reshaping

/-! The maximum mode as a bound. Dice at their maximum stand above those that were thrown, place by
place once both are in order. Keeping dice, clamping them and counting those that reach a threshold
leave one roll above the other, and so does adding up, as long as all is done with integers: a real
sum may have been rounded either way. -/
namespace DiceFormula

variable {σ τ : Type}

theorem Word.sum?_eq_some {a b c : Int} (h : (sum? a b).value = some c) : c = a + b := by
  by_cases hpos : 0 < b
  · by_cases hroom : greatest - b < a <;>
      simp [sum?, hpos, hroom] at h
    exact h.symm
  · by_cases hroom : a < least - b <;>
      simp [sum?, hpos, hroom] at h
    exact h.symm

namespace Number

theorem add_eq_int {a b : Number} {c : Int} (h : a.add b = .ok (.int c)) :
    ∃ m n, a = .int m ∧ b = .int n ∧ c = m + n := by
  cases a with
  | real x => exact absurd h (ofReal_ne_int _ c)
  | int m =>
    cases b with
    | real y => exact absurd h (ofReal_ne_int _ c)
    | int n =>
      refine ⟨m, n, rfl, rfl, ?_⟩
      cases hsum : (Word.sum? m n).value with
      | none =>
        rw [add, addTraced] at h
        exact absurd h (exactOr_ne_int hsum _ c)
      | some k =>
        rw [add, addTraced, value_exactOr hsum] at h
        cases h
        exact Word.sum?_eq_some hsum

theorem sumFrom_eq_int {values : List Number} {total : Number} {c : Int}
    (h : sumFrom total values = .ok (.int c)) :
    ∃ (m : Int) (numbers : List Int), total = .int m ∧ values = numbers.map int ∧
      c = m + numbers.sum := by
  induction values generalizing total with
  | nil =>
    cases h
    exact ⟨c, [], rfl, rfl, (Int.add_zero c).symm⟩
  | cons a rest ih =>
    rw [sumFrom] at h
    split at h
    · next next hadd =>
      obtain ⟨k, numbers, rfl, rfl, rfl⟩ := ih h
      obtain ⟨m, n, rfl, rfl, rfl⟩ := add_eq_int hadd
      exact ⟨m, n :: numbers, rfl, rfl, by rw [List.sum_cons, Int.add_assoc]⟩
    · cases h

end Number

namespace Source

variable {source : Source σ}

theorem Capped.throwDie (h : source.Capped) {sides : Int} {s t : σ} {a : Number}
    (hthrow : source.throwDie (.sides sides) s = (.ok a, t)) : ∃ n ≤ sides, a = .int n := by
  obtain ⟨_, s₁, hcheck, hdraw⟩ := Rolling.bind_eq_ok hthrow
  obtain ⟨n, s₂, huniform, hresult⟩ := Rolling.bind_eq_ok hdraw
  cases hresult
  have hsides := Die.throwable_of_check (Prod.mk.inj hcheck).1
  exact ⟨n, h sides s₁ n _ hsides huniform, rfl⟩

end Source

namespace Roll

/-- Integers in order in both rolls, and none above the one that stands in the same place of the
other roll. -/
def Below (r r' : Roll) : Prop :=
  ∃ numbers numbers' : List Int, r.Lists numbers ∧ r'.Lists numbers' ∧
    List.Forall₂ (· ≤ ·) numbers numbers'

variable {r r' : Roll} {numbers : List Int} {count : Nat} {bound : Int}

theorem Lists.keepLowest (h : r.Lists numbers) (k : Int) :
    (r.keepLowest k).Lists (numbers.take k.toNat) := by
  refine ⟨?_, h.ascending.sublist (List.take_sublist _ _), h.unsuspended⟩
  rw [Roll.keepLowest, h.values, List.map_take]

theorem Lists.keepHighest (h : r.Lists numbers) (k : Int) :
    (r.keepHighest k).Lists (numbers.drop (numbers.length - k.toNat)) := by
  refine ⟨?_, h.ascending.sublist (List.drop_sublist _ _), h.unsuspended⟩
  rw [Roll.keepHighest, h.values, List.map_drop, List.length_map]

def verdict (threshold n : Int) : Int := if threshold ≤ n then 1 else 0

theorem verdict_mono (threshold : Int) {m n : Int} (h : m ≤ n) :
    verdict threshold m ≤ verdict threshold n := by
  unfold verdict
  split <;> split <;> omega

theorem Lists.atLeast (h : r.Lists numbers) (threshold : Int) :
    (r.atLeast threshold).Lists (numbers.map (verdict threshold)) := by
  have hverdict (n : Int) : Number.ofBool ((Number.int threshold).le (.int n)) =
      .int (verdict threshold n) := by
    rw [Number.le_int, verdict]
    by_cases hle : threshold ≤ n <;> simp [hle, Number.ofBool, Number.one, Number.zero]
  have hascending : (numbers.map (verdict threshold)).Pairwise (· ≤ ·) :=
    List.pairwise_map.mpr (h.ascending.imp (verdict_mono threshold))
  have hvalues :
      (r.atLeast threshold).values = sort ((numbers.map (verdict threshold)).map Number.int) := by
    simp only [Roll.atLeast, judge, addDiscards, ofValues, h.values, List.map_map,
      Function.comp_def, hverdict]
  exact ⟨hvalues.trans (sort_ints hascending), hascending, rfl⟩

theorem Lists.sum_eq_int (h : r.Lists numbers) {c : Int} (hsum : r.sum = .ok (.int c)) :
    c = numbers.sum := by
  obtain ⟨m, summands, hzero, hvalues, rfl⟩ := Number.sumFrom_eq_int hsum
  cases hzero
  rw [h.values] at hvalues
  rw [List.map_injective_iff.mpr (fun _ _ => Number.int.inj) hvalues, Int.zero_add]

theorem Below.sum_le (h : r.Below r') {m n : Int} (hm : r.sum = .ok (.int m))
    (hn : r'.sum = .ok (.int n)) : m ≤ n := by
  obtain ⟨numbers, numbers', hlists, hlists', hle⟩ := h
  rw [hlists.sum_eq_int hm, hlists'.sum_eq_int hn]
  exact hle.sum_le_sum

theorem Lists.below_replicate (h : r.Lists numbers) (h' : r'.Lists (List.replicate count bound))
    (hcount : numbers.length = count) (hbound : ∀ n ∈ numbers, n ≤ bound) : r.Below r' := by
  refine ⟨numbers, _, h, h',
    List.forall₂_iff_zip.mpr ⟨by rw [hcount, List.length_replicate], fun hmem => ?_⟩⟩
  obtain ⟨hn, hreplicate⟩ := List.of_mem_zip hmem
  rw [List.eq_of_mem_replicate hreplicate]
  exact hbound _ hn

theorem Gathers.le_of_capped {source : Source σ} {sides : Int} {dice : Nat} {s t : σ}
    {draws ordered : List Int}
    (h : Gathers source (.sides sides) dice s draws ordered r t) (hsource : source.Capped) :
    ∀ n ∈ ordered, n ≤ sides := by
  intro n hn
  have hthrown : Number.int n ∈ draws.map Number.int := List.mem_map_of_mem (h.perm.mem_iff.mp hn)
  obtain ⟨m, hm, heq⟩ := h.throws.forall_results (fun _ _ _ => hsource.throwDie) _ hthrown
  cases heq
  exact hm

theorem lists_maximum {count sides : Int} (h : maximum count (.sides sides) = .ok r) :
    r.Lists (List.replicate count.toNat sides) := by
  obtain ⟨dice, hcount, hroll⟩ := exists_of_bind_eq_ok h
  obtain ⟨_, -, hmaximum⟩ := exists_of_bind_eq_ok hroll
  cases hmaximum
  obtain rfl : dice = count.toNat := diceCount_eq_ok hcount
  rw [← List.map_replicate]
  exact ofValues_lists (.refl _) (List.pairwise_replicate.mpr (.inr (Int.le_refl sides))) _

end Roll

namespace Operator

def rises : Operator → Bool
  | .keep _ | .clamp _ | .threshold .low => true
  | _ => false

def change (op : Operator) (n : Int) (r : Roll) : Roll :=
  match op with
  | .keep side => r.keep side n
  | .clamp side => r.clamp side (.int n)
  | .threshold .low => r.atLeast n
  | _ => r

variable {op : Operator}

theorem arity_of_rises (hop : op.rises = true) : op.arity = .both := by
  cases op with
  | factorial | negate | affirm => cases hop
  | _ => rfl

theorem inMode_of_rises (hop : op.rises = true) (mode : Mode) : op.inMode mode = op := by
  cases op with
  | dice => cases hop
  | _ => rfl

theorem apply_of_rises (hop : op.rises = true) (source : Source σ) (r : Roll) (n : Int) (s : σ) :
    op.apply source (some (.roll r)) (some (.number (.int n))) s =
      (.ok (.roll (op.change n r)), s) := by
  cases op with
  | keep side => cases side <;> rfl
  | clamp side => cases side <;> rfl
  | threshold side =>
    cases side with
    | low => rfl
    | high => cases hop
  | _ => cases hop

theorem change_below (hop : op.rises = true) {r r' : Roll} (h : r.Below r') (n : Int) :
    (op.change n r).Below (op.change n r') := by
  obtain ⟨numbers, numbers', hlists, hlists', hle⟩ := h
  cases op with
  | keep side =>
    cases side with
    | low => exact ⟨_, _, hlists.keepLowest n, hlists'.keepLowest n, List.forall₂_take _ hle⟩
    | high =>
      refine ⟨_, _, hlists.keepHighest n, hlists'.keepHighest n, ?_⟩
      rw [hle.length_eq]
      exact List.forall₂_drop _ hle
  | clamp side =>
    exact ⟨_, _, hlists.clamp side n, hlists'.clamp side n,
      List.rel_map (fun _ _ hle => side.limit_mono n hle) hle⟩
  | threshold side =>
    cases side with
    | low =>
      exact ⟨_, _, hlists.atLeast n, hlists'.atLeast n,
        List.rel_map (fun _ _ hle => Roll.verdict_mono n hle) hle⟩
    | high => cases hop
  | _ => cases hop

theorem apply_plain_eq_ok {source : Source σ} {count sides : Int} {v : Value} {s t : σ}
    (h : (dice .plain).apply source (some (.number (.int count))) (some (.number (.int sides))) s =
      (.ok v, t)) :
    ∃ r, Roll.plain source count (.sides sides) s = (.ok r, t) ∧ v = .roll r := by
  have hroll : (Roll.plain source count (.sides sides) >>= fun r => pure (.roll r)) s =
      (.ok v, t) := h
  obtain ⟨r, t', hplain, hresult⟩ := Rolling.bind_eq_ok hroll
  cases hresult
  exact ⟨r, hplain, rfl⟩

theorem apply_maximum_eq_ok {source : Source σ} {count sides : Int} {v : Value} {s t : σ}
    (h : (dice .maximum).apply source (some (.number (.int count))) (some (.number (.int sides))) s
      = (.ok v, t)) :
    ∃ r, Roll.maximum count (.sides sides) = .ok r ∧ v = .roll r := by
  have hroll :
      ((liftM (Roll.maximum count (.sides sides)) : Rolling σ Fault Roll) >>= fun r =>
        pure (.roll r)) s = (.ok v, t) := h
  obtain ⟨r, t', hmaximum, hresult⟩ := Rolling.bind_eq_ok hroll
  cases hresult
  exact ⟨r, (Prod.mk.inj hmaximum).1, rfl⟩

theorem apply_add_eq_ok {left right : Option Value} {v : Value} {source : Source σ} {s t : σ}
    (h : Operator.add.apply source left right s = (.ok v, t)) :
    ∃ a b c, Tree.totalOf left = .ok a ∧ Tree.totalOf right = .ok b ∧ a.add b = .ok c ∧
      v = .number c := by
  obtain ⟨first, s₁, hleft, hrest⟩ := Rolling.bind_eq_ok h
  obtain ⟨second, s₂, hright, hact⟩ := Rolling.bind_eq_ok hrest
  obtain ⟨c, s₃, hadd, hresult⟩ := Rolling.bind_eq_ok hact
  cases hresult
  obtain ⟨⟨a, b⟩, hnumbers, hsum⟩ := exists_of_bind_eq_ok (Prod.mk.inj hadd).1
  obtain ⟨a', ha, hnumbers⟩ := exists_of_bind_eq_ok hnumbers
  obtain ⟨b', hb, hnumbers⟩ := exists_of_bind_eq_ok hnumbers
  cases hnumbers
  obtain rfl := Value.number?_eq_ok ha
  obtain rfl := Value.number?_eq_ok hb
  exact ⟨a, b, c, operand_summed (Prod.mk.inj hleft).1,
    operand_summed (Prod.mk.inj hright).1, hsum, rfl⟩

end Operator

namespace Tree

inductive Thrown : Tree → Prop
  | dice (count sides : Int) (known known₁ known₂ : Option Value) :
      Thrown (.node (.dice .plain) (.leaf (.number (.int count)) known₁)
        (.leaf (.number (.int sides)) known₂) known)
  | changed {op : Operator} {t : Tree} (n : Int) (known known₁ : Option Value)
      (hop : op.rises = true) (h : Thrown t) :
      Thrown (.node op t (.leaf (.number (.int n)) known₁) known)

inductive Added : Tree → Prop
  | integer (n : Int) (known : Option Value) : Added (.leaf (.number (.int n)) known)
  | thrown {t : Tree} (h : t.Thrown) : Added t
  | sum {left right : Tree} (known : Option Value) (hleft : Added left) (hright : Added right) :
      Added (.node .add left right known)

variable {source : Source σ} {other : Source τ} {t u u' : Tree} {s s₁ : σ} {s' s₁' : τ}
  {v v' : Option Value}

theorem run_leaf {content : Literal} {known : Option Value}
    (h : run source (.leaf content known) s = (.ok v, u, s₁)) :
    v = some content.value ∧ s₁ = s := by
  cases h
  exact ⟨rfl, rfl⟩

theorem run_literal_ok {op : Operator} {content : Literal} {known known₁ : Option Value}
    (h : run source (.node op t (.leaf content known₁) known) s = (.ok v, u, s₁)) :
    ∃ a t' s₂ w, run source t s = (.ok a, t', s₂) ∧
      op.apply source a (some content.value) s₂ = (.ok w, s₁) ∧ v = some w := by
  obtain ⟨a, t', s₂, b, _, s₃, w, hleft, hright, happly, rfl, -⟩ := run_node_ok h
  obtain ⟨rfl, rfl⟩ := run_leaf hright
  exact ⟨a, t', s₃, w, hleft, happly, rfl⟩

theorem Thrown.run_below (h : t.Thrown) (hsource : source.Capped)
    (hrun : run source t s = (.ok v, u, s₁))
    (hrun' : run other (t.inMode .maximum) s' = (.ok v', u', s₁')) :
    ∃ r r', v = some (.roll r) ∧ v' = some (.roll r') ∧ r.Below r' := by
  induction h generalizing v v' u u' s₁ s₁' with
  | dice count sides known known₁ known₂ =>
    obtain ⟨a, _, t₁, w, hleft, happly, rfl⟩ := run_literal_ok hrun
    obtain ⟨a', _, t₁', w', hleft', happly', rfl⟩ := run_literal_ok hrun'
    obtain ⟨rfl, rfl⟩ := run_leaf hleft
    obtain ⟨rfl, rfl⟩ := run_leaf hleft'
    obtain ⟨r, hplain, rfl⟩ := Operator.apply_plain_eq_ok happly
    obtain ⟨r', hmaximum, rfl⟩ := Operator.apply_maximum_eq_ok happly'
    have hintegral : (Die.sides sides).Integral := trivial
    obtain ⟨draws, ordered, hgathers⟩ :=
      Roll.gathers_of_throwMany hintegral (Roll.plain_eq_ok hplain)
    exact ⟨r, r', rfl, rfl, hgathers.lists.below_replicate (Roll.lists_maximum hmaximum)
      (hgathers.perm.length_eq.trans hgathers.count) (hgathers.le_of_capped hsource)⟩
  | changed n known known₁ hop h ih =>
    obtain ⟨a, _, t₁, w, hleft, happly, rfl⟩ := run_literal_ok hrun
    obtain ⟨a', _, t₁', w', hleft', happly', rfl⟩ := run_literal_ok hrun'
    obtain ⟨r, r', rfl, rfl, hbelow⟩ := ih hleft hleft'
    rw [Operator.inMode_of_rises hop] at happly'
    cases (Operator.apply_of_rises hop source r n t₁).symm.trans happly
    cases (Operator.apply_of_rises hop other r' n t₁').symm.trans happly'
    exact ⟨_, _, rfl, rfl, Operator.change_below hop hbelow n⟩

theorem Added.run_le (h : t.Added) (hsource : source.Capped)
    (hrun : run source t s = (.ok v, u, s₁))
    (hrun' : run other (t.inMode .maximum) s' = (.ok v', u', s₁')) {m n : Int}
    (hm : totalOf v = .ok (.int m)) (hn : totalOf v' = .ok (.int n)) : m ≤ n := by
  induction h generalizing v v' u u' s s' s₁ s₁' m n with
  | integer k known =>
    obtain ⟨rfl, -⟩ := run_leaf hrun
    obtain ⟨rfl, -⟩ := run_leaf hrun'
    cases hm
    cases hn
    exact Int.le_refl k
  | thrown h =>
    obtain ⟨r, r', rfl, rfl, hbelow⟩ := h.run_below hsource hrun hrun'
    exact hbelow.sum_le hm hn
  | sum known hleft hright ihleft ihright =>
    obtain ⟨a, _, t₁, b, _, t₂, w, hleft, hright, happly, rfl, -⟩ := run_node_ok hrun
    obtain ⟨a', _, t₁', b', _, t₂', w', hleft', hright', happly', rfl, -⟩ := run_node_ok hrun'
    obtain ⟨x, y, z, hx, hy, hadd, rfl⟩ := Operator.apply_add_eq_ok happly
    obtain ⟨x', y', z', hx', hy', hadd', rfl⟩ := Operator.apply_add_eq_ok happly'
    cases hm
    cases hn
    obtain ⟨i, j, rfl, rfl, rfl⟩ := Number.add_eq_int hadd
    obtain ⟨i', j', rfl, rfl, rfl⟩ := Number.add_eq_int hadd'
    exact Int.add_le_add (ihleft hleft hleft' hx hx') (ihright hright hright' hy hy')

theorem Thrown.isEmpty (h : t.Thrown) : t.isEmpty = false := by
  cases h <;> rfl

theorem Thrown.wellFormed (h : t.Thrown) : t.WellFormed := by
  induction h with
  | dice => exact ⟨rfl, trivial, trivial⟩
  | changed n known known₁ hop h ih =>
    exact ⟨fits_of_arity_both (Operator.arity_of_rises hop) h.isEmpty rfl, ih, trivial⟩

theorem Added.isEmpty (h : t.Added) : t.isEmpty = false := by
  cases h with
  | integer | sum => rfl
  | thrown h => exact h.isEmpty

theorem Added.wellFormed (h : t.Added) : t.WellFormed := by
  induction h with
  | integer => trivial
  | thrown h => exact h.wellFormed
  | sum known hleft hright ihleft ihright =>
    exact ⟨fits_of_arity_both rfl hleft.isEmpty hright.isEmpty, ihleft, ihright⟩

/-- What a tree of rolls and integers adds up to with a source that keeps to the number of sides,
whatever it draws, is not above what a copy of the tree in the maximum mode adds up to, with
whatever source. -/
theorem evaluate_le_maximum (source : Source σ) (other : Source τ) (t : Tree) (s : σ) (s' : τ)
    (ht : t.Added) (hsource : source.Capped) :
    ∃ copy highest, t.copy = .ok copy ∧ copy.rewritten .maximum = .ok highest ∧
      ∀ m n u u' s₁ s₁', t.evaluate source s = (.ok (.int m), u, s₁) →
        highest.evaluate other s' = (.ok (.int n), u', s₁') → m ≤ n := by
  refine ⟨t, t.inMode .maximum, copy_eq ht.wellFormed, rewritten_eq .maximum t, ?_⟩
  intro m n u u' s₁ s₁' hm hn
  obtain ⟨v, hrun, htotal⟩ := evaluate_eq_ok_iff.mp hm
  obtain ⟨v', hrun', htotal'⟩ := evaluate_eq_ok_iff.mp hn
  exact ht.run_le hsource hrun hrun' htotal htotal'

theorem evaluate_le_maximum_two :
    ∃ t copy highest,
      Tree.ofText (ascii ['1', 'd', '6', 'f', '2', '+', '1', 'd', '4', 'h', '1']) = .ok t ∧
      t.copy = .ok copy ∧ copy.rewritten .maximum = .ok highest ∧
      (t.evaluate (Congruential.source 0) 1).1 = .ok (.int 5) ∧
      (highest.evaluate (Script.source 0) (Script.steady 1)).1 = .ok (.int 10) ∧
      (5 : Int) ≤ 10 := by
  let t : Tree := .node .add
    (.node (.clamp .low) (.node (.dice .plain) (.ofNumber (.int 1)) (.ofNumber (.int 6)) none)
      (.ofNumber (.int 2)) none)
    (.node (.keep .high) (.node (.dice .plain) (.ofNumber (.int 1)) (.ofNumber (.int 4)) none)
      (.ofNumber (.int 1)) none)
    none
  have ht : t.Added := .sum none (.thrown (.changed 2 none none rfl (.dice 1 6 none none none)))
    (.thrown (.changed 1 none none rfl (.dice 1 4 none none none)))
  obtain ⟨copy, highest, hcopy, hhighest, hle⟩ := evaluate_le_maximum (Congruential.source 0)
    (Script.source 0) t 1 (Script.steady 1) ht (Congruential.source_capped 0)
  obtain rfl : t = copy := Except.ok.inj ((copy_eq ht.wellFormed).symm.trans hcopy)
  obtain rfl : t.inMode .maximum = highest :=
    Except.ok.inj ((rewritten_eq .maximum t).symm.trans hhighest)
  have hm : (t.evaluate (Congruential.source 0) 1).1 = .ok (.int 5) := by decide +kernel
  have hn :
      ((t.inMode .maximum).evaluate (Script.source 0) (Script.steady 1)).1 = .ok (.int 10) := by
    decide +kernel
  exact ⟨t, t, _, by decide +kernel, hcopy, hhighest, hm, hn,
    hle 5 10 _ _ _ _ (Prod.ext hm rfl) (Prod.ext hn rfl)⟩

end Tree

end DiceFormula
