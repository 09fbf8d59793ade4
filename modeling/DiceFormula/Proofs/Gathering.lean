import DiceFormula.Proofs.Clamping
import DiceFormula.Proofs.Exactness
import DiceFormula.Proofs.Settling
import Mathlib.Data.List.Sort

/-! Rolls of many dice. The count and the die are looked at before anything is drawn, and then there
is one throw for each die, whatever the throws show. The roll has them in ascending order, and that
is the order in which it adds them up: whether its total is exact is decided by the sums of the
lowest throws, not by those of the first ones. -/
namespace DiceFormula

variable {σ : Type}

namespace Word

def SumsFit (numbers : List Int) : Prop := ∀ front ∈ numbers.inits, Fits front.sum

instance (numbers : List Int) : Decidable (SumsFit numbers) :=
  inferInstanceAs (Decidable (∀ front ∈ numbers.inits, Fits front.sum))

theorem sumsFit_of_sign {numbers : List Int} (hsign : (∀ n ∈ numbers, 0 ≤ n) ∨ ∀ n ∈ numbers, n ≤ 0)
    (h : Fits numbers.sum) : SumsFit numbers := by
  intro front hfront
  obtain ⟨back, rfl⟩ := (List.mem_inits front numbers).mp hfront
  rw [List.sum_append, fits_iff] at h
  rw [fits_iff]
  obtain hsign | hsign := hsign
  · have hsum : 0 ≤ front.sum := List.sum_nonneg fun n hn => hsign n (List.mem_append_left back hn)
    have hrest : 0 ≤ back.sum := List.sum_nonneg fun n hn =>
      hsign n (List.mem_append_right front hn)
    omega
  · have hsum : front.sum ≤ 0 := by
      simpa using List.sum_le_card_nsmul front 0 fun n hn => hsign n (List.mem_append_left back hn)
    have hrest : back.sum ≤ 0 := by
      simpa using List.sum_le_card_nsmul back 0 fun n hn => hsign n (List.mem_append_right front hn)
    omega

theorem sum?_of_fits {a b : Int} (h : Fits (a + b)) : (sum? a b).value = some (a + b) := by
  rw [fits_iff] at h
  have hhigh : ¬greatest - b < a := by
    unfold greatest
    omega
  have hlow : ¬a < least - b := by
    unfold least
    omega
  unfold sum?
  split
  · simp only [Traced.value_bind, Traced.value_word, hhigh, ↓reduceIte, Traced.value_pure]
  · simp only [Traced.value_bind, Traced.value_word, hlow, ↓reduceIte, Traced.value_pure]

end Word

namespace Number

open Word

theorem add_of_sum_fits {a b : Int} (h : Fits (a + b)) :
    (int a).add (int b) = .ok (.int (a + b)) := by
  rw [add, addTraced]
  exact value_exactOr (sum?_of_fits h) _

theorem sumFrom_of_fits {numbers : List Int} {total : Int}
    (h : ∀ front ∈ numbers.inits, Fits (total + front.sum)) :
    sumFrom (.int total) (numbers.map int) = .ok (.int (total + numbers.sum)) := by
  induction numbers generalizing total with
  | nil =>
    rw [List.sum_nil, Int.add_zero]
    rfl
  | cons n rest ih =>
    have hfits (front : List Int) (hfront : front ∈ rest.inits) : Fits (total + n + front.sum) := by
      have hlonger := h (n :: front) (by simpa using hfront)
      rwa [List.sum_cons, ← Int.add_assoc] at hlonger
    have hnext : Fits (total + n) := by simpa using hfits [] (by simp)
    rw [List.map_cons, sumFrom, add_of_sum_fits hnext, List.sum_cons, ← Int.add_assoc]
    exact ih hfits

theorem sum_of_fits {numbers : List Int} (h : SumsFit numbers) :
    sum (numbers.map int) = .ok (.int numbers.sum) := by
  have hfits (front : List Int) (hfront : front ∈ numbers.inits) : Fits (0 + front.sum) := by
    rw [Int.zero_add]
    exact h front hfront
  have hsum := sumFrom_of_fits hfits
  rwa [Int.zero_add] at hsum

end Number

namespace Source

variable {source : Source σ} {die : Die} {s t : σ}

theorem throwDice_of_repeats {throws : List Number}
    (h : Rolling.Repeats (source.throwDie die) s throws t) (thrown : List Number) :
    source.throwDice die throws.length thrown s = (.ok (thrown.reverse ++ throws), t) := by
  induction h generalizing thrown with
  | nil s =>
    rw [List.append_nil]
    rfl
  | cons first _ ih =>
    rw [List.length_cons, throwDice, first]
    refine (ih _).trans ?_
    rw [List.reverse_cons, List.append_assoc]
    rfl

theorem repeats_of_throwDice {count : Nat} {thrown values : List Number}
    (h : source.throwDice die count thrown s = (.ok values, t)) :
    ∃ throws, values = thrown.reverse ++ throws ∧ throws.length = count ∧
      Rolling.Repeats (source.throwDie die) s throws t := by
  induction count generalizing thrown s with
  | zero =>
    cases h
    exact ⟨[], (List.append_nil _).symm, rfl, .nil _⟩
  | succ count ih =>
    rw [throwDice_succ] at h
    obtain ⟨a, s₁, hfirst, hrest⟩ := Rolling.bind_eq_ok h
    obtain ⟨throws, rfl, hlength, hrepeats⟩ := ih hrest
    exact ⟨a :: throws, by simp, congrArg Nat.succ hlength, .cons hfirst hrepeats⟩

end Source

theorem Die.exists_fault_of_not_throwable {die : Die} (h : ¬die.Throwable) :
    ∃ fault : Fault, die.check = .error fault ∧ fault.kind = .wrongValue := by
  cases die with
  | sides count => exact ⟨.noSides count, if_pos (Int.not_le.mp h), rfl⟩
  | faces values =>
    cases values with
    | nil => exact ⟨.noFaces, rfl, rfl⟩
    | cons a rest => exact absurd (List.cons_ne_nil a rest) h

namespace Roll

/-- What is rolled with so many dice of a kind: there is one throw for each of them, and the roll
has the throws in ascending order and puts nothing aside. It adds up to their exact sum, as long as
it does so within the words. -/
structure Gathers (source : Source σ) (die : Die) (dice : Nat) (s : σ)
    (draws ordered : List Int) (r : Roll) (t : σ) : Prop where
  throws : Rolling.Repeats (source.throwDie die) s (draws.map Number.int) t
  count : draws.length = dice
  perm : ordered.Perm draws
  lists : r.Lists ordered
  die_eq : r.die = die
  discards_eq : r.discards = []
  sum_exact : Word.SumsFit ordered → r.sum = .ok (.int draws.sum)
  sum_steady : ∀ k, (∀ n ∈ draws, n = k) → Word.Fits (dice * k) → r.sum = .ok (.int (dice * k))

variable {source : Source σ} {die : Die} {s t : σ} {draws ordered : List Int}

theorem sort_of_perm (hperm : ordered.Perm draws) (hascending : ordered.Pairwise (· ≤ ·)) :
    sort (draws.map Number.int) = ordered.map Number.int := by
  have hmerge : draws.mergeSort = ordered :=
    ((List.mergeSort_perm draws _).trans hperm.symm).eq_of_pairwise (fun _ _ _ _ => Int.le_antisymm)
      (List.pairwise_mergeSort' (· ≤ ·) draws) hascending
  rw [sort, ← hmerge]
  exact (List.map_mergeSort fun m _ n _ => (Number.le_int m n).symm).symm

theorem ofValues_lists (hperm : ordered.Perm draws) (hascending : ordered.Pairwise (· ≤ ·))
    (die : Die) :
    (ofValues (draws.map Number.int) die).Lists ordered :=
  ⟨sort_of_perm hperm hascending, hascending, rfl⟩

theorem Lists.sum_exact {r : Roll} (h : r.Lists ordered) (hfits : Word.SumsFit ordered) :
    r.sum = .ok (.int ordered.sum) := by
  rw [sum, h.values, Number.sum_of_fits hfits]

theorem Lists.sum_steady {r : Roll} {k : Int} (h : r.Lists ordered) (hsteady : ∀ n ∈ ordered, n = k)
    (hfits : Word.Fits (ordered.length * k)) : r.sum = .ok (.int (ordered.length * k)) := by
  have hsum : ordered.sum = ordered.length * k := by
    rw [List.eq_replicate_of_mem hsteady, List.sum_replicate, List.length_replicate, nsmul_eq_mul]
  have hsign : (∀ n ∈ ordered, 0 ≤ n) ∨ ∀ n ∈ ordered, n ≤ 0 := by
    refine (Int.le_total 0 k).imp ?_ ?_
    · exact fun hk n hn => (hsteady n hn).symm ▸ hk
    · exact fun hk n hn => (hsteady n hn).symm ▸ hk
  rw [← hsum] at hfits ⊢
  exact h.sum_exact (Word.sumsFit_of_sign hsign hfits)

theorem throwMany_of_repeats (hdie : die.Throwable) {throws : List Number}
    (h : Rolling.Repeats (source.throwDie die) s throws t) :
    throwMany source throws.length die s = (.ok (ofValues throws die), t) := by
  have hthrown := Source.throwDice_of_repeats h []
  rw [throwMany, Rolling.lift_bind_apply, Die.check_of_throwable hdie]
  simp only [Bind.bind, Rolling.bind, hthrown]
  rfl

theorem throwMany_eq_ok {dice : Nat} {r : Roll} (h : throwMany source dice die s = (.ok r, t)) :
    ∃ throws, throws.length = dice ∧ Rolling.Repeats (source.throwDie die) s throws t ∧
      r = ofValues throws die := by
  obtain ⟨_, s₁, hcheck, hrest⟩ := Rolling.bind_eq_ok h
  cases (Prod.mk.inj hcheck).2
  obtain ⟨values, s₂, hthrow, hresult⟩ := Rolling.bind_eq_ok hrest
  cases hresult
  obtain ⟨throws, hvalues, hlength, hrepeats⟩ := Source.repeats_of_throwDice hthrow
  exact ⟨throws, hlength, hrepeats, congrArg (ofValues · die) hvalues⟩

theorem gathers_ofValues
    (hthrows : Rolling.Repeats (source.throwDie die) s (draws.map Number.int) t)
    (hperm : ordered.Perm draws) (hascending : ordered.Pairwise (· ≤ ·)) :
    Gathers source die draws.length s draws ordered (ofValues (draws.map Number.int) die) t := by
  have hlists := ofValues_lists hperm hascending die
  refine ⟨hthrows, rfl, hperm, hlists, rfl, rfl, fun hfits => ?_, fun k hsteady hfits => ?_⟩
  · rw [hlists.sum_exact hfits, hperm.sum_eq]
  · rw [← hperm.length_eq] at hfits ⊢
    exact hlists.sum_steady (fun n hn => hsteady n (hperm.mem_iff.mp hn)) hfits

theorem gathers_of_throwMany (hintegral : die.Integral) {dice : Nat} {r : Roll}
    (h : throwMany source dice die s = (.ok r, t)) :
    ∃ draws ordered, Gathers source die dice s draws ordered r t := by
  obtain ⟨throws, rfl, hthrows, rfl⟩ := throwMany_eq_ok h
  obtain ⟨draws, rfl⟩ := Die.exists_ints (Source.isInteger_of_repeats hintegral hthrows)
  rw [List.length_map]
  exact ⟨draws, _,
    gathers_ofValues hthrows (List.mergeSort_perm draws _) (List.pairwise_mergeSort' (· ≤ ·) draws)⟩

theorem exists_gathers (hdie : die.Throwable) (hintegral : die.Integral)
    (hsource : source.Willing s) (dice : Nat) :
    ∃ draws ordered r t, throwMany source dice die s = (.ok r, t) ∧
      Gathers source die dice s draws ordered r t := by
  obtain ⟨throws, t, hthrows, rfl⟩ :=
    Rolling.exists_repeats (fun s hs => hs.throwDie hdie) dice hsource
  have hroll := throwMany_of_repeats hdie hthrows
  obtain ⟨draws, ordered, hgathers⟩ := gathers_of_throwMany hintegral hroll
  exact ⟨draws, ordered, _, t, hroll, hgathers⟩

theorem throwMany_of_check_eq_error {fault : Fault} (h : die.check = .error fault)
    (source : Source σ) (dice : Nat) (s : σ) : throwMany source dice die s = (.error fault, s) := by
  rw [throwMany, Rolling.lift_bind_apply, h]

theorem diceCount_of_le {count : Int} (h : count ≤ Fault.diceLimit) :
    diceCount count = .ok count.toNat :=
  if_neg (Int.not_lt.mpr h)

theorem diceCount_eq_ok {count : Int} {dice : Nat} (h : diceCount count = .ok dice) :
    dice = count.toNat := by
  unfold diceCount at h
  split at h
  · cases h
  · exact (Except.ok.inj h).symm

theorem plain_of_le {count : Int} (h : count ≤ Fault.diceLimit) (source : Source σ) (die : Die) :
    plain source count die = throwMany source count.toNat die := by
  funext s
  rw [plain, Rolling.lift_bind_apply, diceCount_of_le h]

theorem plain_eq_ok {count : Int} {r : Roll} (h : plain source count die s = (.ok r, t)) :
    throwMany source count.toNat die s = (.ok r, t) := by
  obtain ⟨dice, s₁, hcount, hroll⟩ := Rolling.bind_eq_ok h
  cases (Prod.mk.inj hcount).2
  obtain rfl : dice = count.toNat := diceCount_eq_ok (Prod.mk.inj hcount).1
  exact hroll

theorem critical_of_le {count : Int} (h : count ≤ Fault.diceLimit) (source : Source σ) (die : Die) :
    critical source count die = throwMany source (2 * count.toNat) die := by
  funext s
  rw [critical, Rolling.lift_bind_apply, diceCount_of_le h]

theorem exists_refusal {count : Int} (h : Fault.diceLimit < count ∨ ¬die.Throwable)
    (source : Source σ) (s : σ) :
    ∃ fault : Fault, fault.kind = .wrongValue ∧
      (Fault.diceLimit < count → fault = .tooManyDice count) ∧
      plain source count die s = (.error fault, s) ∧
      critical source count die s = (.error fault, s) := by
  by_cases hcount : Fault.diceLimit < count
  · have hrefused : diceCount count = .error (.tooManyDice count) := if_pos hcount
    refine ⟨.tooManyDice count, rfl, fun _ => rfl, ?_, ?_⟩
    · rw [plain, Rolling.lift_bind_apply, hrefused]
    · rw [critical, Rolling.lift_bind_apply, hrefused]
  · have hle : count ≤ Fault.diceLimit := Int.not_lt.mp hcount
    obtain ⟨fault, hcheck, hkind⟩ := Die.exists_fault_of_not_throwable (h.resolve_left hcount)
    refine ⟨fault, hkind, fun hlt => absurd hlt hcount, ?_, ?_⟩
    · rw [plain_of_le hle, throwMany_of_check_eq_error hcheck]
    · rw [critical_of_le hle, throwMany_of_check_eq_error hcheck]

theorem critical_eq_plain {count : Int} (h : 2 * count ≤ Fault.diceLimit) (source : Source σ)
    (die : Die) :
    critical source count die = plain source (2 * count) die := by
  have hcount : count ≤ Fault.diceLimit := by
    unfold Fault.diceLimit at *
    omega
  have hdice : (2 * count).toNat = 2 * count.toNat := by omega
  rw [critical_of_le hcount, plain_of_le h, hdice]

/-- Rolls of a die whose throws are integers, at random and for a critical hit, with a source that
answers. A count above the limit and a die that cannot be thrown are refused before anything is
drawn. Otherwise there are as many throws as dice, twice as many for a critical hit, and a critical
hit is a roll of twice the count as long as that is within the limit. The total is exact where the
throws in ascending order can be added up within the words. -/
theorem rolls_gather (source : Source σ) (count : Int) (die : Die) (s : σ) (hdie : die.Integral)
    (hsource : source.Willing s) :
    (Fault.diceLimit < count ∨ ¬die.Throwable →
      ∃ fault : Fault, fault.kind = .wrongValue ∧
        (Fault.diceLimit < count → fault = .tooManyDice count) ∧
        plain source count die s = (.error fault, s) ∧
        critical source count die s = (.error fault, s)) ∧
    (count ≤ Fault.diceLimit → die.Throwable →
      (∃ draws ordered r t, plain source count die s = (.ok r, t) ∧
        Gathers source die count.toNat s draws ordered r t) ∧
      ∃ draws ordered r t, critical source count die s = (.ok r, t) ∧
        Gathers source die (2 * count.toNat) s draws ordered r t) ∧
    (count ≤ 50000 → critical source count die = plain source (2 * count) die) := by
  refine ⟨fun h => exists_refusal h source s, fun hcount hthrowable => ?_, fun hcount =>
    critical_eq_plain ?_ source die⟩
  · rw [plain_of_le hcount, critical_of_le hcount]
    exact ⟨exists_gathers hthrowable hdie hsource _, exists_gathers hthrowable hdie hsource _⟩
  · unfold Fault.diceLimit
    omega

theorem rolls_gather_three :
    ∃ r t, plain (Script.source 0) 3 (.sides 6) ⟨[5, 1, 4], some 2, [], 0⟩ = (.ok r, t) ∧
      t = Script.steady 2 ∧
      r.values = [.int 1, .int 4, .int 5] ∧ r.discards = [] ∧ r.sum = .ok (.int 10) := by
  have hthrows : Rolling.Repeats ((Script.source 0).throwDie (.sides 6)) ⟨[5, 1, 4], some 2, [], 0⟩
      ([5, 1, 4].map Number.int) (Script.steady 2) := .cons rfl (.cons rfl (.cons rfl (.nil _)))
  have hwilling : (Script.source 0).Willing ⟨[5, 1, 4], some 2, [], 0⟩ := Script.willing rfl
  obtain ⟨-, hroll, -⟩ := rolls_gather (Script.source 0) 3 (.sides 6) _ trivial hwilling
  obtain ⟨⟨draws, ordered, r, t, hplain, hgathers⟩, -⟩ :=
    hroll (by decide) (Die.throwable_of_check rfl)
  obtain ⟨hdraws, rfl⟩ := hgathers.throws.unique hthrows (by simpa using hgathers.count)
  obtain rfl : draws = [5, 1, 4] := List.map_injective_iff.mpr (fun _ _ => Number.int.inj) hdraws
  have hperm : ordered.Perm [1, 4, 5] := hgathers.perm.trans (by decide)
  obtain rfl : ordered = [1, 4, 5] :=
    hperm.eq_of_pairwise (fun _ _ _ _ => Int.le_antisymm) hgathers.lists.ascending (by decide)
  exact ⟨r, _, hplain, rfl, hgathers.lists.values, hgathers.discards_eq,
    hgathers.sum_exact (by decide +kernel)⟩

/-- Six throws of a die with two faces far apart. In the order in which they are made they never
leave the words, but the roll adds up the three lower faces first, and these make a real that the
higher ones bring to nothing. -/
theorem plain_sum_out_of_order :
    let die := Die.faces [.int (-4611686018427387905), .int 4611686018427387904]
    let draws : List Int :=
      [-4611686018427387905, 4611686018427387904, -4611686018427387905, 4611686018427387904,
      -4611686018427387905, 4611686018427387904]
    let script : Script := ⟨[], none, [0, 1, 0, 1, 0, 1], 0⟩
    ∃ r t, plain (Script.source 0) 6 die script = (.ok r, t) ∧
      Rolling.Repeats ((Script.source 0).throwDie die) script (draws.map Number.int) t ∧
      Word.SumsFit draws ∧
      draws.sum = -3 ∧ r.sum = .ok (.real (.zero false)) ∧ r.sum ≠ .ok (.int draws.sum) := by
  intro die draws script
  have hthrows : Rolling.Repeats ((Script.source 0).throwDie die) script (draws.map Number.int)
    ⟨[], none, [], 0⟩ :=
    .cons rfl (.cons rfl (.cons rfl (.cons rfl (.cons rfl (.cons rfl (.nil _))))))
  let ordered : List Int :=
    [-4611686018427387905, -4611686018427387905, -4611686018427387905, 4611686018427387904,
    4611686018427387904, 4611686018427387904]
  have hdie : die.Throwable := List.cons_ne_nil _ _
  have hperm : ordered.Perm draws := by decide
  have hsum : (ofValues (draws.map Number.int) die).sum = .ok (.real (.zero false)) := by
    rw [sum, (ofValues_lists hperm (by decide) die).values]
    decide +kernel
  refine ⟨_, _, ?_, hthrows, by decide +kernel, by decide, hsum, ?_⟩
  · rw [plain_of_le (by decide)]
    exact throwMany_of_repeats hdie hthrows
  · rw [hsum]
    nofun

end Roll

end DiceFormula
