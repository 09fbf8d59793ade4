import DiceFormula.Proofs.Rethrowing

/-! Values thrown again until they settle. A die whose every face would be thrown again is refused
beforehand: its lowest and its highest face tell. With any other die, and throws among which one
that settles comes up again and again, the reroll comes to its end, however late, and every place
has settled. -/
namespace DiceFormula

variable {σ α β ε : Type}

namespace Die

def HasFace : Die → Number → Prop
  | .sides count, a => ∃ n : Int, a = .int n ∧ 1 ≤ n ∧ n ≤ count
  | .faces values, a => a ∈ values

variable {die : Die}

theorem Integral.exists_int (h : die.Integral) {a : Number} (ha : die.HasFace a) :
    ∃ n : Int, a = .int n := by
  cases die with
  | sides count =>
    obtain ⟨n, rfl, -⟩ := ha
    exact ⟨n, rfl⟩
  | faces values =>
    cases a with
    | int n => exact ⟨n, rfl⟩
    | real x => cases h _ ha

theorem exists_ints {values : List Number} (h : ∀ a ∈ values, a.isInteger = true) :
    ∃ numbers : List Int, values = numbers.map Number.int := by
  induction values with
  | nil => exact ⟨[], rfl⟩
  | cons a values ih =>
    obtain ⟨ha, hvalues⟩ := List.forall_mem_cons.mp h
    obtain ⟨numbers, rfl⟩ := ih hvalues
    cases a with
    | int n => exact ⟨n :: numbers, rfl⟩
    | real x => cases ha

theorem smallest_int (best : Int) (numbers : List Int) :
    smallest (.int best) (numbers.map Number.int) = .int (numbers.foldl min best) := by
  induction numbers generalizing best with
  | nil => rfl
  | cons n numbers ih =>
    have hbest : (if (Number.int n).lt (.int best) then Number.int n else .int best) =
        .int (min best n) := by
      simp only [Number.lt_int, decide_eq_true_eq]
      split <;> congr 1 <;> omega
    rw [List.map_cons, smallest, hbest, ih, List.foldl_cons]

theorem largest_int (best : Int) (numbers : List Int) :
    largest (.int best) (numbers.map Number.int) = .int (numbers.foldl max best) := by
  induction numbers generalizing best with
  | nil => rfl
  | cons n numbers ih =>
    have hbest : (if (Number.int best).lt (.int n) then Number.int n else .int best) =
        .int (max best n) := by
      simp only [Number.lt_int, decide_eq_true_eq]
      split <;> congr 1 <;> omega
    rw [List.map_cons, largest, hbest, ih, List.foldl_cons]

theorem exists_ends (hdie : die.Throwable) (h : die.Integral) :
    ∃ low high : Int, (die.minimum = .ok (.int low) ∧ die.HasFace (.int low)) ∧
      (die.maximum = .ok (.int high) ∧ die.HasFace (.int high)) ∧
      ∀ n, die.HasFace (.int n) → low ≤ n ∧ n ≤ high := by
  cases die with
  | sides count =>
    refine ⟨1, count, ⟨rfl, 1, rfl, Int.le_refl 1, hdie⟩,
      ⟨rfl, count, rfl, hdie, Int.le_refl count⟩, ?_⟩
    rintro n ⟨m, hm, hbetween⟩
    cases hm
    exact hbetween
  | faces values =>
    obtain ⟨numbers, rfl⟩ := exists_ints h
    cases numbers with
    | nil => exact absurd rfl hdie
    | cons best numbers =>
      have hmin : (best :: numbers).min? = some (numbers.foldl min best) := List.min?_cons'
      have hmax : (best :: numbers).max? = some (numbers.foldl max best) := List.max?_cons'
      obtain ⟨hlow, hleast⟩ := List.min?_eq_some_iff.mp hmin
      obtain ⟨hhigh, hgreatest⟩ := List.max?_eq_some_iff.mp hmax
      refine ⟨numbers.foldl min best, numbers.foldl max best,
        ⟨congrArg Except.ok (smallest_int best numbers), List.mem_map_of_mem hlow⟩,
        ⟨congrArg Except.ok (largest_int best numbers), List.mem_map_of_mem hhigh⟩, fun n hn => ?_⟩
      have hmem : n ∈ best :: numbers := (List.mem_map_of_injective fun _ _ => Number.int.inj).mp hn
      exact ⟨hleast n hmem, hgreatest n hmem⟩

end Die

def Rolling.FailsWith (P : ε → Prop) (x : Rolling σ ε α) : Prop := ∀ s e, (x s).1 = .error e → P e

namespace Rolling

variable {P : ε → Prop} {x y : Rolling σ ε α}

theorem failsWith_of {r : Except ε α} (h : ∀ e, r = .error e → P e) :
    FailsWith P (of r : Rolling σ ε α) :=
  fun _ => h

theorem failsWith_pure (a : α) : FailsWith P (pure a : Rolling σ ε α) :=
  failsWith_of fun _ h => by cases h

theorem failsWith_fail {e : ε} (h : P e) : FailsWith P (fail e : Rolling σ ε α) :=
  failsWith_of fun _ he => by cases he; exact h

theorem FailsWith.bind {f : α → Rolling σ ε β} (h : FailsWith P x)
    (hnext : ∀ a, FailsWith P (f a)) :
    FailsWith P (x >>= f) := by
  intro s e he
  rw [bind_apply] at he
  rcases hx : x s with ⟨fault | a, t⟩
  · rw [hx] at he
    cases he
    exact h s _ (by rw [hx])
  · rw [hx] at he
    exact hnext a t e he

theorem FailsWith.ite {p : Prop} [Decidable p] (hx : FailsWith P x) (hy : FailsWith P y) :
    FailsWith P (if p then x else y) := by
  split
  · exact hx
  · exact hy

theorem FailsWith.foldlM {f : β → α → Rolling σ ε β} (h : ∀ b a, FailsWith P (f b a))
    (values : List α) (b : β) :
    FailsWith P (values.foldlM f b) := by
  induction values generalizing b with
  | nil => exact failsWith_pure b
  | cons a values ih =>
    rw [List.foldlM_cons]
    exact (h b a).bind ih

end Rolling

/-- All that was put aside at a place fires, and what stays there does not. -/
structure Place.Settled (fires : Number → Bool) (p : Place) : Prop where
  aside : ∀ a ∈ p.aside, fires a = true
  after : fires p.after = false

theorem Place.Settled.throws_eq_nil {fires : Number → Bool} {p : Place} (h : p.Settled fires)
    (hbefore : fires p.before = false) : p.throws = [] := by
  obtain ⟨before, _ | ⟨b, throws⟩⟩ := p
  · rfl
  · have hfires : fires before = true := h.aside before List.mem_cons_self
    exact absurd (hbefore.symm.trans hfires) Bool.false_ne_true

namespace Source

variable {source : Source σ} {die : Die} {throw : Rolling σ Fault Number} {fires : Number → Bool}
  {a : Number}
  {throws : List Number} {s t : σ}

def withPatience (source : Source σ) (patience : Nat) : Source σ :=
  { source with patience := patience }

theorem failsWith_rerollUntil {P : Fault → Prop} (hpatience : P .patienceEnded)
    (hthrow : Rolling.FailsWith P (source.throwDie die)) (values : List Number) (v : Visited) :
    Rolling.FailsWith P (source.rerollUntil die fires values v) := by
  have hvalue (trials : Nat) :
      ∀ a v, Rolling.FailsWith P (source.rerollValue die fires trials a v) := by
    induction trials with
    | zero =>
      intro a v
      rw [rerollValue_zero]
      exact (Rolling.failsWith_fail hpatience).ite (Rolling.failsWith_pure _)
    | succ trials ih =>
      intro a v
      rw [rerollValue_succ]
      exact (hthrow.bind fun b => ih b _).ite (Rolling.failsWith_pure _)
  rw [rerollUntil_eq_foldlM]
  exact Rolling.FailsWith.foldlM (fun v a => hvalue source.patience a v) values v

/-- A value thrown again and again until what was thrown no longer fires. -/
inductive Settles (throw : Rolling σ Fault Number) (fires : Number → Bool) :
    Number → σ → List Number → σ → Prop
  | stays {a : Number} (s : σ) (h : fires a = false) : Settles throw fires a s [] s
  | thrown {a b : Number} {throws : List Number} {s t u : σ} (h : fires a = true)
      (hthrow : throw s = (.ok b, t)) (rest : Settles throw fires b t throws u) :
      Settles throw fires a s (b :: throws) u

theorem Settles.rerollValue_eq (h : Settles (source.throwDie die) fires a s throws t) {trials : Nat}
    (htrials : throws.length ≤ trials) (v : Visited) :
    source.rerollValue die fires trials a v s = (.ok (v.pass ⟨a, throws⟩), t) := by
  induction h generalizing trials v with
  | stays s h =>
    cases trials with
    | zero =>
      rw [rerollValue_zero, h]
      rfl
    | succ trials =>
      rw [rerollValue_succ, h]
      rfl
  | thrown h hthrow _ ih =>
    obtain _ | trials := trials
    · cases htrials
    · rw [rerollValue, if_pos h, hthrow, Visited.pass_putAside]
      exact ih (Nat.le_of_succ_le_succ htrials) _

theorem Settles.repeats (h : Settles throw fires a s throws t) : throw.Repeats s throws t := by
  induction h with
  | stays s h => exact .nil s
  | thrown _ hthrow _ ih => exact .cons hthrow ih

theorem Settles.settled (h : Settles throw fires a s throws t) :
    Place.Settled fires ⟨a, throws⟩ := by
  induction h with
  | stays s h => exact ⟨List.forall_mem_nil _, h⟩
  | thrown h _ _ ih =>
    refine ⟨List.forall_mem_cons.mpr ⟨h, ih.aside⟩, ?_⟩
    rw [Place.after_cons]
    exact ih.after

variable {state : Nat → σ} {shown : Nat → Number}

theorem exists_settles (hthrow : ∀ n, throw (state n) = (.ok (shown n), state (n + 1)))
    {n away : Nat} (h : fires (shown (n + away)) = false) (a : Number) :
    ∃ throws m, Settles throw fires a (state n) throws (state m) := by
  induction away generalizing n a with
  | zero =>
    cases hfires : fires a with
    | false => exact ⟨[], n, .stays _ hfires⟩
    | true => exact ⟨[shown n], n + 1, .thrown hfires (hthrow n) (.stays _ h)⟩
  | succ away ih =>
    cases hfires : fires a with
    | false => exact ⟨[], n, .stays _ hfires⟩
    | true =>
      have hnext : fires (shown (n + 1 + away)) = false := by rwa [Nat.add_right_comm]
      obtain ⟨throws, m, hsettles⟩ := ih hnext (shown n)
      exact ⟨shown n :: throws, m, .thrown hfires (hthrow n) hsettles⟩

theorem repeats_stream (hthrow : ∀ n, throw (state n) = (.ok (shown n), state (n + 1))) {n : Nat}
    (h : throw.Repeats (state n) throws t) :
    throws = (List.range' n throws.length).map shown ∧ t = state (n + throws.length) := by
  induction throws generalizing n with
  | nil =>
    cases h
    exact ⟨rfl, rfl⟩
  | cons a throws ih =>
    cases h with
    | cons first rest =>
      rw [hthrow] at first
      cases first
      obtain ⟨hshown, ht⟩ := ih rest
      refine ⟨?_, ?_⟩
      · rw [List.length_cons, List.range'_succ, List.map_cons, ← hshown]
      · rw [ht, List.length_cons, Nat.add_assoc, Nat.add_comm 1]

end Source

namespace Roll

variable {die : Die}

theorem exists_endless (hdie : die.Throwable) (h : die.Integral) (trigger : Trigger)
    (target : Int) :
    ∃ verdict, endless die trigger (.int target) = .ok verdict ∧
      (verdict = true ↔ ∀ a, die.HasFace a → trigger.fires (.int target) a = true) := by
  have hfaces : (∀ a, die.HasFace a → trigger.fires (.int target) a = true) ↔
      ∀ n : Int, die.HasFace (.int n) → trigger.fires (.int target) (.int n) = true := by
    refine ⟨fun hall n hn => hall _ hn, fun hall a ha => ?_⟩
    obtain ⟨n, rfl⟩ := h.exists_int ha
    exact hall n ha
  obtain ⟨low, high, ⟨hlow, hlowFace⟩, ⟨hhigh, hhighFace⟩, hbetween⟩ := Die.exists_ends hdie h
  rw [hfaces]
  cases trigger with
  | equal =>
    refine ⟨low == target && high == target, ?_, ?_⟩
    · rw [endless, hlow, hhigh]
      rfl
    · simp only [Trigger.fires, Number.same_int, Bool.and_eq_true, beq_iff_eq]
      constructor
      · rintro ⟨rfl, hsame⟩ n hn
        exact Int.le_antisymm (hsame ▸ (hbetween n hn).2) (hbetween n hn).1
      · exact fun hall => ⟨hall low hlowFace, hall high hhighFace⟩
  | below =>
    refine ⟨decide (high < target), ?_, ?_⟩
    · rw [endless, hhigh]
      rfl
    · simp only [Trigger.fires, Number.lt_int, decide_eq_true_eq]
      exact ⟨fun hless n hn => Int.lt_of_le_of_lt (hbetween n hn).2 hless,
        fun hall => hall high hhighFace⟩
  | above =>
    refine ⟨decide (target < low), ?_, ?_⟩
    · rw [endless, hlow]
      rfl
    · simp only [Trigger.fires, Number.lt_int, decide_eq_true_eq]
      exact ⟨fun hless n hn => Int.lt_of_lt_of_le hless (hbetween n hn).1,
        fun hall => hall low hlowFace⟩

variable {source : Source σ} {r : Roll} {trigger : Trigger} {target : Number}

theorem rerollUntil_endless (hcheck : r.die.check = .ok ())
    (hendless : endless r.die trigger target = .ok true) (s : σ) :
    r.rerollUntil source trigger target s =
      (.error (.endlessReroll trigger r.die target), s) := by
  simp only [rerollUntil, hcheck, hendless]
  rfl

theorem rerollUntil_eq (hcheck : r.die.check = .ok ())
    (hendless : endless r.die trigger target = .ok false) :
    r.rerollUntil source trigger target = do
      return r.afterVisit (← (source.rerollUntil r.die (trigger.fires target) r.values ⟨[], []⟩ :
        Rolling σ Fault Visited)) := by
  simp only [rerollUntil, hcheck, hendless]
  rfl

theorem rerollUntil_of_visit (hcheck : r.die.check = .ok ())
    (hendless : endless r.die trigger target = .ok false) {v : Visited} {s t : σ}
    (h : source.rerollUntil r.die (trigger.fires target) r.values ⟨[], []⟩ s = (.ok v, t)) :
    r.rerollUntil source trigger target s = (.ok (r.afterVisit v), t) := by
  rw [rerollUntil_eq hcheck hendless]
  simp only [Bind.bind, Rolling.bind, h]
  rfl

theorem rerollUntil_of_passes (hcheck : r.die.check = .ok ())
    (hendless : endless r.die trigger target = .ok false) {places : List Place} {s t : σ}
    (h : Passes (Source.Settles (source.throwDie r.die) (trigger.fires target)) r.values s places t)
    (hpatience : (places.flatMap Place.throws).length ≤ source.patience) :
    r.rerollUntil source trigger target s =
      (.ok (r.afterVisit (places.foldl Visited.pass ⟨[], []⟩)), t) := by
  have hplace : ∀ p ∈ places, p.throws.length ≤ source.patience := by
    intro p hp
    obtain ⟨front, back, rfl⟩ := List.append_of_mem hp
    rw [List.flatMap_append, List.flatMap_cons, List.length_append, List.length_append] at hpatience
    omega
  refine rerollUntil_of_visit hcheck hendless ?_
  rw [Source.rerollUntil_eq_foldlM]
  exact h.foldlM_eq (fun p hp v s t hsettles => hsettles.rerollValue_eq (hplace p hp) v) _

theorem failsWith_rerollUntil {P : Fault → Prop} (hdie : r.die.Throwable) {verdict : Bool}
    (hendless : endless r.die trigger target = .ok verdict)
    (hguard : verdict = true → P (.endlessReroll trigger r.die target))
    (hpatience : P .patienceEnded) (hthrow : Rolling.FailsWith P (source.throwDie r.die)) :
    Rolling.FailsWith P (r.rerollUntil source trigger target) := by
  have hcheck := Die.check_of_throwable hdie
  cases verdict with
  | true =>
    intro s fault hfault
    rw [rerollUntil_endless hcheck hendless] at hfault
    cases hfault
    exact hguard rfl
  | false =>
    rw [rerollUntil_eq hcheck hendless]
    exact (Source.failsWith_rerollUntil hpatience hthrow _ _).bind fun v => Rolling.failsWith_pure _

theorem exists_settled {fires : Number → Bool} {state : Nat → σ} {shown : Nat → Number}
    (hthrow : ∀ n, source.throwDie r.die (state n) = (.ok (shown n), state (n + 1)))
    (hoften : ∀ n, ∃ m, n ≤ m ∧ fires (shown m) = false) :
    ∃ places, Passes (Source.Settles (source.throwDie r.die) fires) r.values (state 0) places
        (state (places.flatMap Place.throws).length) ∧
      places.flatMap Place.throws =
        (List.range (places.flatMap Place.throws).length).map shown := by
  have hvisit (a : Number) (s : σ) (hs : ∃ n, s = state n) :
      ∃ throws t, Source.Settles (source.throwDie r.die) fires a s throws t ∧ ∃ n, t = state n := by
    obtain ⟨n, rfl⟩ := hs
    obtain ⟨m, hle, hm⟩ := hoften n
    obtain ⟨away, rfl⟩ := Nat.exists_eq_add_of_le hle
    obtain ⟨throws, k, hsettles⟩ := Source.exists_settles hthrow hm a
    exact ⟨throws, _, hsettles, k, rfl⟩
  obtain ⟨places, t, hpasses⟩ := exists_passes hvisit r.values ⟨0, rfl⟩
  obtain ⟨hshown, rfl⟩ := Source.repeats_stream hthrow (hpasses.repeats Source.Settles.repeats)
  rw [Nat.zero_add] at hpasses
  rw [← List.range_eq_range'] at hshown
  exact ⟨places, hpasses, hshown⟩

/-- A reroll until all values settle is refused exactly when no face of the die would ever settle.
Otherwise, if throws that settle keep coming up, it ends: no value that is left fires, those that
did not fire were not touched, and each of the others was put aside before the throws that were
rejected for it. -/
theorem rerollUntil_exact (source : Source σ) (r : Roll) (trigger : Trigger) (target : Int)
    (hvalues : ∀ a ∈ r.values, a.isInteger = true) (hsuspended : r.suspended = false)
    (hdie : r.die.Throwable) (hintegral : r.die.Integral) :
    let fires := trigger.fires (.int target)
    (Rolling.FailsWith (fun fault => fault.kind ≠ .wrongValue) (source.throwDie r.die) → ∀ s,
      (∃ fault, (r.rerollUntil source trigger (.int target) s).1 = .error fault ∧
        fault.kind = .wrongValue) ↔
        ∀ a, r.die.HasFace a → fires a = true) ∧
    ((∀ a, r.die.HasFace a → fires a = true) → ∀ s,
      r.rerollUntil source trigger (.int target) s =
        (.error (.endlessReroll trigger r.die (.int target)), s)) ∧
    ((∃ a, r.die.HasFace a ∧ fires a = false) → ∀ (state : Nat → σ) (shown : Nat → Number),
      (∀ n, source.throwDie r.die (state n) = (.ok (shown n), state (n + 1))) →
      (∀ n, ∃ m, n ≤ m ∧ fires (shown m) = false) →
      ∃ places r', r.Rerolled places r' ∧
        places.flatMap Place.throws = (List.range (places.flatMap Place.throws).length).map shown ∧
        (∀ p ∈ places, p.Settled fires ∧ (fires p.before = false → p.throws = [])) ∧
        (∀ a ∈ r'.values, fires a = false) ∧ r'.values.length = r.values.length ∧
        ∀ patience, (places.flatMap Place.throws).length ≤ patience →
          r.rerollUntil (source.withPatience patience) trigger (.int target) (state 0) =
            (.ok r', state (places.flatMap Place.throws).length) ∧
          Operator.rerollInPlace (source.withPatience patience) .untilSettled trigger (.roll r)
            (.number (.int target)) (state 0) =
              (.ok r', state (places.flatMap Place.throws).length)) := by
  intro fires
  have hcheck := Die.check_of_throwable hdie
  obtain ⟨verdict, hendless, hverdict⟩ := exists_endless hdie hintegral trigger target
  have hrefused (hall : ∀ a, r.die.HasFace a → fires a = true) (s : σ) :
      r.rerollUntil source trigger (.int target) s =
        (.error (.endlessReroll trigger r.die (.int target)), s) := by
    rw [hverdict.mpr hall] at hendless
    exact rerollUntil_endless hcheck hendless s
  refine ⟨fun hthrow s => ⟨?_, fun hall => ⟨_, congrArg Prod.fst (hrefused hall s), rfl⟩⟩,
    hrefused, ?_⟩
  · -- Were there a face that settles, only a throw could fail, or the patience could end.
    rintro ⟨fault, hfault, hkind⟩
    by_contra hsome
    have hopen : verdict ≠ true := fun h => hsome (hverdict.mp h)
    exact failsWith_rerollUntil hdie hendless (fun h => absurd h hopen) (by decide) hthrow s fault
      hfault hkind
  · rintro ⟨face, hface, hsettles⟩ state shown hthrow hoften
    have hopen : verdict = false := by
      rw [Bool.eq_false_iff, Ne, hverdict]
      exact fun hall => Bool.false_ne_true (hsettles.symm.trans (hall face hface))
    rw [hopen] at hendless
    obtain ⟨places, hpasses, hshown⟩ := exists_settled hthrow hoften
    have hsettled : ∀ p ∈ places, p.Settled fires := hpasses.forall_places Source.Settles.settled
    have hrerolled := rerolled_afterVisit hsuspended hvalues hpasses.map_before
      (Source.isInteger_of_repeats hintegral (hpasses.repeats Source.Settles.repeats))
    refine ⟨places, _, hrerolled, hshown,
      fun p hp => ⟨hsettled p hp, (hsettled p hp).throws_eq_nil⟩, fun a ha => ?_,
      hrerolled.length_eq, fun patience hpatience => ?_⟩
    · obtain ⟨p, hp, rfl⟩ := List.mem_map.mp (hrerolled.values.mem_iff.mp ha)
      exact (hsettled p hp).after
    · have hroll :
          r.rerollUntil (source.withPatience patience) trigger (.int target) (state 0) = _ :=
        rerollUntil_of_passes hcheck hendless hpasses hpatience
      refine ⟨hroll, ?_⟩
      rw [Operator.rerollInPlace_eq, Operator.reroll_roll]
      exact hroll

theorem rerollUntil_exact_above :
    let r : Roll := ⟨[.int 2, .int 5, .int 6], .sides 6, [.int 1], false⟩
    (∀ s, r.rerollUntil (Script.source 0) .above (.int 0) s =
      (.error (.endlessReroll .above (.sides 6) (.int 0)), s)) ∧
    ∃ places r', r.Rerolled places r' ∧ r'.discards = [.int 1, .int 5, .int 6, .int 6, .int 5] ∧
      (∀ a ∈ r'.values, (Number.int 4).lt a = false) ∧
      ∀ patience, (places.flatMap Place.throws).length ≤ patience →
        r.rerollUntil (Script.source patience) .above (.int 4) ⟨[6, 3, 5, 2], some 2, [], 0⟩ =
          (.ok r', ⟨[], some 2, [], 0⟩) := by
  intro r
  have hdie : r.die.Throwable := Die.throwable_of_check rfl
  have hendless := (rerollUntil_exact (Script.source 0) r .above 0 (by decide) rfl hdie trivial).2.1
  have hsettling :=
    (rerollUntil_exact (Script.source 0) r .above 4 (by decide) rfl hdie trivial).2.2
  refine ⟨hendless ?_, ?_⟩
  · rintro _ ⟨n, rfl, hn, -⟩
    exact decide_eq_true (Int.lt_of_lt_of_le Int.zero_lt_one hn)
  · have hstream (n : Nat) : (Script.source 0).throwDie r.die ⟨[6, 3, 5, 2].drop n, some 2, [], 0⟩ =
        (.ok (.int ([6, 3, 5, 2].getD n 2)), ⟨[6, 3, 5, 2].drop (n + 1), some 2, [], 0⟩) := by
      rcases n with _ | _ | _ | _ | n
      · rfl
      · rfl
      · rfl
      · rfl
      · rw [List.drop_eq_nil_of_le (Nat.le_add_left 4 n),
          List.drop_eq_nil_of_le (Nat.le_add_left 4 (n + 1))]
        rfl
    obtain ⟨places, r', hrerolled, -, -, hvalues, -, hroll⟩ :=
      hsettling ⟨.int 1, ⟨1, rfl, by decide, by decide⟩, rfl⟩
      (fun n => ⟨[6, 3, 5, 2].drop n, some 2, [], 0⟩) (fun n => .int ([6, 3, 5, 2].getD n 2))
      hstream (fun n => ⟨n + 4, Nat.le_add_right n 4, rfl⟩)
    have hlong := (hroll ((places.flatMap Place.throws).length + 4) (Nat.le_add_right _ _)).1
    have hresult :
        r.rerollUntil (Script.source ((places.flatMap Place.throws).length + 4)) .above (.int 4)
          ⟨[6, 3, 5, 2], some 2, [], 0⟩ =
            (.ok (settle ⟨[.int 2, .int 3, .int 2], .sides 6,
              [.int 1, .int 5, .int 6, .int 6, .int 5], false⟩),
              ⟨[], some 2, [], 0⟩) := rfl
    obtain ⟨hr', hstate⟩ := Prod.mk.inj (hlong.symm.trans hresult)
    refine ⟨places, r', hrerolled, ?_, hvalues, fun patience hpatience => ?_⟩
    · rw [Except.ok.inj hr', settle_discards]
    · rw [← hstate]
      exact (hroll patience hpatience).1

end Roll

end DiceFormula
