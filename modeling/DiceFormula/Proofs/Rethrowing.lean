import DiceFormula.Proofs.InPlace
import DiceFormula.Proofs.Throwing

/-! Values of a roll thrown again, place by place. Every place has a story of its own: the value
that stood there and the throws made for it, of which the last one stays and all the others are put
aside. A roll whose places were visited in turn is told by their stories, and a reroll that gives
every value one more chance makes one throw for each that it concerns, whatever these throws show.
-/
namespace DiceFormula

variable {σ α ε : Type}

/-- A value of a roll and the throws made in its place, in order. -/
structure Place where
  before : Number
  throws : List Number

namespace Place

def after (p : Place) : Number := (p.before :: p.throws).getLast (List.cons_ne_nil _ _)

def aside (p : Place) : List Number := (p.before :: p.throws).dropLast

@[simp] theorem after_cons (a b : Number) (throws : List Number) :
    after ⟨a, b :: throws⟩ = after ⟨b, throws⟩ :=
  List.getLast_cons (List.cons_ne_nil b throws)

@[simp] theorem aside_cons (a b : Number) (throws : List Number) :
    aside ⟨a, b :: throws⟩ = a :: aside ⟨b, throws⟩ := rfl

theorem after_mem (p : Place) : p.after ∈ p.before :: p.throws := List.getLast_mem _

end Place

namespace Visited

def pass (v : Visited) (p : Place) : Visited := ⟨p.after :: v.kept, p.aside.reverse ++ v.aside⟩

theorem pass_putAside (v : Visited) (a b : Number) (throws : List Number) :
    v.pass ⟨a, b :: throws⟩ = (v.putAside a).pass ⟨b, throws⟩ := by
  simp [pass, putAside]

theorem foldl_pass (places : List Place) (v : Visited) :
    places.foldl pass v =
      ⟨(places.map Place.after).reverse ++ v.kept, (places.flatMap Place.aside).reverse ++
        v.aside⟩ := by
  induction places generalizing v with
  | nil => rfl
  | cons p places ih => simp [ih, pass]

end Visited

/-- A computation made so many times in a row, with these results. -/
inductive Rolling.Repeats (x : Rolling σ ε α) : σ → List α → σ → Prop
  | nil (s : σ) : Repeats x s [] s
  | cons {s t u : σ} {a : α} {results : List α} (first : x s = (.ok a, t))
      (rest : Repeats x t results u) :
      Repeats x s (a :: results) u

theorem Rolling.Repeats.append {x : Rolling σ ε α} {s t u : σ} {results results' : List α}
    (h : x.Repeats s results t)
    (h' : x.Repeats t results' u) : x.Repeats s (results ++ results') u := by
  induction h with
  | nil s => exact h'
  | cons first _ ih => exact .cons first (ih h')

theorem Rolling.Repeats.forall_results {x : Rolling σ ε α} {P : α → Prop} {s t : σ}
    {results : List α}
    (h : x.Repeats s results t) (hx : ∀ s a t, x s = (.ok a, t) → P a) : ∀ a ∈ results, P a := by
  induction h with
  | nil s => exact List.forall_mem_nil _
  | cons first _ ih => exact List.forall_mem_cons.mpr ⟨hx _ _ _ first, ih⟩

theorem Rolling.exists_repeats {x : Rolling σ ε α} {lives : σ → Prop}
    (h : ∀ s, lives s → ∃ a t, x s = (.ok a, t) ∧ lives t) (count : Nat) {s : σ} (hs : lives s) :
    ∃ results t, x.Repeats s results t ∧ results.length = count := by
  induction count generalizing s with
  | zero => exact ⟨[], s, .nil s, rfl⟩
  | succ count ih =>
    obtain ⟨a, t, hfirst, ht⟩ := h s hs
    obtain ⟨results, u, hrest, hlength⟩ := ih ht
    exact ⟨a :: results, u, .cons hfirst hrest, congrArg Nat.succ hlength⟩

theorem Rolling.Repeats.unique {x : Rolling σ ε α} {s t t' : σ} {results results' : List α}
    (h : x.Repeats s results t) (h' : x.Repeats s results' t')
    (hlength : results.length = results'.length) :
    results = results' ∧ t = t' := by
  induction h generalizing results' with
  | nil s =>
    cases h' with
    | nil => exact ⟨rfl, rfl⟩
    | cons => cases hlength
  | cons first _ ih =>
    cases h' with
    | nil => cases hlength
    | cons first' rest' =>
      rw [first] at first'
      cases first'
      obtain ⟨rfl, rfl⟩ := ih rest' (Nat.succ.inj hlength)
      exact ⟨rfl, rfl⟩

inductive Passes (visits : Number → σ → List Number → σ → Prop) :
    List Number → σ → List Place → σ → Prop
  | nil (s : σ) : Passes visits [] s [] s
  | cons {a : Number} {values throws : List Number} {places : List Place} {s t u : σ}
      (first : visits a s throws t) (rest : Passes visits values t places u) :
      Passes visits (a :: values) s (⟨a, throws⟩ :: places) u

namespace Passes

variable {visits : Number → σ → List Number → σ → Prop} {values : List Number}
  {places : List Place} {s t : σ}

theorem map_before (h : Passes visits values s places t) : places.map Place.before = values := by
  induction h with
  | nil s => rfl
  | cons _ _ ih => rw [List.map_cons, ih]

theorem forall_places {P : Place → Prop} (h : Passes visits values s places t)
    (hvisit : ∀ {a s throws t}, visits a s throws t → P ⟨a, throws⟩) : ∀ p ∈ places, P p := by
  induction h with
  | nil s => exact List.forall_mem_nil _
  | cons first _ ih => exact List.forall_mem_cons.mpr ⟨hvisit first, ih⟩

theorem repeats {throw : Rolling σ Fault Number} (h : Passes visits values s places t)
    (hvisit : ∀ {a s throws t}, visits a s throws t → throw.Repeats s throws t) :
    throw.Repeats s (places.flatMap Place.throws) t := by
  induction h with
  | nil s => exact .nil s
  | cons first _ ih => exact (hvisit first).append ih

theorem foldlM_eq {step : Visited → Number → Rolling σ Fault Visited}
    (h : Passes visits values s places t)
    (hstep : ∀ p ∈ places, ∀ v s t, visits p.before s p.throws t →
      step v p.before s = (.ok (v.pass p), t))
    (v : Visited) : values.foldlM step v s = (.ok (places.foldl Visited.pass v), t) := by
  induction h generalizing v with
  | nil s => rfl
  | cons first _ ih =>
    obtain ⟨hfirst, hrest⟩ := List.forall_mem_cons.mp hstep
    rw [List.foldlM_cons, Rolling.bind_apply, hfirst v _ _ first]
    exact ih hrest _

end Passes

theorem exists_passes {visits : Number → σ → List Number → σ → Prop} {lives : σ → Prop}
    (h : ∀ a s, lives s → ∃ throws t, visits a s throws t ∧ lives t) (values : List Number) {s : σ}
    (hs : lives s) :
    ∃ places t, Passes visits values s places t := by
  induction values generalizing s with
  | nil => exact ⟨[], s, .nil s⟩
  | cons a values ih =>
    obtain ⟨throws, t, hfirst, ht⟩ := h a s hs
    obtain ⟨places, u, hrest⟩ := ih ht
    exact ⟨⟨a, throws⟩ :: places, u, .cons hfirst hrest⟩

theorem Die.check_of_throwable {die : Die} (h : die.Throwable) : die.check = .ok () := by
  cases die with
  | sides count => exact if_neg (Int.not_lt.mpr h)
  | faces values =>
    cases values with
    | nil => exact absurd rfl h
    | cons a rest => rfl

namespace Source

variable {source : Source σ} {die : Die} {s t : σ} {a : Number}

theorem throwDie_sides (source : Source σ) {count : Int} (h : (Die.sides count).Throwable) :
    source.throwDie (.sides count) = do return .int (← source.uniformInt 1 count) := by
  rw [throwDie, Die.check_of_throwable h]
  rfl

theorem throwDie_faces (source : Source σ) {values : Faces} (h : (Die.faces values).Throwable) :
    source.throwDie (.faces values) = do return values.get (← source.pickIndex values.length) := by
  cases values with
  | nil => exact absurd rfl h
  | cons a rest => rfl

theorem isInteger_of_throwDie (hdie : die.Integral) (h : source.throwDie die s = (.ok a, t)) :
    a.isInteger = true := by
  have hprepends : Rolling.Prepends (source.throwDie die) (source.recorded.throwDie die) :=
    prepends_throwDie die
  obtain ⟨made, hrecorded⟩ := hprepends s
  have hthrow := hrecorded []
  rw [h] at hthrow
  obtain ⟨draw, -, hshows⟩ := throwDie_recorded hthrow
  exact hdie.isInteger hshows

theorem isInteger_of_repeats (hdie : die.Integral) {throws : List Number}
    (h : Rolling.Repeats (source.throwDie die) s throws t) : ∀ a ∈ throws, a.isInteger = true :=
  h.forall_results fun _ _ _ => isInteger_of_throwDie hdie

/-- From this state on the source answers whenever it is asked for something that is there. -/
def Willing (source : Source σ) (s : σ) : Prop :=
  ∃ lives : σ → Prop, lives s ∧ ∀ s, lives s →
    (∀ low high, low ≤ high → ∃ n t, source.uniformInt low high s = (.ok n, t) ∧ lives t) ∧
    ∀ count, 0 < count → ∃ i t, source.pickIndex count s = (.ok i, t) ∧ lives t

theorem Willing.throwDie (h : source.Willing s) (hdie : die.Throwable) :
    ∃ a t, source.throwDie die s = (.ok a, t) ∧ source.Willing t := by
  obtain ⟨lives, hs, hlives⟩ := h
  cases die with
  | sides count =>
    obtain ⟨n, t, hdraw, ht⟩ := (hlives s hs).1 1 count hdie
    refine ⟨.int n, t, ?_, lives, ht, hlives⟩
    rw [throwDie_sides source hdie, Rolling.bind_apply, hdraw]
    rfl
  | faces values =>
    obtain ⟨i, t, hdraw, ht⟩ := (hlives s hs).2 values.length (List.length_pos_iff.mpr hdie)
    refine ⟨values.get i, t, ?_, lives, ht, hlives⟩
    rw [throwDie_faces source hdie, Rolling.bind_apply, hdraw]
    rfl

/-- A value thrown once if it fires, and left alone otherwise. -/
inductive Rethrows (throw : Rolling σ Fault Number) (fires : Number → Bool) :
    Number → σ → List Number → σ → Prop
  | stays {a : Number} (s : σ) (h : fires a = false) : Rethrows throw fires a s [] s
  | thrown {a b : Number} {s t : σ} (h : fires a = true) (hthrow : throw s = (.ok b, t)) :
    Rethrows throw fires a s [b] t

variable {fires : Number → Bool} {throws : List Number}

theorem Rethrows.rerollStep_eq (h : Rethrows (source.throwDie die) fires a s throws t)
    (v : Visited) :
    source.rerollStep die fires v a s = (.ok (v.pass ⟨a, throws⟩), t) := by
  cases h with
  | stays _ h =>
    rw [rerollStep, h]
    rfl
  | thrown h hthrow =>
    rw [rerollStep, if_pos h, Rolling.bind_apply, hthrow]
    rfl

theorem Rethrows.repeats {throw : Rolling σ Fault Number} (h : Rethrows throw fires a s throws t) :
    throw.Repeats s throws t := by
  cases h with
  | stays _ h => exact .nil s
  | thrown h hthrow => exact .cons hthrow (.nil t)

theorem Rethrows.length_eq {throw : Rolling σ Fault Number}
    (h : Rethrows throw fires a s throws t) :
    throws.length = if fires a then 1 else 0 := by
  cases h with
  | stays _ h => rw [h]; rfl
  | thrown h hthrow => rw [h]; rfl

theorem Willing.exists_rethrows (h : source.Willing s) (hdie : die.Throwable)
    (fires : Number → Bool) (a : Number) :
    ∃ throws t, Rethrows (source.throwDie die) fires a s throws t ∧ source.Willing t := by
  cases hfires : fires a with
  | false => exact ⟨[], s, .stays s hfires, h⟩
  | true =>
    obtain ⟨b, t, hthrow, ht⟩ := h.throwDie hdie
    exact ⟨[b], t, .thrown hfires hthrow, ht⟩

end Source

theorem Script.willing {patience : Nat} {script : Script} (h : script.thereafter.isSome = true) :
    (Script.source patience).Willing script := by
  refine ⟨fun s => s.thereafter.isSome = true, h, fun s hs =>
    ⟨fun low high _ => ?_, fun count hcount => ?_⟩⟩
  · obtain ⟨answers, thereafter, picks, pick⟩ := s
    obtain ⟨n, rfl⟩ := Option.isSome_iff_exists.mp hs
    cases answers with
    | nil => exact ⟨n, _, rfl, rfl⟩
    | cons answer answers => exact ⟨answer, _, rfl, rfl⟩
  · have hpick : (Script.source patience).pickIndex count s =
        (.ok ⟨min s.nextPick.1 (count - 1), by omega⟩, s.nextPick.2) := dif_pos hcount
    refine ⟨_, _, hpick, ?_⟩
    obtain ⟨answers, thereafter, picks, pick⟩ := s
    cases picks <;> exact hs

namespace Place

variable {fires : Number → Bool} {places : List Place}

theorem once_split (h : ∀ p ∈ places, p.throws.length = if fires p.before then 1 else 0) :
    (places.flatMap throws).length = (places.map before).countP fires ∧
      places.flatMap aside = (places.map before).filter fires ∧
      (places.map after).Perm ((places.map before).filter (!fires ·) ++ places.flatMap throws) := by
  induction places with
  | nil => exact ⟨rfl, rfl, .refl _⟩
  | cons p places ih =>
    obtain ⟨hp, hplaces⟩ := List.forall_mem_cons.mp h
    obtain ⟨hcount, haside, hafter⟩ := ih hplaces
    obtain ⟨a, throws⟩ := p
    cases hfires : fires a with
    | false =>
      rw [hfires] at hp
      obtain rfl : throws = [] := List.length_eq_zero_iff.mp hp
      refine ⟨?_, ?_, ?_⟩
      · simpa [hfires] using hcount
      · simpa [hfires, aside] using haside
      · simpa [hfires, after] using hafter
    | true =>
      rw [hfires] at hp
      obtain ⟨b, rfl⟩ := List.length_eq_one_iff.mp hp
      refine ⟨?_, ?_, ?_⟩
      · simpa [hfires, Nat.add_comm] using hcount
      · simpa [hfires, aside] using haside
      · -- The throw stands before those of the other places, and behind all values that stay.
        simpa [hfires, after] using (hafter.cons b).trans List.perm_middle.symm

end Place

namespace Roll

/-- A roll after its places were visited: the stories begin with its values, in their order. -/
structure Rerolled (r : Roll) (places : List Place) (r' : Roll) : Prop where
  die : r'.die = r.die
  unsuspended : r'.suspended = false
  before : places.map Place.before = r.values
  values : r'.values.Perm (places.map Place.after)
  ascending : r'.values.Pairwise fun a b => a.le b = true
  discards : r'.discards = r.discards ++ places.flatMap Place.aside

variable {r : Roll} {places : List Place}

theorem Rerolled.length_eq {r' : Roll} (h : r.Rerolled places r') :
    r'.values.length = r.values.length := by
  rw [h.values.length_eq, List.length_map, ← h.before, List.length_map]

theorem isInteger_after (hvalues : ∀ a ∈ r.values, a.isInteger = true)
    (hbefore : places.map Place.before = r.values)
    (hthrows : ∀ a ∈ places.flatMap Place.throws, a.isInteger = true) :
    ∀ p ∈ places, p.after.isInteger = true := by
  intro p hp
  obtain hstays | hthrown := List.mem_cons.mp p.after_mem
  · rw [hstays]
    exact hvalues _ (hbefore ▸ List.mem_map_of_mem hp)
  · exact hthrows _ (List.mem_flatMap_of_mem hp hthrown)

theorem rerolled_afterVisit
    (hsuspended : r.suspended = false) (hvalues : ∀ a ∈ r.values, a.isInteger = true)
    (hbefore : places.map Place.before = r.values)
    (hthrows : ∀ a ∈ places.flatMap Place.throws, a.isInteger = true) :
    r.Rerolled places (r.afterVisit (places.foldl Visited.pass ⟨[], []⟩)) := by
  have hvisit : r.afterVisit (places.foldl Visited.pass ⟨[], []⟩) =
      settle { r with
        values := places.map Place.after
        discards := r.discards ++ places.flatMap Place.aside } := by
    simp [afterVisit, Visited.foldl_pass]
  rw [hvisit]
  refine ⟨settle_die _, (settle_suspended _).trans hsuspended, hbefore, settle_perm _, ?_,
    settle_discards _⟩
  rw [settle, hsuspended]
  exact sort_ascending (List.forall_mem_map.mpr (isInteger_after hvalues hbefore hthrows))

theorem rerollOnce_of_visit {source : Source σ} {trigger : Trigger} {target : Number}
    {v : Visited} {s t : σ}
    (h : source.rerollOnce r.die (trigger.fires target) r.values ⟨[], []⟩ s = (.ok v, t)) :
    r.rerollOnce source trigger target s = (.ok (r.afterVisit v), t) := by
  simp only [rerollOnce, Bind.bind, Rolling.bind, h]
  rfl

/-- A reroll that gives every value one more chance, with a source that answers, one that counts its
draws included. It throws once for each value that fires, in the order of the values, and keeps what
was thrown even if that fires too. -/
theorem rerollOnce_each_once (source : Source σ) (r : Roll) (trigger : Trigger) (target : Int)
    (s : σ) (hr : r.Orderly) (hdie : r.die.Throwable) (hsource : source.Willing s) :
    let fires := trigger.fires (.int target)
    ∃ places r' t, r.rerollOnce source trigger (.int target) s = (.ok r', t) ∧
      Work.onCopy r (Work.rerollOnce source trigger (.int target)) s = (.ok r', t) ∧
      Rolling.Repeats (source.throwDie r.die) s (places.flatMap Place.throws) t ∧
      r.Rerolled places r' ∧
      (∀ p ∈ places, p.throws.length = if fires p.before then 1 else 0) ∧
      (places.flatMap Place.throws).length = r.values.countP fires ∧
      r'.values.Perm (r.values.filter (!fires ·) ++ places.flatMap Place.throws) ∧
      r'.discards = r.discards ++ r.values.filter fires ∧
      (r.values.filter fires).Pairwise fun a b => a.le b = true := by
  intro fires
  obtain ⟨places, t, hpasses⟩ :=
    exists_passes (fun a _ hs => Source.Willing.exists_rethrows hs hdie fires a) r.values hsource
  have hrepeats := hpasses.repeats Source.Rethrows.repeats
  have honce : ∀ p ∈ places, p.throws.length = if fires p.before then 1 else 0 :=
    hpasses.forall_places Source.Rethrows.length_eq
  have hrerolled := rerolled_afterVisit hr.unsuspended hr.integers hpasses.map_before
    (Source.isInteger_of_repeats hr.integral hrepeats)
  have hvisit : source.rerollOnce r.die fires r.values ⟨[], []⟩ s =
      (.ok (places.foldl Visited.pass ⟨[], []⟩), t) := by
    rw [Source.rerollOnce_eq_foldlM]
    exact hpasses.foldlM_eq (fun p _ v s t h => h.rerollStep_eq v) _
  have hroll := rerollOnce_of_visit hvisit
  obtain ⟨hcount, haside, hafter⟩ := Place.once_split honce
  rw [hpasses.map_before] at hcount haside hafter
  exact ⟨places, _, t, hroll,
    (congrFun (Work.onCopy_rerollOnce r source trigger (.int target)) s).trans hroll,
    hrepeats, hrerolled, honce, hcount, hrerolled.values.trans hafter, haside ▸ hrerolled.discards,
    hr.ascending.filter _⟩

theorem rerollOnce_each_once_three :
    ∃ r', (Roll.mk [.int 2, .int 3, .int 3, .int 6] (.sides 6) [.int 5] false).rerollOnce
      (Script.source 0) .equal
        (.int 3) ⟨[3, 1], some 4, [], 0⟩ = (.ok r', ⟨[], some 4, [], 0⟩) ∧
      r'.values.Perm [.int 2, .int 6, .int 3, .int 1] ∧
      (r'.values.Pairwise fun a b => a.le b = true) ∧
      r'.discards = [.int 5, .int 3, .int 3] := by
  have hwilling : (Script.source 0).Willing ⟨[3, 1], some 4, [], 0⟩ := Script.willing rfl
  obtain ⟨places, r', t, hroll, -, hrepeats, hrerolled, -, hcount, hperm, hdiscards, -⟩ :=
    rerollOnce_each_once (Script.source 0)
      ⟨[.int 2, .int 3, .int 3, .int 6], .sides 6, [.int 5], false⟩ .equal 3
      ⟨[3, 1], some 4, [], 0⟩ ⟨by decide, by decide, rfl, trivial⟩
      (Die.throwable_of_check rfl) hwilling
  have hlength : (places.flatMap Place.throws).length = 2 := hcount
  generalize places.flatMap Place.throws = throws at hrepeats hlength hperm
  obtain _ | ⟨first, _ | ⟨second, _ | ⟨third, _⟩⟩⟩ := hrepeats
  · cases hlength
  · cases hlength
  · cases first
    cases second
    exact ⟨r', hroll, hperm, hrerolled.ascending, hdiscards⟩
  · cases hlength

end Roll

end DiceFormula
