import DiceFormula.Proofs.InPlace

/-! What is asked of a source of chance. A source can keep a note of every request, refused ones
included. Whatever is computed with it asks for integers from one to some count of sides, or for one
of some places, and never comes to a fault of its own checks, unless the source itself answers with
such a fault. -/
namespace DiceFormula

variable {σ α β : Type}

/-- Faults of checks that guard against misuse from inside, and not against anything that a formula
says. -/
def Fault.isGuard : Fault → Bool
  | .missingLeft _ | .missingRight _ | .wrongArity _ => true
  | .indexOutside _ | .rangeOutside _ _ | .lengthsDiffer => true
  | .emptyChoice | .emptyInterval _ _ => true
  | _ => false

inductive Request
  | uniform (low high : Int)
  | pick (count : Nat)
deriving DecidableEq

def Request.Sane : Request → Prop
  | .uniform low high => low = 1 ∧ 1 ≤ high
  | .pick count => 1 ≤ count

instance : (request : Request) → Decidable request.Sane
  | .uniform low high => inferInstanceAs (Decidable (low = 1 ∧ 1 ≤ high))
  | .pick count => inferInstanceAs (Decidable (1 ≤ count))

structure Note where
  request : Request
  refusal : Option Fault
deriving DecidableEq

def refusal : Except Fault α → Option Fault
  | .ok _ => none
  | .error fault => some fault

def Source.noted (source : Source σ) : Source (σ × List Note) where
  uniformInt low high := fun w =>
    let answer := source.uniformInt low high w.1
    (answer.1, answer.2, ⟨.uniform low high, refusal answer.1⟩ :: w.2)
  pickIndex count := fun w =>
    let answer := source.pickIndex count w.1
    (answer.1, answer.2, ⟨.pick count, refusal answer.1⟩ :: w.2)
  patience := source.patience

def Plain (r : Except Fault α) : Prop := ∀ fault, r = .error fault → fault.isGuard = false

theorem plain_ok (a : α) : Plain (.ok a) := fun _ h => by cases h

theorem plain_error {fault : Fault} (h : fault.isGuard = false) :
    Plain (.error fault : Except Fault α) := by
  intro fault' heq
  cases heq
  exact h

theorem Plain.bind {x : Except Fault α} {f : α → Except Fault β} (hx : Plain x)
    (hf : ∀ a, Plain (f a)) :
    Plain (x >>= f) := by
  cases x with
  | ok a => exact hf a
  | error fault => exact plain_error (hx fault rfl)

theorem Plain.ite {p : Prop} [Decidable p] {x y : Except Fault α} (hx : Plain x) (hy : Plain y) :
    Plain (if p then x else y) := by
  split
  · exact hx
  · exact hy

namespace Number

theorem plain_ofReal (x : Binary64) : Plain (ofReal x) := (plain_error rfl).ite (plain_ok _)

theorem plain_exactOr (exact : Traced (Option Int)) (real : Unit → Binary64) :
    Plain (exactOr exact real).value := by
  rw [exactOr, Traced.value_bind]
  split
  · exact plain_ok _
  · exact plain_ofReal _

variable (a b : Number)

theorem plain_add : Plain (a.add b) := by
  unfold add addTraced
  split
  · exact plain_exactOr _ _
  · exact plain_ofReal _

theorem plain_sub : Plain (a.sub b) := by
  unfold sub subTraced
  split
  · exact plain_exactOr _ _
  · exact plain_ofReal _

theorem plain_mul : Plain (a.mul b) := by
  unfold mul mulTraced
  split
  · exact plain_exactOr _ _
  · exact plain_ofReal _

theorem plain_div : Plain (a.div b) := (plain_error rfl).ite (plain_ofReal _)

theorem plain_mod : Plain (a.mod b) := by
  unfold mod modTraced
  split
  · exact plain_error rfl
  · split
    · exact plain_ok _
    · exact plain_ofReal _

theorem plain_power : Plain (a.power b) := by
  unfold power powerTraced
  split
  · exact plain_error rfl
  · split
    · split
      · exact plain_exactOr _ _
      · exact plain_ofReal _
    · exact plain_ofReal _

theorem plain_risingProduct (next : Int) (factors : Nat) :
    Plain (risingProduct a next factors).value := by
  induction factors generalizing a next with
  | zero => exact plain_ok a
  | succ factors ih =>
    rw [risingProduct, Traced.value_bind]
    split
    · next product _ => exact ih product (next + 1)
    · next fault hfault => exact plain_error (plain_mul a (.int next) fault hfault)

theorem plain_factorial (n : Int) : Plain (factorial n) := by
  unfold factorial factorialTraced
  split
  · exact plain_error rfl
  · split
    · exact plain_error rfl
    · exact plain_risingProduct _ _ _

theorem plain_sumFrom (values : List Number) : Plain (sumFrom a values) := by
  induction values generalizing a with
  | nil => exact plain_ok a
  | cons first rest ih =>
    rw [sumFrom]
    split
    · next next _ => exact ih next
    · next fault hfault => exact plain_error (plain_add a first fault hfault)

end Number

namespace Value

variable (v : Value) (role : Role)

theorem plain_total : Plain v.total := by
  cases v with
  | number a => exact plain_ok a
  | faces values => exact Number.plain_sumFrom _ values
  | roll r => exact Number.plain_sumFrom _ r.values

theorem plain_roll? : Plain (v.roll? role) := by
  unfold roll?
  split
  · exact plain_ok _
  · exact plain_error rfl

theorem plain_number? : Plain (v.number? role) := by
  unfold number?
  split
  · exact plain_ok _
  · exact plain_error rfl

theorem plain_integer? : Plain (v.integer? role) := by
  refine (plain_number? v role).bind fun a => ?_
  split
  · exact plain_ok _
  · exact plain_error rfl

theorem plain_die? (rollIsFaces : Bool) : Plain (v.die? rollIsFaces) := by
  unfold die?
  split
  · exact plain_ok _
  · next r =>
    refine (plain_ok _).ite ((Number.plain_sumFrom _ r.values).bind fun total => ?_)
    split
    · exact plain_ok _
    · exact plain_error rfl
  · exact (plain_integer? _ _).bind fun _ => plain_ok _

end Value

namespace Die

variable (die : Die)

theorem plain_check : Plain die.check := by
  unfold check
  split
  · exact plain_error rfl
  · exact plain_ok _
  · exact (plain_error rfl).ite (plain_ok _)

theorem plain_minimum : Plain die.minimum := by
  unfold minimum
  split
  · exact plain_ok _
  · exact plain_error rfl

theorem plain_maximum : Plain die.maximum := by
  unfold maximum
  split
  · exact plain_ok _
  · exact plain_error rfl

theorem plain_average : Plain die.average := by
  cases die with
  | faces values => exact (Number.plain_sumFrom _ values).bind fun _ => Number.plain_div _ _
  | sides count => exact Number.plain_div (.int (Word.wrapped (count + 1))) (.int 2)

end Die

namespace Roll

theorem plain_diceCount (count : Int) : Plain (diceCount count) :=
  (plain_error rfl).ite (plain_ok _)

theorem plain_maximum (count : Int) (die : Die) : Plain (maximum count die) :=
  (plain_diceCount count).bind fun _ => die.plain_check.bind fun _ =>
    die.plain_maximum.bind fun _ => plain_ok _

theorem plain_average (count : Int) (die : Die) : Plain (average count die) :=
  (plain_diceCount count).bind fun _ => die.plain_check.bind fun _ =>
    die.plain_average.bind fun _ => plain_ok _

theorem plain_endless (die : Die) (trigger : Trigger) (target : Number) :
    Plain (endless die trigger target) := by
  cases trigger with
  | equal => exact die.plain_minimum.bind fun _ => die.plain_maximum.bind fun _ => plain_ok _
  | below => exact die.plain_maximum.bind fun _ => plain_ok _
  | above => exact die.plain_minimum.bind fun _ => plain_ok _

end Roll

namespace Operator

variable (left right : Value)

theorem plain_keepDice (side : End) : Plain (keepDice side left right) := by
  refine (left.plain_roll? _).bind fun r => (right.plain_integer? _).bind fun count => ?_
  cases side <;> exact plain_ok _

theorem plain_clampDice (side : End) : Plain (clampDice side left right) := by
  refine (left.plain_roll? _).bind fun r => (right.plain_number? _).bind fun bound => ?_
  cases side <;> exact plain_ok _

theorem plain_judgeDice (side : End) : Plain (judgeDice side left right) := by
  refine (left.plain_roll? _).bind fun r => (right.plain_integer? _).bind fun threshold => ?_
  cases side <;> exact plain_ok _

theorem plain_numbers (leftRole rightRole : Role) : Plain (numbers leftRole rightRole left right) :=
  (left.plain_number? _).bind fun _ => (right.plain_number? _).bind fun _ => plain_ok _

theorem plain_arithmetic (op : Operator) : Plain (op.arithmetic left right) := by
  cases op with
  | factorial => exact (left.plain_integer? _).bind fun n => Number.plain_factorial n
  | negate => exact (right.plain_number? _).bind fun _ => plain_ok _
  | affirm => exact right.plain_number? _
  | power => exact (plain_numbers left right _ _).bind fun _ => Number.plain_power _ _
  | multiply => exact (plain_numbers left right _ _).bind fun _ => Number.plain_mul _ _
  | divide => exact (plain_numbers left right _ _).bind fun _ => Number.plain_div _ _
  | modulo => exact (plain_numbers left right _ _).bind fun _ => Number.plain_mod _ _
  | subtract => exact (plain_numbers left right _ _).bind fun _ => Number.plain_sub _ _
  | add => exact (plain_numbers left right _ _).bind fun _ => Number.plain_add _ _
  | _ => exact (plain_numbers left right _ _).bind fun _ => plain_ok _

theorem plain_operand {taken summed : Bool} {missing : Fault} {given : Option Value}
    (h : taken = true → given.isSome = true) : Plain (operand taken summed missing given) := by
  cases taken with
  | false => exact plain_ok _
  | true =>
    obtain ⟨v, rfl⟩ := Option.isSome_iff_exists.mp (h rfl)
    cases summed with
    | true => exact v.plain_total.bind fun _ => plain_ok _
    | false => exact plain_ok _

end Operator

/-- Every request was a sane one, and a guard's fault is one that the source refused with. -/
structure Heeded (notes : List Note) (r : Except Fault α) : Prop where
  sane : ∀ note ∈ notes, note.request.Sane
  refused : ∀ fault, r = .error fault → fault.isGuard = true →
    ∃ note ∈ notes, note.refusal = some fault

theorem Plain.heeded {r : Except Fault α} (h : Plain r) : Heeded [] r where
  sane note hnote := absurd hnote List.not_mem_nil
  refused fault hfault hguard := absurd hguard (by rw [h fault hfault]; exact Bool.false_ne_true)

theorem Heeded.append {notes notes' : List Note} {r : Except Fault α} {r' : Except Fault β}
    (h : Heeded notes r) (h' : Heeded notes' r') : Heeded (notes' ++ notes) r' where
  sane note hnote := (List.mem_append.mp hnote).elim (h'.sane note) (h.sane note)
  refused fault hfault hguard := by
    obtain ⟨note, hnote, hrefusal⟩ := h'.refused fault hfault hguard
    exact ⟨note, List.mem_append_left _ hnote, hrefusal⟩

theorem Heeded.error {notes : List Note} {fault : Fault}
    (h : Heeded notes (.error fault : Except Fault α)) :
    Heeded notes (.error fault : Except Fault β) where
  sane := h.sane
  refused fault' heq := by
    cases heq
    exact h.refused fault rfl

namespace Rolling

def Careful (x : Rolling σ Fault α) (y : Rolling (σ × List Note) Fault α) : Prop :=
  ∀ s notes, ∃ added, y (s, notes) = ((x s).1, (x s).2, added ++ notes) ∧ Heeded added (x s).1

variable {x : Rolling σ Fault α} {y : Rolling (σ × List Note) Fault α}

theorem careful_of {r : Except Fault α} (h : Plain r) : Careful (of r : Rolling σ Fault α) (of r) :=
  fun _ _ => ⟨[], rfl, h.heeded⟩

theorem careful_lift {r : Except Fault α} (h : Plain r) :
    Careful (liftM r : Rolling σ Fault α) (liftM r) :=
  careful_of h

theorem careful_pure (a : α) : Careful (pure a : Rolling σ Fault α) (pure a) :=
  careful_of (plain_ok a)

theorem careful_fail {fault : Fault} (h : fault.isGuard = false) :
    Careful (fail fault : Rolling σ Fault α) (fail fault) := careful_of (plain_error h)

theorem Careful.bind {f : α → Rolling σ Fault β} {g : α → Rolling (σ × List Note) Fault β}
    (h : Careful x y) (hnext : ∀ a, Careful (f a) (g a)) : Careful (x >>= f) (y >>= g) := by
  intro s notes
  obtain ⟨added, hy, hadded⟩ := h s notes
  rw [bind_apply, bind_apply, hy]
  generalize x s = done at hadded
  match done with
  | (.ok a, t) =>
    obtain ⟨added', hg, hadded'⟩ := hnext a t (added ++ notes)
    refine ⟨added' ++ added, ?_, hadded.append hadded'⟩
    rw [List.append_assoc]
    exact hg
  | (.error fault, t) => exact ⟨added, rfl, hadded.error⟩

theorem Careful.ite {x' : Rolling σ Fault α} {y' : Rolling (σ × List Note) Fault α} {p : Prop}
    [Decidable p] (h : Careful x y) (h' : Careful x' y') :
    Careful (if p then x else x') (if p then y else y') := by
  split
  · exact h
  · exact h'

theorem Careful.map {f : α → β} (h : Careful x y) :
    Careful (do return f (← x) : Rolling σ Fault β) (do return f (← y)) :=
  h.bind fun _ => careful_pure _

theorem Careful.foldlM {f : β → α → Rolling σ Fault β} {g : β → α → Rolling (σ × List Note) Fault β}
    (h : ∀ b a, Careful (f b a) (g b a)) (values : List α) (b : β) :
    Careful (values.foldlM f b) (values.foldlM g b) := by
  induction values generalizing b with
  | nil => exact careful_pure b
  | cons a rest ih =>
    rw [List.foldlM_cons, List.foldlM_cons]
    exact (h b a).bind ih

end Rolling

open Rolling

namespace Source

variable {source : Source σ}

theorem heeded_request {request : Request} (h : request.Sane) (r : Except Fault α) :
    Heeded [⟨request, refusal r⟩] r where
  sane note hnote := by
    rw [List.mem_singleton.mp hnote]
    exact h
  refused fault hfault _ := ⟨_, List.mem_singleton_self _, by rw [hfault]; rfl⟩

theorem careful_uniformInt {high : Int} (h : 1 ≤ high) :
    Careful (source.uniformInt 1 high) (source.noted.uniformInt 1 high) :=
  have hsane : (Request.uniform 1 high).Sane := ⟨rfl, h⟩
  fun _ _ => ⟨[_], rfl, heeded_request hsane _⟩

theorem careful_pickIndex {count : Nat} (h : 1 ≤ count) :
    Careful (source.pickIndex count) (source.noted.pickIndex count) :=
  have hsane : (Request.pick count).Sane := h
  fun _ _ => ⟨[_], rfl, heeded_request hsane _⟩

theorem careful_throwDie (die : Die) :
    Careful (source.throwDie die) (source.noted.throwDie die) := by
  cases die with
  | faces values =>
    cases values with
    | nil => exact careful_fail rfl
    | cons a rest => exact (careful_pickIndex (Nat.succ_pos rest.length)).map
  | sides count =>
    have hthrow {τ : Type} (source : Source τ) : source.throwDie (.sides count) =
        if count < 1 then Rolling.fail (.noSides count) else do
            return .int (← source.uniformInt 1 count) := by
      rw [throwDie, Die.check]
      split <;> rfl
    -- The check comes first, so that nothing is asked of an empty interval.
    rw [hthrow, hthrow]
    split
    · exact careful_fail rfl
    · next hsides => exact (careful_uniformInt (Int.not_lt.mp hsides)).map

theorem careful_throwDice (die : Die) (count : Nat) (thrown : List Number) :
    Careful (source.throwDice die count thrown) (source.noted.throwDice die count thrown) := by
  induction count generalizing thrown with
  | zero => exact careful_pure _
  | succ count ih =>
    rw [throwDice_succ, throwDice_succ]
    exact (careful_throwDie die).bind fun a => ih (a :: thrown)

variable {die : Die} {fires : Number → Bool}

theorem careful_rerollValue (trials : Nat) (a : Number) (v : Visited) :
    Careful (source.rerollValue die fires trials a v)
      (source.noted.rerollValue die fires trials a v) := by
  induction trials generalizing a v with
  | zero =>
    rw [rerollValue_zero, rerollValue_zero]
    exact (careful_fail rfl).ite (careful_pure _)
  | succ trials ih =>
    rw [rerollValue_succ, rerollValue_succ]
    exact ((careful_throwDie die).bind fun b => ih b (v.putAside a)).ite (careful_pure _)

theorem careful_rerollOnce (values : List Number) (v : Visited) :
    Careful (source.rerollOnce die fires values v)
      (source.noted.rerollOnce die fires values v) := by
  rw [rerollOnce_eq_foldlM, rerollOnce_eq_foldlM]
  exact Careful.foldlM (fun _ _ => (careful_throwDie die).map.ite (careful_pure _)) values v

theorem careful_rerollUntil (values : List Number) (v : Visited) :
    Careful (source.rerollUntil die fires values v)
      (source.noted.rerollUntil die fires values v) := by
  rw [rerollUntil_eq_foldlM, rerollUntil_eq_foldlM]
  exact Careful.foldlM (fun v a => careful_rerollValue _ a v) values v

end Source

namespace Roll

variable {source : Source σ} (r : Roll) (trigger : Trigger) (target : Number)

theorem careful_rerollOnce :
    Careful (r.rerollOnce source trigger target) (r.rerollOnce source.noted trigger target) :=
  (Source.careful_rerollOnce r.values _).map

theorem careful_rerollUntil :
    Careful (r.rerollUntil source trigger target) (r.rerollUntil source.noted trigger target) := by
  refine (careful_lift r.die.plain_check).bind fun _ => ?_
  refine (careful_lift (plain_endless r.die trigger target)).bind fun endless => ?_
  exact (careful_fail rfl).ite (Source.careful_rerollUntil r.values _).map

theorem careful_throwMany (count : Nat) (die : Die) :
    Careful (throwMany source count die) (throwMany source.noted count die) :=
  (careful_lift die.plain_check).bind fun _ => (Source.careful_throwDice die count []).map

end Roll

namespace Operator

variable {source : Source σ} (left right : Value)

theorem careful_throwDice (throw : Throw) :
    Careful (throwDice source throw left right) (throwDice source.noted throw left right) := by
  refine (careful_lift (left.plain_integer? _)).bind fun count => ?_
  cases throw with
  | plain | critical =>
    exact (careful_lift (right.plain_die? _)).bind fun die =>
      (careful_lift (Roll.plain_diceCount count)).bind fun dice => Roll.careful_throwMany _ die
  | average =>
    exact (careful_lift (right.plain_die? _)).bind fun die =>
      careful_lift (Roll.plain_average count die)
  | maximum =>
    exact (careful_lift (right.plain_die? _)).bind fun die =>
      careful_lift (Roll.plain_maximum count die)

theorem careful_reroll (pace : Pace) (trigger : Trigger) :
    Careful (reroll source pace trigger left right)
      (reroll source.noted pace trigger left right) := by
  refine (careful_lift (left.plain_roll? _)).bind fun r =>
    (careful_lift (right.plain_number? _)).bind fun target => ?_
  cases pace with
  | once => exact r.careful_rerollOnce trigger target
  | untilSettled => exact r.careful_rerollUntil trigger target

theorem careful_act (op : Operator) :
    Careful (op.act source left right) (op.act source.noted left right) := by
  cases op with
  | dice throw => exact (careful_throwDice left right throw).map
  | rerollEqual pace => exact (careful_reroll left right pace .equal).map
  | rerollBeyond pace side spelling => exact (careful_reroll left right pace (trigger side)).map
  | keep side => exact (careful_lift (plain_keepDice left right side)).map
  | clamp side => exact (careful_lift (plain_clampDice left right side)).map
  | threshold side => exact (careful_lift (plain_judgeDice left right side)).map
  | _ => exact (careful_lift (plain_arithmetic left right _)).map

theorem careful_apply {op : Operator} {left right : Option Value}
    (hleft : op.takesLeft = true → left.isSome = true)
    (hright : op.takesRight = true → right.isSome = true) :
    Careful (op.apply source left right) (op.apply source.noted left right) :=
  (careful_lift (plain_operand hleft)).bind fun a =>
    (careful_lift (plain_operand hright)).bind fun b => careful_act a b op

end Operator

end DiceFormula
