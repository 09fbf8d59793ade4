import DiceFormula.Proofs.Editing
import DiceFormula.Proofs.Recording
import DiceFormula.Tree.Evaluate

/-! Operators that change a copy of a roll place by place. Every access checks its index or its
range, and sorting is suspended meanwhile. The outcome, the draws and the faults are the same as
when the values are gone through as a list, so that no check ever fails. -/
namespace DiceFormula

variable {σ α β : Type}

abbrev Work (σ α : Type) : Type := Rolling (σ × Roll) Fault α

namespace Work

def edit (change : Roll.Edit α) : Work σ α := fun w =>
  let done := change w.2
  (done.1, w.1, done.2)

def chance (x : Rolling σ Fault α) : Work σ α := fun w =>
  let done := x w.1
  (done.1, done.2, w.2)

def roll : Work σ Roll := fun w => (.ok w.2, w)

def suspended (work : Work σ Unit) : Work σ Unit := fun w =>
  let done := work (w.1, w.2.suspend.1)
  (done.1, done.2.1, done.2.2.resume w.2.suspend.2)

def eachFrom (visit : Nat → Work σ Unit) (i : Nat) : Nat → Work σ Unit
  | 0 => pure ()
  | left + 1 => do visit i; eachFrom visit (i + 1) left

def each (visit : Nat → Work σ Unit) : Work σ Unit := do
  eachFrom visit 0 (← roll).values.length

def onCopy (r : Roll) (work : Work σ Unit) : Rolling σ Fault Roll := fun s =>
  match work (s, r) with
  | (.ok (), t, changed) => (.ok changed, t)
  | (.error fault, t, _) => (.error fault, t)

def keepLowest (count : Int) : Work σ Unit := do
  let size := (← roll).values.length
  if count.toNat < size then edit (.discardRange count.toNat size)

def keepHighest (count : Int) : Work σ Unit := do
  let size := (← roll).values.length
  if count.toNat < size then edit (.discardRange 0 (size - count.toNat))

def clampAt (fails : Number → Bool) (bound : Number) (i : Nat) : Work σ Unit := do
  if fails (← edit (.value i)) then edit (.replace i bound)

def rethrow (source : Source σ) (i : Nat) : Work σ Unit := do
  let thrown ← chance (source.throwDie (← roll).die)
  edit (.replace i thrown)

def rerollAt (source : Source σ) (fires : Number → Bool) (i : Nat) : Work σ Unit := do
  if fires (← edit (.value i)) then rethrow source i

def settleAt (source : Source σ) (fires : Number → Bool) (i : Nat) : Nat → Work σ Unit
  | 0 => do if fires (← edit (.value i)) then Rolling.fail .patienceEnded
  | trials + 1 => do
    if fires (← edit (.value i)) then do
      rethrow source i
      settleAt source fires i trials

def keep (side : End) (count : Int) : Work σ Unit :=
  match side with
  | .low => keepLowest count
  | .high => keepHighest count

def clamp (side : End) (bound : Number) : Work σ Unit :=
  match side with
  | .low => suspended (each (clampAt (·.lt bound) bound))
  | .high => suspended (each (clampAt (bound.lt ·) bound))

def rerollOnce (source : Source σ) (trigger : Trigger) (target : Number) : Work σ Unit :=
  suspended (each (rerollAt source (trigger.fires target)))

def rerollUntil (source : Source σ) (trigger : Trigger) (target : Number) : Work σ Unit :=
  suspended (each (settleAt source (trigger.fires target) · source.patience))

end Work

namespace Operator

def keepInPlace (side : End) (left right : Value) : Rolling σ Fault Roll := do
  let r ← left.roll? (.kept side)
  let count ← right.integer? .keepCount
  Work.onCopy r (Work.keep side count)

def clampInPlace (side : End) (left right : Value) : Rolling σ Fault Roll := do
  let r ← left.roll? (.clamped side)
  let bound ← right.number? (.bound side)
  Work.onCopy r (Work.clamp side bound)

def rerollInPlace (source : Source σ) (pace : Pace) (trigger : Trigger) (left right : Value) :
    Rolling σ Fault Roll := do
  let r ← left.roll? (.rerolled pace trigger)
  let target ← right.number? .rerollTarget
  match pace with
  | .once => Work.onCopy r (Work.rerollOnce source trigger target)
  | .untilSettled => do
    r.die.check
    if ← Roll.endless r.die trigger target then
      Rolling.fail (.endlessReroll trigger r.die target)
    else Work.onCopy r (Work.rerollUntil source trigger target)

def actInPlace (source : Source σ) (op : Operator) (left right : Value) : Rolling σ Fault Value :=
  match op with
  | .keep side => do return .roll (← keepInPlace side left right)
  | .clamp side => do return .roll (← clampInPlace side left right)
  | .rerollEqual pace => do return .roll (← rerollInPlace source pace .equal left right)
  | .rerollBeyond pace side _ => do
    return .roll (← rerollInPlace source pace (trigger side) left right)
  | _ => op.act source left right

def applyInPlace (source : Source σ) (op : Operator) (left right : Option Value) :
    Rolling σ Fault Value := do
  let a ← operand op.takesLeft op.summed.hasLeft (.missingLeft op) left
  let b ← operand op.takesRight op.summed.hasRight (.missingRight op) right
  op.actInPlace source a b

end Operator

namespace Visited

/-- The roll when some of its values were visited and the others were not yet. -/
def midway (v : Visited) (r : Roll) (rest : List Number) : Roll :=
  { r with
    values := v.kept.reverse ++ rest
    discards := r.discards ++ v.aside.reverse
    suspended := true }

variable (v : Visited) (r : Roll) (a b : Number) (rest : List Number)

theorem midway_keep : (v.keep a).midway r rest = v.midway r (a :: rest) := by
  simp [midway, keep]

theorem value_midway :
    Roll.Edit.value v.kept.length (v.midway r (a :: rest)) = (.ok a, v.midway r (a :: rest)) := by
  have hvalue : (v.midway r (a :: rest)).values[v.kept.length]? = some a := by
    simp [midway]
  rw [Roll.Edit.value, hvalue]

theorem replace_midway :
    Roll.Edit.replace v.kept.length b (v.midway r (a :: rest)) =
      (.ok (), (v.putAside a).midway r (b :: rest)) := by
  have hindex : v.kept.length < (v.midway r (a :: rest)).values.length := by simp [midway]
  have hfront : (v.kept.reverse ++ a :: rest).take v.kept.length = v.kept.reverse :=
    List.take_left' v.kept.length_reverse
  have hback : (v.kept.reverse ++ a :: rest).drop (v.kept.length + 1) = rest := by
    rw [← List.drop_drop, List.drop_left' v.kept.length_reverse, List.drop_one, List.tail_cons]
  have hvalue :
      ((v.kept.reverse ++ a :: rest).take (v.kept.length + 1)).drop v.kept.length = [a] := by
    rw [List.drop_take, List.drop_left' v.kept.length_reverse, Nat.add_sub_cancel_left,
      List.take_one]
    rfl
  rw [Roll.Edit.replace, Roll.Edit.checkIndex_bind, if_pos hindex]
  simp only [Rolling.bind_apply, Roll.Edit.putAside, Roll.Edit.splice, Roll.Edit.modify,
    Roll.range, midway, hfront, hback, hvalue, Roll.settle, if_true, putAside, List.reverse_cons,
    List.append_assoc, List.cons_append, List.nil_append]

end Visited

namespace Work

variable {r : Roll}

theorem onCopy_ok {work : Work σ Unit} {s t : σ} {changed : Roll}
    (h : work (s, r) = (.ok (), t, changed)) :
    onCopy r work s = (.ok changed, t) := by rw [onCopy, h]

theorem onCopy_bind_ok {work : Work σ α} {next : α → Work σ Unit} {s t : σ} {a : α} {changed : Roll}
    (h : work (s, r) = (.ok a, t, changed)) :
    onCopy r (work >>= next) s = onCopy changed (next a) t := by
  rw [onCopy, Rolling.bind_apply, h]
  rfl

theorem onCopy_bind_error {work : Work σ α} {next : α → Work σ Unit} {s t : σ} {fault : Fault}
    {left : Roll} (h : work (s, r) = (.error fault, t, left)) :
    onCopy r (work >>= next) s = (.error fault, t) := by
  rw [onCopy, Rolling.bind_apply, h]

theorem onCopy_suspended (work : Work σ Unit) :
    onCopy r (suspended work) =
      do return (← onCopy { r with suspended := true } work).resume r.suspended := by
  funext s
  rw [Rolling.bind_apply]
  unfold onCopy suspended
  dsimp only [Roll.suspend]
  rcases work (s, { r with suspended := true }) with ⟨_ | _, t, changed⟩ <;> rfl

theorem edit_ok {change : Roll.Edit α} {changed : Roll} {a : α}
    (h : change r = (.ok a, changed)) (s : σ) :
    edit change (s, r) = (.ok a, s, changed) := by
  rw [edit, h]

/-- What a visit ends with when a step on the visited values ends so: the roll is midway again, with
one more value visited, or the same fault has broken off the visit. -/
inductive Agrees (r : Roll) (rest : List Number) (visited : Nat) :
    Except Fault Visited × σ → Except Fault Unit × σ × Roll → Prop
  | ok {v : Visited} {t : σ} (length : v.kept.length = visited) :
    Agrees r rest visited (.ok v, t) (.ok (), t, v.midway r rest)
  | error {fault : Fault} {t : σ} {left : Roll} :
    Agrees r rest visited (.error fault, t) (.error fault, t, left)

def Follows (r : Roll) (visit : Nat → Work σ Unit)
    (step : Visited → Number → Rolling σ Fault Visited) : Prop :=
  ∀ v a rest s, Agrees r rest (v.kept.length + 1) (step v a s)
    (visit v.kept.length (s, v.midway r (a :: rest)))

variable {visit : Nat → Work σ Unit} {step : Visited → Number → Rolling σ Fault Visited}

theorem Follows.onCopy_eachFrom (h : Follows r visit step) (rest : List Number)
    (v : Visited) (s : σ) :
    onCopy (v.midway r rest) (eachFrom visit v.kept.length rest.length) s =
      (do return (← rest.foldlM step v).midway r []) s := by
  induction rest generalizing v s with
  | nil => rfl
  | cons a rest ih =>
    rw [List.foldlM_cons, List.length_cons, eachFrom, Rolling.bind_apply, Rolling.bind_apply]
    -- The place visited next is always the number of values visited so far.
    have hturn := h v a rest s
    generalize hvisit : visit v.kept.length (s, v.midway r (a :: rest)) = visited at hturn
    generalize step v a s = stepped at hturn ⊢
    cases hturn with
    | ok hlength => rw [onCopy_bind_ok hvisit, ← hlength, ih, Rolling.bind_apply]
    | error => rw [onCopy_bind_error hvisit]

theorem Follows.onCopy_each (h : Follows r visit step) :
    onCopy r (suspended (each visit)) =
      do return r.afterVisit (← r.values.foldlM step ⟨[], []⟩) := by
  have hstart : { r with suspended := true } = (⟨[], []⟩ : Visited).midway r r.values := by
    simp [Visited.midway]
  have hresume (v : Visited) : (v.midway r []).resume r.suspended = r.afterVisit v := by
    rw [Visited.midway, List.append_nil]
    rfl
  funext s
  have hloop := h.onCopy_eachFrom r.values ⟨[], []⟩ s
  have heach : onCopy { r with suspended := true } (each visit) s =
      onCopy { r with suspended := true } (eachFrom visit 0 r.values.length) s := rfl
  rw [onCopy_suspended, Rolling.bind_apply, heach, hstart]
  rw [List.length_nil] at hloop
  rw [hloop, Rolling.bind_apply, Rolling.bind_apply]
  rcases r.values.foldlM step ⟨[], []⟩ s with ⟨_ | v, t⟩
  · rfl
  · exact congrArg (fun changed => ((.ok changed, t) : Except Fault Roll × σ)) (hresume v)

theorem value_bind (v : Visited) (a : Number) (rest : List Number)
    (next : Number → Work σ α) (s : σ) :
    (edit (.value v.kept.length) >>= next) (s, v.midway r (a :: rest)) =
      next a (s, v.midway r (a :: rest)) := by
  rw [Rolling.bind_apply, edit_ok (v.value_midway r a rest)]

theorem edit_replace (v : Visited) (a b : Number) (rest : List Number) (s : σ) :
    edit (.replace v.kept.length b) (s, v.midway r (a :: rest)) =
      (.ok (), s, (v.putAside a).midway r (b :: rest)) :=
  edit_ok (v.replace_midway r a b rest) s

theorem clampAt_follows (fails : Number → Bool) (bound : Number) :
    Follows r (clampAt fails bound : Nat → Work σ Unit) fun v a =>
      pure (if fails a then (v.putAside a).keep bound else v.keep a) := by
  intro v a rest s
  rw [clampAt, value_bind]
  dsimp only
  split
  · rw [edit_replace, ← Visited.midway_keep]
    exact .ok rfl
  · rw [← Visited.midway_keep]
    exact .ok rfl

variable {source : Source σ} {fires : Number → Bool}

theorem rethrow_apply (i : Nat) (s : σ) (w : Roll) :
    rethrow source i (s, w) =
      (chance (source.throwDie w.die) >>= fun thrown => edit (.replace i thrown)) (s, w) := rfl

theorem rethrow_ok {v : Visited} {a b : Number} {s t : σ} (h : source.throwDie r.die s = (.ok b, t))
    (rest : List Number) : rethrow source v.kept.length (s, v.midway r (a :: rest)) =
      (.ok (), t, (v.putAside a).midway r (b :: rest)) := by
  have hdie : (v.midway r (a :: rest)).die = r.die := rfl
  rw [rethrow_apply, Rolling.bind_apply, chance, hdie, h]
  exact edit_replace v a b rest t

theorem rethrow_error {v : Visited} {a : Number} {s t : σ} {fault : Fault}
    (h : source.throwDie r.die s = (.error fault, t)) (rest : List Number) :
    rethrow source v.kept.length (s, v.midway r (a :: rest)) =
      (.error fault, t, v.midway r (a :: rest)) := by
  have hdie : (v.midway r (a :: rest)).die = r.die := rfl
  rw [rethrow_apply, Rolling.bind_apply, chance, hdie, h]

theorem rerollAt_follows : Follows r (rerollAt source fires) (source.rerollStep r.die fires) := by
  intro v a rest s
  rw [rerollAt, value_bind, Source.rerollStep]
  split
  · rw [Rolling.bind_apply]
    rcases hthrow : source.throwDie r.die s with ⟨fault | b, t⟩
    · rw [rethrow_error hthrow]
      exact .error
    · rw [rethrow_ok hthrow, ← Visited.midway_keep]
      exact .ok rfl
  · rw [← Visited.midway_keep]
    exact .ok rfl

theorem settleAt_agrees (trials : Nat) (v : Visited) (a : Number) (rest : List Number) (s : σ) :
    Agrees r rest (v.kept.length + 1) (source.rerollValue r.die fires trials a v s)
      (settleAt source fires v.kept.length trials (s, v.midway r (a :: rest))) := by
  induction trials generalizing v a s with
  | zero =>
    rw [settleAt, value_bind, Source.rerollValue]
    split
    · exact .error
    · rw [← Visited.midway_keep]
      exact .ok rfl
  | succ trials ih =>
    rw [settleAt, value_bind, Source.rerollValue]
    split
    · rw [Rolling.bind_apply]
      rcases hthrow : source.throwDie r.die s with ⟨fault | b, t⟩
      · rw [rethrow_error hthrow]
        exact .error
      · -- The place stays the same: a value was put aside, and none was kept yet.
        rw [rethrow_ok hthrow]
        exact ih (v.putAside a) b t
    · rw [← Visited.midway_keep]
      exact .ok rfl

theorem settleAt_follows :
    Follows r (settleAt source fires · source.patience) (source.settleStep r.die fires) :=
  settleAt_agrees source.patience

theorem foldlM_clamp (fails : Number → Bool) (bound : Number) (values : List Number) (v : Visited) :
    values.foldlM (fun v a => pure (if fails a then (v.putAside a).keep bound else v.keep a)) v =
      (pure ⟨(values.map fun a => if fails a then bound else a).reverse ++ v.kept,
        (values.filter fails).reverse ++ v.aside⟩ : Rolling σ Fault Visited) := by
  induction values generalizing v with
  | nil => rfl
  | cons a rest ih =>
    rw [List.foldlM_cons]
    refine (ih _).trans ?_
    by_cases hfails : fails a <;> simp [hfails, Visited.keep, Visited.putAside]

variable (r)

theorem edit_discardRange {first last : Nat} (hfirst : first ≤ last)
    (hlast : last ≤ r.values.length) (s : σ) :
    edit (.discardRange first last) (s, r) = (.ok (), s, { r with
      values := r.values.take first ++ r.values.drop last
      discards := r.discards ++ r.range first last }) := by
  refine edit_ok ?_ s
  rw [Roll.Edit.discardRange, Roll.Edit.checkRange_bind, if_pos ⟨hfirst, hlast⟩,
    ← List.append_nil (r.values.take first)]
  rfl

theorem keepLowest_apply (count : Int) (s : σ) :
    keepLowest count (s, r) = (.ok (), s, r.keepLowest count) := by
  rw [keepLowest, Rolling.bind_apply, roll]
  dsimp only
  split
  · next hless =>
    rw [edit_discardRange r (Nat.le_of_lt hless) (Nat.le_refl _)]
    simp [Roll.keepLowest, Roll.range]
  · -- A count as large as the roll takes nothing away, and no range is checked.
    next hall =>
    have hkept : r.values.take count.toNat = r.values := List.take_of_length_le (Nat.not_lt.mp hall)
    have hrest : r.values.drop count.toNat = [] := List.drop_eq_nil_of_le (Nat.not_lt.mp hall)
    rw [Roll.keepLowest, hkept, hrest, List.append_nil]
    rfl

theorem keepHighest_apply (count : Int) (s : σ) :
    keepHighest count (s, r) = (.ok (), s, r.keepHighest count) := by
  rw [keepHighest, Rolling.bind_apply, roll]
  dsimp only
  split
  · rw [edit_discardRange r (Nat.zero_le _) (Nat.sub_le _ _)]
    simp [Roll.keepHighest, Roll.range]
  · next hall =>
    have hnone : r.values.length - count.toNat = 0 := Nat.sub_eq_zero_of_le (Nat.not_lt.mp hall)
    rw [Roll.keepHighest, hnone, List.drop_zero, List.take_zero, List.append_nil]
    rfl

theorem onCopy_clamp (fails : Number → Bool) (bound : Number) :
    onCopy r (suspended (each (clampAt fails bound))) =
      (pure (r.clampWhere fails bound) : Rolling σ Fault Roll) := by
  rw [(clampAt_follows fails bound).onCopy_each, foldlM_clamp]
  funext s
  rw [Rolling.bind_apply]
  simp [Roll.afterVisit, Roll.clampWhere]

theorem onCopy_rerollOnce (source : Source σ) (trigger : Trigger) (target : Number) :
    onCopy r (rerollOnce source trigger target) = r.rerollOnce source trigger target := by
  rw [rerollOnce, rerollAt_follows.onCopy_each, ← Source.rerollOnce_eq_foldlM]
  rfl

theorem onCopy_rerollUntil (source : Source σ) (trigger : Trigger) (target : Number) :
    onCopy r (rerollUntil source trigger target) =
      do return r.afterVisit (← (source.rerollUntil r.die (trigger.fires target) r.values ⟨[], []⟩ :
        Rolling σ Fault Visited)) := by
  rw [rerollUntil, settleAt_follows.onCopy_each, ← Source.rerollUntil_eq_foldlM]

end Work

theorem Rolling.lift_bind {ε : Type} (x : Except ε α) (f : α → Except ε β) :
    (liftM (x >>= f) : Rolling σ ε β) = liftM x >>= fun a => liftM (f a) := by
  cases x <;> rfl

namespace Operator

variable (source : Source σ) (left right : Value)

theorem keepInPlace_eq (side : End) :
    keepInPlace side left right = (liftM (keepDice side left right) : Rolling σ Fault Roll) := by
  rw [keepInPlace, keepDice, Rolling.lift_bind]
  refine bind_congr fun r => ?_
  rw [Rolling.lift_bind]
  refine bind_congr fun count => funext fun s => ?_
  cases side with
  | low => exact Work.onCopy_ok (Work.keepLowest_apply r count s)
  | high => exact Work.onCopy_ok (Work.keepHighest_apply r count s)

theorem clampInPlace_eq (side : End) :
    clampInPlace side left right = (liftM (clampDice side left right) : Rolling σ Fault Roll) := by
  rw [clampInPlace, clampDice, Rolling.lift_bind]
  refine bind_congr fun r => ?_
  rw [Rolling.lift_bind]
  refine bind_congr fun bound => ?_
  cases side with
  | low => exact Work.onCopy_clamp r (·.lt bound) bound
  | high => exact Work.onCopy_clamp r (bound.lt ·) bound

theorem rerollInPlace_eq (pace : Pace) (trigger : Trigger) :
    rerollInPlace source pace trigger left right = reroll source pace trigger left right := by
  refine bind_congr fun r => bind_congr fun target => ?_
  cases pace with
  | once => exact Work.onCopy_rerollOnce r source trigger target
  | untilSettled =>
    refine bind_congr fun _ => bind_congr fun endless => ?_
    split
    · rfl
    · exact Work.onCopy_rerollUntil r source trigger target

theorem actInPlace_eq (op : Operator) :
    op.actInPlace source left right = op.act source left right := by
  cases op with
  | keep side => rw [actInPlace, act, keepInPlace_eq]
  | clamp side => rw [actInPlace, act, clampInPlace_eq]
  | rerollEqual pace => rw [actInPlace, act, rerollInPlace_eq]
  | rerollBeyond pace side spelling => rw [actInPlace, act, rerollInPlace_eq]
  | _ => rfl

end Operator

theorem Operator.applyInPlace_eq (source : Source σ) (op : Operator) (left right : Option Value) :
    op.applyInPlace source left right = op.apply source left right :=
  bind_congr fun a => bind_congr fun b => op.actInPlace_eq source a b

namespace Tree

def runBy (apply : Operator → Option Value → Option Value → Rolling σ Fault Value) :
    Tree → σ → Except Fault (Option Value) × Tree × σ
  | .empty, s => (.ok none, .empty, s)
  | .leaf content _, s => (.ok (some content.value), .leaf content (some content.value), s)
  | .node op left right known, s =>
    match runBy apply left s with
    | (.error fault, left, s) => (.error fault, .node op left right known, s)
    | (.ok a, left, s) =>
      match runBy apply right s with
      | (.error fault, right, s) => (.error fault, .node op left right known, s)
      | (.ok b, right, s) =>
        match apply op a b s with
        | (.error fault, s) => (.error fault, .node op left right known, s)
        | (.ok v, s) => (.ok (some v), .node op left right (some v), s)

theorem runBy_apply (source : Source σ) (t : Tree) (s : σ) :
    t.runBy (·.apply source) s = t.run source s := by
  induction t generalizing s with
  | empty => rfl
  | leaf content known => rfl
  | node op left right known ihLeft ihRight =>
    simp only [runBy, ihLeft, ihRight]
    rfl

def evaluateBy (apply : Operator → Option Value → Option Value → Rolling σ Fault Value)
    (t : Tree) (s : σ) :
    Except Failure Number × Tree × σ :=
  match runBy apply t s with
  | (.error fault, t, s) => (.error (.evaluation fault), t, s)
  | (.ok v, t, s) =>
    match totalOf v with
    | .ok a => (.ok a, t, s)
    | .error fault => (.error (.evaluation fault), t, s)

def evaluateInPlace (source : Source σ) : Tree → σ → Except Failure Number × Tree × σ :=
  evaluateBy (·.applyInPlace source)

/-- The checks of places change nothing. -/
theorem evaluateInPlace_eq (source : Source σ) (t : Tree) (s : σ) :
    t.evaluateInPlace source s = t.evaluate source s := by
  have happly : (fun op : Operator => op.applyInPlace source) = fun op => op.apply source :=
    funext fun op => funext fun a => funext fun b => op.applyInPlace_eq source a b
  rw [evaluateInPlace, happly, evaluateBy, runBy_apply]
  rfl

end Tree

end DiceFormula
