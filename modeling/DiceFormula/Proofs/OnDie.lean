import DiceFormula.Proofs.Capping
import DiceFormula.Proofs.Gathering
import DiceFormula.Proofs.Kinds

/-! Values that stay on their die. A source that keeps to the bounds of a request makes every throw
show a face, and so does the maximum of a die. Keeping some values of a roll puts the others aside,
and throwing values again asks for the same die, so that nothing but faces comes into a roll, to
either of its lists, along a chain of such operators. -/
namespace DiceFormula

variable {σ ε α β : Type}

def Rolling.Gives (P : α → Prop) (x : Rolling σ ε α) : Prop := ∀ s a t, x s = (.ok a, t) → P a

namespace Rolling

variable {P : α → Prop} {Q : β → Prop} {x y : Rolling σ ε α} {f : α → Rolling σ ε β}

theorem gives_of {r : Except ε α} (h : ∀ a, r = .ok a → P a) : Gives P (of r : Rolling σ ε α) :=
  fun _ a _ hr => h a (Prod.mk.inj hr).1

theorem gives_pure {a : α} (h : P a) : Gives P (pure a : Rolling σ ε α) :=
  gives_of fun _ ha => by
    cases ha
    exact h

theorem gives_fail (e : ε) : Gives P (fail e : Rolling σ ε α) := gives_of fun _ h => by cases h

theorem Gives.bind (h : Gives P x) (hnext : ∀ a, P a → Gives Q (f a)) : Gives Q (x >>= f) := by
  intro s b t hb
  obtain ⟨a, s₁, ha, hb⟩ := bind_eq_ok hb
  exact hnext a (h s a s₁ ha) s₁ b t hb

theorem Gives.map {g : α → β} (h : Gives P x) (hg : ∀ a, P a → Q (g a)) :
    Gives Q (do return g (← x)) :=
  h.bind fun a ha => gives_pure (hg a ha)

theorem gives_bind (hnext : ∀ a, Gives Q (f a)) : Gives Q (x >>= f) :=
  Gives.bind (fun _ _ _ _ => trivial : Gives (fun _ => True) x) fun a _ => hnext a

theorem Gives.ite {p : Prop} [Decidable p] (hx : Gives P x) (hy : Gives P y) :
    Gives P (if p then x else y) := by
  split
  · exact hx
  · exact hy

theorem Gives.foldlM {step : β → α → Rolling σ ε β} {values : List α}
    (h : ∀ b, Q b → ∀ a ∈ values, Gives Q (step b a)) {b : β} (hb : Q b) :
    Gives Q (values.foldlM step b) := by
  induction values generalizing b with
  | nil => exact gives_pure hb
  | cons a values ih =>
    rw [List.foldlM_cons]
    exact (h b hb a List.mem_cons_self).bind fun c hc =>
      ih (fun b hb a ha => h b hb a (List.mem_cons_of_mem _ ha)) hc

end Rolling

open Rolling

namespace Die

variable {die : Die} {a : Number}

theorem gives_check (die : Die) :
    Gives (fun _ => die.Throwable) (liftM die.check : Rolling σ Fault Unit) :=
  gives_of fun _ => throwable_of_check

theorem largest_mem (best : Number) (values : List Number) :
    largest best values ∈ best :: values := by
  induction values generalizing best with
  | nil => exact List.mem_singleton_self _
  | cons a values ih =>
    rw [largest]
    split
    · exact List.mem_cons_of_mem _ (ih a)
    · exact List.cons_subset_cons best (List.subset_cons_self a values) (ih best)

theorem hasFace_maximum (hdie : die.Throwable) (h : die.maximum = .ok a) : die.HasFace a := by
  cases die with
  | sides count =>
    cases h
    exact ⟨count, rfl, hdie, Int.le_refl count⟩
  | faces values =>
    cases values with
    | nil => cases h
    | cons best values =>
      cases h
      exact largest_mem best values

end Die

namespace Visited

def OnDie (die : Die) (v : Visited) : Prop := ∀ a ∈ v.kept ++ v.aside, die.HasFace a

variable {die : Die} {v : Visited} {a : Number}

theorem onDie_start (die : Die) : OnDie die ⟨[], []⟩ := List.forall_mem_nil _

theorem OnDie.keep (h : v.OnDie die) (ha : die.HasFace a) : (v.keep a).OnDie die :=
  List.forall_mem_cons.mpr ⟨ha, h⟩

theorem OnDie.putAside (h : v.OnDie die) (ha : die.HasFace a) : (v.putAside a).OnDie die := by
  obtain ⟨hkept, haside⟩ := List.forall_mem_append.mp h
  exact List.forall_mem_append.mpr ⟨hkept, List.forall_mem_cons.mpr ⟨ha, haside⟩⟩

end Visited

namespace Source

variable {source : Source σ} {die : Die} {fires : Number → Bool} {values : List Number}
  {v : Visited}

theorem Honest.throwDie (h : source.Honest) (die : Die) :
    Gives die.HasFace (source.throwDie die) := by
  refine die.gives_check.bind fun _ hdie => ?_
  cases die with
  | sides count =>
    exact Gives.map (fun s n t hdraw => h 1 count s n t hdie hdraw) fun n hn => ⟨n, rfl, hn⟩
  | faces values =>
    refine Gives.ite (gives_fail _) (gives_bind fun i => gives_pure ?_)
    exact List.get_mem values i

theorem Honest.rerollOnce (h : source.Honest) (hvalues : ∀ a ∈ values, die.HasFace a)
    (hv : v.OnDie die) :
    Gives (Visited.OnDie die) (source.rerollOnce die fires values v) := by
  rw [rerollOnce_eq_foldlM]
  refine Gives.foldlM (fun v hv a ha => ?_) hv
  have hface := hvalues a ha
  exact ((h.throwDie die).map fun b hb => (hv.putAside hface).keep hb).ite
    (gives_pure (hv.keep hface))

theorem Honest.rerollValue (h : source.Honest) (trials : Nat) {a : Number} (ha : die.HasFace a)
    (hv : v.OnDie die) :
    Gives (Visited.OnDie die) (source.rerollValue die fires trials a v) := by
  induction trials generalizing a v with
  | zero =>
    rw [rerollValue_zero]
    exact Gives.ite (gives_fail _) (gives_pure (hv.keep ha))
  | succ trials ih =>
    rw [rerollValue_succ]
    exact ((h.throwDie die).bind fun b hb => ih hb (hv.putAside ha)).ite (gives_pure (hv.keep ha))

theorem Honest.rerollUntil (h : source.Honest) (hvalues : ∀ a ∈ values, die.HasFace a)
    (hv : v.OnDie die) :
    Gives (Visited.OnDie die) (source.rerollUntil die fires values v) := by
  rw [rerollUntil_eq_foldlM]
  exact Gives.foldlM (fun v hv a ha => h.rerollValue source.patience (hvalues a ha) hv) hv

end Source

namespace Roll

/-- The values are faces of the die, and so are those that were put aside. -/
def OnDie (r : Roll) : Prop := ∀ a ∈ r.values ++ r.discards, r.die.HasFace a

variable {source : Source σ} {die : Die} {r : Roll}

theorem OnDie.values (h : r.OnDie) : ∀ a ∈ r.values, r.die.HasFace a :=
  (List.forall_mem_append.mp h).1

theorem onDie_ofValues {values : List Number} (h : ∀ a ∈ values, die.HasFace a) :
    (ofValues values die).OnDie :=
  List.forall_mem_append.mpr ⟨fun a ha => h a (mem_ofValues.mp ha), List.forall_mem_nil _⟩

theorem throwMany_onDie (h : source.Honest) (count : Nat) (die : Die) :
    Gives OnDie (throwMany source count die) := by
  intro s r t hroll
  obtain ⟨throws, -, hrepeats, rfl⟩ := throwMany_eq_ok hroll
  exact onDie_ofValues (hrepeats.forall_results (h.throwDie die))

theorem maximum_onDie {count : Int} (h : maximum count die = .ok r) : r.OnDie := by
  obtain ⟨dice, -, h⟩ := exists_of_bind_eq_ok h
  obtain ⟨_, hcheck, h⟩ := exists_of_bind_eq_ok h
  obtain ⟨a, hmaximum, h⟩ := exists_of_bind_eq_ok h
  cases h
  have hface : die.HasFace a := Die.hasFace_maximum (Die.throwable_of_check hcheck) hmaximum
  refine onDie_ofValues fun b hb => ?_
  rwa [List.eq_of_mem_replicate hb]

theorem OnDie.of_perm (h : r.OnDie) {kept aside : List Number}
    (hperm : (kept ++ aside).Perm r.values) :
    OnDie { r with values := kept, discards := r.discards ++ aside } := by
  intro a ha
  have hbalance : (kept ++ (r.discards ++ aside)).Perm (r.values ++ r.discards) := by
    refine List.Perm.trans ?_ (hperm.append_right r.discards)
    rw [List.append_assoc]
    exact List.perm_append_comm.append_left kept
  exact h a (hbalance.mem_iff.mp ha)

theorem OnDie.keepLowest (h : r.OnDie) (count : Int) : (r.keepLowest count).OnDie := by
  refine h.of_perm ?_
  rw [List.take_append_drop]

theorem OnDie.keepHighest (h : r.OnDie) (count : Int) : (r.keepHighest count).OnDie := by
  refine h.of_perm (List.perm_append_comm.trans ?_)
  rw [List.take_append_drop]

theorem OnDie.afterVisit (h : r.OnDie) {v : Visited} (hv : v.OnDie r.die) :
    (r.afterVisit v).OnDie := by
  obtain ⟨hkept, haside⟩ := List.forall_mem_append.mp hv
  obtain ⟨-, hdiscards⟩ := List.forall_mem_append.mp h
  rw [OnDie, Roll.afterVisit, settle_die, settle_discards, List.forall_mem_append,
    List.forall_mem_append]
  exact ⟨fun a ha => hkept a (mem_afterVisit ha), hdiscards, fun a ha =>
    haside a (List.mem_reverse.mp ha)⟩

variable {trigger : Trigger} {target : Number}

theorem OnDie.rerollOnce (h : r.OnDie) (hsource : source.Honest) :
    Gives OnDie (r.rerollOnce source trigger target) :=
  (hsource.rerollOnce h.values (Visited.onDie_start r.die)).map fun _ hv => h.afterVisit hv

theorem OnDie.rerollUntil (h : r.OnDie) (hsource : source.Honest) :
    Gives OnDie (r.rerollUntil source trigger target) := by
  refine gives_bind fun _ => gives_bind fun _ => Gives.ite (gives_fail _) ?_
  exact (hsource.rerollUntil h.values (Visited.onDie_start r.die)).map fun _ hv => h.afterVisit hv

end Roll

def Value.OnDie (v : Value) : Prop := ∃ r, v = .roll r ∧ r.OnDie

namespace Operator

def throwsFaces : Operator → Bool
  | .dice .average => false
  | .dice _ => true
  | _ => false

def passesFaces : Operator → Bool
  | .keep _ | .rerollEqual _ | .rerollBeyond _ _ _ => true
  | _ => false

theorem editsRoll_of_passesFaces {op : Operator} (h : op.passesFaces = true) :
    op.editsRoll = true := by
  cases op with
  | keep | rerollEqual | rerollBeyond => rfl
  | _ => cases h

variable {source : Source σ} {op : Operator} {r : Roll}

theorem throwDice_onDie (hsource : source.Honest) {throw : Throw} (hthrow : throw ≠ .average)
    (left right : Value) :
    Gives Roll.OnDie (throwDice source throw left right) := by
  refine gives_bind fun count => ?_
  cases throw with
  | plain | critical =>
    exact gives_bind fun die => gives_bind fun dice => Roll.throwMany_onDie hsource _ die
  | average => exact absurd rfl hthrow
  | maximum => exact gives_bind fun die => gives_of fun _ => Roll.maximum_onDie

theorem keepDice_onDie (hr : r.OnDie) (side : End) (right : Value) :
    Gives Roll.OnDie (liftM (keepDice side (.roll r) right) : Rolling σ Fault Roll) := by
  refine gives_of fun r' h => ?_
  obtain ⟨count, -, h⟩ :=
    exists_of_bind_eq_ok (show right.integer? .keepCount >>= _ = .ok r' from h)
  cases side with
  | low =>
    cases h
    exact hr.keepLowest count
  | high =>
    cases h
    exact hr.keepHighest count

theorem reroll_onDie (hsource : source.Honest) (hr : r.OnDie) (pace : Pace) (trigger : Trigger)
    (right : Value) :
    Gives Roll.OnDie (reroll source pace trigger (.roll r) right) := by
  refine Gives.bind (gives_of fun _ => Value.roll?_eq_ok) fun r' hr' => gives_bind fun target => ?_
  obtain rfl : r = r' := Value.roll.inj hr'
  cases pace with
  | once => exact hr.rerollOnce hsource
  | untilSettled => exact hr.rerollUntil hsource

theorem act_onDie (hsource : source.Honest) (hop : op.passesFaces = true) (hr : r.OnDie)
    (right : Value) :
    Gives Value.OnDie (op.act source (.roll r) right) := by
  have hvalue (r' : Roll) (hr' : r'.OnDie) : (Value.roll r').OnDie := ⟨r', rfl, hr'⟩
  cases op with
  | keep side => exact (keepDice_onDie hr side right).map hvalue
  | rerollEqual pace => exact (reroll_onDie hsource hr pace .equal right).map hvalue
  | rerollBeyond pace side spelling =>
    exact (reroll_onDie hsource hr pace (trigger side) right).map hvalue
  | _ => cases hop

theorem apply_onDie_of_throws (hsource : source.Honest) (hop : op.throwsFaces = true)
    (left right : Option Value) :
    Gives Value.OnDie (op.apply source left right) := by
  refine gives_bind fun a => gives_bind fun b => ?_
  cases op with
  | dice throw =>
    have hthrow : throw ≠ .average := by
      rintro rfl
      cases hop
    exact (throwDice_onDie hsource hthrow a b).map fun r hr => ⟨r, rfl, hr⟩
  | _ => cases hop

theorem apply_onDie_of_passes (hsource : source.Honest) (hop : op.passesFaces = true) {v : Value}
    (hv : v.OnDie) (right : Option Value) : Gives Value.OnDie (op.apply source (some v) right) := by
  obtain ⟨r, rfl, hr⟩ := hv
  obtain ⟨harity, hsummed⟩ := sides_of_editsRoll (editsRoll_of_passesFaces hop)
  rw [apply, takesLeft, harity, hsummed]
  refine Gives.bind (gives_of fun _ => operand_unsummed) fun a ha => gives_bind fun b => ?_
  obtain rfl : Value.roll r = a := Option.some.inj ha
  exact act_onDie hsource hop hr b

end Operator

namespace Tree

variable {source : Source σ} {s s' : σ} {t u : Tree} {a : Number}

/-- Dice that are not thrown at their average, or what is kept of such dice or thrown again. -/
def showsFaces : Tree → Bool
  | .node op left _ _ => op.throwsFaces || op.passesFaces && left.showsFaces
  | _ => false

theorem Settled.nodes (h : t.Settled source) : ∀ node ∈ t.nodes, node.Settled source := by
  induction t with
  | empty => exact List.forall_mem_nil _
  | leaf content known => exact List.forall_mem_singleton.mpr h
  | node op left right known ihleft ihright =>
    exact forall_nodes_node.mpr ⟨h, ihleft h.2.1, ihright h.2.2⟩

theorem Settled.onDie (hsource : source.Honest) (h : t.Settled source)
    (hshows : t.showsFaces = true) :
    ∃ v, t.known = some v ∧ v.OnDie := by
  induction t with
  | empty | leaf => cases hshows
  | node op left right known ihleft _ =>
    obtain ⟨⟨v, s, s', happly, hknown⟩, hleft, -⟩ := h
    refine ⟨v, hknown, ?_⟩
    obtain hthrows | hpasses := Bool.or_eq_true_iff.mp hshows
    · exact Operator.apply_onDie_of_throws hsource hthrows _ _ s v s' happly
    · obtain ⟨hop, hchain⟩ := Bool.and_eq_true_iff.mp hpasses
      obtain ⟨w, hw, honDie⟩ := ihleft hleft hchain
      rw [hw] at happly
      exact Operator.apply_onDie_of_passes hsource hop honDie _ s v s' happly

/-- After an evaluation with a source that keeps to the bounds of its requests, every node that
throws dice, or keeps or throws again what such dice show, has a roll of which all values and all
that was put aside are faces of its die. The operands that give counts, sides, faces and targets may
be any formulas. -/
theorem evaluate_onDie (source : Source σ) (t : Tree) (s : σ) (hsource : source.Honest)
    (h : t.evaluate source s = (.ok a, u, s')) :
    u.bare = t.bare ∧ ∀ node ∈ u.nodes, node.showsFaces = true →
      ∃ r, node.known = some (.roll r) ∧ ∀ face ∈ r.values ++ r.discards, r.die.HasFace face := by
  obtain ⟨hsettled, -, hbare⟩ := evaluate_settled h
  refine ⟨hbare, fun node hnode hshows => ?_⟩
  obtain ⟨v, hknown, r, rfl, hr⟩ := (hsettled.nodes node hnode).onDie hsource hshows
  exact ⟨r, hknown, hr⟩

theorem evaluate_onDie_nested :
    ∃ t u s', Tree.ofText (ascii ['1', 'd', '(', '1', 'd', '8', ')', 'R', '>', '2', 'h', '1']) =
      .ok t ∧
      t.evaluate (Congruential.source 100) 7 = (.ok (.int 2), u, s') ∧
      u.known = some (.roll ⟨[.int 2], .sides 7, [.int 5, .int 3], false⟩) ∧
      u.nodes.countP showsFaces = 4 ∧ ∀ node ∈ u.nodes, node.showsFaces = true →
        ∃ r, node.known = some (.roll r) ∧ ∀ face ∈ r.values ++ r.discards, r.die.HasFace face := by
  let sides : Tree := .node (.dice .plain) (.ofNumber (.int 1)) (.ofNumber (.int 8)) none
  let t : Tree := .node (.keep .high)
    (.node (.rerollBeyond .untilSettled .high .sign)
      (.node (.dice .plain) (.ofNumber (.int 1)) sides none)
      (.ofNumber (.int 2)) none)
    (.ofNumber (.int 1)) none
  let after := (t.evaluate (Congruential.source 100) 7).2
  have hevaluate : t.evaluate (Congruential.source 100) 7 = (.ok (.int 2), after.1, after.2) := by
    decide +kernel
  exact ⟨t, after.1, after.2, by decide +kernel, hevaluate, by decide +kernel, by decide +kernel,
    (evaluate_onDie (Congruential.source 100) t 7 (Congruential.source_honest 100) hevaluate).2⟩

end Tree

end DiceFormula
