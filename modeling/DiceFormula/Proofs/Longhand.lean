import DiceFormula.Command.Options
import DiceFormula.Proofs.Applying

/-! Options in longhand stand alone, by their names after two dashes, and each value is the argument
after its option. Every other way to write them is short for this one: arguments that are understood
can be written out, and the options that are read stay the same. -/
namespace DiceFormula.Options

def nameOf (argument : Text) : Text := (argument.drop 2).takeWhile (· ≠ equalsSign)

def joinedTo (argument : Text) : Text := ((argument.drop 2).dropWhile (· ≠ equalsSign)).drop 1

structure Names (argument : Text) (request : Request) : Prop where
  dashes : argument.take 2 = [dash, dash]
  name : ofName? (nameOf argument) = some request

namespace Request

def counts : Request → Bool
  | .counted _ => true
  | _ => false

def name : Request → Text
  | .mode .normal => []
  | .mode .average => Mode.averageName
  | .mode .critical => Mode.criticalName
  | .mode .maximum => Mode.maximumName
  | .verbose => utf8 "verbose"
  | .help => utf8 "help"
  | .counted .number => utf8 "number"
  | .counted .wrap => utf8 "wrap"

def longhand (request : Request) : Text := dash :: dash :: request.name

end Request

def Reading.meet (r : Reading) (value : Text) : Request → Except OptionFault Reading
  | .mode mode => r.chooseMode mode
  | .verbose => .ok r.beVerbose
  | .help => .ok r.askHelp
  | .counted which => r.setCount which value

def meetCount (r : Reading) (option joined : Text) (which : Counted) (following : List Text) :
    Except OptionFault (Reading × List Text) := do
  let taken ← takeValue option joined following
  return (← r.meet taken.1 (.counted which), taken.2)

/-- A reading of arguments in longhand alone: nothing is grouped, and nothing joined to a count. -/
inductive Longhand : Reading → List Text → Reading → Prop
  | nil {r : Reading} : Longhand r [] r
  | expression {r r' : Reading} {argument : Text} {rest : List Text}
      (hargument : isOption argument = false) :
      Longhand (r.addExpression argument) rest r' → Longhand r (argument :: rest) r'
  | expressions {r : Reading} {rest : List Text} :
      Longhand r ([dash, dash] :: rest) (rest.foldl Reading.addExpression r)
  | plain {r r₁ r' : Reading} {argument : Text} {rest : List Text} {request : Request}
      (hnames : Names argument request)
      (hplain : request.counts = false) (hmeet : r.meet [] request = .ok r₁) :
      Longhand r₁ rest r' → Longhand r (argument :: rest) r'
  | counted {r r₁ r' : Reading} {argument value : Text} {rest : List Text} {which : Counted}
      (hnames : Names argument (.counted which)) (hjoined : joinedTo argument = [])
      (hmeet : r.meet value (.counted which) = .ok r₁) :
      Longhand r₁ rest r' → Longhand r (argument :: value :: rest) r'

/-- A count in longhand. A value that is joined to the option becomes an argument; otherwise the
next one is the value, and this is what the second component says. -/
def countSpelled (option joined : Text) (which : Counted) : List Text × Bool :=
  if joined = [] then ([option], true) else ([(Request.counted which).longhand, joined], false)

def lettersSpelled : Text → List Text × Bool
  | [] => ([], false)
  | letter :: letters =>
    match ofLetter? letter with
    | none => ([], false)
    | some (.counted which) => countSpelled (Request.counted which).longhand letters which
    | some request => (request.longhand :: (lettersSpelled letters).1, (lettersSpelled letters).2)

def spelled (argument : Text) : List Text × Bool :=
  if argument.take 2 = [dash, dash] then
    match ofName? (nameOf argument) with
    | some (.counted which) => countSpelled argument (joinedTo argument) which
    | _ => ([argument], false)
  else lettersSpelled (argument.drop 1)

/-- All arguments in longhand. Values and expressions stay as they are. -/
def writtenOut (valueAwaited : Bool) : List Text → List Text
  | [] => []
  | argument :: rest =>
    if valueAwaited || !isOption argument then argument :: writtenOut false rest
    else if argument = [dash, dash] then argument :: rest
    else (spelled argument).1 ++ writtenOut (spelled argument).2 rest

variable {r r₁ r' : Reading} {argument option joined letters value : Text}
  {following rest arguments : List Text}
  {letter : UInt8} {request : Request} {which : Counted} {turns : Nat} {s : List Text × Bool}

namespace Request

theorem counts_or (request : Request) :
    request.counts = false ∨ ∃ which, request = .counted which := by
  cases request with
  | counted which => exact .inr ⟨which, rfl⟩
  | _ => exact .inl rfl

@[simp] theorem nameOf_longhand (request : Request) : nameOf request.longhand = request.name := by
  cases request with
  | mode mode => cases mode <;> rfl
  | counted which => cases which <;> rfl
  | _ => rfl

@[simp] theorem joinedTo_longhand (request : Request) : joinedTo request.longhand = [] := by
  cases request with
  | mode mode => cases mode <;> rfl
  | counted which => cases which <;> rfl
  | _ => rfl

theorem names_longhand (h : ofName? request.name = some request) : Names request.longhand request :=
  ⟨rfl, (nameOf_longhand request).symm ▸ h⟩

theorem names_counted (which : Counted) : Names (counted which).longhand (.counted which) :=
  names_longhand (by cases which <;> rfl)

theorem names_letter (h : ofLetter? letter = some request) : Names request.longhand request := by
  refine names_longhand ?_
  unfold ofLetter? at h
  split at h <;> cases h <;> rfl

end Request

/-! What a single option does, by a letter or by its name. -/

theorem short_plain (hletter : ofLetter? letter = some request) (hplain : request.counts = false) :
    short r (letter :: letters) following = r.meet [] request >>= fun r =>
      short r letters following := by
  rw [short, hletter]
  cases request with
  | counted which => cases hplain
  | _ => rfl

theorem short_counted (hletter : ofLetter? letter = some (.counted which)) :
    short r (letter :: letters) following = meetCount r [dash, letter] letters which following := by
  rw [short, hletter]
  rfl

theorem long_plain (hname : ofName? (nameOf argument) = some request)
    (hplain : request.counts = false) :
    long r argument following = r.meet [] request >>= fun r => pure (r, following) := by
  unfold nameOf at hname
  rw [long, hname]
  cases request with
  | counted which => cases hplain
  | _ => rfl

theorem long_counted (hname : ofName? (nameOf argument) = some (.counted which)) :
    long r argument following = meetCount r argument (joinedTo argument) which following := by
  unfold nameOf at hname
  rw [long, hname]
  rfl

theorem meetCount_next : meetCount r option [] which (value :: following) =
    r.meet value (.counted which) >>= fun r => pure (r, following) := rfl

theorem long_unknown (hname : ofName? (nameOf argument) = none) :
    long r argument following = .error (.unknownLong argument) := by
  unfold nameOf at hname
  rw [long, hname]

theorem lettersSpelled_plain (hletter : ofLetter? letter = some request)
    (hplain : request.counts = false) :
    lettersSpelled (letter :: letters) =
      (request.longhand :: (lettersSpelled letters).1, (lettersSpelled letters).2) := by
  rw [lettersSpelled, hletter]
  cases request with
  | counted which => cases hplain
  | _ => rfl

theorem spelled_plain (h : Names argument request) (hplain : request.counts = false) :
    spelled argument = ([argument], false) := by
  rw [spelled, if_pos h.dashes, h.name]
  cases request with
  | counted which => cases hplain
  | _ => rfl

theorem spelled_counted (h : Names argument (.counted which)) :
    spelled argument = countSpelled argument (joinedTo argument) which := by
  rw [spelled, if_pos h.dashes, h.name]

theorem takeValue_eq_ok (h : takeValue option joined following = .ok (value, rest)) :
    joined ≠ [] ∧ value = joined ∧ following = rest ∨ joined = [] ∧ following = value :: rest := by
  unfold takeValue at h
  cases joined with
  | cons b joined =>
    cases h
    exact .inl ⟨nofun, rfl, rfl⟩
  | nil =>
    cases following with
    | nil => cases h
    | cons first following =>
      cases h
      exact .inr ⟨rfl, rfl⟩

/-- What an argument does to a reading, and what it takes of the following arguments, is done by the
longhand too, whatever comes after. -/
def Spells (s : List Text × Bool) (r : Reading) (following : List Text) (r₁ : Reading)
    (rest : List Text) : Prop :=
  ∃ values, following = values ++ rest ∧ values.length = s.2.toNat ∧
    ∀ {tail r'}, Longhand r₁ tail r' → Longhand r (s.1 ++ (values ++ tail)) r'

theorem spells_nothing : Spells ([], false) r following r following := ⟨[], rfl, rfl, id⟩

theorem spells_cons {r₀ : Reading} (hnames : Names argument request)
    (hplain : request.counts = false)
    (hmeet : r.meet [] request = .ok r₀) (h : Spells s r₀ following r₁ rest) :
    Spells (argument :: s.1, s.2) r following r₁ rest := by
  obtain ⟨values, hfollowing, hlength, hlonghand⟩ := h
  exact ⟨values, hfollowing, hlength, fun htail => .plain hnames hplain hmeet (hlonghand htail)⟩

theorem spells_count (hnames : Names argument (.counted which))
    (hjoined : joined = [] → joinedTo argument = [])
    (h : meetCount r option joined which following = .ok (r₁, rest)) :
    Spells (countSpelled argument joined which) r following r₁ rest := by
  obtain ⟨⟨value, after⟩, hvalue, h⟩ := exists_of_bind_eq_ok h
  obtain ⟨counted, hmeet, hend⟩ := exists_of_bind_eq_ok h
  cases hend
  unfold countSpelled
  obtain ⟨hsome, rfl, rfl⟩ | ⟨hnone, rfl⟩ := takeValue_eq_ok hvalue
  · rw [if_neg hsome]
    exact ⟨[], rfl, rfl, .counted (Request.names_counted which) (Request.joinedTo_longhand _) hmeet⟩
  · rw [if_pos hnone]
    exact ⟨[value], rfl, rfl, .counted hnames (hjoined hnone) hmeet⟩

theorem spells_letters (h : short r letters following = .ok (r₁, rest)) :
    Spells (lettersSpelled letters) r following r₁ rest := by
  induction letters generalizing r with
  | nil =>
    cases h
    exact spells_nothing
  | cons letter letters ih =>
    cases hletter : ofLetter? letter with
    | none =>
      rw [short, hletter] at h
      cases h
    | some request =>
      obtain hplain | ⟨which, rfl⟩ := request.counts_or
      · rw [short_plain hletter hplain] at h
        obtain ⟨r₀, hmeet, hletters⟩ := exists_of_bind_eq_ok h
        rw [lettersSpelled_plain hletter hplain]
        exact spells_cons (Request.names_letter hletter) hplain hmeet (ih hletters)
      · rw [short_counted hletter] at h
        rw [lettersSpelled, hletter]
        exact spells_count (Request.names_counted which) (fun _ => Request.joinedTo_longhand _) h

theorem spells_long (hdashes : argument.take 2 = [dash, dash])
    (h : long r argument following = .ok (r₁, rest)) :
    Spells (spelled argument) r following r₁ rest := by
  cases hname : ofName? (nameOf argument) with
  | none =>
    rw [long_unknown hname] at h
    cases h
  | some request =>
    have hnames : Names argument request := ⟨hdashes, hname⟩
    obtain hplain | ⟨which, rfl⟩ := request.counts_or
    · rw [long_plain hname hplain] at h
      obtain ⟨r₀, hmeet, hend⟩ := exists_of_bind_eq_ok h
      cases hend
      rw [spelled_plain hnames hplain]
      exact spells_cons hnames hplain hmeet spells_nothing
    · rw [long_counted hname] at h
      rw [spelled_counted hnames]
      exact spells_count hnames id h

namespace Spells

theorem length_le (h : Spells s r following r₁ rest) : rest.length ≤ following.length := by
  obtain ⟨values, rfl, -, -⟩ := h
  exact List.length_append ▸ Nat.le_add_left ..

theorem longhand (h : Spells s r following r₁ rest)
    (hrest : Longhand r₁ (writtenOut false rest) r') :
    Longhand r (s.1 ++ writtenOut s.2 following) r' := by
  obtain ⟨options, valueAwaited⟩ := s
  obtain ⟨values, rfl, hlength, hlonghand⟩ := h
  cases valueAwaited with
  | false =>
    obtain rfl := List.eq_nil_of_length_eq_zero hlength
    exact hlonghand hrest
  | true =>
    obtain ⟨value, rfl⟩ := List.length_eq_one_iff.mp hlength
    exact hlonghand hrest

end Spells

def group (r : Reading) (argument : Text) (following : List Text) :
    Except OptionFault (Reading × List Text) :=
  if argument.take 2 = [dash, dash] then long r argument following
  else short r (argument.drop 1) following

theorem spells_group (h : group r argument following = .ok (r₁, rest)) :
    Spells (spelled argument) r following r₁ rest := by
  unfold group at h
  split at h
  next hdashes => exact spells_long hdashes h
  next hdashes =>
    rw [spelled, if_neg hdashes]
    exact spells_letters h

theorem readAll_expression (h : isOption argument = false) :
    readAll r (turns + 1) (argument :: following) =
      readAll (r.addExpression argument) turns following := by
  rw [readAll, h]
  rfl

theorem readAll_group (h : isOption argument = true) (hdashes : argument ≠ [dash, dash]) :
    readAll r (turns + 1) (argument :: following) =
      group r argument following >>= fun next => readAll next.1 turns next.2 := by
  rw [readAll, h, if_neg (by simp), if_neg hdashes, ← group]
  cases group r argument following <;> rfl

theorem longhand_writtenOut (hturns : arguments.length ≤ turns)
    (h : readAll r turns arguments = .ok r') :
    Longhand r (writtenOut false arguments) r' := by
  induction turns generalizing r arguments with
  | zero =>
    rw [List.eq_nil_of_length_eq_zero (Nat.le_zero.mp hturns)] at h ⊢
    cases h
    exact .nil
  | succ turns ih =>
    cases arguments with
    | nil =>
      cases h
      exact .nil
    | cons argument following =>
      have hfollowing : following.length ≤ turns := Nat.le_of_succ_le_succ hturns
      cases hoption : isOption argument with
      | false =>
        rw [readAll_expression hoption] at h
        rw [writtenOut, hoption]
        exact .expression hoption (ih hfollowing h)
      | true =>
        rw [writtenOut, hoption]
        by_cases hdashes : argument = [dash, dash]
        · subst hdashes
          cases h
          exact .expressions
        · rw [readAll_group hoption hdashes] at h
          obtain ⟨⟨r₁, rest⟩, hgroup, hrest⟩ := exists_of_bind_eq_ok h
          have hspells := spells_group hgroup
          rw [if_neg (by simp), if_neg hdashes]
          -- a value may have been taken, so that the turns are more than the arguments left
          exact hspells.longhand (ih (Nat.le_trans hspells.length_le hfollowing) hrest)

namespace Names

variable (h : Names argument request)
include h

theorem isOption : isOption argument = true := by
  have hdashes := h.dashes
  cases argument with
  | nil => cases hdashes
  | cons first rest =>
    cases rest with
    | nil => cases hdashes
    | cons second rest =>
      cases hdashes
      rfl

theorem ne_dashes : argument ≠ [dash, dash] := by
  rintro rfl
  cases h.name

theorem readAll : readAll r (turns + 1) (argument :: following) =
    long r argument following >>= fun next => readAll next.1 turns next.2 := by
  rw [readAll_group h.isOption h.ne_dashes, group, if_pos h.dashes]

end Names

theorem Longhand.readAll (h : Longhand r arguments r') (hturns : arguments.length ≤ turns) :
    readAll r turns arguments = .ok r' := by
  induction h generalizing turns with
  | nil => cases turns <;> rfl
  | expression hargument _ ih =>
    obtain ⟨turns, rfl⟩ := Nat.exists_eq_add_of_le' hturns
    rw [List.length_cons, ← Nat.add_assoc, readAll_expression hargument]
    exact ih (Nat.le_add_left ..)
  | expressions =>
    obtain ⟨turns, rfl⟩ := Nat.exists_eq_add_of_le' hturns
    rfl
  | plain hnames hplain hmeet _ ih =>
    obtain ⟨turns, rfl⟩ := Nat.exists_eq_add_of_le' hturns
    rw [List.length_cons, ← Nat.add_assoc, hnames.readAll, long_plain hnames.name hplain, hmeet]
    exact ih (Nat.le_add_left ..)
  | counted hnames hjoined hmeet _ ih =>
    obtain ⟨turns, rfl⟩ := Nat.exists_eq_add_of_le' hturns
    rw [List.length_cons, ← Nat.add_assoc, hnames.readAll, long_counted hnames.name, hjoined,
      meetCount_next, hmeet]
    exact ih (Nat.le_trans (Nat.le_succ _) (Nat.le_add_left ..))

/-- Arguments that are understood are understood in longhand too, and give the same options. -/
theorem ofArguments_writtenOut (arguments : List Text) (options : Options)
    (h : ofArguments arguments = .ok options) :
    ofArguments (writtenOut false arguments) = .ok options ∧
      ∃ r, Longhand .start (writtenOut false arguments) r ∧ r.options = options := by
  obtain ⟨r, hread, hoptions⟩ := exists_of_bind_eq_ok h
  have hlonghand := longhand_writtenOut (Nat.le_refl _) hread
  refine ⟨?_, r, hlonghand, ?_⟩
  · rw [ofArguments, hlonghand.readAll (Nat.le_refl _)]
    exact hoptions
  · dsimp only at hoptions
    split at hoptions
    · cases hoptions
    · exact Except.ok.inj hoptions

theorem ofArguments_writtenOut_groups :
    let arguments := [utf8 "-vcn5", utf8 "1d6", utf8 "--wrap=40", utf8 "-w", utf8 "3", utf8 "-h",
      utf8 "--", utf8 "-a"]
    let longhand :=
      [utf8 "--verbose", utf8 "--critical", utf8 "--number", utf8 "5", utf8 "1d6", utf8 "--wrap",
      utf8 "40", utf8 "--wrap", utf8 "3", utf8 "--help", utf8 "--", utf8 "-a"]
    let options : Options := ⟨.critical, 5, true, 3, true, [utf8 "1d6", utf8 "-a"]⟩
    ofArguments arguments = .ok options ∧ writtenOut false arguments = longhand ∧
    ofArguments longhand = .ok options := by
  intro arguments longhand options
  have hread : ofArguments arguments = .ok options := by rfl
  have hwritten : writtenOut false arguments = longhand := by decide
  exact ⟨hread, hwritten, hwritten ▸ (ofArguments_writtenOut arguments options hread).1⟩

end DiceFormula.Options
