import DiceFormula.Failure
import DiceFormula.Mode

/-! The options of the command line. Short options can be written together, and the value of an
option can be joined to it or be the next argument. -/
namespace DiceFormula

structure Options where
  mode : Mode
  number : Nat
  verbose : Bool
  wrap : Nat
  help : Bool
  expressions : List Text
deriving DecidableEq

namespace Options

def default : Options := ⟨.normal, 1, false, 80, false, []⟩

def countLimit : Nat := 18446744073709551615

def count (written : Text) (zeroAllowed : Bool) : Except OptionFault Nat :=
  if written.isEmpty || !written.all Text.isDigit || countLimit < Text.value written then
    .error (.badNumber written)
  else if Text.value written = 0 && !zeroAllowed then .error .zeroNumber
  else .ok (Text.value written)

structure Reading where
  options : Options
  modeChosen : Bool

namespace Reading

def start : Reading := ⟨default, false⟩

def chooseMode (r : Reading) (mode : Mode) : Except OptionFault Reading :=
  if r.modeChosen && r.options.mode != mode then .error .modesExclusive
  else .ok ⟨{ r.options with mode := mode }, true⟩

def beVerbose (r : Reading) : Reading := { r with options := { r.options with verbose := true } }

def askHelp (r : Reading) : Reading := { r with options := { r.options with help := true } }

def addExpression (r : Reading) (expression : Text) : Reading :=
  { r with options := { r.options with expressions := r.options.expressions ++ [expression] } }

end Reading

inductive Counted
  | number
  | wrap
deriving DecidableEq

def Reading.setCount (r : Reading) (which : Counted) (written : Text) :
    Except OptionFault Reading :=
  match which with
  | .number => do
    let n ← count written false
    return { r with options := { r.options with number := n } }
  | .wrap => do
    let n ← count written true
    return { r with options := { r.options with wrap := n } }

inductive Request
  | mode (mode : Mode)
  | verbose
  | help
  | counted (which : Counted)
deriving DecidableEq

def ofName? (name : Text) : Option Request :=
  if name = Mode.averageName then some (.mode .average)
  else if name = Mode.criticalName then some (.mode .critical)
  else if name = Mode.maximumName then some (.mode .maximum)
  else if name = utf8 "verbose" then some .verbose
  else if name = utf8 "help" then some .help
  else if name = utf8 "number" then some (.counted .number)
  else if name = utf8 "wrap" then some (.counted .wrap)
  else none

def ofLetter? (letter : UInt8) : Option Request :=
  match Char.ofNat letter.toNat with
  | 'a' => some (.mode .average)
  | 'c' => some (.mode .critical)
  | 'm' => some (.mode .maximum)
  | 'v' => some .verbose
  | 'h' => some .help
  | 'n' => some (.counted .number)
  | 'w' => some (.counted .wrap)
  | _ => none

def dash : UInt8 := '-'.toUInt8

def equalsSign : UInt8 := '='.toUInt8

/-- Two dashes, or a dash and a letter: what starts otherwise is an expression. -/
def isOption : Text → Bool
  | first :: second :: _ => first == dash && (second == dash || Text.isLetter second)
  | _ => false

def takeValue (option joined : Text) (following : List Text) :
    Except OptionFault (Text × List Text) :=
  if !joined.isEmpty then .ok (joined, following)
  else match following with
    | [] => .error (.valueMissing option)
    | value :: rest => .ok (value, rest)

def long (r : Reading) (argument : Text) (following : List Text) :
    Except OptionFault (Reading × List Text) :=
  let body := argument.drop 2
  let name := body.takeWhile (· ≠ equalsSign)
  let joined := (body.dropWhile (· ≠ equalsSign)).drop 1
  match ofName? name with
  | none => .error (.unknownLong argument)
  | some (.mode mode) => do return (← r.chooseMode mode, following)
  | some .verbose => .ok (r.beVerbose, following)
  | some .help => .ok (r.askHelp, following)
  | some (.counted which) => do
    let (value, rest) ← takeValue argument joined following
    return (← r.setCount which value, rest)

def short (r : Reading) : Text → List Text → Except OptionFault (Reading × List Text)
  | [], following => .ok (r, following)
  | letter :: letters, following =>
    match ofLetter? letter with
    | none => .error (.unknownShort letter)
    | some (.mode mode) => do short (← r.chooseMode mode) letters following
    | some .verbose => short r.beVerbose letters following
    | some .help => short r.askHelp letters following
    | some (.counted which) => do
      let (value, rest) ← takeValue [dash, letter] letters following
      return (← r.setCount which value, rest)

/-- All arguments in turn; after two dashes alone every argument is an expression. Taking a value
only shortens what follows, so as many turns as there are arguments suffice. -/
def readAll (r : Reading) : Nat → List Text → Except OptionFault Reading
  | 0, _ => .ok r
  | _, [] => .ok r
  | turns + 1, argument :: following =>
    if !isOption argument then readAll (r.addExpression argument) turns following
    else if argument = [dash, dash] then .ok (following.foldl Reading.addExpression r)
    else
      match (if argument.take 2 = [dash, dash] then long r argument following
        else short r (argument.drop 1) following) with
      | .ok (r, rest) => readAll r turns rest
      | .error fault => .error fault

def ofArguments (arguments : List Text) : Except OptionFault Options := do
  let r ← readAll .start arguments.length arguments
  if !r.options.help && r.options.expressions.isEmpty then throw .nothingToRoll
  return r.options

end Options

end DiceFormula
