import DiceFormula.Binary64.Literal
import DiceFormula.Number.Word
import DiceFormula.ParseError
import DiceFormula.Token.Basic

/-! The tokens of a text. Digits and operator codes are read as far as they go; a plus or a minus is
a sign where an operand is due. Parentheses are matched over the whole text before anything else. -/
namespace DiceFormula

abbrev Located : Type := Flaw × Nat

namespace Scan

def openingByte : UInt8 := '('.toUInt8
def closingByte : UInt8 := ')'.toUInt8
def plusByte : UInt8 := '+'.toUInt8
def minusByte : UInt8 := '-'.toUInt8
def commaByte : UInt8 := ','.toUInt8
def facesByte : UInt8 := '['.toUInt8
def facesEndByte : UInt8 := ']'.toUInt8
def fudgeByte : UInt8 := 'F'.toUInt8

def isParenthesis (b : UInt8) : Bool := b == openingByte || b == closingByte

/-- Every closing parenthesis has an opening one before it, and the other way round. The places of
those still open are given, the innermost first. -/
def matchParentheses (opened : List Nat) (place : Nat) : Text → Except Located Unit
  | [] =>
    match opened.getLast? with
    | some first => .error (.unclosed, first)
    | none => .ok ()
  | b :: rest =>
    if b = openingByte then matchParentheses (place :: opened) (place + 1) rest
    else if b = closingByte then
      match opened with
      | [] => .error (.unopened, place)
      | _ :: outer => matchParentheses outer (place + 1) rest
    else matchParentheses opened (place + 1) rest

def followsDice : Option Symbol → Bool
  | some (.operator op) => op.isDice
  | _ => false

def operandDue : Option Symbol → Bool
  | none => true
  | some .opening => true
  | some (.operator op) => op.takesRight
  | some _ => false

/-- A flaw that the next byte has wherever it stands, or because no dice operator is before it. It
is reported rather than a flaw of the lexeme that ends there. -/
def flawOfNext (afterDice : Bool) (place : Nat) : Text → Option Located
  | [] => none
  | b :: _ =>
    if Text.isDigit b || isParenthesis b || Operator.isCodeByte b || Text.isBlank b then none
    else if b = facesByte then if afterDice then none else some (.strayFaces, place)
    else if b = fudgeByte then if afterDice then none else some (.strayFudge, place)
    else some (.badByte, place)

structure Lexeme where
  symbol : Option Symbol
  extra : Nat

def number (place : Nat) (t : Text) : Except Located Lexeme :=
  let digits := t.takeWhile Text.isDigit
  let value : Int := Text.value digits
  if value ≤ Word.greatest then .ok ⟨some (.number (.int value)), digits.length - 1⟩
  else .error ((flawOfNext false (place + digits.length) (t.dropWhile Text.isDigit)).getD
    (.hugeNumber digits, place))

/-- The longest continuation of a run that still begins the code of an operator. -/
def extend (run : Text) : Text → Text
  | [] => run
  | b :: rest => if Operator.beginsCode (run ++ [b]) then extend (run ++ [b]) rest else run

def operator (place : Nat) (first : UInt8) (rest : Text) : Except Located Lexeme :=
  let run := extend [first] rest
  match Operator.typed? run with
  | some op => .ok ⟨some (.operator op), run.length - 1⟩
  | none => .error ((flawOfNext false (place + run.length) (rest.drop (run.length - 1))).getD
    (.unknownOperator run, place))

def plusOrMinus (previous : Option Symbol) (b : UInt8) : Operator :=
  if operandDue previous then if b = plusByte then .affirm else .negate
  else if b = plusByte then .add else .subtract

def parenthesis (previous : Option Symbol) (place : Nat) (b : UInt8) : Except Located Lexeme :=
  let broken := match previous with
    | some (.operator op) => op.takesRight != (b == openingByte)
    | _ => false
  if broken then .error (.brokenOff, place)
  else .ok ⟨some (if b = openingByte then .opening else .closing), 0⟩

def face? (t : Text) : Option Number :=
  match RealLiteral.parse? t with
  | some l => if l.inRange then some (.real l.nearest) else none
  | none => none

def faceList (place : Nat) : List Text → Except Located Faces
  | [] => .ok []
  | item :: rest =>
    match face? item.trim with
    | none => .error (.badFace item.trim, place + (item.takeWhile Text.isBlank).length)
    | some a =>
      match faceList (place + item.length + 1) rest with
      | .ok others => .ok (a :: others)
      | .error e => .error e

def faces (previous : Option Symbol) (place : Nat) (rest : Text) : Except Located Lexeme :=
  let content := rest.takeWhile (· ≠ facesEndByte)
  if !followsDice previous then .error (.strayFaces, place)
  else if content.length = rest.length then .error (.unfinishedFaces, place)
  else
    match faceList (place + 1) (content.splitOn commaByte) with
    | .ok values => .ok ⟨some (.literal (.faces values)), content.length + 1⟩
    | .error e => .error e

def fudge (previous : Option Symbol) (place : Nat) : Except Located Lexeme :=
  if followsDice previous then .ok ⟨some (.literal (.faces Die.fudge)), 0⟩
  else .error (.strayFudge, place)

def lexeme (previous : Option Symbol) (place : Nat) (b : UInt8) (rest : Text) :
    Except Located Lexeme :=
  if Text.isBlank b then .ok ⟨none, 0⟩
  else if Text.isDigit b then number place (b :: rest)
  else if isParenthesis b then parenthesis previous place b
  else if b = plusByte ∨ b = minusByte then
    .ok ⟨some (.operator (plusOrMinus previous b)), 0⟩
  else if Operator.isCodeByte b then operator place b rest
  else if b = facesByte then faces previous place rest
  else if b = fudgeByte then fudge previous place
  else .error (.badByte, place)

def tokens (previous : Option Symbol) (place : Nat) (t : Text) : Except Located (List Token) :=
  match t with
  | [] => .ok []
  | b :: rest =>
    match lexeme previous place b rest with
    | .error e => .error e
    | .ok ⟨none, extra⟩ => tokens previous (place + 1 + extra) (rest.drop extra)
    | .ok ⟨some symbol, extra⟩ =>
      match tokens (some symbol) (place + 1 + extra) (rest.drop extra) with
      | .ok others => .ok (⟨symbol, place⟩ :: others)
      | .error e => .error e
termination_by t.length
decreasing_by all_goals simp only [List.length_drop, List.length_cons]; omega

def all (source : Text) : Except Located (List Token) :=
  match matchParentheses [] 0 source with
  | .error e => .error e
  | .ok () => tokens none 0 source

end Scan

namespace Token

def ofText (source : Text) : Except ParseError (List Token) :=
  match Scan.all source with
  | .ok tokens => .ok tokens
  | .error (flaw, offset) => .error ⟨flaw, offset, source⟩

end Token

end DiceFormula
