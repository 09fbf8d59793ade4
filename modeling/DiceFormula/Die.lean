import DiceFormula.Number.Basic

/-! A die has a number of sides, counted from one, or a list of faces. -/
namespace DiceFormula

abbrev Faces := List Number

inductive Die
  | sides (count : Int)
  | faces (values : Faces)
deriving DecidableEq

namespace Die

/-- One face is written with a comma behind it: `(4.0,)`. -/
def facesText : Faces → Text
  | [face] => ascii ['('] ++ face.text ++ ascii [',', ')']
  | values => ascii ['('] ++ Number.listText values ++ ascii [')']

def text : Die → Text
  | .sides count => Text.ofInt count
  | .faces values => facesText values

def same : Die → Die → Bool
  | .sides m, .sides n => m == n
  | .faces as, .faces bs => Number.sameList as bs
  | _, _ => false

def smallest (best : Number) : List Number → Number
  | [] => best
  | a :: rest => smallest (if a.lt best then a else best) rest

def largest (best : Number) : List Number → Number
  | [] => best
  | a :: rest => largest (if best.lt a then a else best) rest

def minimum? : Die → Option Number
  | .sides _ => some .one
  | .faces [] => none
  | .faces (a :: rest) => some (smallest a rest)

def maximum? : Die → Option Number
  | .sides count => some (.int count)
  | .faces [] => none
  | .faces (a :: rest) => some (largest a rest)

def fudge : Faces := [.int (-1), .int 0, .int 1]

end Die

end DiceFormula
