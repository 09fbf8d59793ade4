import DiceFormula.Roll.Basic

/-! What a part of a formula stands for: a number, the faces of a die, or a roll. -/
namespace DiceFormula

inductive Value
  | number (value : Number)
  | faces (values : Faces)
  | roll (value : Roll)
deriving DecidableEq

namespace Value

def text : Value → Text
  | .number a => a.text
  | .faces values => Die.facesText values
  | .roll r => r.text

def described : Value → Text
  | .number a => utf8 "число " ++ a.text
  | .faces values => utf8 "список граней " ++ Die.facesText values
  | .roll r => utf8 "бросок " ++ r.text

end Value

end DiceFormula
