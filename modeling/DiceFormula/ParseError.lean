import DiceFormula.Operator.Basic

/-! Why a text is no formula, and where. -/
namespace DiceFormula

inductive Flaw
  | unopened
  | unclosed
  | badByte
  | hugeNumber (digits : Text)
  | unknownOperator (code : Text)
  | brokenOff
  | strayFaces
  | unfinishedFaces
  | badFace (written : Text)
  | strayFudge
  | surplusOperand
  | lacksLeft (op : Operator)
  | lacksRight (op : Operator)
  | tooDeep
deriving DecidableEq

def depthLimit : Nat := 1000

namespace Flaw

def message : Flaw → Text
  | .unopened => utf8 "Закрывающая скобка без открывающей"
  | .unclosed => utf8 "Незакрытая скобка"
  | .badByte => utf8 "Недопустимый символ"
  | .hugeNumber digits => utf8 "Слишком большое число: " ++ digits
  | .unknownOperator code => utf8 "Неизвестный оператор: " ++ code
  | .brokenOff => utf8 "Выражение неожиданно оборвалось"
  | .strayFaces => utf8 "Список граней может стоять только после оператора броска"
  | .unfinishedFaces => utf8 "Список граней не завершён"
  | .badFace written => utf8 "Грань \"" ++ written ++ utf8 "\" не является числом"
  | .strayFudge =>
    utf8 "F обозначает фадж-кость и может стоять только после оператора броска"
  | .surplusOperand => utf8 "Лишний операнд: не хватает оператора"
  | .lacksLeft op => utf8 "Оператору " ++ op.text ++ utf8 " не хватает левого операнда"
  | .lacksRight op => utf8 "Оператору " ++ op.text ++ utf8 " не хватает правого операнда"
  | .tooDeep =>
    utf8 "Выражение вложено глубже " ++ Text.ofNat depthLimit ++ utf8 " уровней"

end Flaw

structure ParseError where
  flaw : Flaw
  offset : Nat
  source : Text
deriving DecidableEq

namespace ParseError

def indent : Text := List.replicate 4 32

def rendered (e : ParseError) : Text :=
  e.flaw.message ++ [10] ++ indent ++ e.source ++ [10] ++ indent
    ++ List.replicate e.offset 32 ++ ascii ['^']

end ParseError

end DiceFormula
