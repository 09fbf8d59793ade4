import DiceFormula.Fault
import DiceFormula.ParseError

/-! How the work on a formula can end without a result. -/
namespace DiceFormula

inductive OptionFault
  | modesExclusive
  | unknownLong (argument : Text)
  | unknownShort (letter : UInt8)
  | valueMissing (option : Text)
  | badNumber (value : Text)
  | zeroNumber
  | nothingToRoll
deriving DecidableEq

namespace OptionFault

def message : OptionFault → Text
  | .modesExclusive => utf8 "Флаги -a, -c и -m нельзя использовать вместе"
  | .unknownLong argument => utf8 "Неизвестный флаг: " ++ argument
  | .unknownShort letter => utf8 "Неизвестный флаг: -" ++ [letter]
  | .valueMissing option => utf8 "Флагу " ++ option ++ utf8 " требуется значение"
  | .badNumber value => utf8 "Некорректное числовое значение: " ++ value
  | .zeroNumber => utf8 "Число должно быть положительным"
  | .nothingToRoll => utf8 "Не указано ни одного выражения для броска"

end OptionFault

inductive Failure
  | parse (error : ParseError)
  | evaluation (cause : Fault)
  | fault (fault : Fault)
  | option (fault : OptionFault)
deriving DecidableEq

namespace Failure

/-- The text that is shown, up to the first zero byte of any of its parts. -/
def message : Failure → Text
  | .parse error => error.rendered.untilZero
  | .evaluation cause => utf8 "Не удалось вычислить выражение: " ++ cause.message.untilZero
  | .fault cause => cause.message.untilZero
  | .option cause => cause.message.untilZero

def cause? : Failure → Option Fault
  | .evaluation cause => some cause
  | _ => none

end Failure

end DiceFormula
