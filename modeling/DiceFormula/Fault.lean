import DiceFormula.Operator.Basic
import DiceFormula.Value

/-! What can go wrong while a formula is evaluated, and the message for each cause. -/
namespace DiceFormula

inductive Role
  | factorialArgument
  | diceCount
  | sideCount
  | kept (side : End)
  | keepCount
  | clamped (side : End)
  | bound (side : End)
  | rerolled (pace : Pace) (trigger : Trigger)
  | rerollTarget
  | judged (side : End)
  | threshold
  | base
  | exponent
  | negated
  | affirmed
  | factor (side : End)
  | dividend
  | divisor
  | minuend
  | subtrahend
  | addend (side : End)
  | compared (side : End)
deriving DecidableEq

namespace Role

def text : Role → Text
  | .factorialArgument => utf8 "Аргумент факториала"
  | .diceCount => utf8 "Количество костей"
  | .sideCount => utf8 "Число граней кости"
  | .kept .high => utf8 "Операнд h"
  | .kept .low => utf8 "Операнд l"
  | .keepCount => utf8 "Количество оставляемых костей"
  | .clamped .low => utf8 "Операнд f"
  | .clamped .high => utf8 "Операнд c"
  | .bound .low => utf8 "Нижняя граница"
  | .bound .high => utf8 "Верхняя граница"
  | .rerolled .once .equal => utf8 "Операнд r"
  | .rerolled .once .below => utf8 "Операнд r<"
  | .rerolled .once .above => utf8 "Операнд r>"
  | .rerolled .untilSettled .equal => utf8 "Операнд R"
  | .rerolled .untilSettled .below => utf8 "Операнд R<"
  | .rerolled .untilSettled .above => utf8 "Операнд R>"
  | .rerollTarget => utf8 "Цель переброса"
  | .judged .low => utf8 "Операнд t"
  | .judged .high => utf8 "Операнд T"
  | .threshold => utf8 "Порог"
  | .base => utf8 "Основание"
  | .exponent => utf8 "Показатель"
  | .negated => utf8 "Операнд унарного минуса"
  | .affirmed => utf8 "Операнд унарного плюса"
  | .factor .low => utf8 "Левый операнд *"
  | .factor .high => utf8 "Правый операнд *"
  | .dividend => utf8 "Делимое"
  | .divisor => utf8 "Делитель"
  | .minuend => utf8 "Уменьшаемое"
  | .subtrahend => utf8 "Вычитаемое"
  | .addend .low => utf8 "Левое слагаемое"
  | .addend .high => utf8 "Правое слагаемое"
  | .compared .low => utf8 "Левый операнд"
  | .compared .high => utf8 "Правый операнд"

end Role

inductive Fault
  | notRoll (role : Role) (given : Value)
  | notNumber (role : Role) (given : Value)
  | notInteger (role : Role) (given : Number)
  | fractionalSides (total : Number)
  | indeterminate
  | divisionByZero
  | moduloByZero
  | zeroToNegativePower
  | negativeFactorial
  | hugeFactorial (argument : Int)
  | noFaces
  | noSides (count : Int)
  | tooManyDice (count : Int)
  | indexOutside (index : Nat)
  | rangeOutside (first last : Nat)
  | lengthsDiffer
  | emptyChoice
  | emptyInterval (low high : Int)
  | endlessReroll (trigger : Trigger) (die : Die) (target : Number)
  | missingLeft (op : Operator)
  | missingRight (op : Operator)
  | wrongArity (op : Operator)
  | notInterchangeable (op replaced : Operator)
  | notBinary (op : Operator)
  | unknownOperator (code : Text)
  | notEvaluated
  | notCompilable
  | notTokenizable
  | scriptEnded
  | patienceEnded
deriving DecidableEq

namespace Fault

inductive Kind
  | wrongType
  | wrongValue
  | misuse
  | unknown
  | notReady
  | noChance
  | wrongInput
deriving DecidableEq

def kind : Fault → Kind
  | .notRoll _ _ | .notNumber _ _ | .notInteger _ _ | .fractionalSides _ => .wrongType
  | .missingLeft _ | .missingRight _ | .wrongArity _ | .notInterchangeable _ _ | .notBinary _ =>
    .misuse
  | .unknownOperator _ => .unknown
  | .notEvaluated => .notReady
  | .notCompilable | .notTokenizable => .wrongInput
  | .scriptEnded | .patienceEnded => .noChance
  | _ => .wrongValue

def diceLimit : Int := 100000

def message : Fault → Text
  | .notRoll role given =>
    role.text ++ utf8 " должен быть броском костей, получено: " ++ given.described
  | .notNumber role given => role.text ++ utf8 " должен быть числом, получено: " ++ given.described
  | .notInteger role given =>
    role.text ++ utf8 " должен быть целым числом, получено: " ++ given.text
  | .fractionalSides total =>
    utf8 "Число граней кости должно быть целым, получено: " ++ total.text
  | .indeterminate => utf8 "Результат операции не является числом"
  | .divisionByZero => utf8 "Деление на ноль"
  | .moduloByZero => utf8 "Деление на ноль при взятии остатка"
  | .zeroToNegativePower => utf8 "Ноль нельзя возводить в отрицательную степень"
  | .negativeFactorial => utf8 "Факториал не определён для отрицательных чисел"
  | .hugeFactorial argument =>
    utf8 "Факториал " ++ Text.ofInt argument ++ utf8 " слишком велик"
  | .noFaces => utf8 "У кости нет ни одной грани"
  | .noSides count =>
    utf8 "У кости должна быть хотя бы одна грань, получено: " ++ Text.ofInt count
  | .tooManyDice count =>
    utf8 "Слишком много костей за один бросок: " ++ Text.ofInt count ++ utf8 " (не больше "
      ++ Text.ofInt diceLimit ++ utf8 ")"
  | .indexOutside index => utf8 "Индекс " ++ Text.ofNat index ++ utf8 " вне диапазона броска"
  | .rangeOutside first last =>
    utf8 "Диапазон [" ++ Text.ofNat first ++ utf8 "; " ++ Text.ofNat last
      ++ utf8 ") вне диапазона броска"
  | .lengthsDiffer => utf8 "Диапазон можно заменить только списком той же длины"
  | .emptyChoice => utf8 "Нельзя выбрать значение из пустого списка"
  | .emptyInterval low high =>
    utf8 "Пустой диапазон случайных чисел: [" ++ Text.ofInt low ++ utf8 "; " ++ Text.ofInt high
      ++ utf8 "]"
  | .endlessReroll trigger die target =>
    let outcome := match trigger with
      | .equal => utf8 " всегда выпадает "
      | .above => utf8 " не может выпасть значение меньше "
      | .below => utf8 " не может выпасть значение больше "
    utf8 "На кости " ++ die.text ++ outcome ++ target.text
      ++ utf8 ", переброс никогда не закончится"
  | .missingLeft op => utf8 "Оператору " ++ op.code ++ utf8 " не передан левый операнд"
  | .missingRight op => utf8 "Оператору " ++ op.code ++ utf8 " не передан правый операнд"
  | .wrongArity op => utf8 "Операнды не соответствуют арности оператора " ++ op.code
  | .notInterchangeable op replaced =>
    utf8 "Оператор " ++ op.code ++ utf8 " нельзя поставить на место " ++ replaced.code
  | .notBinary op =>
    utf8 "Деревья можно объединить только бинарным оператором, получен " ++ op.code
  | .unknownOperator code => utf8 "Неизвестный оператор: " ++ code
  | .notEvaluated => utf8 "Узел дерева ещё не вычислен"
  | .notCompilable => utf8 "Скомпилировать можно только строку выражения или число"
  | .notTokenizable => utf8 "Разбить на токены можно только строку выражения или число"
  | .scriptEnded => utf8 "random script exhausted"
  | .patienceEnded => utf8 "random source never satisfied the request"

end Fault

end DiceFormula
