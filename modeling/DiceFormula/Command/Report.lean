import DiceFormula.Command.Options
import DiceFormula.Formula

/-! What the command line prints: the results of each expression in wrapped lines, the usage, and
errors with their causes. -/
namespace DiceFormula

variable {σ : Type}

namespace Report

/-- Texts one after the other with a space behind each. A line breaks before a text that would reach
beyond the width; a width of zero never breaks. -/
def wrapped (width used : Nat) : List Text → Text
  | [] => []
  | t :: rest =>
    let piece := t ++ [32]
    if width = 0 then piece ++ wrapped width used rest
    else if 0 < used ∧ width < used + piece.length then
      10 :: (piece ++ wrapped width piece.length rest)
    else piece ++ wrapped width (used + piece.length) rest

def result (source : Source σ) (options : Options) (t : Tree) : Rolling σ Failure Text :=
  if options.verbose then (Formula.tree t).explanation source options.mode .zero
  else do return (← (Formula.tree t).total source options.mode .zero).text

def results (source : Source σ) (options : Options) (t : Tree) :
    Nat → List Text → σ → (List Text × Option Failure) × σ
  | 0, found, s => ((found.reverse, none), s)
  | count + 1, found, s =>
    match result source options t s with
    | (.ok text, s) => results source options t count (text :: found) s
    | (.error failure, s) => ((found.reverse, some failure), s)

/-- What one expression prints; a failure leaves what was printed before it. -/
def expression (source : Source σ) (options : Options) (written : Text) :
    σ → (Text × Option Failure) × σ := fun s =>
  match (Formula.text written).compile .zero with
  | .error failure => (([], some failure), s)
  | .ok t =>
    match results source options t options.number [] s with
    | ((texts, none), s) => ((wrapped options.wrap 0 texts ++ [10], none), s)
    | ((texts, some failure), s) => ((wrapped options.wrap 0 texts, some failure), s)

def expressions (source : Source σ) (options : Options) :
    List Text → σ → (Text × Option Failure) × σ
  | [], s => (([], none), s)
  | written :: rest, s =>
    match expression source options written s with
    | ((output, some failure), s) => ((output, some failure), s)
    | ((output, none), s) =>
      match expressions source options rest s with
      | ((others, failure), s) => ((output ++ others, failure), s)

def rolls (source : Source σ) (options : Options) : σ → (Text × Option Failure) × σ :=
  expressions source options options.expressions

def escape (code : List Char) : Text := 27 :: ascii ('[' :: code)

def plainStyle : Text := escape ['0', 'm']
def bold : Text := escape ['1', 'm']
def red : Text := escape ['3', '1', 'm']
def cyan : Text := escape ['3', '6', 'm']

def header : Text :=
  bold ++ cyan
    ++ utf8 "\n╔═══════════════════════════════════════════════════════════╗\n"
    ++ utf8 "║          Бросок костей по формуле v1.0                    ║\n"
    ++ utf8 "╚═══════════════════════════════════════════════════════════╝\n"
    ++ plainStyle ++ [10]

def usage : Text :=
  utf8 "Использование: dice_roller [-a|-c|-m] [-n N] [-v] [-w W] ВЫРАЖЕНИЕ...\n\n"
    ++ utf8 "Бросает кости по формуле вида 2d20h1+5, 8d6f2 или 1d100<=18.\n\n"
    ++ utf8 "  -a, --average    среднее значение броска\n"
    ++ utf8 "  -c, --critical   критическое попадание (вдвое больше костей)\n"
    ++ utf8 "  -m, --maximum    максимальное значение броска\n"
    ++ utf8 "  -n, --number N   бросить каждое выражение N раз (по умолчанию 1)\n"
    ++ utf8 "  -v, --verbose    показать выпавшие значения\n"
    ++ utf8
      "  -w, --wrap W     переносить строки после W символов, 0 без переноса (по умолчанию 80)\n"
    ++ utf8 "  -h, --help       показать эту справку\n"

def error (failure : Failure) : Text :=
  red ++ bold ++ utf8 "✗ Ошибка: " ++ plainStyle ++ red ++ failure.message ++ plainStyle ++ [10]
    ++ match failure.cause? with
      | none => []
      | some cause =>
        [32, 32] ++ red ++ utf8 "причина: " ++ cause.message.untilZero ++ plainStyle ++ [10]

structure Outcome where
  status : Nat
  output : Text
  errors : Text

def run (source : Source σ) (arguments : List Text) : σ → Outcome × σ := fun s =>
  match Options.ofArguments arguments with
  | .error fault => (⟨1, [], error (.option fault)⟩, s)
  | .ok options =>
    if options.help then (⟨0, header ++ usage, []⟩, s)
    else
      match rolls source options s with
      | ((output, none), s) => (⟨0, output, []⟩, s)
      | ((output, some failure), s) => (⟨1, output, error failure⟩, s)

end Report

end DiceFormula
