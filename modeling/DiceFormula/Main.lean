import DiceFormula.Chance.Twister
import DiceFormula.Command.Report

/-! The command line: the arguments are rolled with a twister that starts from random bytes. -/
namespace DiceFormula

def seedOfBytes (bytes : ByteArray) : UInt32 :=
  bytes.toList.foldl (fun seed b => seed * 256 + b.toUInt32) 0

def bytesOf (t : Text) : ByteArray := ⟨t.toArray⟩

end DiceFormula

open DiceFormula in
def main (arguments : List String) : IO UInt32 := do
  let bytes ← IO.getRandomBytes 4
  let source := Twister.source (1 <<< 62)
  let (outcome, _) := Report.run source (arguments.map utf8) (Twister.ofSeed (seedOfBytes bytes))
  (← IO.getStdout).write (bytesOf outcome.output)
  (← IO.getStderr).write (bytesOf outcome.errors)
  return outcome.status.toUInt32
