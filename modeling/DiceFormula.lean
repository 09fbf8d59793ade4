import DiceFormula.Chance.Congruential
import DiceFormula.Chance.Script
import DiceFormula.Main
import DiceFormula.Proofs.Agreeing
import DiceFormula.Proofs.Bounding
import DiceFormula.Proofs.Comparing
import DiceFormula.Proofs.Copying
import DiceFormula.Proofs.Counting
import DiceFormula.Proofs.Exactness
import DiceFormula.Proofs.Explaining
import DiceFormula.Proofs.Foreseeing
import DiceFormula.Proofs.Grouping
import DiceFormula.Proofs.Guards
import DiceFormula.Proofs.Inventory
import DiceFormula.Proofs.Keeping
import DiceFormula.Proofs.Lines
import DiceFormula.Proofs.Longhand
import DiceFormula.Proofs.Naturals
import DiceFormula.Proofs.OnDie
import DiceFormula.Proofs.Outermost
import DiceFormula.Proofs.Overriding
import DiceFormula.Proofs.Places
import DiceFormula.Proofs.Printing
import DiceFormula.Proofs.Readback
import DiceFormula.Proofs.Refreshing
import DiceFormula.Proofs.Remembering
import DiceFormula.Proofs.Settling
import DiceFormula.Proofs.Unmatched
import DiceFormula.Shelf
