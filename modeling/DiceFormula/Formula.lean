import DiceFormula.Mode
import DiceFormula.Tree.Build
import DiceFormula.Tree.Join
import DiceFormula.Tree.Listing

/-! Formulas as they are handed in: a text, a number, or a finished tree. A modifier is added at the
very end; a modifier of zero leaves no trace in trees and tokens. -/
namespace DiceFormula

variable {σ : Type}

inductive Formula
  | text (source : Text)
  | number (value : Number)
  | tree (tree : Tree)

namespace Formula

def toTree : Formula → Except ParseError Tree
  | .text source => Tree.ofText source
  | .number a => .ok (.ofNumber a)
  | .tree t => .ok t

def modified (modifier : Number) (t : Tree) : Tree :=
  if modifier.same .zero then t else .node .add t.orZero (.ofNumber modifier) none

def total (source : Source σ) (f : Formula) (mode : Mode) (modifier : Number) :
    Rolling σ Failure Number := fun s =>
  match f with
  | .number a =>
    match a.add modifier with
    | .ok sum => (.ok sum, s)
    | .error fault => (.error (.fault fault), s)
  | f =>
    match f.toTree with
    | .error error => (.error (.parse error), s)
    | .ok t =>
      match (t.inMode mode).evaluate source s with
      | (.error failure, _, s) => (.error failure, s)
      | (.ok a, _, s) =>
        match a.add modifier with
        | .ok sum => (.ok sum, s)
        | .error fault => (.error (.fault fault), s)

def explanation (source : Source σ) (f : Formula) (mode : Mode) (modifier : Number) :
    Rolling σ Failure Text := fun s =>
  match f.toTree with
  | .error error => (.error (.parse error), s)
  | .ok t =>
    match (modified modifier (t.inMode mode)).evaluate source s with
    | (.error failure, _, s) => (.error failure, s)
    | (.ok _, t, s) =>
      match t.explain source s with
      | (result, _, s) => (result, s)

def compile (f : Formula) (modifier : Number) : Except Failure Tree :=
  match f with
  | .tree _ => .error (.fault .notCompilable)
  | f =>
    match f.toTree with
    | .error error => .error (.parse error)
    | .ok t => .ok (modified modifier t)

def modifierTokens (modifier : Number) : List Token :=
  [⟨.operator .add, 0⟩, ⟨.number modifier, 0⟩]

/-- The tokens; those of a text are put in parentheses before a modifier is added. -/
def tokens (f : Formula) (modifier : Number) : Except Failure (List Token) :=
  match f with
  | .tree _ => .error (.fault .notTokenizable)
  | .number a =>
    .ok (⟨.number a, 0⟩ :: if modifier.same .zero then [] else modifierTokens modifier)
  | .text source =>
    match Token.ofText source with
    | .error error => .error (.parse error)
    | .ok tokens =>
      .ok (if modifier.same .zero then tokens
        else ⟨.opening, 0⟩ :: tokens ++ ⟨.closing, 0⟩ :: modifierTokens modifier)

end Formula

end DiceFormula
