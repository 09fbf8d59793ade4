import DiceFormula.Chance.Source

/-! The Mersenne twister with words of 32 bits, and integers drawn uniformly from it: a word is
multiplied by the size of the range and the upper half taken, after the few words that would favour
an answer were passed over. -/
namespace DiceFormula

structure Twister where
  words : Array UInt32
  used : Nat

namespace Twister

def size : Nat := 624

def seedWords (previous : UInt32) (index : Nat) : Nat → List UInt32
  | 0 => []
  | count + 1 =>
    let next : UInt32 := (1812433253 : UInt32) * (previous ^^^ (previous >>> 30)) + index.toUInt32
    next :: seedWords next (index + 1) count

def ofSeed (seed : UInt32) : Twister := ⟨(seed :: seedWords seed 1 (size - 1)).toArray, size⟩

/-- The word that replaces one, from its successor and the word 397 places on. -/
def twisted (here next far : UInt32) : UInt32 :=
  let joined := (here &&& 0x80000000) ||| (next &&& 0x7fffffff)
  far ^^^ (joined >>> 1) ^^^ (if joined % 2 = 0 then 0 else 0x9908b0df)

def refreshed (words : Array UInt32) : Array UInt32 :=
  (List.range size).foldl (fun w i =>
    w.setIfInBounds i
      (twisted (w.getD i 0) (w.getD ((i + 1) % size) 0) (w.getD ((i + 397) % size) 0))) words

def tempered (word : UInt32) : UInt32 :=
  let a := word ^^^ (word >>> 11)
  let b := a ^^^ ((a <<< 7) &&& 0x9d2c5680)
  let c := b ^^^ ((b <<< 15) &&& 0xefc60000)
  c ^^^ (c >>> 18)

def next (t : Twister) : Nat × Twister :=
  let t := if size ≤ t.used then ⟨refreshed t.words, 0⟩ else t
  ((tempered (t.words.getD t.used 0)).toNat, { t with used := t.used + 1 })

def wordCount : Nat := 4294967296

/-- Words whose product with the range falls below the threshold are passed over. -/
def acceptedProduct (range threshold : Nat) : Nat → Nat → Twister → Except Fault Nat × Twister
  | patience, product, t =>
    if threshold ≤ product % wordCount then (.ok product, t)
    else match patience with
      | 0 => (.error .patienceEnded, t)
      | patience + 1 =>
        let (word, t) := t.next
        acceptedProduct range threshold patience (word * range) t

def below (patience range : Nat) (t : Twister) : Except Fault Nat × Twister :=
  let (word, t) := t.next
  let product := word * range
  if range ≤ product % wordCount then (.ok (product / wordCount), t)
  else
    match acceptedProduct range ((wordCount - range) % range) patience product t with
    | (.ok product, t) => (.ok (product / wordCount), t)
    | (.error e, t) => (.error e, t)

def upToWord (patience last : Nat) (t : Twister) : Except Fault Nat × Twister :=
  if last = wordCount - 1 then
    let (word, t) := t.next
    (.ok word, t)
  else below patience (last + 1) t

def upToWords (patience last : Nat) : Nat → Twister → Except Fault Nat × Twister
  | trials, t =>
    match upToWord patience (last / wordCount) t with
    | (.error e, t) => (.error e, t)
    | (.ok high, t) =>
      let (word, t) := t.next
      let value := (high * wordCount + word) % (wordCount * wordCount)
      if value ≤ last ∧ high * wordCount % (wordCount * wordCount) ≤ value then (.ok value, t)
      else match trials with
        | 0 => (.error .patienceEnded, t)
        | trials + 1 => upToWords patience last trials t

def upTo (patience last : Nat) (t : Twister) : Except Fault Nat × Twister :=
  if last < wordCount then upToWord patience last t else upToWords patience last patience t

def uniform (patience : Nat) (low high : Int) (t : Twister) : Except Fault Int × Twister :=
  if high < low then (.error (.emptyInterval low high), t)
  else
    match upTo patience (high - low).toNat t with
    | (.ok n, t) => (.ok (low + n), t)
    | (.error e, t) => (.error e, t)

def pickBelow (patience count : Nat) (t : Twister) : Except Fault (Fin count) × Twister :=
  if h : 0 < count then
    match upTo patience (count - 1) t with
    | (.ok n, t) => (.ok ⟨n % count, Nat.mod_lt _ h⟩, t)
    | (.error e, t) => (.error e, t)
  else (.error .emptyChoice, t)

def source (patience : Nat) : Source Twister where
  uniformInt low high := uniform patience low high
  pickIndex count := pickBelow patience count
  patience := patience

end Twister

end DiceFormula
