import DiceFormula.Proofs.Printing
import DiceFormula.Proofs.Juxtaposition

/-! An infix expression of whole numbers, written without a single blank, is scanned as the symbols
that were written. -/
namespace DiceFormula

namespace Text

theorem ofNat_ne_nil (n : Nat) : ofNat n ≠ [] := by
  rw [ofNat]
  split <;> simp

theorem toNat_digit {n : Nat} (h : n < 10) : (digit n).toNat = 48 + n := by
  simp only [digit, UInt8.toNat_add, UInt8.toNat_ofNat, Nat.toUInt8_eq, UInt8.toNat_ofNat']
  omega

theorem isDigit_digit {n : Nat} (h : n < 10) : isDigit (digit n) = true := by
  simp only [isDigit, Bool.and_eq_true, decide_eq_true_eq, UInt8.le_iff_toNat_le, toNat_digit h]
  simp
  omega

theorem isDigit_ofNat (n : Nat) : ∀ b ∈ ofNat n, isDigit b = true := by
  induction n using Nat.strongRecOn with
  | ind n ih =>
    rw [ofNat]
    split
    · next h => simpa using isDigit_digit h
    · next h =>
      intro b hb
      rcases List.mem_append.mp hb with hb | hb
      · exact ih (n / 10) (by omega) b hb
      · rw [List.mem_singleton.mp hb]
        exact isDigit_digit (Nat.mod_lt n (by decide))

theorem value_append_digit (t : Text) {n : Nat} (h : n < 10) :
    value (t ++ [digit n]) = 10 * value t + n := by
  simp only [value, List.foldl_append, List.foldl_cons, List.foldl_nil, toNat_digit h]
  omega

@[simp] theorem value_ofNat (n : Nat) : value (ofNat n) = n := by
  induction n using Nat.strongRecOn with
  | ind n ih =>
    rw [ofNat]
    split
    · next h => simpa [value] using value_append_digit [] h
    · next h =>
      rw [value_append_digit _ (Nat.mod_lt n (by decide)), ih (n / 10) (by omega)]
      omega

end Text

namespace Operator

theorem text_of_not_plusOrMinus {op : Operator} (h : op.isPlusOrMinus = false) :
    op.typeable = true ∧ op.text = op.code := by
  cases op with
  | negate | affirm => cases h
  | _ => exact ⟨rfl, rfl⟩

theorem isSign_iff {op : Operator} (h : op.isPlusOrMinus = true) :
    op.isSign = true ↔ op.takesLeft = false := by
  cases op <;> simp [isPlusOrMinus, isSign, takesLeft, arity, Sides.hasLeft] at *

theorem isSign_of_not_takesLeft {op : Operator} (h : op.takesLeft = false) : op.isSign = true := by
  cases op <;> simp [isSign, takesLeft, arity, Sides.hasLeft] at *

theorem run_of_isSign {op : Operator} (h : op.isSign = true) {run : Text}
    (hspells : Scan.Spells run (.operator op)) :
    run = [Scan.plusByte] ∨ run = [Scan.minusByte] := by
  cases hspells with
  | plus => exact .inl rfl
  | minus => exact .inr rfl
  | code _ hplus =>
    cases op with
    | negate | affirm => cases hplus
    | _ => cases h

theorem beginsCode_append_false {op : Operator} {b : UInt8}
    (h : op.takesRight = true → b = Scan.plusByte ∨ b = Scan.minusByte) :
    beginsCode (op.code ++ [b]) = false := by
  have hsign : ∀ op ∈ all, beginsCode (op.code ++ [Scan.plusByte]) = false ∧
      beginsCode (op.code ++ [Scan.minusByte]) = false := by decide +kernel
  by_cases hright : op.takesRight = true
  · rcases h hright with rfl | rfl
    · exact (hsign op (mem_all op)).1
    · exact (hsign op (mem_all op)).2
  · have hall : ∀ op ∈ all, op.takesRight = false → ∀ other ∈ all,
        (op.code.isPrefixOf other.code && op.code.length < other.code.length) = false := by
      decide +kernel
    by_contra hbegins
    obtain ⟨other, -, hprefix⟩ := beginsCode_iff.mp (Bool.of_not_eq_false hbegins)
    have hno := hall op (mem_all op) (by simpa using hright) other (mem_all other)
    have hlength := hprefix.length_le
    rw [List.length_append, List.length_singleton] at hlength
    have hle := List.isPrefixOf_iff_prefix.mpr ((List.prefix_append _ _).trans hprefix)
    simp only [hle, Bool.true_and, decide_eq_false_iff_not] at hno
    omega

end Operator

namespace Symbol

def shown : Symbol → Text
  | .literal content => content.text
  | .operator op => op.text
  | .opening => ascii ['(']
  | .closing => ascii [')']

/-- Of literals only the whole numbers that fit a word can be written so that they are read back. -/
def Whole : Symbol → Prop
  | .literal content => ∃ n : Nat, content = .number (.int n) ∧ (n : Int) ≤ Word.greatest
  | _ => True

theorem shown_number (n : Nat) : (Symbol.literal (.number (.int n))).shown = Text.ofNat n := by
  simp [shown, Literal.text, Literal.value, Value.text, Number.text, Text.ofInt]

theorem spells_shown {a : Symbol} (h : a.Whole) : Scan.Spells a.shown a := by
  cases a with
  | literal content =>
    obtain ⟨n, rfl, hn⟩ := h
    have hspells := Scan.Spells.number (Text.ofNat_ne_nil n) (Text.isDigit_ofNat n)
      (by rwa [Text.value_ofNat])
    rw [Text.value_ofNat] at hspells
    rw [shown_number]
    exact hspells
  | operator op =>
    cases hplus : op.isPlusOrMinus with
    | false =>
      obtain ⟨htypeable, htext⟩ := Operator.text_of_not_plusOrMinus hplus
      rw [shown, htext]
      exact .code htypeable hplus
    | true =>
      cases op with
      | negate => exact .minus (.inr rfl)
      | affirm => exact .plus (.inr rfl)
      | subtract => exact .minus (.inl rfl)
      | add => exact .plus (.inl rfl)
      | _ => cases hplus
  | opening => exact .opening
  | closing => exact .closing

theorem not_isBlank_shown {a : Symbol} (h : a.Whole) : ∀ b ∈ a.shown, Text.isBlank b = false := by
  cases a with
  | literal content =>
    obtain ⟨n, rfl, -⟩ := h
    intro b hb
    rw [shown_number] at hb
    by_contra hblank
    have hdigit := Scan.isDigit_of_isBlank (Bool.of_not_eq_false hblank)
    rw [Text.isDigit_ofNat n b hb] at hdigit
    cases hdigit
  | operator op =>
    have hall : ∀ op ∈ Operator.all, op.text.all (!Text.isBlank ·) = true := by decide
    intro b hb
    simpa using List.all_eq_true.mp (hall op (Operator.mem_all op)) b hb
  | opening | closing =>
    intro b hb
    obtain rfl := List.mem_singleton.mp hb
    decide

end Symbol

namespace Infix

variable {opened : Nat} {s : List Symbol}

theorem inOrder_of_completes {previous : Option Symbol}
    (h : completes (Scan.operandDue previous) opened s = true)
    (hfaces : ∀ values, .literal (.faces values) ∉ s) : Scan.InOrder previous s := by
  induction s generalizing previous opened with
  | nil => trivial
  | cons a s ih =>
    have hrest : ∀ values, .literal (.faces values) ∉ s :=
      fun values hmem => hfaces values (List.mem_cons_of_mem _ hmem)
    cases a with
    | literal content =>
      simp only [completes, Bool.and_eq_true] at h
      refine ⟨?_, ih h.2 hrest⟩
      cases content with
      | number => trivial
      | faces values => exact absurd List.mem_cons_self (hfaces values)
    | opening =>
      simp only [completes, Bool.and_eq_true] at h
      refine ⟨?_, ih h.2 hrest⟩
      rintro op rfl
      exact h.1
    | closing =>
      simp only [completes, Bool.and_eq_true, Bool.not_eq_true'] at h
      refine ⟨?_, ih h.2 hrest⟩
      rintro op rfl
      exact h.1.1
    | operator op =>
      simp only [completes, Bool.and_eq_true, beq_iff_eq] at h
      refine ⟨fun hplus => ?_, ih h.2 hrest⟩
      rw [Operator.isSign_iff hplus, h.1, Bool.not_eq_true']

theorem exists_completes_tail {due : Bool} {a : Symbol} (h : completes due opened (a :: s) = true) :
    ∃ due opened, completes due opened s = true := by
  cases a <;> simp only [completes, Bool.and_eq_true] at h <;> exact ⟨_, _, h.2⟩

theorem not_merges {due : Bool} {a b : Piece}
    (h : completes due opened (a.symbol :: b.symbol :: s) = true) : ¬ Piece.Merges a b := by
  rintro (⟨n, m, ha, hb⟩ | ⟨op, other, ha, hb, -, c, hc, hbegins⟩)
  · simp [completes, ha, hb, Symbol.number] at h
  · simp only [ha, hb, completes, Bool.and_eq_true, beq_iff_eq] at h
    have hsign : op.takesRight = true → c = Scan.plusByte ∨ c = Scan.minusByte := by
      intro hright
      have hother := Operator.isSign_of_not_takesLeft (by simpa [hright] using h.2.1)
      rcases Operator.run_of_isSign hother (hb ▸ b.spells) with hrun | hrun
      · rw [hrun] at hc
        exact .inl (Option.some.inj hc).symm
      · rw [hrun] at hc
        exact .inr (Option.some.inj hc).symm
    rw [Operator.beginsCode_append_false hsign] at hbegins
    cases hbegins

theorem isChain_of_completes {due : Bool} {pieces : List Piece}
    (h : completes due opened (pieces.map (·.symbol)) = true) :
    pieces.IsChain fun a b => ¬ Piece.Merges a b := by
  induction pieces generalizing due opened with
  | nil => exact .nil
  | cons a pieces ih =>
    obtain ⟨due', opened', htail⟩ := exists_completes_tail h
    cases pieces with
    | nil => exact .singleton a
    | cons b pieces => exact List.isChain_cons_cons.mpr ⟨not_merges h, ih htail⟩

theorem exists_pieces (h : ∀ a ∈ s, a.Whole) :
    ∃ pieces : List Piece, pieces.map (·.symbol) = s ∧
      Piece.print pieces = s.flatMap Symbol.shown := by
  induction s with
  | nil => exact ⟨[], rfl, rfl⟩
  | cons a s ih =>
    rw [List.forall_mem_cons] at h
    obtain ⟨pieces, hsymbols, hprint⟩ := ih h.2
    refine ⟨⟨[], a.shown, a, by simp, Symbol.spells_shown h.1⟩ :: pieces, ?_, ?_⟩
    · rw [List.map_cons, hsymbols]
    · simp [Piece.print, hprint]

theorem ofText_shown (h : IsExpression s) (hwhole : ∀ a ∈ s, a.Whole) :
    ∃ tokens, Token.ofText (s.flatMap Symbol.shown) = .ok tokens ∧ tokens.map Token.symbol = s := by
  obtain ⟨pieces, rfl, hprint⟩ := exists_pieces hwhole
  have hcompletes := h.completes
  have hfaces : ∀ values, .literal (.faces values) ∉ pieces.map (·.symbol) := by
    intro values hmem
    obtain ⟨n, hn, -⟩ := hwhole _ hmem
    cases hn
  have hnested := hcompletes
  rw [completes_eq, Bool.and_eq_true] at hnested
  have hbalanced := (nested_zero_iff (by decide) _).mp hnested.2
  have hapart : pieces.IsChain fun a b => Piece.Merges a b → b.gap ≠ [] :=
    (isChain_of_completes hcompletes).imp fun _ _ hno hmerges => absurd hmerges hno
  have horder : Scan.InOrder none (pieces.map (·.symbol)) := inOrder_of_completes hcompletes hfaces
  have hblanks : ∀ b ∈ ([] : Text), Text.isBlank b = true := by simp
  obtain ⟨tiles, htokens, htiled⟩ := Piece.tiled_print hblanks pieces none 0 horder hapart
  have hsymbols := congrArg (List.map Token.symbol) htokens
  rw [Piece.map_symbol_tokens, List.map_map] at hsymbols
  rw [List.append_nil, hprint] at htiled
  refine ⟨Piece.tokens 0 pieces, ?_, Piece.map_symbol_tokens 0 pieces⟩
  exact Token.ofText_eq_ok_iff.mpr ⟨tiles, htokens, htiled, hsymbols ▸ hbalanced⟩

end Infix

end DiceFormula
