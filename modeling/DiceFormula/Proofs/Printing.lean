import DiceFormula.Proofs.Scanning
import Mathlib.Data.List.Chain

/-! Lexemes written one after another are read back, with no more blanks between them than keep them
apart. -/
namespace DiceFormula

structure Piece where
  gap : Text
  run : Text
  symbol : Symbol
  blank : ∀ b ∈ gap, Text.isBlank b = true
  spells : Scan.Spells run symbol

namespace Piece

/-- Neighbours that are read as one lexeme, or cut elsewhere, where no blank is between them. -/
def Merges (a b : Piece) : Prop :=
  (∃ n m, a.symbol = .number n ∧ b.symbol = .number m) ∨
  ∃ op other, a.symbol = .operator op ∧ b.symbol = .operator other ∧ op.isPlusOrMinus = false ∧
    ∃ c ∈ b.run.head?, Operator.beginsCode (op.code ++ [c]) = true

def print : List Piece → Text
  | [] => []
  | piece :: pieces => piece.gap ++ (piece.run ++ print pieces)

def tokens (place : Nat) : List Piece → List Token
  | [] => []
  | piece :: pieces =>
    ⟨piece.symbol, place + piece.gap.length⟩ ::
      tokens (place + piece.gap.length + piece.run.length) pieces

@[simp] theorem map_symbol_tokens (place : Nat) (pieces : List Piece) :
    (tokens place pieces).map (·.symbol) = pieces.map (·.symbol) := by
  induction pieces generalizing place with
  | nil => rfl
  | cons piece pieces ih => simp [tokens, ih]

theorem endsBefore_gap {gap t : Text} {symbol : Symbol} (hgap : ∀ b ∈ gap, Text.isBlank b = true)
    (h : gap = [] → Scan.EndsBefore t symbol) : Scan.EndsBefore (gap ++ t) symbol := by
  cases gap with
  | nil => exact h rfl
  | cons b gap =>
    have hb : Text.isBlank b = true := hgap b (by simp)
    cases symbol with
    | literal content =>
      cases content with
      | number =>
        intro c hc
        cases hc
        exact Scan.isDigit_of_isBlank hb
      | faces => trivial
    | operator op =>
      intro _ c hc
      cases hc
      by_contra hbegins
      have hcode := Operator.isCodeByte_of_beginsCode (by simpa using hbegins)
      rw [(Operator.not_of_isCodeByte hcode).2.1] at hb
      cases hb
    | opening | closing => trivial

theorem endsBefore_nil (symbol : Symbol) : Scan.EndsBefore [] symbol := by
  unfold Scan.EndsBefore
  split <;> simp

theorem endsBefore_next {a b : Piece} (hno : ¬ Merges a b) (t : Text) :
    Scan.EndsBefore (b.run ++ t) a.symbol := by
  have hhead : ∀ c ∈ (b.run ++ t).head?, c ∈ b.run.head? := by
    intro c hc
    rwa [List.head?_append_of_ne_nil _ b.spells.ne_nil] at hc
  unfold Merges at hno
  rw [not_or] at hno
  cases hsymbol : a.symbol with
  | literal content =>
    cases content with
    | number n =>
      intro c hc
      by_contra hdigit
      obtain ⟨m, hm⟩ := b.spells.number_of_digit (.inl (hhead c hc)) (by simpa using hdigit)
      exact hno.1 ⟨n, m, hsymbol, hm⟩
    | faces => trivial
  | operator op =>
    intro hother c hc
    by_contra hbegins
    have htrue : Operator.beginsCode (op.code ++ [c]) = true := by simpa using hbegins
    obtain ⟨other, hb⟩ := b.spells.operator_of_isCodeByte (hhead c hc)
      (Operator.isCodeByte_of_beginsCode htrue)
    exact hno.2 ⟨op, other, hsymbol, hb, hother, c, hhead c hc, htrue⟩
  | opening | closing => trivial

theorem tiled_print {blanks : Text} (hblanks : ∀ b ∈ blanks, Text.isBlank b = true)
    (pieces : List Piece) (previous : Option Symbol) (place : Nat)
    (horder : Scan.InOrder previous (pieces.map (·.symbol)))
    (hapart : pieces.IsChain fun a b => Merges a b → b.gap ≠ []) :
    ∃ tiles : List Tile, tiles.map Tile.toToken = tokens place pieces ∧
      Scan.Tiled previous place (print pieces ++ blanks) tiles := by
  induction pieces generalizing previous place with
  | nil => exact ⟨[], rfl, .done hblanks⟩
  | cons a pieces ih =>
    obtain ⟨tiles, htokens, htiled⟩ := ih (some a.symbol) (place + a.gap.length + a.run.length)
      horder.2 hapart.of_cons
    have hends : Scan.EndsBefore (print pieces ++ blanks) a.symbol := by
      cases pieces with
      | nil =>
        have hend := endsBefore_gap hblanks fun _ => endsBefore_nil a.symbol
        rwa [List.append_nil] at hend
      | cons b pieces =>
        have hnext := (List.isChain_cons_cons.mp hapart).1
        simp only [print, List.append_assoc]
        refine endsBefore_gap b.blank fun hgap => endsBefore_next (fun hmerges => ?_) _
        exact hnext hmerges hgap
    refine ⟨⟨⟨a.symbol, place + a.gap.length⟩, a.run⟩ :: tiles, by simp [tokens, htokens], ?_⟩
    simp only [print, List.append_assoc]
    exact .tile a.blank ⟨a.spells, horder.1, hends⟩ htiled

end Piece

theorem Token.ofText_print (pieces : List Piece) (blanks : Text)
    (hblanks : ∀ b ∈ blanks, Text.isBlank b = true)
    (hbalanced : Balanced .opening .closing (pieces.map (·.symbol)))
    (horder : Scan.InOrder none (pieces.map (·.symbol)))
    (hapart : pieces.IsChain fun a b => Piece.Merges a b → b.gap ≠ []) :
    Token.ofText (Piece.print pieces ++ blanks) = .ok (Piece.tokens 0 pieces) := by
  obtain ⟨tiles, htokens, htiled⟩ := Piece.tiled_print hblanks pieces none 0 horder hapart
  refine Token.ofText_eq_ok_iff.mpr ⟨tiles, htokens, htiled, ?_⟩
  have hsymbols := congrArg (List.map Token.symbol) htokens
  rw [Piece.map_symbol_tokens, List.map_map] at hsymbols
  rw [← hsymbols] at hbalanced
  exact hbalanced

theorem Token.ofText_print_apart :
    Token.ofText (ascii ['2', 'r', ' ', '<', '-', '3']) =
      .ok [⟨.number (.int 2), 0⟩, ⟨.operator (.rerollEqual .once), 1⟩,
        ⟨.operator (.compare .less .sign), 3⟩, ⟨.operator .negate, 4⟩, ⟨.number (.int 3), 5⟩] := by
  have hbalanced : Balanced Symbol.opening .closing [.number (.int 2),
      .operator (.rerollEqual .once), .operator (.compare .less .sign), .operator .negate,
      .number (.int 3)] := (nested_zero_iff (by decide) _).mp (by decide)
  have horder : Scan.InOrder none [.number (.int 2), .operator (.rerollEqual .once),
      .operator (.compare .less .sign), .operator .negate, .number (.int 3)] := by
    refine ⟨trivial, ?_, ?_, ?_, trivial, trivial⟩ <;> simp only [Scan.MayFollow] <;> decide
  refine Token.ofText_print [
    ⟨[], ascii ['2'], .number (.int 2), by simp,
      .number (by decide) (by simp [ascii]; rfl) (by decide)⟩,
    ⟨[], ascii ['r'], .operator (.rerollEqual .once), by simp,
      @Scan.Spells.code (.rerollEqual .once) rfl rfl⟩,
    ⟨ascii [' '], ascii ['<'], .operator (.compare .less .sign), by simp [ascii]; rfl,
      @Scan.Spells.code (.compare .less .sign) rfl rfl⟩,
    ⟨[], ascii ['-'], .operator .negate, by simp, .minus (.inr rfl)⟩,
    ⟨[], ascii ['3'], .number (.int 3), by simp,
      .number (by decide) (by simp [ascii]; rfl) (by decide)⟩]
    [] (by simp) hbalanced horder ?_
  simp only [List.isChain_cons_cons]
  refine ⟨?_, ?_, ?_, ?_, .singleton _⟩
  · simp [Piece.Merges, Symbol.number]
  · simp [ascii]
  · rintro (⟨_, _, h, -⟩ | ⟨op, other, hop, -, -, c, hc, hbegins⟩)
    · cases h
    · cases hop
      cases hc
      exact absurd hbegins (by decide)
  · simp [Piece.Merges, Symbol.number]

end DiceFormula
