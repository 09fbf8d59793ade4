import DiceFormula.Proofs.Scanning

/-! Tokens cover their source: every byte is blank or in the lexeme of one token, and every token is
what its lexeme says where it stands. -/
namespace DiceFormula

structure Tiling (source : Text) (tiles : List Tile) : Prop where
  increasing : (tiles.map (·.position)).Pairwise (· < ·)
  stands : ∀ tile ∈ tiles, tile.run <+: source.drop tile.position
  apart : tiles.Pairwise fun tile next => tile.stop ≤ next.position
  blank : ∀ place b, source[place]? = some b →
    (∀ tile ∈ tiles, ¬ (tile.position ≤ place ∧ place < tile.stop)) → Text.isBlank b = true
  spelled : ∀ tile ∈ tiles, Scan.Spells tile.run tile.symbol
  ends : ∀ tile ∈ tiles, Scan.EndsBefore (source.drop tile.stop) tile.symbol
  begins : ∀ tile ∈ tiles, ∀ a, tile.symbol = .number a →
    ∀ b ∈ (source.take tile.position).getLast?, Text.isDigit b = false
  nonempty : ∀ tile ∈ tiles, ∀ values, tile.symbol = .literal (.faces values) → values ≠ []
  inOrder : Scan.InOrder none (tiles.map (·.symbol))
  balanced : Balanced .opening .closing (tiles.map (·.symbol))

namespace Scan

variable {previous : Option Symbol} {place : Nat} {source t : Text} {tiles : List Tile}

theorem drop_add_length {s : Text} (h : s ++ t = source.drop place) :
    source.drop (place + s.length) = t := by
  rw [← List.drop_drop, ← h, List.drop_left]

theorem take_add_length {s : Text} (h : s ++ t = source.drop place) :
    source.take (place + s.length) = source.take place ++ s := by
  rw [List.take_add, ← h, List.take_left]

theorem Tiled.inOrder (h : Tiled previous place t tiles) :
    InOrder previous (tiles.map (·.symbol)) := by
  induction h with
  | done => trivial
  | tile _ hleads _ ih => exact ⟨hleads.follows, ih⟩

theorem Tiled.le_position (h : Tiled previous place t tiles) :
    ∀ tile ∈ tiles, place ≤ tile.position := by
  induction h with
  | done => simp
  | @tile _ place gap run _ _ tiles _ _ _ ih =>
    refine List.forall_mem_cons.mpr ⟨Nat.le_add_right place gap.length, fun tile htile => ?_⟩
    have hle := ih tile htile
    omega

theorem Tiled.apart (h : Tiled previous place t tiles) :
    tiles.Pairwise fun tile next => tile.stop ≤ next.position := by
  induction h with
  | done => exact .nil
  | tile _ _ hrest ih => exact .cons hrest.le_position ih

theorem Tiled.leads (h : Tiled previous place t tiles) (ht : t = source.drop place) :
    ∀ tile ∈ tiles, source.drop tile.position = tile.run ++ source.drop tile.stop ∧
      ∃ before, Leads before tile.run (source.drop tile.stop) tile.symbol := by
  induction h with
  | done => simp
  | @tile previous place gap run after symbol tiles _ hleads _ ih =>
    have hrun := drop_add_length ht
    have hafter := drop_add_length hrun.symm
    refine List.forall_mem_cons.mpr ⟨⟨?_, previous, ?_⟩, ih hafter.symm⟩
    · simp only [Tile.stop, hrun, hafter]
    · simpa only [Tile.stop, hafter] using hleads

theorem Tiled.blank_of_uncovered (h : Tiled previous place t tiles) (ht : t = source.drop place)
    {i : Nat} {b : UInt8} (hi : place ≤ i) (hb : source[i]? = some b)
    (hno : ∀ tile ∈ tiles, ¬ (tile.position ≤ i ∧ i < tile.stop)) : Text.isBlank b = true := by
  have hindex : ∀ {place : Nat} {t : Text}, t = source.drop place → place ≤ i →
      t[i - place]? = some b := by
    rintro place t rfl hle
    rw [List.getElem?_drop, Nat.add_sub_cancel' hle, hb]
  induction h with
  | done hgap => exact hgap b (List.mem_of_getElem? (hindex ht hi))
  | @tile previous place gap run after symbol tiles hgap _ _ ih =>
    rw [List.forall_mem_cons] at hno
    obtain ⟨hhead, hrest⟩ := hno
    have hplace := hindex ht hi
    by_cases hin : i - place < gap.length
    · rw [List.getElem?_append_left hin] at hplace
      exact hgap b (List.mem_of_getElem? hplace)
    · have hafter := drop_add_length (drop_add_length ht).symm
      refine ih hafter.symm ?_ hrest
      simp only [Tile.stop, not_and, Nat.not_lt] at hhead
      exact hhead (by omega)

theorem Tiled.begins (h : Tiled previous place t tiles) (ht : t = source.drop place)
    (hbefore : ∀ b ∈ (source.take place).getLast?, Text.isDigit b = true →
      ∀ c ∈ t.head?, Text.isDigit c = false) :
    ∀ tile ∈ tiles, ∀ a, tile.symbol = .number a →
      ∀ b ∈ (source.take tile.position).getLast?, Text.isDigit b = false := by
  induction h with
  | done => simp
  | @tile previous place gap run after symbol tiles hgap hleads _ ih =>
    have hrun := drop_add_length ht
    have hafter := drop_add_length hrun.symm
    obtain ⟨c, tail, rfl⟩ := List.exists_cons_of_ne_nil hleads.spells.ne_nil
    refine List.forall_mem_cons.mpr ⟨?_, ih hafter.symm ?_⟩
    · intro a ha b hb
      have hspells := hleads.spells
      rw [show symbol = .number a from ha] at hspells
      rw [take_add_length ht, List.getLast?_append] at hb
      cases hlast : gap.getLast? with
      | none =>
        rw [List.getLast?_eq_none_iff] at hlast
        subst hlast
        rw [List.getLast?_nil, Option.none_or] at hb
        by_contra hdigit
        have hno := hbefore b hb (by simpa using hdigit) c (by simp)
        rw [hspells.isDigit c (by simp)] at hno
        cases hno
      | some blank =>
        rw [hlast, Option.some_or] at hb
        cases hb
        exact isDigit_of_isBlank (hgap b (List.mem_of_getLast? hlast))
    -- The byte before the rest is the last of this lexeme, and only a number can end in a digit.
    · intro b hb hdigit
      rw [take_add_length hrun.symm, List.getLast?_append_of_ne_nil _ (by simp)] at hb
      obtain ⟨a, rfl⟩ := hleads.spells.number_of_digit (.inr hb) hdigit
      exact hleads.ends

end Scan

theorem Token.ofText_tiling {source : Text} {tokens : List Token}
    (h : Token.ofText source = .ok tokens) :
    ∃ tiles : List Tile, tiles.map Tile.toToken = tokens ∧ Tiling source tiles := by
  obtain ⟨tiles, htokens, htiled, hbalanced⟩ := Token.ofText_eq_ok_iff.mp h
  have hleads := htiled.leads rfl
  have hspells : ∀ tile ∈ tiles, Scan.Spells tile.run tile.symbol := by
    intro tile htile
    obtain ⟨-, before, hbefore⟩ := hleads tile htile
    exact hbefore.spells
  refine ⟨tiles, htokens, ?_, ?_, htiled.apart, ?_, hspells, ?_, ?_, ?_, htiled.inOrder, hbalanced⟩
  · rw [List.pairwise_map]
    refine htiled.apart.imp_of_mem fun htile _ hle => ?_
    have hpos := List.length_pos_iff.mpr (hspells _ htile).ne_nil
    simp only [Tile.stop] at hle
    omega
  · intro tile htile
    rw [(hleads tile htile).1]
    exact List.prefix_append _ _
  · intro place b hb hno
    exact htiled.blank_of_uncovered rfl (Nat.zero_le place) hb hno
  · intro tile htile
    obtain ⟨-, before, hbefore⟩ := hleads tile htile
    exact hbefore.ends
  · exact htiled.begins rfl (by simp)
  · intro tile htile values hvalues
    exact (hvalues ▸ hspells tile htile).faces_ne_nil

theorem Token.ofText_tiling_signed : ∃ tiles : List Tile,
    tiles.map Tile.toToken = [⟨.operator .negate, 0⟩, ⟨.number (.int 2), 1⟩,
      ⟨.operator (.dice .plain), 2⟩, ⟨.literal (.faces [.real (.finite 1), .real (.finite 4)]), 3⟩]
        ∧
    Tiling (ascii ['-', '2', 'd', '[', '1', ',', ' ', '4', ']', ' ']) tiles :=
  Token.ofText_tiling (by decide +kernel)

end DiceFormula
