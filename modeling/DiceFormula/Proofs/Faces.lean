import DiceFormula.Token.Scan
import Mathlib.Data.List.Forall2

/-! Lists of faces. A written real has none of the bytes that end or part a list, so a list of
readable faces is cut where its commas and its end are. -/
namespace DiceFormula

namespace RealLiteral

def isLiteralByte (b : UInt8) : Bool :=
  Text.isDigit b || Text.isLetter b || b == '.'.toUInt8 || b == '+'.toUInt8 || b == '-'.toUInt8

theorem isLiteralByte_of_isDigit {b : UInt8} (h : Text.isDigit b = true) :
    isLiteralByte b = true := by
  simp [isLiteralByte, h]

theorem isLiteralByte_of_isHexDigit {b : UInt8} (h : isHexDigit b = true) :
    isLiteralByte b = true := by
  unfold isHexDigit hexDigit? at h
  simp only [isLiteralByte, Text.isLetter, Text.isUpper]
  grind

theorem isLiteralByte_of_lower {b c : UInt8} (hc : isLiteralByte c = true)
    (h : Text.lower [b] = [c]) : isLiteralByte b = true := by
  by_cases hupper : Text.isUpper b = true
  · simp [isLiteralByte, Text.isLetter, hupper]
  · have hbc : b = c := by simpa [Text.lower, hupper] using h
    rwa [hbc]

theorem bytes_of_sign {t : Text} (h : ∀ b ∈ (sign t).2, isLiteralByte b = true) :
    ∀ b ∈ t, isLiteralByte b = true := by
  cases t with
  | nil => simp
  | cons c t =>
    simp only [sign] at h
    split at h
    · rename_i hc
      rw [List.forall_mem_cons]
      exact ⟨by rw [hc]; decide, h⟩
    · split at h
      · rename_i hc
        rw [List.forall_mem_cons]
        exact ⟨by rw [hc]; decide, h⟩
      · exact h

theorem bytes_of_mantissa {isDigit : UInt8 → Bool} {t : Text}
    (hdigit : ∀ b, isDigit b = true → isLiteralByte b = true)
    (h : ∀ b ∈ (mantissa isDigit t).2.2, isLiteralByte b = true) :
    ∀ b ∈ t, isLiteralByte b = true := by
  have hrun : ∀ u : Text, ∀ b ∈ u.takeWhile isDigit, isLiteralByte b = true := by
    intro u b hb
    exact hdigit b (List.all_eq_true.mp List.all_takeWhile b hb)
  have hsplit : ∀ u : Text, (∀ b ∈ u.dropWhile isDigit, isLiteralByte b = true) →
      ∀ b ∈ u, isLiteralByte b = true := by
    intro u hu b hb
    rw [← List.takeWhile_append_dropWhile (p := isDigit) (l := u), List.mem_append] at hb
    exact hb.elim (hrun u b) (hu b)
  apply hsplit
  unfold mantissa at h
  cases hrest : t.dropWhile isDigit with
  | nil => simp
  | cons c rest =>
    rw [hrest] at h
    dsimp only at h
    split at h
    · rename_i hc
      rw [List.forall_mem_cons]
      exact ⟨by rw [hc]; decide, hsplit rest h⟩
    · exact h

theorem bytes_of_exponent {mark : UInt8} {t : Text} {e : Int} (hmark : isLiteralByte mark = true)
    (h : exponent? mark t = some e) : ∀ b ∈ t, isLiteralByte b = true := by
  cases t with
  | nil => simp
  | cons c rest =>
    simp only [exponent?, Option.ite_none_right_eq_some, Bool.and_eq_true, decide_eq_true_eq,
      List.all_eq_true] at h
    obtain ⟨⟨⟨hc, -⟩, hdigits⟩, -⟩ := h
    rw [List.forall_mem_cons]
    refine ⟨isLiteralByte_of_lower hmark hc, bytes_of_sign fun b hb => ?_⟩
    exact isLiteralByte_of_isDigit (hdigits b hb)

theorem bytes_of_parse {t : Text} {l : RealLiteral} (h : parse? t = some l) :
    ∀ b ∈ t, isLiteralByte b = true := by
  apply bytes_of_sign
  unfold parse? at h
  rcases hsign : sign t with ⟨negative, body⟩
  rw [hsign] at h
  dsimp only at h ⊢
  split at h
  · rename_i hprefix
    split at h
    · cases h
    · obtain ⟨e, he, -⟩ := Option.map_eq_some_iff.mp h
      have hrest := bytes_of_mantissa (fun _ => isLiteralByte_of_isHexDigit)
        (bytes_of_exponent (by decide) he)
      rcases body with _ | ⟨b, _ | ⟨c, rest⟩⟩
      · simp
      · simp [Text.lower, ascii] at hprefix
      · have hbc : Text.lower [b] = ['0'.toUInt8] ∧ Text.lower [c] = ['x'.toUInt8] := by
          simpa [Text.lower, ascii] using hprefix
        rw [List.forall_mem_cons, List.forall_mem_cons]
        exact ⟨isLiteralByte_of_lower (by decide) hbc.1, isLiteralByte_of_lower (by decide) hbc.2,
          hrest⟩
  · split at h
    · cases h
    · obtain ⟨e, he, -⟩ := Option.map_eq_some_iff.mp h
      exact bytes_of_mantissa (fun _ => isLiteralByte_of_isDigit) (bytes_of_exponent (by decide) he)

end RealLiteral

theorem Text.mem_trim_or_blank {t : Text} {b : UInt8} (hb : b ∈ t) :
    b ∈ t.trim ∨ Text.isBlank b = true := by
  have hdrop : ∀ u : Text, b ∈ u → b ∈ u.dropWhile Text.isBlank ∨ Text.isBlank b = true := by
    intro u hu
    rw [← List.takeWhile_append_dropWhile (p := Text.isBlank) (l := u), List.mem_append] at hu
    exact hu.elim (fun h => .inr (List.all_eq_true.mp List.all_takeWhile b h)) .inl
  rcases hdrop t hb with h | h
  · simpa [Text.trim, Text.trimLeft] using hdrop _ (List.mem_reverse.mpr h)
  · exact .inr h

namespace Scan

abbrev Reads (items : List Text) (values : Faces) : Prop :=
  List.Forall₂ (fun item a => face? item.trim = some a) items values

theorem faceList_eq_ok_iff {items : List Text} {place : Nat} {values : Faces} :
    faceList place items = .ok values ↔ Reads items values := by
  constructor
  · intro h
    induction items generalizing place values with
    | nil =>
      cases h
      exact .nil
    | cons item items ih =>
      simp only [faceList] at h
      split at h
      · cases h
      · rename_i a hface
        split at h
        · rename_i others hothers
          cases h
          exact .cons hface (ih hothers)
        · cases h
  · intro h
    induction h generalizing place with
    | nil => rfl
    | cons hface _ ih => simp [faceList, hface, ih]

theorem Reads.exists_face {items : List Text} {values : Faces} (h : Reads items values) :
    ∀ item ∈ items, ∃ a, face? item.trim = some a := by
  induction h with
  | nil => simp
  | cons hface _ ih => exact List.forall_mem_cons.mpr ⟨⟨_, hface⟩, ih⟩

theorem bytes_of_face {item : Text} {a : Number} {b : UInt8} (h : face? item.trim = some a)
    (hb : b ∈ item) : RealLiteral.isLiteralByte b = true ∨ Text.isBlank b = true := by
  unfold face? at h
  split at h
  · rename_i l hl
    exact (Text.mem_trim_or_blank hb).imp_left (RealLiteral.bytes_of_parse hl b)
  · cases h

theorem not_written {b : UInt8} (h : b = commaByte ∨ b = facesEndByte ∨ isParenthesis b = true) :
    RealLiteral.isLiteralByte b = false ∧ Text.isBlank b = false := by
  simp only [isParenthesis, Bool.or_eq_true, beq_iff_eq] at h
  rcases h with rfl | rfl | rfl | rfl <;> decide

theorem Reads.bytes {items : List Text} {values : Faces} (h : Reads items values) :
    ∀ item ∈ items, ∀ b ∈ item, ¬ (b = commaByte ∨ b = facesEndByte ∨ isParenthesis b = true) := by
  intro item hitem b hb hmark
  obtain ⟨a, ha⟩ := h.exists_face item hitem
  obtain ⟨hliteral, hblank⟩ := not_written hmark
  rcases bytes_of_face ha hb with hclass | hclass
  · rw [hliteral] at hclass
    cases hclass
  · rw [hblank] at hclass
    cases hclass

theorem Reads.splitOn {items : List Text} {values : Faces} (h : Reads items values)
    (hne : items ≠ []) : List.splitOn commaByte (Text.joined [commaByte] items) = items := by
  refine List.splitOn_intercalate commaByte (fun item hitem hcomma => ?_) hne
  exact h.bytes item hitem commaByte hcomma (.inl rfl)

theorem mem_joined {separator b : UInt8} {items : List Text}
    (hb : b ∈ Text.joined [separator] items) : b = separator ∨ ∃ item ∈ items, b ∈ item := by
  induction items with
  | nil => simp [Text.joined] at hb
  | cons item items ih =>
    cases items with
    | nil => exact .inr ⟨item, by simp, by simpa [Text.joined] using hb⟩
    | cons other items =>
      simp only [Text.joined, List.intercalate_cons_cons, List.mem_append, List.mem_singleton] at hb
      rcases hb with (hb | hb) | hb
      · exact .inr ⟨item, by simp, hb⟩
      · exact .inl hb
      · rcases ih hb with h | ⟨part, hpart, h⟩
        · exact .inl h
        · exact .inr ⟨part, List.mem_cons_of_mem item hpart, h⟩

theorem Reads.bytes_joined {items : List Text} {values : Faces} (h : Reads items values) :
    ∀ b ∈ Text.joined [commaByte] items, ¬ (b = facesEndByte ∨ isParenthesis b = true) := by
  intro b hb hmark
  rcases mem_joined hb with rfl | ⟨item, hitem, hmem⟩
  · exact absurd hmark (by decide)
  · exact h.bytes item hitem b hmem (.inr hmark)

end Scan

end DiceFormula
