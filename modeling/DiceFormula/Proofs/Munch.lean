import DiceFormula.Token.Scan

/-! Operator codes are read as far as they go. -/
namespace DiceFormula

namespace Operator

theorem mem_typeableCodes {code : Text} :
    code ∈ typeableCodes ↔ ∃ op : Operator, op.typeable = true ∧ op.code = code := by
  simp [typeableCodes, mem_all]

theorem beginsCode_iff {t : Text} :
    beginsCode t = true ↔ ∃ op : Operator, op.typeable = true ∧ t <+: op.code := by
  simp only [beginsCode, List.any_eq_true, mem_typeableCodes, List.isPrefixOf_iff_prefix]
  constructor
  · rintro ⟨_, ⟨op, htypeable, rfl⟩, hprefix⟩
    exact ⟨op, htypeable, hprefix⟩
  · rintro ⟨op, htypeable, hprefix⟩
    exact ⟨op.code, ⟨op, htypeable, rfl⟩, hprefix⟩

theorem isCodeByte_iff {b : UInt8} :
    isCodeByte b = true ↔ ∃ op : Operator, op.typeable = true ∧ b ∈ op.code := by
  simp only [isCodeByte, List.any_eq_true, mem_typeableCodes, List.contains_iff_mem]
  constructor
  · rintro ⟨_, ⟨op, htypeable, rfl⟩, hmem⟩
    exact ⟨op, htypeable, hmem⟩
  · rintro ⟨op, htypeable, hmem⟩
    exact ⟨op.code, ⟨op, htypeable, rfl⟩, hmem⟩

theorem beginsCode_code {op : Operator} (h : op.typeable = true) : beginsCode op.code = true :=
  beginsCode_iff.mpr ⟨op, h, List.prefix_rfl⟩

theorem beginsCode_of_append {t u : Text} (h : beginsCode (t ++ u) = true) :
    beginsCode t = true := by
  obtain ⟨op, htypeable, hprefix⟩ := beginsCode_iff.mp h
  exact beginsCode_iff.mpr ⟨op, htypeable, (List.prefix_append t u).trans hprefix⟩

theorem isCodeByte_of_beginsCode {t : Text} {b : UInt8} (h : beginsCode (t ++ [b]) = true) :
    isCodeByte b = true := by
  obtain ⟨op, htypeable, hprefix⟩ := beginsCode_iff.mp h
  exact isCodeByte_iff.mpr ⟨op, htypeable, hprefix.subset (by simp)⟩

theorem typed?_eq_some_iff {t : Text} {op : Operator} :
    typed? t = some op ↔ op.code = t ∧ op.typeable = true := by
  simp only [typed?, Option.filter_eq_some_iff, and_congr_left_iff]
  intro _
  constructor
  · intro h
    have hfound := List.find?_some h
    simpa using hfound
  · rintro rfl
    exact ofCode?_code op

def isPlusOrMinus : Operator → Bool
  | .add | .subtract | .affirm | .negate => true
  | _ => false

def isSign : Operator → Bool
  | .affirm | .negate => true
  | _ => false

theorem code_of_isPlusOrMinus {op : Operator} (htypeable : op.typeable = true)
    (h : op.isPlusOrMinus = true) : op.code = [Scan.plusByte] ∨ op.code = [Scan.minusByte] := by
  cases op with
  | add => exact .inl rfl
  | subtract => exact .inr rfl
  | affirm | negate => cases htypeable
  | _ => cases h

end Operator

namespace Scan

theorem extend_append {run tail after : Text} (h : Operator.beginsCode (run ++ tail) = true) :
    extend run (tail ++ after) = extend (run ++ tail) after := by
  induction tail generalizing run with
  | nil => simp
  | cons b tail ih =>
    rw [List.append_cons] at h
    rw [List.cons_append, extend, if_pos (Operator.beginsCode_of_append h), ih h,
      ← List.append_cons]

theorem extend_stops {run after : Text}
    (h : ∀ b ∈ after.head?, Operator.beginsCode (run ++ [b]) = false) : extend run after = run := by
  cases after with
  | nil => rfl
  | cons b after => simp [extend, h b rfl]

theorem exists_extend (run rest : Text) : ∃ tail after, rest = tail ++ after ∧
    extend run rest = run ++ tail ∧
    ∀ b ∈ after.head?, Operator.beginsCode (run ++ tail ++ [b]) = false := by
  induction rest generalizing run with
  | nil => exact ⟨[], [], rfl, by simp [extend], by simp⟩
  | cons b rest ih =>
    by_cases hb : Operator.beginsCode (run ++ [b]) = true
    · obtain ⟨tail, after, rfl, hrun, hafter⟩ := ih (run ++ [b])
      refine ⟨b :: tail, after, rfl, ?_, ?_⟩
      · rw [extend, if_pos hb, hrun, ← List.append_cons]
      · rwa [← List.append_cons] at hafter
    · refine ⟨[], b :: rest, rfl, by simp [extend, hb], ?_⟩
      intro c hc
      cases hc
      simpa using hb

end Scan

end DiceFormula
