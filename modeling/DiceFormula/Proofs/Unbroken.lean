import DiceFormula.Command.Report
import DiceFormula.Proofs.Applying
import DiceFormula.Proofs.Rereading

/-! Texts without a line break. Numbers are written with digits, points, exponents and a few
letters, rolls and faces with brackets, commas and blanks, and operators with their codes, so that
no result of a formula has a line break in it, neither a total nor an explanation. -/
namespace DiceFormula

variable {σ : Type} {source : Source σ} {s s' : σ}

namespace Text

/-- No byte of the text is a line break. -/
def Unbroken (t : Text) : Prop := 10 ∉ t

instance (t : Text) : Decidable t.Unbroken := inferInstanceAs (Decidable (10 ∉ t))

variable {t u : Text} {n : Nat}

@[simp] theorem unbroken_nil : Unbroken [] := List.not_mem_nil

@[simp] theorem unbroken_append : Unbroken (t ++ u) ↔ t.Unbroken ∧ u.Unbroken := by
  simp only [Unbroken, List.mem_append, not_or]

theorem Unbroken.take (h : t.Unbroken) (n : Nat) :
    Unbroken (t.take n) := fun hmem => h (List.mem_of_mem_take hmem)

theorem Unbroken.drop (h : t.Unbroken) (n : Nat) :
    Unbroken (t.drop n) := fun hmem => h (List.mem_of_mem_drop hmem)

theorem unbroken_ite {p : Prop} [Decidable p] (ht : t.Unbroken) (hu : u.Unbroken) :
    Unbroken (if p then t else u) := by
  split
  · exact ht
  · exact hu

theorem unbroken_ofNat (n : Nat) : (ofNat n).Unbroken :=
  fun hmem => absurd (isDigit_ofNat n 10 hmem) (by decide)

theorem unbroken_ofInt (n : Int) : (ofInt n).Unbroken := by
  have hminus : Unbroken ['-'.toUInt8] := by decide
  exact unbroken_ite (unbroken_append.mpr ⟨hminus, unbroken_ofNat _⟩) (unbroken_ofNat _)

theorem unbroken_joined {separator : Text} {parts : List Text} (hseparator : separator.Unbroken)
    (h : ∀ part ∈ parts, part.Unbroken) : (joined separator parts).Unbroken := by
  induction parts with
  | nil => exact unbroken_nil
  | cons part parts ih =>
    obtain ⟨hpart, hparts⟩ := List.forall_mem_cons.mp h
    cases parts with
    | nil => simpa [joined] using hpart
    | cons other parts =>
      rw [joined, List.intercalate_cons_cons, unbroken_append, unbroken_append]
      exact ⟨⟨hpart, hseparator⟩, ih hparts⟩

end Text

open Text

namespace Binary64

theorem Decimal.unbroken_zeros (n : Nat) : (zeros n).Unbroken :=
  fun hmem => absurd (List.eq_of_mem_replicate hmem) (by decide)

theorem Decimal.unbroken_positional (d : Decimal) : d.positional.Unbroken := by
  have hdigits := unbroken_ofNat d.digits
  refine unbroken_ite ?_ (unbroken_ite ?_ ?_)
  · simp only [unbroken_append, hdigits, unbroken_zeros]
    decide
  · simp only [unbroken_append, hdigits.take, hdigits.drop]
    decide
  · simp only [unbroken_append, hdigits, unbroken_zeros]
    decide

theorem Decimal.unbroken_scientific (d : Decimal) : d.scientific.Unbroken := by
  have hdigits := unbroken_ofNat d.digits
  have hfraction : Unbroken (ascii ['.'] ++ (ofNat d.digits).drop 1) :=
    unbroken_append.mpr ⟨by decide, hdigits.drop 1⟩
  have hsign : Unbroken (ascii ['e', if d.order < 0 then '-' else '+']) := by split <;> decide
  simp only [scientific, unbroken_append]
  exact ⟨⟨⟨⟨hdigits.take 1, unbroken_ite unbroken_nil hfraction⟩, hsign⟩, unbroken_zeros _⟩,
    unbroken_ofNat _⟩

theorem unbroken_text (x : Binary64) : x.text.Unbroken := by
  have hsign : Unbroken (if x.negative then ascii ['-'] else []) :=
    unbroken_ite (by decide) unbroken_nil
  cases x with
  | nan => decide
  | infinite negative => exact unbroken_append.mpr ⟨hsign, by decide⟩
  | zero negative => exact unbroken_append.mpr ⟨hsign, by decide⟩
  | finite q =>
    exact unbroken_append.mpr
      ⟨hsign, unbroken_ite (Decimal.unbroken_positional _) (Decimal.unbroken_scientific _)⟩

end Binary64

theorem Number.unbroken_text (a : Number) : a.text.Unbroken := by
  cases a with
  | int n => exact unbroken_ofInt n
  | real x => exact x.unbroken_text

theorem Number.unbroken_listText (numbers : List Number) : (listText numbers).Unbroken :=
  unbroken_joined (by decide) (List.forall_mem_map.mpr fun a _ => a.unbroken_text)

theorem Die.unbroken_facesText (values : Faces) : (facesText values).Unbroken := by
  unfold facesText
  split
  · next face =>
    simp only [unbroken_append, face.unbroken_text]
    decide
  · simp only [unbroken_append, Number.unbroken_listText]
    decide

theorem Die.unbroken_text (die : Die) : die.text.Unbroken := by
  cases die with
  | sides count => exact unbroken_ofInt count
  | faces values => exact unbroken_facesText values

theorem Roll.unbroken_text (r : Roll) : r.text.Unbroken := by
  have hdiscards :
      Unbroken (ascii [';', ' ', '('] ++ Number.listText r.discards ++ ascii [')']) := by
    simp only [unbroken_append, Number.unbroken_listText]
    decide
  simp only [text, unbroken_append, Die.unbroken_text, Number.unbroken_listText,
    unbroken_ite unbroken_nil hdiscards]
  decide

theorem Value.unbroken_text (v : Value) : v.text.Unbroken := by
  cases v with
  | number a => exact a.unbroken_text
  | faces values => exact Die.unbroken_facesText values
  | roll r => exact r.unbroken_text

theorem Operator.unbroken_text (op : Operator) : op.text.Unbroken := by
  have hall : ∀ op ∈ all, op.text.Unbroken := by decide +kernel
  exact hall op (mem_all op)

namespace Tree

variable {t u : Tree} {text : Text}

theorem unbroken_of_shown (h : t.shown = .ok text) : text.Unbroken := by
  unfold shown at h
  split at h
  · split at h
    · split at h
      · next v hknown =>
        cases h
        exact v.unbroken_text
      · cases h
    · cases h
      exact Operator.unbroken_text _
  · split at h
    · next v hknown =>
      cases h
      exact v.unbroken_text
    · cases h

theorem Item.unbroken_of_shown {item : Item} (h : item.shown = .ok text) : text.Unbroken := by
  cases item with
  | node t => exact Tree.unbroken_of_shown h
  | opening | closing =>
    cases h
    decide

theorem unbroken_of_shownItems {items : List Item} (h : shownItems items = .ok text) :
    text.Unbroken := by
  induction items generalizing text with
  | nil =>
    cases h
    exact unbroken_nil
  | cons item items ih =>
    rw [shownItems] at h
    split at h
    · cases h
    · next first hfirst =>
      split at h
      · cases h
      · next others hothers =>
        cases h
        exact unbroken_append.mpr ⟨item.unbroken_of_shown hfirst, ih hothers⟩

theorem unbroken_of_explanation (h : t.explanation = .ok text) : text.Unbroken := by
  obtain ⟨formula, hformula, h⟩ := exists_of_bind_eq_ok h
  obtain ⟨total, -, h⟩ := exists_of_bind_eq_ok h
  cases h
  simp only [unbroken_append, unbroken_of_shownItems hformula, total.unbroken_text]
  decide

theorem unbroken_of_explain (h : t.explain source s = (.ok text, u, s')) : text.Unbroken := by
  unfold explain at h
  split at h
  · cases h
    exact unbroken_nil
  · split at h
    · have hshown := (Prod.mk.inj h).1
      split at hshown
      · next shown hexplanation =>
        cases hshown
        exact unbroken_of_explanation hexplanation
      · cases hshown
    · split at h
      · cases h
      · have hshown := (Prod.mk.inj h).1
        split at hshown
        · next shown hexplanation =>
          cases hshown
          exact unbroken_of_explanation hexplanation
        · cases hshown

end Tree

theorem Report.unbroken_of_result {options : Options} {t : Tree} {text : Text}
    (h : result source options t s = (.ok text, s')) : text.Unbroken := by
  unfold result at h
  split at h
  · unfold Formula.explanation at h
    split at h
    · cases h
    · split at h
      · cases h
      · exact Tree.unbroken_of_explain (Prod.ext (Prod.mk.inj h).1 rfl)
  · obtain ⟨total, s₁, -, h⟩ := Rolling.bind_eq_ok h
    cases h
    exact total.unbroken_text

end DiceFormula
