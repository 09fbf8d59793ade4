import DiceFormula.Proofs.Parentheses
import Mathlib.Data.List.Count
import Mathlib.Data.List.Induction

/-! Which mark is to blame where marks are not balanced. A list is balanced, or it starts with a
balanced part and a mark that closes nothing, or with a balanced part and a mark that is opened for
good. The matching of parentheses stops at the mark of the second kind and blames that of the third
one. -/
namespace DiceFormula

section Marks
variable {α : Type} [DecidableEq α]

/-- A shortest prefix in which more marks close than open. -/
structure FirstExcess (opening closing : α) (s u : List α) : Prop where
  front : u <+: s
  excess : u.count opening < u.count closing
  shortest : ∀ v, v <+: s → v.count opening < v.count closing → u.length ≤ v.length

/-- Whether a list closes a mark that opens right before it. What stands between the two is
balanced. -/
def Answers (opening closing : α) (s : List α) : Prop :=
  ∃ inner after, s = inner ++ closing :: after ∧ Balanced opening closing inner

/-- The place of the first opening mark that nothing closes. -/
structure FirstUnanswered (opening closing : α) (s : List α) (place : Nat) : Prop where
  opens : s[place]? = some opening
  unanswered : ¬Answers opening closing (s.drop (place + 1))
  first : ∀ i < place, s[i]? = some opening → Answers opening closing (s.drop (i + 1))

def NoExcess (opening closing : α) (s : List α) : Prop :=
  ∀ u, u <+: s → u.count closing ≤ u.count opening

variable {opening closing : α} {s t front back : List α}

theorem NoExcess.concat {a : α} (h : NoExcess opening closing s)
    (ha : (s ++ [a]).count closing ≤ (s ++ [a]).count opening) :
    NoExcess opening closing (s ++ [a]) := by
  intro u hu
  obtain rfl | hu := List.prefix_concat_iff.mp hu
  · exact ha
  · exact h u hu

theorem noExcess_nil : NoExcess opening closing [] := fun u hu => by
  rw [List.prefix_nil.mp hu]
  exact Nat.le_refl _

theorem noExcess_opening_cons (hne : opening ≠ closing) :
    NoExcess opening closing (opening :: s) ↔
      ∀ u, u <+: s → u.count closing ≤ u.count opening + 1 := by
  rw [NoExcess, forall_prefix_cons, and_iff_right (by simp)]
  simp only [List.count_cons_self, List.count_cons_of_ne hne]

theorem Balanced.noExcess_append (hs : Balanced opening closing s)
    (ht : NoExcess opening closing t) :
    NoExcess opening closing (s ++ t) := by
  intro u hu
  obtain hu | ⟨v, rfl⟩ := List.prefix_or_prefix_of_prefix hu (List.prefix_append s t)
  · exact hs.2 u hu
  · have hv := ht v ((List.prefix_append_right_inj s).mp hu)
    have htotal := hs.1
    rw [List.count_append, List.count_append]
    omega

theorem Balanced.closed {a : α} (hne : opening ≠ closing) (hfront : Balanced opening closing front)
    (hback : NoExcess opening closing back)
    (hmore : (back ++ [a]).count opening < (back ++ [a]).count closing) :
    Balanced opening closing (front ++ opening :: (back ++ [a])) := by
  have hle := hback back List.prefix_rfl
  have htotal := hfront.1
  have hexact : (back ++ [a]).count closing = (back ++ [a]).count opening + 1 := by
    rw [List.count_append, List.count_append, List.count_singleton',
      List.count_singleton'] at hmore ⊢
    split_ifs at hmore ⊢ <;> omega
  refine ⟨?_, hfront.noExcess_append ((noExcess_opening_cons hne).mpr fun u hu => ?_)⟩
  · rw [List.count_append, List.count_append, List.count_cons_self, List.count_cons_of_ne hne]
    omega
  · obtain rfl | hu := List.prefix_concat_iff.mp hu
    · exact Nat.le_of_eq hexact
    · exact Nat.le_succ_of_le (hback u hu)

/-- One mark more at the end of a list leaves it of one of the three kinds. -/
theorem balanced_or (hne : opening ≠ closing) (s : List α) :
    Balanced opening closing s ∨
      (∃ front back, s = front ++ closing :: back ∧ Balanced opening closing front) ∨
      ∃ front back, s = front ++ opening :: back ∧ Balanced opening closing front ∧
        NoExcess opening closing back := by
  induction s using List.reverseRecOn with
  | nil => exact .inl ⟨rfl, noExcess_nil⟩
  | append_singleton s a ih =>
    obtain hbalanced | ⟨front, back, rfl, hfront⟩ | ⟨front, back, rfl, hfront, hback⟩ := ih
    · by_cases ho : a = opening
      · subst ho
        exact .inr (.inr ⟨s, [], rfl, hbalanced, noExcess_nil⟩)
      by_cases hc : a = closing
      · subst hc
        exact .inr (.inl ⟨s, [], rfl, hbalanced⟩)
      have htotal : (s ++ [a]).count closing = (s ++ [a]).count opening := by
        rw [List.count_append, List.count_append, List.count_singleton', List.count_singleton',
          if_neg ho, if_neg hc]
        exact hbalanced.1
      exact .inl ⟨htotal, NoExcess.concat hbalanced.2 (Nat.le_of_eq htotal)⟩
    · exact .inr (.inl ⟨front, back ++ [a], by simp, hfront⟩)
    · by_cases hmore : (back ++ [a]).count closing ≤ (back ++ [a]).count opening
      · exact .inr (.inr ⟨front, back ++ [a], by simp, hfront, hback.concat hmore⟩)
      · have hwhole : front ++ opening :: back ++ [a] = front ++ opening :: (back ++ [a]) := by simp
        rw [hwhole]
        exact .inl (hfront.closed hne hback (Nat.lt_of_not_le hmore))

theorem firstExcess_of_balanced (hne : opening ≠ closing) (h : Balanced opening closing front)
    (back : List α) :
    FirstExcess opening closing (front ++ closing :: back) (front ++ [closing]) := by
  refine ⟨⟨back, by simp⟩, ?_, fun v hv hmore => ?_⟩
  · rw [List.count_append, List.count_append, List.count_singleton_self, h.1, List.count_singleton',
      if_neg hne.symm]
    omega
  · by_contra hshort
    have hfront : v <+: front := by
      refine List.prefix_of_prefix_length_le hv (List.prefix_append _ _) ?_
      rw [List.length_append, List.length_singleton] at hshort
      omega
    exact absurd (h.2 v hfront) (Nat.not_le.mpr hmore)

theorem answers_iff (hne : opening ≠ closing) :
    Answers opening closing s ↔ ¬NoExcess opening closing s := by
  constructor
  · rintro ⟨inner, back, rfl, hinner⟩ hno
    have hexcess := firstExcess_of_balanced hne hinner back
    exact absurd (hno _ hexcess.front) (Nat.not_le.mpr hexcess.excess)
  · intro hexcess
    obtain hbalanced | ⟨front, back, rfl, hfront⟩ | ⟨front, back, rfl, hfront, hback⟩ :=
      balanced_or hne s
    · exact absurd hbalanced.2 hexcess
    · exact ⟨front, back, rfl, hfront⟩
    · refine absurd (hfront.noExcess_append ?_) hexcess
      exact (noExcess_opening_cons hne).mpr fun u hu => Nat.le_succ_of_le (hback u hu)

theorem Balanced.answers (hne : opening ≠ closing)
    (h : Balanced opening closing (front ++ opening :: back)) (t : List α) :
    Answers opening closing (back ++ t) := by
  rw [answers_iff hne]
  intro hno
  have hback := hno back (List.prefix_append back t)
  have hfront := h.2 front (List.prefix_append _ _)
  have htotal := h.1
  rw [List.count_append, List.count_append, List.count_cons_self,
    List.count_cons_of_ne hne] at htotal
  omega

theorem firstUnanswered_of_balanced (hne : opening ≠ closing)
    (hfront : Balanced opening closing front) (hback : NoExcess opening closing back) :
    FirstUnanswered opening closing (front ++ opening :: back) front.length := by
  refine ⟨by simp, ?_, fun i hi hopens => ?_⟩
  · rw [answers_iff hne, not_not, ← List.drop_drop]
    simpa using hback
  · rw [List.getElem?_append_left hi] at hopens
    have hsplit : front.take i ++ opening :: front.drop (i + 1) = front := by
      obtain ⟨-, rfl⟩ := List.getElem?_eq_some_iff.mp hopens
      rw [List.getElem_cons_drop, List.take_append_drop]
    rw [← hsplit] at hfront
    rw [List.drop_append_of_le_length hi]
    exact hfront.answers hne _

end Marks

namespace Scan
variable {opened inner : List Nat} {front back : Text}

theorem matchParentheses_append (h : nested openingByte closingByte inner.length front = true)
    (place : Nat) :
    matchParentheses (inner ++ opened) place (front ++ back) =
      matchParentheses opened (place + front.length) back := by
  induction front generalizing inner place with
  | nil =>
    rw [nested, beq_iff_eq, List.length_eq_zero_iff] at h
    subst h
    rfl
  | cons b front ih =>
    rw [List.cons_append, List.length_cons, ← Nat.add_assoc, Nat.add_right_comm]
    rw [nested] at h
    conv_lhs => unfold matchParentheses
    split_ifs at h ⊢ with ho hc
    · exact @ih (place :: inner) h (place + 1)
    · cases inner with
      | nil => simp at h
      | cons a inner => exact ih (Bool.and_eq_true_iff.mp h).2 (place + 1)
    · exact ih h (place + 1)

theorem matchParentheses_balanced (h : Balanced openingByte closingByte front) (opened : List Nat)
    (place : Nat) :
    matchParentheses opened place (front ++ back) =
      matchParentheses opened (place + front.length) back :=
  @matchParentheses_append opened [] front back ((nested_zero_iff openingByte_ne front).mpr h) place

theorem matchParentheses_unclosed (first : Nat)
    (h : ∀ u, u <+: back → u.count closingByte ≤ inner.length + u.count openingByte) (place : Nat) :
    matchParentheses (inner ++ [first]) place back = .error (.unclosed, first) := by
  induction back generalizing inner place with
  | nil => rw [matchParentheses, List.getLast?_concat]
  | cons b back ih =>
    rw [forall_prefix_cons] at h
    unfold matchParentheses
    split_ifs with ho hc
    · subst ho
      refine @ih (place :: inner) (fun u hu => ?_) (place + 1)
      have hu := h.2 u hu
      rw [List.count_cons_self, List.count_cons_of_ne openingByte_ne] at hu
      rw [List.length_cons]
      omega
    · subst hc
      have hcounts (u : Text) (hu : u <+: back) :
          u.count closingByte + 1 ≤ inner.length + u.count openingByte := by
        have hu := h.2 u hu
        rwa [List.count_cons_self, List.count_cons_of_ne openingByte_ne.symm] at hu
      cases inner with
      | nil => exact absurd (hcounts [] List.nil_prefix) (by simp)
      | cons a inner =>
        refine ih (fun u hu => ?_) (place + 1)
        have hu := hcounts u hu
        rw [List.length_cons] at hu
        omega
    · refine ih (fun u hu => ?_) (place + 1)
      have hu := h.2 u hu
      rwa [List.count_cons_of_ne hc, List.count_cons_of_ne ho] at hu

theorem matchParentheses_excess (hfront : Balanced openingByte closingByte front) :
    matchParentheses [] 0 (front ++ closingByte :: back) =
      .error (.unopened, (front ++ [closingByte]).length - 1) := by
  rw [matchParentheses_balanced hfront, matchParentheses, if_neg openingByte_ne.symm, if_pos rfl,
    List.length_append, List.length_singleton, Nat.add_sub_cancel, Nat.zero_add]

theorem matchParentheses_unanswered (hfront : Balanced openingByte closingByte front)
    (hback : NoExcess openingByte closingByte back) :
    matchParentheses [] 0 (front ++ openingByte :: back) = .error (.unclosed, front.length) := by
  rw [matchParentheses_balanced hfront, matchParentheses, if_pos rfl, Nat.zero_add]
  exact @matchParentheses_unclosed [] back front.length (fun u hu =>
    Nat.le_add_left_of_le (hback u hu)) _

theorem ofText_of_unmatched {source : Text} {flaw : Flaw} {place : Nat}
    (h : matchParentheses [] 0 source = .error (flaw, place)) :
    Token.ofText source = .error ⟨flaw, place, source⟩ := by
  rw [Token.ofText, all, h]

/-- The parentheses of a text pass exactly when they are balanced. Where some prefix closes more
than it opens, the last byte of the shortest such prefix is to blame, and elsewhere the first
opening parenthesis that nothing closes. The text is then no formula for that very reason. -/
theorem matchParentheses_blames (source : Text) :
    (matchParentheses [] 0 source = .ok () ↔ Balanced openingByte closingByte source) ∧
    ((∃ u, u <+: source ∧ u.count openingByte < u.count closingByte) →
      ∃ u, FirstExcess openingByte closingByte source u ∧
        matchParentheses [] 0 source = .error (.unopened, u.length - 1) ∧
        Token.ofText source = .error ⟨.unopened, u.length - 1, source⟩) ∧
    ((∀ u, u <+: source → u.count closingByte ≤ u.count openingByte) →
      ¬Balanced openingByte closingByte source →
      ∃ place, FirstUnanswered openingByte closingByte source place ∧
        matchParentheses [] 0 source = .error (.unclosed, place) ∧
        Token.ofText source = .error ⟨.unclosed, place, source⟩) := by
  refine ⟨?_, ?_, ?_⟩
  · rw [matchParentheses_eq_ok_iff]
    exact nested_zero_iff openingByte_ne source
  · intro hexcess
    have hanswers : Answers openingByte closingByte source := by
      rw [answers_iff openingByte_ne]
      obtain ⟨u, hu, hmore⟩ := hexcess
      exact fun hno => absurd (hno u hu) (Nat.not_le.mpr hmore)
    obtain ⟨front, back, rfl, hfront⟩ := hanswers
    have hblamed := @matchParentheses_excess front back hfront
    exact ⟨_, firstExcess_of_balanced openingByte_ne hfront back, hblamed,
      ofText_of_unmatched hblamed⟩
  · intro hno hunbalanced
    obtain ⟨front, back, rfl, hfront⟩ | ⟨front, back, rfl, hfront, hback⟩ :=
      (balanced_or openingByte_ne source).resolve_left hunbalanced
    · exact absurd hno ((answers_iff openingByte_ne).mp ⟨front, back, rfl, hfront⟩)
    · have hblamed := matchParentheses_unanswered hfront hback
      exact ⟨_, firstUnanswered_of_balanced openingByte_ne hfront hback, hblamed,
        ofText_of_unmatched hblamed⟩

example : matchParentheses [] 0 (ascii ['(', ')', '(', '(', ')']) = .error (.unclosed, 2) := by
  decide

end Scan

end DiceFormula
