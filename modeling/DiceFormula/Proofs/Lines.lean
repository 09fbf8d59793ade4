import DiceFormula.Chance.Script
import DiceFormula.Proofs.Rethrowing
import DiceFormula.Proofs.Unbroken

/-! The lines of an output. The results of an expression are written as they come, each with a space
behind it, and a line is broken before a result that does not fit on it any more. What is on the
open line decides where the next break stands, so that the lines are those of a layout: all of them
filled as far as the width goes. -/
namespace DiceFormula.Report

variable {σ : Type} {source : Source σ} {options : Options} {s s' : σ} {width : Nat}
  {texts opened before after : List Text} {lines : List (List Text)} {t : Text}

def line (texts : List Text) : Text := texts.flatMap (· ++ [32])

def page (lines : List (List Text)) : Text := lines.flatMap fun texts => line texts ++ [10]

@[simp] theorem line_append (texts others : List Text) :
    line (texts ++ others) = line texts ++ line others :=
  List.flatMap_append

@[simp] theorem line_singleton (t : Text) : line [t] = t ++ [32] := List.flatMap_singleton _ _

@[simp] theorem page_cons (l : List Text) (lines : List (List Text)) :
    page (l :: lines) = line l ++ 10 :: page lines := by
  rw [page, List.flatMap_cons, List.append_assoc]
  rfl

@[simp] theorem page_append (lines others : List (List Text)) :
    page (lines ++ others) = page lines ++ page others :=
  List.flatMap_append

theorem length_line_pos (h : texts ≠ []) : 0 < (line texts).length := by
  obtain ⟨t, rest, rfl⟩ := List.exists_cons_of_ne_nil h
  rw [← List.singleton_append, line_append, line_singleton]
  simp only [List.length_append, List.length_singleton]
  omega

/-- Texts laid out in lines. No line is empty, and without a width there is one line only. A line of
several texts does not reach beyond the width, so that each of them but the first has fitted behind
those before it, and a line begins with a text that would not have fitted on the line above. -/
structure Layout (width : Nat) (texts : List Text) (lines : List (List Text)) : Prop where
  flatten : lines.flatten = texts
  filled : ∀ l ∈ lines, l ≠ []
  single : width = 0 → lines.length = 1
  fits : 0 < width → ∀ l ∈ lines, (line l).length ≤ width ∨ l.length = 1
  together : 0 < width → ∀ before t after, before ++ t :: after ∈ lines → before ≠ [] →
    (line (before ++ [t])).length ≤ width
  apart : 0 < width → lines.IsChain fun l next => ∀ t ∈ next.head?, width < (line (l ++ [t])).length

theorem fits_together
    (h : (line (before ++ t :: after)).length ≤ width ∨ (before ++ t :: after).length = 1)
    (hbefore : before ≠ []) : (line (before ++ [t])).length ≤ width := by
  have hlength := List.length_pos_iff.mpr hbefore
  rw [← List.singleton_append, ← List.append_assoc, line_append,
    List.length_append, List.length_append] at h
  simp only [List.length_append, List.length_singleton] at h
  omega

theorem layout_singleton (hopened : opened ≠ [])
    (hfits : 0 < width → (line opened).length ≤ width ∨ opened.length = 1) :
    Layout width opened [opened] where
  flatten := List.flatten_singleton
  filled := List.forall_mem_singleton.mpr hopened
  single _ := rfl
  fits hwidth := List.forall_mem_singleton.mpr (hfits hwidth)
  together hwidth before t after hmem hbefore := by
    obtain rfl := List.mem_singleton.mp hmem
    exact fits_together (hfits hwidth) hbefore
  apart _ := List.isChain_singleton _

theorem Layout.cons (hwidth : 0 < width) (hopened : opened ≠ [])
    (hfits : (line opened).length ≤ width ∨ opened.length = 1) {next : List Text}
    (h : Layout width texts (next :: lines))
    (hbreak : ∀ t ∈ next.head?, width < (line (opened ++ [t])).length) :
    Layout width (opened ++ texts) (opened :: next :: lines) where
  flatten := by rw [List.flatten_cons, h.flatten]
  filled := List.forall_mem_cons.mpr ⟨hopened, h.filled⟩
  single hzero := absurd hzero hwidth.ne'
  fits _ := List.forall_mem_cons.mpr ⟨hfits, h.fits hwidth⟩
  together _ before t after hmem hbefore := by
    obtain hline | hbelow := List.mem_cons.mp hmem
    · exact fits_together (hline ▸ hfits) hbefore
    · exact h.together hwidth before t after hbelow hbefore
  apart _ := List.isChain_cons_cons.mpr ⟨hbreak, h.apart hwidth⟩

@[simp] theorem wrapped_zero (used : Nat) (texts : List Text) :
    wrapped 0 used texts = line texts := by
  induction texts generalizing used with
  | nil => rfl
  | cons t texts ih =>
    rw [wrapped, if_pos rfl, ih]
    rfl

/-- What stands on an open line is the beginning of the first of all lines that are still to come.
-/
theorem wrapped_opened (hwidth : 0 < width) (hopened : opened ≠ [])
    (hfits : (line opened).length ≤ width ∨ opened.length = 1) :
    ∃ first rest, opened <+: first ∧ Layout width (opened ++ texts) (first :: rest) ∧
      line opened ++ wrapped width (line opened).length texts ++ [10] = page (first :: rest) := by
  induction texts generalizing opened with
  | nil =>
    refine ⟨opened, [], List.prefix_refl _, ?_, ?_⟩
    · rw [List.append_nil]
      exact layout_singleton hopened fun _ => hfits
    · rw [page_cons, wrapped, List.append_nil]
      rfl
  | cons t texts ih =>
    have hused := length_line_pos hopened
    have hpiece : (line (opened ++ [t])).length = (line opened).length + (t ++ [32]).length := by
      rw [line_append, line_singleton, List.length_append]
    rw [wrapped, if_neg hwidth.ne']
    split
    · next hbreak =>
      obtain ⟨first, rest, hprefix, hlayout, hpage⟩ := ih (List.cons_ne_nil t []) (.inr rfl)
      refine ⟨opened, first :: rest, List.prefix_refl _, hlayout.cons hwidth hopened hfits ?_, ?_⟩
      · -- The line below begins with the text that was too long for this one.
        obtain ⟨more, rfl⟩ := hprefix
        rintro u ⟨⟩
        omega
      · rw [page_cons, ← hpage, line_singleton]
        simp only [List.append_assoc, List.cons_append]
    · next hroom =>
      have hnext : (line (opened ++ [t])).length ≤ width := by omega
      obtain ⟨first, rest, hprefix, hlayout, hpage⟩ := ih (List.concat_ne_nil t opened) (.inl hnext)
      refine ⟨first, rest, (List.prefix_append _ _).trans hprefix, ?_, ?_⟩
      · rwa [List.append_assoc] at hlayout
      · rw [← hpage, hpiece, line_append, line_singleton]
        simp only [List.append_assoc]

theorem exists_layout (width : Nat) (h : texts ≠ []) :
    ∃ lines, Layout width texts lines ∧ wrapped width 0 texts ++ [10] = page lines := by
  obtain rfl | hwidth := Nat.eq_zero_or_pos width
  · refine ⟨[texts], layout_singleton h fun hzero => absurd hzero (Nat.lt_irrefl 0), ?_⟩
    rw [wrapped_zero, page_cons]
    rfl
  · obtain ⟨t, texts, rfl⟩ := List.exists_cons_of_ne_nil h
    obtain ⟨first, rest, -, hlayout, hpage⟩ :=
      wrapped_opened hwidth (List.cons_ne_nil t []) (.inr rfl)
    refine ⟨first :: rest, hlayout, ?_⟩
    -- Nothing is used of the first line, so that its first text never goes to the next one.
    rw [← hpage, wrapped, if_neg hwidth.ne', if_neg fun hused =>
      Nat.lt_irrefl 0 hused.1, Nat.zero_add, line_singleton]

theorem splitOn_page (h : ∀ l ∈ lines, ∀ t ∈ l, t.Unbroken) :
    List.splitOn 10 (page lines) = lines.map line ++ [[]] := by
  induction lines with
  | nil => rfl
  | cons l lines ih =>
    obtain ⟨hl, hlines⟩ := List.forall_mem_cons.mp h
    have hline : (10 : UInt8) ∉ line l := by
      intro hmem
      obtain ⟨t, ht, hmem⟩ := List.mem_flatMap.mp hmem
      exact (Text.unbroken_append.mpr ⟨hl t ht, by decide⟩ : Text.Unbroken (t ++ [32])) hmem
    have hcut : List.splitOn 10 (line l ++ 10 :: page lines) =
        List.splitOn 10 (line l) ++ List.splitOn 10 (page lines) :=
          List.splitOnP_append_cons _ _ rfl
    rw [page_cons, hcut, List.splitOn_eq_singleton hline, ih hlines]
    rfl

theorem results_of_repeats {tree : Tree}
    (h : Rolling.Repeats (result source options tree) s texts s') (found : List Text) :
    results source options tree texts.length found s = ((found.reverse ++ texts, none), s') := by
  induction h generalizing found with
  | nil s =>
    rw [List.append_nil]
    rfl
  | cons first _ ih =>
    rw [List.length_cons, results, first]
    refine (ih _).trans ?_
    rw [List.reverse_cons, List.append_assoc]
    rfl

theorem repeats_of_results {tree : Tree} {count : Nat} {found : List Text}
    (h : results source options tree count found s = ((texts, none), s')) :
    ∃ made, made.length = count ∧ Rolling.Repeats (result source options tree) s made s' := by
  induction count generalizing found s with
  | zero =>
    cases h
    exact ⟨[], rfl, .nil _⟩
  | succ count ih =>
    rw [results] at h
    split at h
    · next text s₁ hfirst =>
      obtain ⟨made, hlength, hrepeats⟩ := ih h
      exact ⟨text :: made, congrArg Nat.succ hlength, .cons hfirst hrepeats⟩
    · cases h

variable {written output : Text} {tree : Tree}

theorem expression_of_repeats (compiled : (Formula.text written).compile .zero = .ok tree)
    (repeated : Rolling.Repeats (result source options tree) s texts s')
    (count : texts.length = options.number) :
    expression source options written s = ((wrapped options.wrap 0 texts ++ [10], none), s') := by
  have hresults : results source options tree options.number [] s = ((texts, none), s') := by
    rw [← count]
    exact results_of_repeats repeated []
  simp only [expression, compiled, hresults]

theorem repeats_of_expression (h : expression source options written s = ((output, none), s')) :
    ∃ tree texts, (Formula.text written).compile .zero = .ok tree ∧ texts.length = options.number ∧
      Rolling.Repeats (result source options tree) s texts s' := by
  rw [expression] at h
  split at h
  · cases h
  · next tree compiled =>
    split at h
    · next texts s₁ hresults =>
      cases h
      obtain ⟨made, hlength, hrepeats⟩ := repeats_of_results hresults
      exact ⟨tree, made, compiled, hlength, hrepeats⟩
    · cases h

/-- Expressions rolled in turn without a failure: each is read once, and its tree gives so many
results, one after the other. -/
inductive Rolled (source : Source σ) (options : Options) :
    List Text → σ → List (List Text) → σ → Prop
  | nil (s : σ) : Rolled source options [] s [] s
  | cons {written : Text} {others texts : List Text} {results : List (List Text)} {tree : Tree}
      {s₁ s₂ s₃ : σ} (compiled : (Formula.text written).compile .zero = .ok tree)
      (repeated : Rolling.Repeats (result source options tree) s₁ texts s₂)
      (count : texts.length = options.number) (rest : Rolled source options others s₂ results s₃) :
      Rolled source options (written :: others) s₁ (texts :: results) s₃

variable {formulas : List Text} {results : List (List Text)}

theorem Rolled.unbroken (h : Rolled source options formulas s results s') :
    ∀ texts ∈ results, ∀ t ∈ texts, t.Unbroken := by
  induction h with
  | nil s => exact List.forall_mem_nil _
  | cons _ repeated _ _ ih =>
    exact List.forall_mem_cons.mpr ⟨repeated.forall_results fun _ _ _ => unbroken_of_result, ih⟩

theorem Rolled.expressions_eq (hnumber : 1 ≤ options.number)
    (h : Rolled source options formulas s results s') :
    ∃ pages, expressions source options formulas s = ((pages.flatMap page, none), s') ∧
      List.Forall₂ (Layout options.wrap) results pages := by
  induction h with
  | nil s => exact ⟨[], rfl, .nil⟩
  | cons compiled repeated count _ ih =>
    obtain ⟨pages, hothers, hlayouts⟩ := ih
    have hne := List.ne_nil_of_length_pos (Nat.lt_of_lt_of_eq hnumber count.symm)
    obtain ⟨lines, hlayout, hpage⟩ := exists_layout options.wrap hne
    refine ⟨lines :: pages, ?_, .cons hlayout hlayouts⟩
    simp only [expressions, expression_of_repeats compiled repeated count, hothers, hpage,
      List.flatMap_cons]

theorem rolled_of_expressions (h : expressions source options formulas s = ((output, none), s')) :
    ∃ results, Rolled source options formulas s results s' := by
  induction formulas generalizing s output with
  | nil =>
    cases h
    exact ⟨[], .nil _⟩
  | cons first others ih =>
    rw [expressions] at h
    split at h
    · cases h
    · next printed s₁ hfirst =>
      split at h
      next rest failure s₂ hothers =>
        cases h
        obtain ⟨tree, texts, compiled, count, repeated⟩ := repeats_of_expression hfirst
        obtain ⟨results, hrest⟩ := ih hothers
        exact ⟨texts :: results, .cons compiled repeated count hrest⟩

theorem page_flatten (pages : List (List (List Text))) :
    pages.flatMap page = page pages.flatten := by
  induction pages with
  | nil => rfl
  | cons lines pages ih => rw [List.flatMap_cons, List.flatten_cons, page_append, ih]

theorem unbroken_of_layouts {pages : List (List (List Text))}
    (h : List.Forall₂ (Layout width) results pages)
    (hresults : ∀ texts ∈ results, ∀ t ∈ texts, t.Unbroken) :
    ∀ l ∈ pages.flatten, ∀ t ∈ l, t.Unbroken := by
  induction h with
  | nil => exact List.forall_mem_nil _
  | cons hlayout _ ih =>
    obtain ⟨htexts, hothers⟩ := List.forall_mem_cons.mp hresults
    rw [List.flatten_cons, List.forall_mem_append]
    refine ⟨fun l hl t ht => htexts t ?_, ih hothers⟩
    rw [← hlayout.flatten]
    exact List.mem_flatten_of_mem hl ht

/-- The output is there exactly when no roll fails, and then it has the results of every expression
in the order of the rolls, each expression laid out in lines of its own. A line break stands nowhere
but at the ends of these lines. -/
theorem rolls_laid_out (source : Source σ) (options : Options) (s : σ)
    (hnumber : 1 ≤ options.number) :
    (∀ s', (∃ output, rolls source options s = ((output, none), s')) ↔
      ∃ results, Rolled source options options.expressions s results s') ∧
    ∀ results s', Rolled source options options.expressions s results s' →
      ∃ pages, rolls source options s = ((pages.flatMap page, none), s') ∧
        List.Forall₂ (Layout options.wrap) results pages ∧
        List.splitOn 10 (pages.flatMap page) = pages.flatten.map line ++ [[]] := by
  refine ⟨fun s' => ⟨?_, ?_⟩, fun results s' hrolled => ?_⟩
  · rintro ⟨output, houtput⟩
    exact rolled_of_expressions houtput
  · rintro ⟨results, hrolled⟩
    obtain ⟨pages, houtput, -⟩ := hrolled.expressions_eq hnumber
    exact ⟨_, houtput⟩
  · obtain ⟨pages, houtput, hlayouts⟩ := hrolled.expressions_eq hnumber
    refine ⟨pages, houtput, hlayouts, ?_⟩
    rw [page_flatten]
    exact splitOn_page (unbroken_of_layouts hlayouts hrolled.unbroken)

theorem rolls_laid_out_four :
    let four := ascii ['4']
    let twice := ascii ['4', ' ', '4', ' ']
    ∃ lines, Layout 4 (List.replicate 5 four) lines ∧
    lines.map line = [twice, twice, ascii ['4', ' ']] ∧
      rolls (Script.source 0) ⟨.normal, 5, false, 4, false, [ascii ['1', 'd', '4']]⟩
        (Script.steady 4) =
        ((page lines, none), Script.steady 4) := by
  intro four twice
  let options : Options := ⟨.normal, 5, false, 4, false, [ascii ['1', 'd', '4']]⟩
  let tree : Tree := .node (.dice .plain) (.ofNumber (.int 1)) (.ofNumber (.int 4)) none
  have hresult : result (Script.source 0) options tree (Script.steady 4) =
      (.ok four, Script.steady 4) := by
    decide +kernel
  have hrolled :
      Rolled (Script.source 0) options options.expressions (Script.steady 4) [List.replicate 5 four]
        (Script.steady 4) :=
    .cons (by decide +kernel : (Formula.text (ascii ['1', 'd', '4'])).compile .zero = .ok tree)
      (.cons hresult (.cons hresult (.cons hresult (.cons hresult (.cons hresult (.nil _))))))
        rfl (.nil _)
  obtain ⟨pages, houtput, hlayouts, hlines⟩ :=
    (rolls_laid_out (Script.source 0) options (Script.steady 4) (by decide)).2 _ _ hrolled
  obtain ⟨lines, _, hlayout, hnone, rfl⟩ := List.forall₂_cons_left_iff.mp hlayouts
  obtain rfl := List.forall₂_nil_left_iff.mp hnone
  rw [page_flatten, List.flatten_singleton] at houtput hlines
  have hwritten : (rolls (Script.source 0) options (Script.steady 4)).1.1 =
      ascii ['4', ' ', '4', ' ', '\n', '4', ' ', '4', ' ', '\n', '4', ' ', '\n'] := by
        decide +kernel
  rw [houtput] at hwritten
  dsimp only at hwritten
  rw [hwritten] at hlines
  refine ⟨lines, hlayout, ?_, houtput⟩
  have hsplit : List.splitOn 10
    (ascii ['4', ' ', '4', ' ', '\n', '4', ' ', '4', ' ', '\n', '4', ' ', '\n']) =
      [twice, twice, ascii ['4', ' ']] ++ [[]] := by decide +kernel
  exact List.append_cancel_right (hlines.symm.trans hsplit)

end DiceFormula.Report
