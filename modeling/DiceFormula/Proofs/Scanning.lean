import DiceFormula.Proofs.Parentheses
import DiceFormula.Proofs.Spelling

/-! Scanning splits a text into blanks and lexemes. Every lexeme is read with the text after it
present, so that the splitting is the only one of its kind. -/
namespace DiceFormula

structure Tile extends Token where
  run : Text

namespace Tile

def stop (tile : Tile) : Nat := tile.position + tile.run.length

end Tile

namespace Scan

/-- The text from a place on, as a list of tiles with blanks around them. -/
inductive Tiled : Option Symbol → Nat → Text → List Tile → Prop
  | done {previous : Option Symbol} {place : Nat} {gap : Text} :
      (∀ b ∈ gap, Text.isBlank b = true) → Tiled previous place gap []
  | tile {previous : Option Symbol} {place : Nat} {gap run after : Text} {symbol : Symbol}
      {tiles : List Tile} : (∀ b ∈ gap, Text.isBlank b = true) → Leads previous run after symbol →
      Tiled (some symbol) (place + gap.length + run.length) after tiles →
      Tiled previous place (gap ++ (run ++ after)) (⟨⟨symbol, place + gap.length⟩, run⟩ :: tiles)

variable {run after rest : Text} {symbol : Symbol} {previous : Option Symbol} {place extra : Nat}
  {b : UInt8}

theorem takeWhile_append {p : UInt8 → Bool} (hrun : ∀ b ∈ run, p b = true)
    (hafter : ∀ b ∈ after.head?, p b = false) : (run ++ after).takeWhile p = run := by
  rw [List.takeWhile_append_of_pos hrun]
  cases after with
  | nil => simp
  | cons b after => simp [hafter b rfl]

def Begins (previous : Option Symbol) (t : Text) (symbol : Symbol) (extra : Nat) : Prop :=
  ∃ run after, t = run ++ after ∧ run.length = extra + 1 ∧ Leads previous run after symbol

theorem begins_of_number (hdigit : Text.isDigit b = true)
    (h : number place (b :: rest) = .ok ⟨some symbol, extra⟩) :
    Begins previous (b :: rest) symbol extra := by
  simp only [number] at h
  split at h
  · rename_i hvalue
    cases h
    have hcons : (b :: rest).takeWhile Text.isDigit = b :: rest.takeWhile Text.isDigit := by
      simp [hdigit]
    have hdigits : ∀ c ∈ (b :: rest).takeWhile Text.isDigit, Text.isDigit c = true :=
      List.all_eq_true.mp List.all_takeWhile
    have hne : (b :: rest).takeWhile Text.isDigit ≠ [] := by simp [hcons]
    refine ⟨_, _, List.takeWhile_append_dropWhile.symm, ?_, .number hne hdigits hvalue, trivial, ?_⟩
    · simp [hcons]
    · intro c hc
      have hstop := List.head?_dropWhile_not Text.isDigit (b :: rest)
      rw [hc] at hstop
      exact hstop
  · cases h

theorem parenthesis_eq_ok_iff {l : Lexeme} : parenthesis previous place b = .ok l ↔
    (∀ op, previous = some (.operator op) → op.takesRight = (b == openingByte)) ∧
      l = ⟨some (if b = openingByte then .opening else .closing), 0⟩ := by
  rcases previous with _ | _ | op | _ | _
  case some.operator =>
    by_cases hop : op.takesRight = (b == openingByte) <;> simp [parenthesis, hop, @eq_comm _ l]
  all_goals simp [parenthesis, @eq_comm _ l]

theorem begins_of_parenthesis (hb : isParenthesis b = true)
    (h : parenthesis previous place b = .ok ⟨some symbol, extra⟩) :
    Begins previous (b :: rest) symbol extra := by
  obtain ⟨hagrees, hl⟩ := parenthesis_eq_ok_iff.mp h
  simp only [isParenthesis, Bool.or_eq_true, beq_iff_eq] at hb
  refine ⟨[b], rest, rfl, ?_⟩
  rcases hb with rfl | rfl
  · cases hl
    exact ⟨rfl, .opening, fun op hop => by simpa using hagrees op hop, trivial⟩
  · cases hl
    exact ⟨rfl, .closing, fun op hop => by rw [hagrees op hop]; rfl, trivial⟩

theorem spells_plusOrMinus (hb : b = plusByte ∨ b = minusByte) :
    Spells [b] (.operator (plusOrMinus previous b)) := by
  unfold plusOrMinus
  rcases hb with rfl | rfl
  · cases operandDue previous with
    | false => exact .plus (.inl rfl)
    | true => exact .plus (.inr rfl)
  · cases operandDue previous with
    | false => exact .minus (.inl rfl)
    | true => exact .minus (.inr rfl)

@[simp] theorem isPlusOrMinus_plusOrMinus : (plusOrMinus previous b).isPlusOrMinus = true := by
  unfold plusOrMinus
  split <;> split <;> rfl

@[simp] theorem isSign_plusOrMinus : (plusOrMinus previous b).isSign = operandDue previous := by
  unfold plusOrMinus
  cases operandDue previous <;> by_cases hb : b = plusByte <;> simp [hb, Operator.isSign]

theorem begins_of_plusOrMinus (hb : b = plusByte ∨ b = minusByte) :
    Begins previous (b :: rest) (.operator (plusOrMinus previous b)) 0 := by
  refine ⟨[b], rest, rfl, rfl, spells_plusOrMinus hb, ?_, ?_⟩
  · intro _
    rw [isSign_plusOrMinus]
  · intro hno
    rw [isPlusOrMinus_plusOrMinus] at hno
    cases hno

theorem begins_of_operator (hno : ¬ (b = plusByte ∨ b = minusByte))
    (h : operator place b rest = .ok ⟨some symbol, extra⟩) :
    Begins previous (b :: rest) symbol extra := by
  obtain ⟨tail, after, rfl, hrun, hstop⟩ := exists_extend [b] rest
  simp only [operator, hrun] at h
  split at h
  · rename_i op htyped
    cases h
    obtain ⟨hcode, htypeable⟩ := Operator.typed?_eq_some_iff.mp htyped
    have hother : op.isPlusOrMinus = false := by
      by_contra hsign
      have hcodes := Operator.code_of_isPlusOrMinus htypeable (by simpa using hsign)
      simp only [hcode, List.cons_append, List.nil_append, List.cons.injEq] at hcodes
      exact hno (hcodes.imp And.left And.left)
    refine ⟨[b] ++ tail, after, rfl, by simp, ?_, ?_, ?_⟩
    · rw [← hcode]
      exact .code htypeable hother
    · intro hsign
      rw [hother] at hsign
      cases hsign
    · intro _
      rw [hcode]
      exact hstop
  · cases h

theorem exists_content (h : (rest.takeWhile (· ≠ facesEndByte)).length ≠ rest.length) :
    ∃ after, rest = rest.takeWhile (· ≠ facesEndByte) ++ facesEndByte :: after := by
  have hsplit := List.takeWhile_append_dropWhile (p := (· ≠ facesEndByte)) (l := rest)
  have hstop := List.head?_dropWhile_not (· ≠ facesEndByte) rest
  cases hdrop : rest.dropWhile (· ≠ facesEndByte) with
  | nil =>
    rw [hdrop, List.append_nil] at hsplit
    exact absurd (congrArg List.length hsplit) h
  | cons c after =>
    rw [hdrop] at hsplit hstop
    have hc : c = facesEndByte := by simpa using hstop
    rw [hc] at hsplit
    exact ⟨after, hsplit.symm⟩

theorem begins_of_faces (h : faces previous place rest = .ok ⟨some symbol, extra⟩) :
    Begins previous (facesByte :: rest) symbol extra := by
  simp only [faces] at h
  split at h
  · cases h
  · rename_i hdice
    split at h
    · cases h
    · rename_i hlength
      obtain ⟨after, hrest⟩ := exists_content hlength
      generalize rest.takeWhile (· ≠ facesEndByte) = content at h hrest
      split at h
      · rename_i values hvalues
        cases h
        have hspells := Spells.faces (List.splitOn_ne_nil _ _) (faceList_eq_ok_iff.mp hvalues)
        have hjoined : Text.joined [commaByte] (content.splitOn commaByte) = content :=
          List.intercalate_splitOn commaByte
        rw [hjoined] at hspells
        refine ⟨_, after, by simp [hrest], by simp, hspells, ?_, trivial⟩
        simpa [MayFollow] using hdice
      · cases h

theorem begins_of_lexeme (h : lexeme previous place b rest = .ok ⟨some symbol, extra⟩) :
    Begins previous (b :: rest) symbol extra := by
  simp only [lexeme] at h
  split_ifs at h with hblank hdigit hparenthesis hsign hcode hfaces hfudge
  · cases h
  · exact begins_of_number hdigit h
  · exact begins_of_parenthesis hparenthesis h
  · cases h
    exact begins_of_plusOrMinus hsign
  · exact begins_of_operator hsign h
  · rw [hfaces]
    exact begins_of_faces h
  · rw [hfudge]
    unfold fudge at h
    split at h
    · rename_i hdice
      cases h
      exact ⟨[fudgeByte], rest, rfl, rfl, .fudge, hdice, trivial⟩
    · cases h

theorem blank_of_lexeme (h : lexeme previous place b rest = .ok ⟨none, extra⟩) :
    Text.isBlank b = true ∧ extra = 0 := by
  simp only [lexeme] at h
  split_ifs at h with hblank hdigit hparenthesis hsign hcode hfaces hfudge
  · cases h
    exact ⟨hblank, rfl⟩
  · unfold number at h
    dsimp only at h
    split at h <;> cases h
  · cases (parenthesis_eq_ok_iff.mp h).2
  · cases h
  · unfold operator at h
    dsimp only at h
    split at h <;> cases h
  · unfold faces at h
    dsimp only at h
    split_ifs at h
    split at h <;> cases h
  · unfold fudge at h
    split at h <;> cases h

theorem number_append {digits : Text} (hdigits : ∀ b ∈ digits, Text.isDigit b = true)
    (hvalue : (Text.value digits : Int) ≤ Word.greatest)
    (hafter : ∀ b ∈ after.head?, Text.isDigit b = false) :
    number place (digits ++ after) =
      .ok ⟨some (.literal (.number (.int (Text.value digits)))), digits.length - 1⟩ := by
  simp only [number, takeWhile_append hdigits hafter, if_pos hvalue]
  rfl

theorem operator_append {op : Operator} {tail : Text} (hcode : op.code = b :: tail)
    (htypeable : op.typeable = true)
    (hafter : ∀ b ∈ after.head?, Operator.beginsCode (op.code ++ [b]) = false) :
    operator place b (tail ++ after) = .ok ⟨some (.operator op), tail.length⟩ := by
  have hbegins : Operator.beginsCode ([b] ++ tail) = true := by
    rw [List.singleton_append, ← hcode]
    exact Operator.beginsCode_code htypeable
  have hrun : extend [b] (tail ++ after) = op.code := by
    rw [extend_append hbegins, List.singleton_append, ← hcode]
    exact extend_stops hafter
  have htyped : Operator.typed? op.code = some op :=
    Operator.typed?_eq_some_iff.mpr ⟨rfl, htypeable⟩
  simp only [operator, hrun, htyped]
  simp [hcode]

theorem faces_append {items : List Text} {values : Faces} (hne : items ≠ [])
    (hreads : Reads items values) (hdice : followsDice previous = true) :
    faces previous place (Text.joined [commaByte] items ++ [facesEndByte] ++ after) =
      .ok ⟨some (.literal (.faces values)), (Text.joined [commaByte] items).length + 1⟩ := by
  have hcontent : (Text.joined [commaByte] items ++ [facesEndByte] ++ after).takeWhile
      (· ≠ facesEndByte) = Text.joined [commaByte] items := by
    rw [List.append_assoc]
    refine takeWhile_append (fun b hb => ?_) (by simp)
    simpa using fun h => hreads.bytes_joined b hb (.inl h)
  simp only [faces, hcontent, hdice, hreads.splitOn hne, faceList_eq_ok_iff.mpr hreads]
  simp

theorem plusOrMinus_eq {op : Operator}
    (hop : b = plusByte ∧ (op = .add ∨ op = .affirm) ∨ b = minusByte ∧
      (op = .subtract ∨ op = .negate))
    (hdue : op.isSign = true ↔ operandDue previous = true) : plusOrMinus previous b = op := by
  have hne : minusByte ≠ plusByte := by decide
  have hsign : operandDue previous = op.isSign := (Bool.eq_iff_iff.mpr hdue).symm
  unfold plusOrMinus
  rw [hsign]
  rcases hop with ⟨rfl, rfl | rfl⟩ | ⟨rfl, rfl | rfl⟩ <;> simp [Operator.isSign, hne]

theorem lexeme_of_leads {tail : Text} (h : Leads previous (b :: tail) after symbol) :
    lexeme previous place b (tail ++ after) = .ok ⟨some symbol, tail.length⟩ := by
  obtain ⟨hspells, hfollows, hends⟩ := h
  generalize hrun : b :: tail = run at hspells
  cases hspells with
  | number hne hdigits hvalue =>
    have hdigit : Text.isDigit b = true := hdigits b (by simp [← hrun])
    have hblank : Text.isBlank b = false := by
      by_contra hb
      rw [isDigit_of_isBlank (by simpa using hb)] at hdigit
      cases hdigit
    have hread : number place (run ++ after) = _ := number_append hdigits hvalue hends
    rw [← hrun] at hread
    simp only [lexeme, hblank, hdigit, ← hrun]
    exact hread
  | @code op htypeable hother =>
    have hmem : b ∈ op.code := by simp [← hrun]
    have hcode := Operator.isCodeByte_iff.mpr ⟨op, htypeable, hmem⟩
    obtain ⟨hdigit, hblank, hparenthesis, -⟩ := Operator.not_of_isCodeByte hcode
    have hsign := Operator.not_plusOrMinus_of_mem hother hmem
    have hread : operator place b (tail ++ after) = _ :=
      operator_append hrun.symm htypeable (hends hother)
    simpa [lexeme, hdigit, hblank, hparenthesis, hsign, hcode] using hread
  | @plus op hop =>
    cases hrun
    have hsign : op.isPlusOrMinus = true := by rcases hop with rfl | rfl <;> rfl
    have hread : lexeme previous place plusByte after =
        .ok ⟨some (.operator (plusOrMinus previous plusByte)), 0⟩ := rfl
    rwa [plusOrMinus_eq (.inl ⟨rfl, hop⟩) (hfollows hsign)] at hread
  | @minus op hop =>
    cases hrun
    have hsign : op.isPlusOrMinus = true := by rcases hop with rfl | rfl <;> rfl
    have hread : lexeme previous place minusByte after =
        .ok ⟨some (.operator (plusOrMinus previous minusByte)), 0⟩ := rfl
    rwa [plusOrMinus_eq (.inr ⟨rfl, hop⟩) (hfollows hsign)] at hread
  | opening =>
    cases hrun
    have hread : lexeme previous place openingByte after = parenthesis previous place openingByte :=
      rfl
    rw [List.nil_append, hread, parenthesis_eq_ok_iff]
    exact ⟨fun op hop => hfollows op hop, rfl⟩
  | closing =>
    cases hrun
    have hread : lexeme previous place closingByte after = parenthesis previous place closingByte :=
      rfl
    rw [List.nil_append, hread, parenthesis_eq_ok_iff]
    exact ⟨fun op hop => hfollows op hop, rfl⟩
  | faces hne hreads =>
    cases hrun
    have hread : lexeme previous place facesByte
        (Text.joined [commaByte] _ ++ [facesEndByte] ++ after) = _ :=
      faces_append hne hreads hfollows
    rw [hread, List.length_append, List.length_singleton]
  | fudge =>
    cases hrun
    have hread : lexeme previous place fudgeByte after = fudge previous place := rfl
    have hdice : followsDice previous = true := hfollows
    rw [List.nil_append, hread, fudge, if_pos hdice]
    rfl

theorem tokens_blank (hblank : Text.isBlank b = true) :
    tokens previous place (b :: rest) = tokens previous (place + 1) rest := by
  have hlexeme : lexeme previous place b rest = .ok ⟨none, 0⟩ := by simp [lexeme, hblank]
  rw [tokens, hlexeme]
  simp

theorem tokens_gap {gap t : Text} (hgap : ∀ b ∈ gap, Text.isBlank b = true) :
    tokens previous place (gap ++ t) = tokens previous (place + gap.length) t := by
  induction gap generalizing place with
  | nil => rfl
  | cons b gap ih =>
    rw [List.forall_mem_cons] at hgap
    rw [List.cons_append, tokens_blank hgap.1, ih hgap.2, List.length_cons]
    congr 1
    omega

theorem Tiled.blank {t : Text} {tiles : List Tile} (hblank : Text.isBlank b = true)
    (h : Tiled previous (place + 1) t tiles) : Tiled previous place (b :: t) tiles := by
  cases h with
  | done hgap => exact .done (List.forall_mem_cons.mpr ⟨hblank, hgap⟩)
  | @tile _ _ gap run after symbol tiles hgap hleads hrest =>
    have hplace : place + 1 + gap.length = place + (b :: gap).length := by
      rw [List.length_cons]
      omega
    rw [hplace] at hrest ⊢
    exact .tile (List.forall_mem_cons.mpr ⟨hblank, hgap⟩) hleads hrest

theorem tokens_of_tiled {t : Text} {tiles : List Tile} (h : Tiled previous place t tiles) :
    tokens previous place t = .ok (tiles.map Tile.toToken) := by
  induction h with
  | @done previous place gap hgap =>
    have hread : tokens previous place (gap ++ []) = _ := tokens_gap hgap
    rw [List.append_nil] at hread
    rw [hread, tokens]
    rfl
  | @tile previous place gap run after symbol tiles hgap hleads _ ih =>
    rw [tokens_gap hgap]
    cases run with
    | nil => exact absurd rfl hleads.spells.ne_nil
    | cons b tail =>
      rw [List.cons_append, tokens, lexeme_of_leads hleads]
      dsimp only
      rw [List.drop_left]
      rw [List.length_cons, Nat.add_comm tail.length, ← Nat.add_assoc] at ih
      rw [ih]
      rfl

theorem tiled_of_tokens {t : Text} {tokens : List Token}
    (h : Scan.tokens previous place t = .ok tokens) :
    ∃ tiles : List Tile, tiles.map Tile.toToken = tokens ∧ Tiled previous place t tiles := by
  induction previous, place, t using Scan.tokens.induct generalizing tokens with
  | case1 previous place =>
    rw [Scan.tokens] at h
    cases h
    exact ⟨[], rfl, .done (by simp)⟩
  | case2 previous place b rest e he =>
    rw [Scan.tokens, he] at h
    cases h
  | case3 previous place b rest extra hlexeme ih =>
    obtain ⟨hblank, rfl⟩ := blank_of_lexeme hlexeme
    rw [tokens_blank hblank] at h
    obtain ⟨tiles, htokens, htiled⟩ := ih h
    exact ⟨tiles, htokens, .blank hblank htiled⟩
  | case4 previous place b rest symbol extra hlexeme others hothers ih =>
    obtain ⟨run, after, htext, hlength, hleads⟩ := begins_of_lexeme hlexeme
    have hafter : rest.drop extra = after := by
      have hdrop := congrArg (List.drop (extra + 1)) htext
      rwa [List.drop_succ_cons, ← hlength, List.drop_left] at hdrop
    rw [Scan.tokens, hlexeme] at h
    simp only [hothers] at h
    cases h
    obtain ⟨tiles, rfl, htiled⟩ := ih hothers
    -- Blanks before the lexeme were skipped one by one, so its tile has no gap of its own.
    have hplace : place + 1 + extra = place + ([] : Text).length + run.length := by
      rw [hlength, List.length_nil]
      omega
    rw [hafter, hplace] at htiled
    rw [htext]
    exact ⟨_, rfl, @Tiled.tile previous place [] run after symbol tiles (by simp) hleads htiled⟩
  | case5 previous place b rest symbol extra hlexeme e he =>
    rw [Scan.tokens, hlexeme] at h
    simp only [he] at h
    cases h

theorem ne_of_not_isParenthesis (h : isParenthesis b = false) :
    b ≠ openingByte ∧ b ≠ closingByte := by
  simpa [isParenthesis] using h

theorem Tiled.nested_eq {t : Text} {tiles : List Tile} (h : Tiled previous place t tiles)
    (opened : Nat) : nested openingByte closingByte opened t =
      nested .opening .closing opened (tiles.map (·.symbol)) := by
  have hblanks : ∀ gap : Text, (∀ b ∈ gap, Text.isBlank b = true) →
      ∀ b ∈ gap, b ≠ openingByte ∧ b ≠ closingByte := by
    intro gap hgap b hb
    have hblank := hgap b hb
    constructor
    all_goals
      rintro rfl
      cases hblank
  induction h generalizing opened with
  | @done _ _ gap hgap =>
    have hread := nested_append (t := []) (hblanks gap hgap) opened
    rw [List.append_nil] at hread
    rw [hread]
    rfl
  | @tile _ _ gap run after symbol tiles hgap hleads _ ih =>
    rw [nested_append (hblanks gap hgap)]
    by_cases ho : symbol = .opening
    · subst ho
      cases hleads.spells
      simp [nested, ih]
    · by_cases hc : symbol = .closing
      · subst hc
        cases hleads.spells
        simp [nested, openingByte_ne.symm, ih]
      · rw [nested_append fun b hb =>
          ne_of_not_isParenthesis (hleads.spells.not_parenthesis ho hc b hb)]
        simp [nested, ho, hc, ih]

end Scan

/-- Which texts have tokens: those that are tiled by balanced ones. -/
theorem Token.ofText_eq_ok_iff {source : Text} {tokens : List Token} :
    Token.ofText source = .ok tokens ↔ ∃ tiles : List Tile, tiles.map Tile.toToken = tokens ∧
      Scan.Tiled none 0 source tiles ∧ Balanced .opening .closing (tiles.map (·.symbol)) := by
  have hsymbols : Symbol.opening ≠ Symbol.closing := by decide
  have hmatch := Scan.matchParentheses_eq_ok_iff source [] 0
  have hall : Token.ofText source = .ok tokens ↔
      Scan.matchParentheses [] 0 source = .ok () ∧ Scan.tokens none 0 source = .ok tokens := by
    unfold Token.ofText Scan.all
    cases Scan.matchParentheses [] 0 source with
    | error e => simp
    | ok _ => cases Scan.tokens none 0 source <;> simp
  rw [hall, hmatch, List.length_nil]
  constructor
  · rintro ⟨hnested, htokens⟩
    obtain ⟨tiles, rfl, htiled⟩ := Scan.tiled_of_tokens htokens
    rw [htiled.nested_eq, nested_zero_iff hsymbols] at hnested
    exact ⟨tiles, rfl, htiled, hnested⟩
  · rintro ⟨tiles, rfl, htiled, hbalanced⟩
    rw [htiled.nested_eq, nested_zero_iff hsymbols]
    exact ⟨hbalanced, Scan.tokens_of_tiled htiled⟩

end DiceFormula
