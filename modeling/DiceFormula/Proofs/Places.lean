import DiceFormula.Proofs.Juxtaposition
import DiceFormula.Proofs.Tiling

/-! Where a text is faulty. Every flaw is reported at a byte of the text that has it, and what the
parentheses of a text pass never fails for its parentheses later. -/
namespace DiceFormula

namespace Scan
variable {previous : Option Symbol} {place : Nat} {b : UInt8} {rest t : Text} {e : Located}

theorem matchParentheses_error {opened : List Nat}
    (h : matchParentheses opened place t = .error e) :
    e.2 ∈ opened ∨ e.2 < place + t.length := by
  induction t generalizing opened place with
  | nil =>
    unfold matchParentheses at h
    split at h
    · next first hfirst =>
      cases h
      exact .inl (List.mem_of_getLast? hfirst)
    · cases h
  | cons b t ih =>
    unfold matchParentheses at h
    rw [List.length_cons]
    split_ifs at h with hopening hclosing
    · rcases ih h with hmem | hlt
      · rcases List.mem_cons.mp hmem with hplace | hmem
        · exact .inr (by omega)
        · exact .inl hmem
      · exact .inr (by omega)
    · split at h
      · cases h
        exact .inr (by simp)
      · rcases ih h with hmem | hlt
        · exact .inl (List.mem_cons_of_mem _ hmem)
        · exact .inr (by omega)
    · rcases ih h with hmem | hlt
      · exact .inl hmem
      · exact .inr (by omega)

theorem flawOfNext_eq_some {afterDice : Bool} (h : flawOfNext afterDice place t = some e) :
    e.2 = place ∧ t ≠ [] := by
  cases t with
  | nil => cases h
  | cons b t =>
    simp only [flawOfNext] at h
    split_ifs at h <;> cases h <;> exact ⟨rfl, List.cons_ne_nil b t⟩

theorem flawOfNext_getD (flaw : Flaw) {run : Text} (hrun : run ≠ []) (after : Text) :
    ((flawOfNext false (place + run.length) after).getD (flaw, place)).2 <
      place + (run ++ after).length := by
  have hpos := List.length_pos_iff.mpr hrun
  rw [List.length_append]
  cases hnext : flawOfNext false (place + run.length) after with
  | none =>
    rw [Option.getD_none]
    omega
  | some e =>
    obtain ⟨hplace, hafter⟩ := flawOfNext_eq_some hnext
    have hlength := List.length_pos_iff.mpr hafter
    rw [Option.getD_some]
    omega

theorem number_error (hdigit : Text.isDigit b = true) (h : number place (b :: rest) = .error e) :
    e.2 < place + (b :: rest).length := by
  simp only [number] at h
  split at h
  · cases h
  · cases h
    have hne : (b :: rest).takeWhile Text.isDigit ≠ [] := by simp [hdigit]
    conv_rhs => rw [← List.takeWhile_append_dropWhile (p := Text.isDigit) (l := b :: rest)]
    exact flawOfNext_getD _ hne _

theorem operator_error (h : operator place b rest = .error e) :
    e.2 < place + (b :: rest).length := by
  obtain ⟨tail, after, rfl, hrun, -⟩ := exists_extend [b] rest
  simp only [operator, hrun] at h
  split at h
  · cases h
  · cases h
    have hdrop : (tail ++ after).drop (([b] ++ tail).length - 1) = after := by simp
    rw [hdrop]
    exact flawOfNext_getD _ (List.cons_ne_nil b tail) after

theorem parenthesis_error (h : parenthesis previous place b = .error e) : e.2 = place := by
  simp only [parenthesis] at h
  split_ifs at h
  cases h
  rfl

theorem length_le_joined (item : Text) (rest : List Text) :
    item.length ≤ (Text.joined [commaByte] (item :: rest)).length := by
  cases rest with
  | nil => simp [Text.joined]
  | cons other rest => simp [Text.joined, List.intercalate_cons_cons]

theorem faceList_error {items : List Text} (h : faceList place items = .error e) :
    e.2 ≤ place + (Text.joined [commaByte] items).length := by
  induction items generalizing place with
  | nil => cases h
  | cons item rest ih =>
    simp only [faceList] at h
    split at h
    · cases h
      have hblanks := (List.takeWhile_prefix (l := item) Text.isBlank).length_le
      have hitem := length_le_joined item rest
      dsimp only
      omega
    · split at h
      · cases h
      · next hrest =>
        cases h
        cases rest with
        | nil => cases hrest
        | cons other rest =>
          have hle := ih hrest
          rw [Text.joined, List.intercalate_cons_cons]
          simp [Text.joined] at hle ⊢
          omega

theorem faces_error (h : faces previous place rest = .error e) :
    e.2 < place + (b :: rest).length := by
  have hplace : place < place + (b :: rest).length := by simp
  simp only [faces] at h
  split_ifs at h with hdice hlength
  · cases h
    exact hplace
  · cases h
    exact hplace
  · obtain ⟨after, hrest⟩ := exists_content hlength
    generalize rest.takeWhile (· ≠ facesEndByte) = content at h hrest
    split at h
    · cases h
    · next hlist =>
      cases h
      have hle := faceList_error hlist
      rw [show Text.joined [commaByte] (content.splitOn commaByte) = content from
        List.intercalate_splitOn commaByte] at hle
      rw [hrest, List.length_cons, List.length_append, List.length_cons]
      omega

theorem fudge_error (h : fudge previous place = .error e) : e.2 = place := by
  unfold fudge at h
  split at h
  · cases h
  · cases h
    rfl

theorem lexeme_error (h : lexeme previous place b rest = .error e) :
    e.2 < place + (b :: rest).length := by
  have hplace : place < place + (b :: rest).length := by simp
  simp only [lexeme] at h
  split_ifs at h with hblank hdigit hparenthesis hsign hcode hfaces hfudge
  · exact number_error hdigit h
  · rwa [parenthesis_error h]
  · exact operator_error h
  · exact faces_error h
  · rwa [fudge_error h]
  · cases h
    exact hplace

theorem length_of_lexeme {symbol : Option Symbol} {extra : Nat}
    (h : lexeme previous place b rest = .ok ⟨symbol, extra⟩) : extra ≤ rest.length := by
  cases symbol with
  | none =>
    rw [(blank_of_lexeme h).2]
    exact Nat.zero_le _
  | some symbol =>
    obtain ⟨run, after, htext, hlength, -⟩ := begins_of_lexeme h
    have hlengths := congrArg List.length htext
    rw [List.length_cons, List.length_append] at hlengths
    omega

theorem lt_of_rest {i extra : Nat} (hle : extra ≤ rest.length)
    (h : i < place + 1 + extra + (rest.drop extra).length) : i < place + (b :: rest).length := by
  rw [List.length_drop] at h
  rw [List.length_cons]
  omega

theorem tokens_error (h : tokens previous place t = .error e) : e.2 < place + t.length := by
  induction previous, place, t using Scan.tokens.induct with
  | case1 previous place =>
    rw [Scan.tokens] at h
    cases h
  | case2 previous place b rest e' he =>
    rw [Scan.tokens, he] at h
    cases h
    exact lexeme_error he
  | case3 previous place b rest extra hlexeme ih =>
    rw [Scan.tokens, hlexeme] at h
    exact lt_of_rest (length_of_lexeme hlexeme) (ih h)
  | case4 previous place b rest symbol extra hlexeme others hothers ih =>
    rw [Scan.tokens, hlexeme] at h
    simp only [hothers] at h
    cases h
  | case5 previous place b rest symbol extra hlexeme e' he ih =>
    rw [Scan.tokens, hlexeme] at h
    simp only [he] at h
    cases h
    exact lt_of_rest (length_of_lexeme hlexeme) (ih he)

end Scan

namespace Token

theorem ofText_error {source : Text} {e : ParseError} (h : ofText source = .error e) :
    e.source = source ∧ e.offset < source.length := by
  unfold ofText Scan.all at h
  cases hmatch : Scan.matchParentheses [] 0 source with
  | error flaw =>
    rw [hmatch] at h
    cases h
    have hlt := (Scan.matchParentheses_error hmatch).resolve_left List.not_mem_nil
    exact ⟨rfl, by rwa [Nat.zero_add] at hlt⟩
  | ok _ =>
    cases htokens : Scan.tokens none 0 source with
    | error flaw =>
      simp only [hmatch, htokens] at h
      cases h
      have hlt := Scan.tokens_error htokens
      exact ⟨rfl, by rwa [Nat.zero_add] at hlt⟩
    | ok tokens =>
      simp only [hmatch, htokens] at h
      cases h

theorem position_lt_of_ofText {source : Text} {tokens : List Token}
    (h : ofText source = .ok tokens) :
    ∀ token ∈ tokens, token.position < source.length := by
  obtain ⟨tiles, rfl, htiled, -⟩ := ofText_eq_ok_iff.mp h
  rw [List.forall_mem_map]
  intro tile htile
  obtain ⟨hstands, before, hleads⟩ := htiled.leads rfl tile htile
  have hlength := congrArg List.length hstands
  have hrun := List.length_pos_iff.mpr hleads.spells.ne_nil
  rw [List.length_drop, List.length_append] at hlength
  exact Nat.lt_of_sub_pos (by omega)

theorem nested_of_ofText {source : Text} {tokens : List Token} (h : ofText source = .ok tokens) :
    nested .opening .closing 0 (tokens.map Token.symbol) = true := by
  obtain ⟨tiles, rfl, -, hbalanced⟩ := ofText_eq_ok_iff.mp h
  rw [List.map_map]
  exact (nested_zero_iff (by decide) _).mpr hbalanced

end Token

def Flaw.isUnmatched : Flaw → Bool
  | .unopened | .unclosed => true
  | _ => false

theorem Flaw.ne_of_isUnmatched {flaw : Flaw} (h : flaw.isUnmatched = false) :
    flaw ≠ .unopened ∧ flaw ≠ .unclosed := by
  constructor <;> (rintro rfl; cases h)

namespace Build
variable {op : Operator} {place : Nat} {waiting : List Pending} {operands : List Operand}
  {s : Stacks}
  {e : Located}

theorem lacking_isUnmatched : (lacking op place operands).isUnmatched = false := by
  simp only [lacking, apply_ite Flaw.isUnmatched]
  exact ite_self false

theorem error_of_join {start depth : Nat} {left right : Tree} {rest : List Operand}
    (h : (do return (← join op place left right start depth) :: rest) = Except.error e) :
    e.1.isUnmatched = false ∧ e.2 = place := by
  unfold join at h
  split at h
  · cases h
    exact ⟨rfl, rfl⟩
  · cases h

theorem reduce_error (h : reduce op place operands = .error e) :
    e.1.isUnmatched = false ∧ e.2 = place := by
  unfold reduce at h
  split at h
  · exact error_of_join h
  · exact error_of_join h
  · exact error_of_join h
  · exact error_of_join h
  · cases h
    exact ⟨lacking_isUnmatched, rfl⟩

def Refuses (waiting : List Pending) (e : Located) : Prop :=
  e.1.isUnmatched = false ∧ ∃ p ∈ waiting, e.2 = p.position

theorem Refuses.cons {p : Pending} (h : Refuses waiting e) : Refuses (p :: waiting) e :=
  ⟨h.1, h.2.imp fun _ hq => ⟨List.mem_cons_of_mem p hq.1, hq.2⟩⟩

theorem refuses_of_reduce (h : reduce op place operands = .error e) :
    Refuses (.operator op place :: waiting) e :=
  ⟨(reduce_error h).1, _, List.mem_cons_self, (reduce_error h).2⟩

theorem reduceBefore_error {incoming : Operator}
    (h : reduceBefore incoming waiting operands = .error e) :
    Refuses waiting e := by
  induction waiting generalizing operands with
  | nil => cases h
  | cons first waiting ih =>
    cases first with
    | opening place => cases h
    | operator op place =>
      simp only [reduceBefore] at h
      split at h
      · split at h
        · exact (ih h).cons
        · next hreduce =>
          cases h
          exact refuses_of_reduce hreduce
      · cases h

theorem close_error {position : Nat} (h : close position waiting operands = .error e) :
    (e.2 = position ∧ waiting.countP Pending.isOpening = 0) ∨ Refuses waiting e := by
  induction waiting generalizing operands with
  | nil =>
    cases h
    exact .inl ⟨rfl, rfl⟩
  | cons first waiting ih =>
    cases first with
    | opening place => cases h
    | operator op place =>
      simp only [close] at h
      split at h
      · exact (ih h).imp_right Refuses.cons
      · next hreduce =>
        cases h
        exact .inr (refuses_of_reduce hreduce)

theorem finish_error (h : finish waiting operands = .error e) :
    (∃ place, .opening place ∈ waiting ∧ e.2 = place) ∨ Refuses waiting e := by
  induction waiting generalizing operands with
  | nil => cases h
  | cons first waiting ih =>
    cases first with
    | opening place =>
      cases h
      exact .inl ⟨place, List.mem_cons_self, rfl⟩
    | operator op place =>
      simp only [finish] at h
      split at h
      · refine (ih h).imp ?_ Refuses.cons
        rintro ⟨place, hmem, hplace⟩
        exact ⟨place, List.mem_cons_of_mem _ hmem, hplace⟩
      · next hreduce =>
        cases h
        exact .inr (refuses_of_reduce hreduce)

theorem step_error {token : Token} (h : step s token = .error e) :
    (token.symbol = .closing ∧ s.opened = 0 ∧ e.2 = token.position) ∨ Refuses s.pending e := by
  unfold step at h
  split at h
  · cases h
  · cases h
  · next hsymbol => exact (close_error h).imp_left fun hclose => ⟨hsymbol, hclose.2, hclose.1⟩
  · next op hsymbol =>
    unfold pushOperator at h
    split at h
    · cases hbefore : reduceBefore op s.pending s.operands with
      | error flaw =>
        rw [hbefore] at h
        cases h
        exact .inr (reduceBefore_error hbefore)
      | ok u =>
        rw [hbefore] at h
        cases h
    · cases h

theorem run_error {tokens : List Token} {Q : Nat → Prop}
    (hplace : ∀ token ∈ tokens, Q token.position)
    (hpending : ∀ p ∈ s.pending, Q p.position) (h : run s tokens = .error e) :
    Q e.2 ∧ (nested .opening .closing s.opened (tokens.map Token.symbol) = true →
      e.1.isUnmatched = false) := by
  have hrefuses {s : Stacks} (hpending : ∀ p ∈ s.pending, Q p.position) (h : Refuses s.pending e) :
      Q e.2 := by
    obtain ⟨-, p, hp, hposition⟩ := h
    rw [hposition]
    exact hpending p hp
  induction tokens generalizing s with
  | nil =>
    have hfinish : finish s.pending s.operands = .error e := h
    obtain ⟨place, hmem, hposition⟩ | hrefused := finish_error hfinish
    · refine ⟨hposition ▸ hpending _ hmem, fun hnested => ?_⟩
      have hopened : 0 < s.opened := List.countP_pos_iff.mpr ⟨_, hmem, rfl⟩
      have hzero : s.opened = 0 := by simpa [nested] using hnested
      omega
    · exact ⟨hrefuses hpending hrefused, fun _ => hrefused.1⟩
  | cons token tokens ih =>
    rw [List.forall_mem_cons] at hplace
    unfold run steps at h
    cases hstep : step s token with
    | error flaw =>
      rw [hstep] at h
      cases h
      obtain ⟨hsymbol, hopened, hposition⟩ | hrefused := step_error hstep
      · refine ⟨hposition ▸ hplace.1, fun hnested => ?_⟩
        simp [nested, hsymbol, hopened] at hnested
      · exact ⟨hrefuses hpending hrefused, fun _ => hrefused.1⟩
    | ok s' =>
      rw [hstep] at h
      have hall : s'.All (fun _ => True) Q :=
        step_all (fun _ _ _ _ _ _ _ _ => trivial) hplace.1 (fun _ _ => trivial) hstep
          ⟨fun _ _ => trivial, hpending⟩
      obtain ⟨hQ, hnone⟩ := ih hplace.2 hall.pending h
      refine ⟨hQ, fun hnested => hnone ?_⟩
      rw [← (step_counts hstep).2.1]
      exact hnested

theorem Joined.position {taken : List Operand} {a : Operand} (h : Joined op place taken a) :
    a.position = place ∨ ∃ b ∈ taken, a.position = b.position := by
  cases h with
  | both left right => exact .inr ⟨left, by simp, rfl⟩
  | left left => exact .inr ⟨left, by simp, rfl⟩
  | right | neither => exact .inl rfl

theorem single_error (h : single operands = .error e) :
    e.1.isUnmatched = false ∧ ∃ a ∈ operands, e.2 = a.position := by
  unfold single at h
  split at h
  · cases h
  · cases h
  · next second rest hreverse =>
    cases h
    refine ⟨rfl, second, List.mem_reverse.mp ?_, rfl⟩
    rw [hreverse]
    exact List.mem_cons_of_mem _ List.mem_cons_self

theorem tree_error {tokens : List Token} {Q : Nat → Prop}
    (hplace : ∀ token ∈ tokens, Q token.position) (h : tree tokens = .error e) :
    Q e.2 ∧ (nested .opening .closing 0 (tokens.map Token.symbol) = true →
      e.1.isUnmatched = false) := by
  rw [tree_eq_run] at h
  cases hrun : run ⟨[], []⟩ tokens with
  | error flaw =>
    rw [hrun] at h
    cases h
    exact run_error hplace (by simp) hrun
  | ok left =>
    rw [hrun] at h
    obtain ⟨hmatched, a, ha, hposition⟩ := single_error h
    refine ⟨?_, fun _ => hmatched⟩
    have hleft : ∀ a ∈ left, Q a.position := by
      refine run_all ?_ hplace (fun token htoken _ _ => hplace token htoken) hrun ⟨by simp, by simp⟩
      intro op place taken a hQ htaken _ hjoined
      obtain hposition | ⟨b, hb, hposition⟩ := hjoined.position
      · rwa [hposition]
      · rw [hposition]
        exact htaken b hb
    rw [hposition]
    exact hleft a ha

end Build

/-- A text is read as a tree whose operators have their operands, or it is refused with a place in
it. What is made of its tokens never fails for a parenthesis. -/
theorem Tree.ofText_located (source : Text) :
    ((∃ t, ofText source = .ok t ∧ t.WellFormed) ∨
      ∃ e, ofText source = .error e ∧ e.source = source ∧ e.offset < source.length) ∧
    ∀ tokens, Token.ofText source = .ok tokens → ∀ shown e, ofTokens tokens shown = .error e →
      e.flaw ≠ .unopened ∧ e.flaw ≠ .unclosed := by
  cases htokens : Token.ofText source with
  | error e =>
    refine ⟨.inr ⟨e, ?_, Token.ofText_error htokens⟩, nofun⟩
    rw [ofText, htokens]
    rfl
  | ok tokens =>
    have hread := Build.ofText_eq_ofTokens htokens
    cases hbuilt : Build.tree tokens with
    | error flaw =>
      obtain ⟨hplace, hmatched⟩ := Build.tree_error (Q := (· < source.length))
        (Token.position_lt_of_ofText htokens) hbuilt
      refine ⟨.inr ⟨⟨flaw.1, flaw.2, source⟩, ?_, rfl, hplace⟩, ?_⟩
      · rw [hread, ofTokens, hbuilt]
      · rintro _ ⟨⟩ shown e herror
        rw [ofTokens, hbuilt] at herror
        cases herror
        exact Flaw.ne_of_isUnmatched (hmatched (Token.nested_of_ofText htokens))
    | ok t =>
      refine ⟨.inl ⟨t, ?_, (Build.sound_of_tree hbuilt).2.1⟩, ?_⟩
      · rw [hread, ofTokens, hbuilt]
      · rintro _ ⟨⟩ shown e herror
        rw [ofTokens, hbuilt] at herror
        cases herror

theorem Tree.ofText_located_surplus :
    let source := ascii ['(', '2', ' ', '3', ')']
    let tokens : List Token :=
      [⟨.opening, 0⟩, ⟨.number (.int 2), 1⟩, ⟨.number (.int 3), 3⟩, ⟨.closing, 4⟩]
    Token.ofText source = .ok tokens ∧
      ∃ e, ofText source = .error e ∧ e.offset = 3 ∧ e.offset < source.length ∧
        ofTokens tokens source = .error e ∧ e.flaw ≠ .unopened ∧ e.flaw ≠ .unclosed := by
  intro source tokens
  have htokens : Token.ofText source = .ok tokens := by decide +kernel
  have hbuilt : ofTokens tokens source = .error ⟨.surplusOperand, 3, source⟩ := by decide +kernel
  have hread : ofText source = .error ⟨.surplusOperand, 3, source⟩ := by
    rw [ofText, htokens]
    exact hbuilt
  obtain ⟨hplaced, hmatched⟩ := ofText_located source
  obtain ⟨t, ht, -⟩ | ⟨e, he, -, hplace⟩ := hplaced
  · rw [hread] at ht
    cases ht
  · rw [hread] at he
    cases he
    exact ⟨htokens, _, hread, rfl, hplace, hbuilt, hmatched tokens htokens source _ hbuilt⟩

end DiceFormula
