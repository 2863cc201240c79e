import OtEditor.InRange
import OtEditor.Page

/-!
# The caret stays on its text

A caret at `c` splits the text into the part before and the part after it. `applyOperationLocally`
moves it with `transformCursorPosition`, a second copy of the rules by which `transformAgainst`
moves an insertion (`transformAgainst_insert_eq`). An operation up to the caret is an operation
on the part before it alone, and any other one an operation on the part after it
(`SidesKept`). So through any run of remote operations both ends of a selection stay in the
text and in order, and each splits every new text as it split the one before
(`carets_stay_on_text`).
-/

namespace OtEditor

open PlainTextOperationsManager

/-- What an operation makes of the two sides of a caret at `c`. -/
def SidesKept (c : Int32) (before after before' after' : Text) :
    PlainTextSingleCharacterOperation → Prop
  | .insert operation =>
    if operation.position ≤ c then
      operation.applyTo before = .ok before' ∧ after' = after
    else
      before' = before ∧
        { operation with position := operation.position - c }.applyTo after = .ok after'
  | .delete operation =>
    if operation.position < c then
      operation.applyTo before = .ok before' ∧ after' = after
    else
      before' = before ∧
        { operation with position := operation.position - c }.applyTo after = .ok after'
  | .identity _ => before' = before ∧ after' = after

theorem toInt_sub {p c : Int32} (hc : 0 ≤ c.toInt) (hle : c.toInt ≤ p.toInt) :
    (p - c).toInt = p.toInt - c.toInt := by
  have := p.toInt_lt
  rw [Int32.toInt_sub, Int.bmod_eq_of_le] <;> omega

section Sides

variable {before after text' : Text} {c : Int32}

/-- An insertion up to the caret inserts into the part before it. -/
theorem insert_applyTo_before {insertion : InsertOperation} (h0 : 0 ≤ insertion.position.toInt)
    (hle : insertion.position.toInt ≤ before.length)
    (happly : insertion.applyTo (before ++ after) = .ok text') :
    ∃ before', insertion.applyTo before = .ok before' ∧ text' = before' ++ after ∧
      before'.length = before.length + 1 := by
  have hi : index insertion.position ≤ before.length := by
    simp only [index]
    omega
  unfold InsertOperation.applyTo at *
  rw [if_neg (by rw [List.length_append]; omega)] at happly
  rw [if_neg (by omega)]
  refine ⟨_, rfl, ?_, ?_⟩
  · rw [← Except.ok.inj happly, List.take_append_of_le_length hi, List.drop_append_of_le_length hi]
    simp
  · simp
    omega

/-- A deletion before the caret deletes from the part before it. -/
theorem delete_applyTo_before {deletion : DeleteOperation} (h0 : 0 ≤ deletion.position.toInt)
    (hlt : deletion.position.toInt < before.length)
    (happly : deletion.applyTo (before ++ after) = .ok text') :
    ∃ before', deletion.applyTo before = .ok before' ∧ text' = before' ++ after ∧
      before'.length + 1 = before.length := by
  have hi : index deletion.position < before.length := by
    simp only [index]
    omega
  have hget : (before ++ after).getD (index deletion.position) 0 =
      before.getD (index deletion.position) 0 := by
    simp only [List.getD_eq_getElem?_getD, List.getElem?_append_left hi]
  unfold DeleteOperation.applyTo at *
  rw [if_neg (by rw [List.length_append]; omega), hget] at happly
  rw [if_neg (by omega)]
  by_cases hfound : before.getD (index deletion.position) 0 = deletion.symbol
  · rw [if_neg (not_not.2 hfound)] at *
    refine ⟨_, rfl, ?_, ?_⟩
    · rw [← Except.ok.inj happly, List.take_append_of_le_length (Nat.le_of_lt hi),
        List.drop_append_of_le_length hi]
      simp
    · simp
      omega
  · rw [if_pos hfound] at happly
    cases happly

variable (hc : c.toInt = before.length)
include hc

/-- An insertion after the caret inserts into the part after it. -/
theorem insert_applyTo_after {insertion : InsertOperation}
    (hlt : before.length < insertion.position.toInt)
    (happly : insertion.applyTo (before ++ after) = .ok text') :
    ∃ after', { insertion with position := insertion.position - c }.applyTo after =
      .ok after' ∧ text' = before ++ after' := by
  have hsub := toInt_sub (p := insertion.position) (c := c) (by omega) (by omega)
  have hi : index insertion.position = before.length + index (insertion.position - c) := by
    simp only [index]
    omega
  unfold InsertOperation.applyTo at *
  rw [List.length_append, hi, List.take_length_add_append, List.drop_length_add_append] at happly
  dsimp only
  split_ifs at happly with hout
  · rw [if_pos (by omega)]
    exact ⟨after, rfl, (Except.ok.inj happly).symm⟩
  · rw [if_neg (by omega)]
    exact ⟨_, rfl, by rw [← Except.ok.inj happly, List.append_assoc]⟩

/-- A deletion from the caret on deletes from the part after it. -/
theorem delete_applyTo_after {deletion : DeleteOperation}
    (hle : before.length ≤ deletion.position.toInt)
    (happly : deletion.applyTo (before ++ after) = .ok text') :
    ∃ after', { deletion with position := deletion.position - c }.applyTo after =
      .ok after' ∧ text' = before ++ after' := by
  have hsub := toInt_sub (p := deletion.position) (c := c) (by omega) (by omega)
  have hi : index deletion.position = before.length + index (deletion.position - c) := by
    simp only [index]
    omega
  have hget : (before ++ after).getD (index deletion.position) 0 =
      after.getD (index (deletion.position - c)) 0 := by
    rw [List.getD_eq_getElem?_getD, hi, List.getElem?_append_right (Nat.le_add_right _ _),
      Nat.add_sub_cancel_left, List.getD_eq_getElem?_getD]
  unfold DeleteOperation.applyTo at *
  rw [List.length_append, hget, hi, Nat.add_assoc, List.take_length_add_append,
    List.drop_length_add_append] at happly
  dsimp only at *
  split_ifs at happly with hout hfound
  · rw [if_pos (by omega)]
    exact ⟨after, rfl, (Except.ok.inj happly).symm⟩
  · rw [if_neg (by omega), if_neg hfound]
    exact ⟨_, rfl, by rw [← Except.ok.inj happly, List.append_assoc]⟩

end Sides

/-! ## The caret of one operation -/

/-- `transformCursorPosition` moves a caret as `transformAgainst` moves an insertion at it. -/
theorem transformAgainst_insert_eq (uuid : Text) (c : Int32) (symbol : Symbol)
    (operation : PlainTextSingleCharacterOperation) :
    transformAgainst (.insert ⟨uuid, c, symbol⟩) operation =
      .insert ⟨uuid, transformCursorPosition c operation, symbol⟩ := by
  rcases operation with a | a | a
  · unfold transformAgainst transformInsertAgainstInsert transformCursorPosition
    simp only [← Int32.not_lt]
    split_ifs <;> rfl
  · unfold transformAgainst transformInsertAgainstDelete transformCursorPosition
    simp only [← Int32.not_lt]
    split_ifs <;> rfl
  · rfl

/-- A caret splits the new text as it split the old one. -/
theorem sidesKept_of_applies {before after text' : Text} {c : Int32}
    {operation : PlainTextSingleCharacterOperation} (h0 : NonNegative operation)
    (hc : c.toInt = before.length) (happly : operation.applyTo (before ++ after) = .ok text')
    (hfits : text'.length ≤ intMaxValue) :
    ∃ before' after', text' = before' ++ after' ∧
      (transformCursorPosition c operation).toInt = before'.length ∧
      SidesKept c before after before' after' operation := by
  rcases operation with a | a | a
  · simp only [SidesKept, transformCursorPosition, Int32.le_iff_toInt_le]
    split_ifs with hle
    · obtain ⟨before', hbefore, rfl, hlength⟩ := insert_applyTo_before h0 (hc ▸ hle) happly
      rw [List.length_append] at hfits
      refine ⟨before', after, rfl, ?_, hbefore, rfl⟩
      rw [toInt_add_one (by omega) (by omega)]
      omega
    · obtain ⟨after', hafter, rfl⟩ := insert_applyTo_after hc (by omega) happly
      exact ⟨before, after', rfl, hc, rfl, hafter⟩
  · simp only [SidesKept, transformCursorPosition, Int32.lt_iff_toInt_lt]
    split_ifs with hlt
    · obtain ⟨before', hbefore, rfl, hlength⟩ := delete_applyTo_before h0 (hc ▸ hlt) happly
      refine ⟨before', after, rfl, ?_, hbefore, rfl⟩
      rw [toInt_sub_one (Int.lt_of_le_of_lt h0 hlt)]
      omega
    · obtain ⟨after', hafter, rfl⟩ := delete_applyTo_after hc (by omega) happly
      exact ⟨before, after', rfl, hc, rfl, hafter⟩
  · obtain rfl := Except.ok.inj happly
    exact ⟨before, after, rfl, hc, rfl, rfl⟩

/-- Two carets keep their order. -/
theorem transformCursorPosition_mono {s e : Int32} {operation : PlainTextSingleCharacterOperation}
    (h0 : NonNegative operation) (hs : 0 ≤ s.toInt) (hle : s.toInt ≤ e.toInt)
    (hroom : 0 ≤ (transformCursorPosition e operation).toInt) :
    (transformCursorPosition s operation).toInt ≤ (transformCursorPosition e operation).toInt := by
  rcases operation with a | a | a
  · simp only [transformCursorPosition, NonNegative, Int32.le_iff_toInt_le] at *
    have hnexts := toInt_add_one_or_neg s
    have hnexte := toInt_add_one_or_neg e
    split_ifs at * <;> omega
  · simp only [transformCursorPosition, NonNegative, Int32.lt_iff_toInt_lt] at *
    split_ifs
    · rw [toInt_sub_one (by omega), toInt_sub_one (by omega)]
      omega
    · omega
    · rw [toInt_sub_one (by omega)]
      omega
    · omega
  · exact hle

/-- At `c` the caret splits the text, moved by `transformCursorPosition` it splits the new one
in the same way, and it moves as an insertion at it would. -/
def CaretKept (operation : PlainTextSingleCharacterOperation) (text text' : Text) (c : Int32) :
    Prop :=
  (∃ before after before' after', text = before ++ after ∧ c.toInt = before.length ∧
    text' = before' ++ after' ∧
    (transformCursorPosition c operation).toInt = before'.length ∧
    SidesKept c before after before' after' operation) ∧
  ∀ uuid symbol, transformAgainst (.insert ⟨uuid, c, symbol⟩) operation =
    .insert ⟨uuid, transformCursorPosition c operation, symbol⟩

theorem caretKept_of_applies {text text' : Text} {c : Int32}
    {operation : PlainTextSingleCharacterOperation} (h0 : NonNegative operation)
    (hc : 0 ≤ c.toInt ∧ c.toInt ≤ text.length) (happly : operation.applyTo text = .ok text')
    (hfits : text'.length ≤ intMaxValue) : CaretKept operation text text' c := by
  have hlength : c.toInt = (text.take (index c)).length := by
    simp only [List.length_take, index]
    omega
  rw [← List.take_append_drop (index c) text] at happly
  obtain ⟨before', after', heq, hc', hsides⟩ := sidesKept_of_applies h0 hlength happly hfits
  exact ⟨⟨_, _, before', after', (List.take_append_drop (index c) text).symm, hlength, heq, hc',
    hsides⟩, fun uuid symbol => transformAgainst_insert_eq uuid c symbol operation⟩

theorem CaretKept.within {text text' : Text} {c : Int32}
    {operation : PlainTextSingleCharacterOperation} (h : CaretKept operation text text' c) :
    0 ≤ (transformCursorPosition c operation).toInt ∧
      (transformCursorPosition c operation).toInt ≤ text'.length := by
  obtain ⟨⟨before, after, before', after', -, -, rfl, hc', -⟩, -⟩ := h
  rw [List.length_append]
  omega

/-! ## The carets of a run -/

/-- The selection from `s` to `e` lies in the text. -/
def TextArea.Selects (textArea : TextArea) (s e : Int32) : Prop :=
  textArea.selectionStart = some s ∧ textArea.selectionEnd = some e ∧ 0 ≤ s.toInt ∧
    s.toInt ≤ e.toInt ∧ e.toInt ≤ textArea.value.length

/-- Operations applied one after another, none throwing and each result a Kotlin `String`. -/
inductive AppliedLocally : Page → List PlainTextSingleCharacterOperation → Page → Prop where
  | nil (page : Page) : AppliedLocally page [] page
  | cons {page page' page'' : Page} {operation : PlainTextSingleCharacterOperation}
      {operations : List PlainTextSingleCharacterOperation}
      (applies : (applyOperationLocally operation).exec page = (.ok (), page'))
      (fits : page'.textArea.value.length ≤ intMaxValue)
      (rest : AppliedLocally page' operations page'') :
      AppliedLocally page (operation :: operations) page''

theorem AppliedLocally.of_append {page' : Page} {after : List PlainTextSingleCharacterOperation} :
    ∀ {before : List PlainTextSingleCharacterOperation} {page : Page},
      AppliedLocally page (before ++ after) page' →
      ∃ page₁, AppliedLocally page before page₁ ∧ AppliedLocally page₁ after page'
  | [], page, h => ⟨page, .nil page, h⟩
  | operation :: before, page, .cons applies fits rest => by
    obtain ⟨page₁, hbefore, hafter⟩ := of_append rest
    exact ⟨page₁, .cons applies fits hbefore, hafter⟩

theorem applies_of_exec {page page' : Page} {operation : PlainTextSingleCharacterOperation}
    (h : (applyOperationLocally operation).exec page = (.ok (), page')) :
    operation.applyTo page.textArea.value = .ok page'.textArea.value ∧
      page'.textArea.selectionStart =
        page.textArea.selectionStart.map (transformCursorPosition · operation) ∧
      page'.textArea.selectionEnd =
        page.textArea.selectionEnd.map (transformCursorPosition · operation) := by
  rcases happly : operation.applyTo page.textArea.value with e | content
  · rw [exec_applyOperationLocally_error happly] at h
    cases h
  · rw [exec_applyOperationLocally_ok page content happly] at h
    cases h
    exact ⟨rfl, rfl, rfl⟩

/-- One operation moves both ends of a selection with the text. -/
theorem caretsKept_step {page page' : Page} {s e : Int32}
    {operation : PlainTextSingleCharacterOperation} (h0 : NonNegative operation)
    (hselects : page.textArea.Selects s e)
    (happlies : (applyOperationLocally operation).exec page = (.ok (), page'))
    (hfits : page'.textArea.value.length ≤ intMaxValue) :
    page'.textArea.Selects (transformCursorPosition s operation)
        (transformCursorPosition e operation) ∧
      CaretKept operation page.textArea.value page'.textArea.value s ∧
      CaretKept operation page.textArea.value page'.textArea.value e := by
  obtain ⟨happly, hstart', hend'⟩ := applies_of_exec happlies
  obtain ⟨hstart, hend, hs, hse, he⟩ := hselects
  have hkepts := caretKept_of_applies (c := s) h0 (by omega) happly hfits
  have hkepte := caretKept_of_applies (c := e) h0 (by omega) happly hfits
  refine ⟨⟨?_, ?_, hkepts.within.1, ?_, hkepte.within.2⟩, hkepts, hkepte⟩
  · rw [hstart', hstart, Option.map_some]
  · rw [hend', hend, Option.map_some]
  · exact transformCursorPosition_mono h0 hs hse hkepte.within.1

/-- A run keeps the selection in the text. -/
theorem AppliedLocally.selects {page' : Page} :
    ∀ {operations : List PlainTextSingleCharacterOperation} {page : Page} {s e : Int32},
      (∀ operation ∈ operations, NonNegative operation) → page.textArea.Selects s e →
      AppliedLocally page operations page' → ∃ s' e', page'.textArea.Selects s' e'
  | [], _, s, e, _, hselects, .nil _ => ⟨s, e, hselects⟩
  | operation :: operations, page, s, e, h0, hselects, .cons applies fits rest => by
    have hstep := caretsKept_step (h0 operation List.mem_cons_self) hselects applies fits
    exact selects (fun o ho => h0 o (List.mem_cons_of_mem operation ho)) hstep.1 rest

/-- Through any run of remote operations both ends of a selection stay in the text and in
order, and at each step both carets split the new text as they split the one before. -/
theorem carets_stay_on_text {page page' : Page} {s e : Int32}
    {operations : List PlainTextSingleCharacterOperation}
    (hselects : page.textArea.Selects s e)
    (h0 : ∀ operation ∈ operations, NonNegative operation)
    (hrun : AppliedLocally page operations page') :
    (∃ s' e', page'.textArea.Selects s' e') ∧
      ∀ before operation after, operations = before ++ operation :: after →
        ∃ page₁ page₂ s₁ e₁, AppliedLocally page before page₁ ∧
          (applyOperationLocally operation).exec page₁ = (.ok (), page₂) ∧
          AppliedLocally page₂ after page' ∧ page₁.textArea.Selects s₁ e₁ ∧
          page₂.textArea.Selects (transformCursorPosition s₁ operation)
            (transformCursorPosition e₁ operation) ∧
          CaretKept operation page₁.textArea.value page₂.textArea.value s₁ ∧
          CaretKept operation page₁.textArea.value page₂.textArea.value e₁ := by
  refine ⟨hrun.selects h0 hselects, ?_⟩
  rintro before operation after rfl
  obtain ⟨page₁, hbefore, hafter⟩ := hrun.of_append
  obtain _ | ⟨applies, fits, rest⟩ := hafter
  obtain ⟨s₁, e₁, hselects₁⟩ :=
    hbefore.selects (fun o ho => h0 o (List.mem_append_left _ ho)) hselects
  have h0' := h0 operation (List.mem_append_right before List.mem_cons_self)
  exact ⟨page₁, _, s₁, e₁, hbefore, applies, rest, hselects₁,
    caretsKept_step h0' hselects₁ applies fits⟩

/-- The second letter of "ab" is selected. -/
def secondSelected : Page :=
  ⟨⟨0, .synchronizedState⟩, ⟨utf16 "ab", some 1, some 2⟩, "Document 1", "1", []⟩

/-- An insertion at the start of the selection, and a deletion before it. -/
def insertAndDelete : List PlainTextSingleCharacterOperation :=
  [.insert ⟨"o", 1, 120⟩, .delete ⟨"p", 0, 97⟩]

/-- The same letter is selected. -/
def stillSelected : Page :=
  ⟨⟨0, .synchronizedState⟩, ⟨utf16 "xb", some 1, some 2⟩, "Document 1", "1", []⟩

theorem carets_stay_on_text_ab :
    AppliedLocally secondSelected insertAndDelete stillSelected ∧
      (∃ s' e', stillSelected.textArea.Selects s' e') ∧
      ∀ before operation after, insertAndDelete = before ++ operation :: after →
        ∃ page₁ page₂ s₁ e₁, AppliedLocally secondSelected before page₁ ∧
          (applyOperationLocally operation).exec page₁ = (.ok (), page₂) ∧
          AppliedLocally page₂ after stillSelected ∧ page₁.textArea.Selects s₁ e₁ ∧
          page₂.textArea.Selects (transformCursorPosition s₁ operation)
            (transformCursorPosition e₁ operation) ∧
          CaretKept operation page₁.textArea.value page₂.textArea.value s₁ ∧
          CaretKept operation page₁.textArea.value page₂.textArea.value e₁ := by
  have hrun : AppliedLocally secondSelected insertAndDelete stillSelected :=
    .cons rfl (by decide) (.cons rfl (by decide) (.nil _))
  have hselects : secondSelected.textArea.Selects 1 2 :=
    ⟨rfl, rfl, by decide, by decide, by decide⟩
  exact ⟨hrun, carets_stay_on_text hselects (by decide) hrun⟩

end OtEditor
