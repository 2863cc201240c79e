import OtEditor.OutOfRange

/-!
# The laws of the operations manager

`OperationsManager` documents two laws. `transformAgainst` should close the diamond of any
two operations, and `invert` should undo every application. Both hold of the operations in
range, up to two insertions at one position; the guards of `applyTo` break them at the end of
the text, where the accepted positions of insertions and deletions differ by one.

* `transformAgainst_closes_iff` : the diamond closes unless the operations collide (`Collide`);
* `invert_undoes_iff` : `invert` undoes an application unless it is a deletion exactly at the
  end, which does nothing while its inverse inserts.
-/

namespace OtEditor

open PlainTextOperationsManager

variable {content content' content1 content2 : Text}
  {operation operation1 operation2 : PlainTextSingleCharacterOperation}

/-! ## Transformation -/

/-- An insertion just past the end, transformed against a deletion at the end, lands at the
end. Neither does anything to the content. -/
def LandsAtEnd (content : Text) :
    PlainTextSingleCharacterOperation → PlainTextSingleCharacterOperation → Prop
  | .insert insertion, .delete deletion =>
    insertion.position.toInt = content.length + 1 ∧ deletion.position.toInt = content.length
  | _, _ => False

instance (content : Text) : DecidableRel (LandsAtEnd content)
  | .insert _, .delete _ => inferInstanceAs (Decidable (_ ∧ _))
  | .insert _, .insert _ | .insert _, .identity _ | .delete _, _ | .identity _, _ =>
    inferInstanceAs (Decidable False)

/-- Two insertions in range tie, or one of the operations lands at the end. -/
def Collide (content : Text)
    (operation1 operation2 : PlainTextSingleCharacterOperation) : Prop :=
  InsertTie operation1 operation2 ∧ InRange content operation1 ∨
    LandsAtEnd content operation1 operation2 ∨ LandsAtEnd content operation2 operation1

instance (content : Text) : DecidableRel (Collide content) := fun _ _ =>
  inferInstanceAs (Decidable (_ ∨ _))

theorem LandsAtEnd.not_swap (hlands : LandsAtEnd content operation1 operation2) :
    ¬LandsAtEnd content operation2 operation1 := by
  rcases operation1 with a | a | a <;> rcases operation2 with b | b | b <;>
    simp_all [LandsAtEnd]

theorem InsertTie.inRange (htie : InsertTie operation1 operation2)
    (hin : InRange content operation1) : InRange content operation2 := by
  rcases operation1 with a | a | a <;> rcases operation2 with b | b | b <;>
    simp only [InsertTie] at htie
  simpa only [InRange, htie.1] using hin

theorem shift_eq_zero (h0 : NonNegative operation) : shift operation = 0 := by
  rcases operation with a | a | a
  · exact if_neg (Int.not_lt.2 h0)
  · exact if_neg (Int.not_lt.2 h0)
  · rfl

/-- Past the end an operation does not disturb one in range. -/
theorem closes_of_outOfRange (hin1 : InRange content operation1)
    (hout2 : OutOfRange content operation2) (h2 : NonNegative operation2)
    (happly1 : operation1.applyTo content = .ok content1) :
    (transformAgainst operation2 operation1).applyTo content1 = .ok content1 ∧
      (transformAgainst operation1 operation2).applyTo content = .ok content1 := by
  refine ⟨(hout2.transformAgainst hin1 happly1).applyTo, ?_⟩
  rw [transformAgainst_outOfRange hin1 hout2, shift_eq_zero h2, moveBy_zero]
  exact happly1

theorem not_landsAtEnd_of_inRange (hin : InRange content operation1) :
    ¬LandsAtEnd content operation1 operation2 ∧ ¬LandsAtEnd content operation2 operation1 := by
  rcases operation1 with a | a | a <;> rcases operation2 with b | b | b <;>
    simp only [LandsAtEnd, not_false_eq_true, and_self, true_and, and_true]
  · have := hin.2
    omega
  · have := index_lt_length hin
    omega

/-- Out of range, an operation does nothing after a transformation against another such
operation either, unless it lands at the end. -/
theorem applyTo_transformAgainst_of_outOfRange (hout1 : OutOfRange content operation1)
    (hout2 : OutOfRange content operation2) (h1 : NonNegative operation1)
    (h2 : NonNegative operation2) (hlands : ¬LandsAtEnd content operation1 operation2) :
    (transformAgainst operation1 operation2).applyTo content = .ok content := by
  rcases operation1 with a | a | a <;> rcases operation2 with b | b | b
  · unfold transformAgainst transformInsertAgainstInsert
    have hnext := toInt_add_one_or_neg a.position
    simp only [OutOfRange, NonNegative] at *
    split_ifs with hlt
    · exact OutOfRange.applyTo hout1
    · exact OutOfRange.applyTo (by simp only [OutOfRange]; omega)
  · unfold transformAgainst transformInsertAgainstDelete
    simp only [OutOfRange, NonNegative, LandsAtEnd, Int32.le_iff_toInt_le] at *
    split_ifs with hle
    · exact OutOfRange.applyTo hout1
    · have hprevious := toInt_sub_one (show 0 < a.position.toInt by omega)
      exact OutOfRange.applyTo (by simp only [OutOfRange]; omega)
  · exact hout2.elim
  · unfold transformAgainst transformDeleteAgainstInsert
    have hnext := toInt_add_one_or_neg a.position
    simp only [OutOfRange, NonNegative] at *
    split_ifs with hlt
    · exact OutOfRange.applyTo hout1
    · exact OutOfRange.applyTo (by simp only [OutOfRange]; omega)
  · unfold transformAgainst transformDeleteAgainstDelete
    simp only [OutOfRange, NonNegative, Int32.lt_iff_toInt_lt, gt_iff_lt] at *
    split_ifs with hlt hgt
    · exact OutOfRange.applyTo hout1
    · have hprevious := toInt_sub_one (show 0 < a.position.toInt by omega)
      exact OutOfRange.applyTo (by simp only [OutOfRange]; omega)
    · rfl
  · exact hout2.elim
  all_goals exact hout1.elim

theorem applyTo_transformAgainst_ne (hlands : LandsAtEnd content operation1 operation2) :
    (transformAgainst operation1 operation2).applyTo content ≠ .ok content := by
  rcases operation1 with a | a | a <;> rcases operation2 with b | b | b <;>
    simp only [LandsAtEnd] at hlands
  obtain ⟨ha, hb⟩ := hlands
  have hprevious := toInt_sub_one (show 0 < a.position.toInt by omega)
  have hin : InRange content (.insert ⟨a.uuid, a.position - 1, a.symbol⟩) := by
    simp only [InRange]
    omega
  have hmoves : transformAgainst (.insert a) (.delete b) =
      .insert ⟨a.uuid, a.position - 1, a.symbol⟩ :=
    if_neg (by rw [Int32.le_iff_toInt_le]; omega)
  rw [hmoves]
  intro happly
  exact (applyTo_ne hin happly).elim (by simp) (fun hne => hne rfl)

/-- Out of range, the diamond closes exactly if neither operation lands at the end. -/
theorem closes_iff_of_outOfRange (hout1 : OutOfRange content operation1)
    (hout2 : OutOfRange content operation2) (h1 : NonNegative operation1)
    (h2 : NonNegative operation2) :
    (∃ content', (transformAgainst operation2 operation1).applyTo content = .ok content' ∧
      (transformAgainst operation1 operation2).applyTo content = .ok content') ↔
      ¬(LandsAtEnd content operation1 operation2 ∨ LandsAtEnd content operation2 operation1) := by
  constructor
  · rintro ⟨content', h21, h12⟩ (hlands | hlands)
    · have hstill := applyTo_transformAgainst_of_outOfRange hout2 hout1 h2 h1 hlands.not_swap
      obtain rfl : content = content' := Except.ok.inj (hstill.symm.trans h21)
      exact applyTo_transformAgainst_ne hlands h12
    · have hstill := applyTo_transformAgainst_of_outOfRange hout1 hout2 h1 h2 hlands.not_swap
      obtain rfl : content = content' := Except.ok.inj (hstill.symm.trans h12)
      exact applyTo_transformAgainst_ne hlands h21
  · intro hlands
    rw [not_or] at hlands
    exact ⟨content, applyTo_transformAgainst_of_outOfRange hout2 hout1 h2 h1 hlands.2,
      applyTo_transformAgainst_of_outOfRange hout1 hout2 h1 h2 hlands.1⟩

/-- In range, the diamond closes exactly if the operations do not tie. -/
theorem closes_iff_of_inRange (hin1 : InRange content operation1)
    (hin2 : InRange content operation2) (happly1 : operation1.applyTo content = .ok content1)
    (happly2 : operation2.applyTo content = .ok content2)
    (hfits1 : content1.length ≤ intMaxValue) (hfits2 : content2.length ≤ intMaxValue) :
    (∃ content', (transformAgainst operation2 operation1).applyTo content1 = .ok content' ∧
      (transformAgainst operation1 operation2).applyTo content2 = .ok content') ↔
      ¬InsertTie operation1 operation2 := by
  have h1 := perform_eq_some.2 ⟨hin1, happly1, hfits1⟩
  have h2 := perform_eq_some.2 ⟨hin2, happly2, hfits2⟩
  rw [← applied_transformAgainst_iff h1 h2]
  constructor
  · rintro ⟨content', h21, h12⟩
    exact (applied_eq_some.2 h21).trans (applied_eq_some.2 h12).symm
  · intro heq
    obtain ⟨content', h21⟩ := (hin2.transformAgainst h1).exists_applyTo
    exact ⟨content', h21, applied_eq_some.1 (heq ▸ applied_eq_some.2 h21)⟩

/-- Two operations of which neither throws close their diamond exactly if they do not
collide. -/
theorem transformAgainst_closes_iff (h1 : NonNegative operation1) (h2 : NonNegative operation2)
    (happly1 : operation1.applyTo content = .ok content1)
    (happly2 : operation2.applyTo content = .ok content2)
    (hfits1 : content1.length ≤ intMaxValue) (hfits2 : content2.length ≤ intMaxValue) :
    (∃ content', (transformAgainst operation2 operation1).applyTo content1 = .ok content' ∧
      (transformAgainst operation1 operation2).applyTo content2 = .ok content') ↔
      ¬Collide content operation1 operation2 := by
  unfold Collide
  rcases inRange_or_outOfRange happly1 with hin1 | hout1 <;>
    rcases inRange_or_outOfRange happly2 with hin2 | hout2
  · rw [closes_iff_of_inRange hin1 hin2 happly1 happly2 hfits1 hfits2]
    simp [hin1, not_landsAtEnd_of_inRange hin1]
  · obtain rfl : content = content2 := Except.ok.inj (hout2.applyTo.symm.trans happly2)
    refine iff_of_true ⟨content1, closes_of_outOfRange hin1 hout2 h2 happly1⟩ ?_
    rintro (⟨htie, -⟩ | hlands | hlands)
    · exact hout2.not_inRange (htie.inRange hin1)
    · exact (not_landsAtEnd_of_inRange hin1).1 hlands
    · exact (not_landsAtEnd_of_inRange hin1).2 hlands
  · obtain rfl : content = content1 := Except.ok.inj (hout1.applyTo.symm.trans happly1)
    have hcloses := closes_of_outOfRange hin2 hout1 h1 happly2
    refine iff_of_true ⟨content2, hcloses.2, hcloses.1⟩ ?_
    rintro (⟨-, hin1⟩ | hlands | hlands)
    · exact hout1.not_inRange hin1
    · exact (not_landsAtEnd_of_inRange hin2).2 hlands
    · exact (not_landsAtEnd_of_inRange hin2).1 hlands
  · obtain rfl : content = content1 := Except.ok.inj (hout1.applyTo.symm.trans happly1)
    obtain rfl : content = content2 := Except.ok.inj (hout2.applyTo.symm.trans happly2)
    rw [closes_iff_of_outOfRange hout1 hout2 h1 h2]
    simp [hout1.not_inRange]

/-- An insertion in range and a deletion past the end close their diamond. -/
theorem transformAgainst_closes_iff_pastEnd :
    ∃ content', (transformAgainst (.delete ⟨"b", 2, 99⟩) (.insert ⟨"a", 1, 98⟩)).applyTo
        [97, 98] = .ok content' ∧
      (transformAgainst (.insert ⟨"a", 1, 98⟩) (.delete ⟨"b", 2, 99⟩)).applyTo [97] =
        .ok content' := by
  have h1 : (PlainTextSingleCharacterOperation.insert ⟨"a", 1, 98⟩).applyTo [97] =
    .ok [97, 98] := rfl
  have h2 : (PlainTextSingleCharacterOperation.delete ⟨"b", 2, 99⟩).applyTo [97] =
    .ok [97] := rfl
  exact (transformAgainst_closes_iff (by decide) (by decide) h1 h2 (by decide) (by decide)).2
    (by decide)

/-- Two insertions at one position end in different orders. -/
theorem insertions_do_not_close :
    (PlainTextSingleCharacterOperation.insert ⟨"a", 0, 120⟩).applyTo [97] = .ok [120, 97] ∧
      (PlainTextSingleCharacterOperation.insert ⟨"b", 0, 121⟩).applyTo [97] = .ok [121, 97] ∧
      (transformAgainst (.insert ⟨"b", 0, 121⟩) (.insert ⟨"a", 0, 120⟩)).applyTo [120, 97] =
        .ok [120, 121, 97] ∧
      (transformAgainst (.insert ⟨"a", 0, 120⟩) (.insert ⟨"b", 0, 121⟩)).applyTo [121, 97] =
        .ok [121, 120, 97] := by
  decide

/-! ## Inversion -/

theorem nonNegative_invert (generatedId : Text) :
    NonNegative (invert generatedId operation) ↔ NonNegative operation := by
  rcases operation with a | a | a <;> rfl

theorem toEdit_invert (generatedId : Text) (operation : PlainTextSingleCharacterOperation) :
    toEdit (invert generatedId operation) = (toEdit operation).inverse := by
  rcases operation with a | a | a <;> rfl

/-- In range, the inverse takes the operation back. -/
theorem InRange.invert_applyTo (generatedId : Text) (hin : InRange content operation)
    (happly : operation.applyTo content = .ok content') :
    InRange content' (invert generatedId operation) ∧
      (invert generatedId operation).applyTo content' = .ok content := by
  have hback : (toEdit (invert generatedId operation)).act content' = some content := by
    rw [toEdit_invert]
    exact Edit.act_inverse (hin.applyTo_iff.1 happly)
  have hin' := inRange_of_act ((nonNegative_invert generatedId).2 (inRange_iff.1 hin).1) hback
  exact ⟨hin', hin'.applyTo_iff.2 hback⟩

/-- `invert` undoes an application exactly if that was not a deletion at the end. -/
theorem invert_undoes_iff (generatedId : Text)
    (happly : operation.applyTo content = .ok content') :
    (invert generatedId operation).applyTo content' = .ok content ↔
      ∀ deletion, operation = .delete deletion →
        deletion.position.toInt ≠ content.length := by
  rcases inRange_or_outOfRange happly with hin | hout
  · refine iff_of_true (hin.invert_applyTo generatedId happly).2 ?_
    rintro deletion rfl
    exact Int.ne_of_lt (index_lt_length hin)
  obtain rfl : content = content' := Except.ok.inj (hout.applyTo.symm.trans happly)
  rcases operation with a | a | a
  · refine iff_of_true (OutOfRange.applyTo ?_) (by simp)
    simp only [OutOfRange, invert] at *
    omega
  · by_cases hend : a.position.toInt = content.length
    · have hin : InRange content (invert generatedId (.delete a)) := by
        simp only [InRange, invert]
        omega
      refine iff_of_false (fun hback => ?_) (fun hne => hne a rfl hend)
      exact (applyTo_ne hin hback).elim (by simp [invert]) (fun hne => hne rfl)
    · refine iff_of_true (OutOfRange.applyTo ?_) ?_
      · simp only [OutOfRange, invert] at *
        omega
      · rintro deletion ⟨⟩
        exact hend
  · exact hout.elim

/-- An insertion at the end is undone. -/
theorem invert_undoes_iff_insertion :
    (invert "i" (.insert ⟨"o", 1, 98⟩)).applyTo [97, 98] = .ok [97] := by
  have happly : (PlainTextSingleCharacterOperation.insert ⟨"o", 1, 98⟩).applyTo [97] =
    .ok [97, 98] := rfl
  exact (invert_undoes_iff "i" happly).2 (by simp)

/-- A deletion at the end does nothing, and its inverse inserts its symbol. -/
theorem deletion_not_undone :
    (PlainTextSingleCharacterOperation.delete ⟨"o", 1, 98⟩).applyTo [97] = .ok [97] ∧
      (invert "i" (.delete ⟨"o", 1, 98⟩)).applyTo [97] = .ok [97, 98] := by
  decide

end OtEditor
