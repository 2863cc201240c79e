import OtEditor.PlainText
import OtEditor.Lib.SequenceEdit

/-!
# Operations in range are sequence edits

An operation is in range on a text if `applyTo` carries it out there : an insertion up to
the end, a deletion that names the symbol at its position (`InRange`). In range, and as long
as no text outgrows a Kotlin `String`, positions do not wrap : `applyTo` performs the edit
`toEdit` (`applied_eq_act`) and `transformAgainst` transforms it
(`toEdit_transformAgainst`). So the operations have the guarantees of sequence edits
(`perform_guarded`) : an operation in range stays in range past any operation, and the
diamond closes exactly unless two insertions of different symbols meet at one position
(`InsertTie`, `applied_transformAgainst_iff`).
-/

open Transformation

namespace OtEditor

/-- The edit an operation makes where it is in range. -/
def toEdit : PlainTextSingleCharacterOperation → Edit Symbol
  | .insert operation => .insert (index operation.position) operation.symbol
  | .delete operation => .delete (index operation.position) operation.symbol
  | .identity _ => .skip

/-- `applyTo` carries the operation out on the text. -/
def InRange (content : Text) : PlainTextSingleCharacterOperation → Prop
  | .insert operation => 0 ≤ operation.position.toInt ∧
      operation.position.toInt ≤ content.length
  | .delete operation => 0 ≤ operation.position.toInt ∧
      content[index operation.position]? = some operation.symbol
  | .identity _ => True

instance (content : Text) : DecidablePred (InRange content)
  | .insert _ => inferInstanceAs (Decidable (_ ∧ _))
  | .delete _ => inferInstanceAs (Decidable (_ ∧ _))
  | .identity _ => inferInstanceAs (Decidable True)

/-- Two insertions of different symbols at one position. -/
def InsertTie :
    PlainTextSingleCharacterOperation → PlainTextSingleCharacterOperation → Prop
  | .insert operation1, .insert operation2 =>
      operation1.position = operation2.position ∧ operation1.symbol ≠ operation2.symbol
  | _, _ => False

instance : DecidableRel InsertTie
  | .insert _, .insert _ => inferInstanceAs (Decidable (_ ∧ _))
  | .insert _, .delete _ | .insert _, .identity _ | .delete _, _ | .identity _, _ =>
    inferInstanceAs (Decidable False)

/-! ## Positions -/

theorem toInt_add_one {p : Int32} (h0 : 0 ≤ p.toInt) (h : p.toInt < intMaxValue) :
    (p + 1).toInt = p.toInt + 1 := by
  simp only [intMaxValue] at h
  rw [Int32.toInt_add, show (1 : Int32).toInt = 1 from rfl, Int.bmod_eq_of_le] <;> omega

theorem toInt_sub_one {p : Int32} (h : 0 < p.toInt) : (p - 1).toInt = p.toInt - 1 := by
  have := p.toInt_lt
  rw [Int32.toInt_sub, show (1 : Int32).toInt = 1 from rfl, Int.bmod_eq_of_le] <;> omega

/-- A position moved by at most one is where it was meant to be, or has wrapped below zero. -/
theorem toInt_add_ofInt {p : Int32} {d : ℤ} (hlow : -2147483648 ≤ p.toInt + d)
    (hd : -1 ≤ d ∧ d ≤ 1) : (p + .ofInt d).toInt = p.toInt + d ∨
      intMaxValue < p.toInt + d ∧ (p + .ofInt d).toInt < 0 := by
  have hp := p.toInt_lt
  have hd' : (Int32.ofInt d).toInt = d := Int32.toInt_ofInt_of_le (by omega) (by omega)
  rw [Int32.toInt_add, hd']
  by_cases hmax : p.toInt + d ≤ intMaxValue
  · simp only [intMaxValue] at hmax
    exact .inl (Int.bmod_eq_of_le (by omega) (by omega))
  · simp only [intMaxValue] at hmax ⊢
    rw [show p.toInt + d = 2147483648 by omega]
    decide

theorem toInt_add_one_or_neg (p : Int32) :
    (p + 1).toInt = p.toInt + 1 ∨ (p + 1).toInt < 0 := by
  have := p.le_toInt
  exact (toInt_add_ofInt (d := 1) (by omega) (by omega)).imp_right And.right

theorem index_inj {p q : Int32} (hp : 0 ≤ p.toInt) (hq : 0 ≤ q.toInt) :
    index p = index q ↔ p = q := by
  rw [← Int32.toInt_inj]
  simp only [index]
  omega

theorem index_lt_index {p q : Int32} (hp : 0 ≤ p.toInt) : index p < index q ↔ p < q := by
  rw [Int32.lt_iff_toInt_lt]
  simp only [index]
  omega

theorem index_add_one {p : Int32} (h0 : 0 ≤ p.toInt) (h : p.toInt < intMaxValue) :
    index (p + 1) = index p + 1 := by
  simp only [index, toInt_add_one h0 h]
  omega

theorem index_sub_one {p : Int32} (h : 0 < p.toInt) : index (p - 1) = index p - 1 := by
  simp only [index, toInt_sub_one h]
  omega

/-! ## Application -/

theorem InRange.isSome_act {content : Text} {operation : PlainTextSingleCharacterOperation}
    (h : InRange content operation) : ((toEdit operation).act content).isSome := by
  cases operation with
  | insert operation =>
    have hi : index operation.position ≤ content.length := by
      simp only [InRange] at h
      simp only [index]
      omega
    simp [toEdit, Edit.act_insert _ hi]
  | delete operation => simp [toEdit, Edit.act_delete h.2]
  | identity operation => rfl

/-- In range, `applyTo` performs the edit. -/
theorem applied_eq_act {content : Text} {operation : PlainTextSingleCharacterOperation}
    (h : InRange content operation) :
    applied operation content = (toEdit operation).act content := by
  cases operation with
  | insert operation =>
    obtain ⟨h0, hlen⟩ := h
    have hi : index operation.position ≤ content.length := by
      simp only [index]
      omega
    have happly : operation.applyTo content = .ok (content.take (index operation.position) ++
        operation.symbol :: content.drop (index operation.position)) := if_neg (by omega)
    rw [toEdit, Edit.act_insert _ hi, Edit.insertIdx_eq_take_append_cons_drop _ hi]
    exact applied_eq_some.2 happly
  | delete operation =>
    obtain ⟨h0, hget⟩ := h
    obtain ⟨hlt, -⟩ := List.getElem?_eq_some_iff.1 hget
    have hfound : content.getD (index operation.position) 0 = operation.symbol := by
      rw [List.getD_eq_getElem?_getD, hget, Option.getD_some]
    have hrange : ¬(operation.position.toInt < 0 ∨
        operation.position.toInt ≥ content.length) := by
      simp only [index] at hlt
      omega
    rw [toEdit, Edit.act_delete hget, List.eraseIdx_eq_take_drop_succ]
    refine applied_eq_some.2 (show operation.applyTo content = _ from ?_)
    rw [DeleteOperation.applyTo, if_neg hrange]
    exact if_neg (not_not.2 hfound)
  | identity operation => rfl

theorem InRange.applyTo_iff {content content' : Text}
    {operation : PlainTextSingleCharacterOperation} (h : InRange content operation) :
    operation.applyTo content = .ok content' ↔
      (toEdit operation).act content = some content' := by
  rw [← applied_eq_act h]
  exact Iff.symm (applied_eq_some (O := PlainTextSingleCharacterOperation))

/-- In range, `applyTo` does not throw. -/
theorem InRange.exists_applyTo {content : Text}
    {operation : PlainTextSingleCharacterOperation} (h : InRange content operation) :
    ∃ content', operation.applyTo content = .ok content' := by
  obtain ⟨content', hact⟩ := Option.isSome_iff_exists.1 h.isSome_act
  exact ⟨content', h.applyTo_iff.2 hact⟩

/-! ## Transformation -/

/-- The text after an operation in range, if it is still a Kotlin `String`. -/
def perform (operation : PlainTextSingleCharacterOperation) (content : Text) : Option Text :=
  if InRange content operation then
    (applied operation content).filter fun content' => content'.length ≤ intMaxValue
  else none

theorem perform_eq_some {operation : PlainTextSingleCharacterOperation}
    {content content' : Text} : perform operation content = some content' ↔
      InRange content operation ∧ operation.applyTo content = .ok content' ∧
        content'.length ≤ intMaxValue := by
  rw [perform, ← show applied operation content = some content' ↔
    operation.applyTo content = .ok content' from applied_eq_some]
  split_ifs with h
  · simp [h, Option.filter_eq_some_iff]
  · simp [h]

theorem act_of_perform {operation : PlainTextSingleCharacterOperation}
    {content content' : Text} (h : perform operation content = some content') :
    (toEdit operation).act content = some content' := by
  obtain ⟨hin, happly, -⟩ := perform_eq_some.1 h
  exact hin.applyTo_iff.1 happly

/-- The position is not negative. -/
def NonNegative : PlainTextSingleCharacterOperation → Prop
  | .insert operation => 0 ≤ operation.position.toInt
  | .delete operation => 0 ≤ operation.position.toInt
  | .identity _ => True

instance : DecidablePred NonNegative
  | .insert _ => inferInstanceAs (Decidable (_ ≤ _))
  | .delete _ => inferInstanceAs (Decidable (_ ≤ _))
  | .identity _ => inferInstanceAs (Decidable True)

theorem inRange_iff {content : Text} {operation : PlainTextSingleCharacterOperation} :
    InRange content operation ↔
      NonNegative operation ∧ ((toEdit operation).act content).isSome := by
  refine ⟨fun h => ⟨?_, h.isSome_act⟩, fun ⟨h0, hact⟩ => ?_⟩
  · cases operation with
    | insert operation => exact h.1
    | delete operation => exact h.1
    | identity operation => trivial
  · obtain ⟨content', hact⟩ := Option.isSome_iff_exists.1 hact
    cases operation with
    | insert operation =>
      obtain ⟨hi, -⟩ := Edit.act_insert_eq_some.1 hact
      simp only [NonNegative] at h0
      simp only [index] at hi
      exact ⟨h0, by omega⟩
    | delete operation => exact ⟨h0, (Edit.act_delete_eq_some.1 hact).1⟩
    | identity operation => trivial

theorem inRange_of_act {content content' : Text}
    {operation : PlainTextSingleCharacterOperation} (h0 : NonNegative operation)
    (hact : (toEdit operation).act content = some content') : InRange content operation :=
  inRange_iff.2 ⟨h0, Option.isSome_iff_exists.2 ⟨content', hact⟩⟩

section Against

open PlainTextOperationsManager

variable {content content' : Text} {operation1 operation2 : PlainTextSingleCharacterOperation}

/-- Before an insertion that still fits, a position in range can move to the right. -/
theorem lt_intMaxValue_of_perform_insert {operation : InsertOperation}
    (h : perform (.insert operation) content = some content') :
    content.length < intMaxValue := by
  obtain ⟨hi, rfl⟩ := Edit.act_insert_eq_some.1 (act_of_perform h)
  have hfits := (perform_eq_some.1 h).2.2
  rw [List.length_insertIdx_of_le_length hi] at hfits
  omega

theorem toEdit_insertAgainstInsert {a b : InsertOperation} (ha : InRange content (.insert a))
    (hroom : content.length < intMaxValue) :
    NonNegative (transformInsertAgainstInsert a b) ∧
      toEdit (transformInsertAgainstInsert a b) =
        (toEdit (.insert a)).against (toEdit (.insert b)) := by
  obtain ⟨ha0, hale⟩ := ha
  have hlt : a.position.toInt < intMaxValue := by omega
  simp only [toEdit, Edit.against, transformInsertAgainstInsert, index_lt_index ha0]
  split_ifs with hab
  · exact ⟨ha0, rfl⟩
  · exact ⟨by simp only [NonNegative, toInt_add_one ha0 hlt]; omega,
      by simp only [index_add_one ha0 hlt]⟩

theorem toEdit_insertAgainstDelete {a : InsertOperation} {b : DeleteOperation}
    (ha : InRange content (.insert a)) (hb : InRange content (.delete b)) :
    NonNegative (transformInsertAgainstDelete a b) ∧
      toEdit (transformInsertAgainstDelete a b) =
        (toEdit (.insert a)).against (toEdit (.delete b)) := by
  obtain ⟨ha0, -⟩ := ha
  obtain ⟨hb0, -⟩ := hb
  simp only [toEdit, Edit.against, transformInsertAgainstDelete, ← Int32.not_lt,
    ← Nat.not_lt, index_lt_index hb0]
  split_ifs with hba
  · have hpos : 0 < a.position.toInt := Int.lt_of_le_of_lt hb0 (Int32.lt_iff_toInt_lt.1 hba)
    exact ⟨by simp only [NonNegative, toInt_sub_one hpos]; omega,
      by simp only [index_sub_one hpos]⟩
  · exact ⟨ha0, rfl⟩

theorem toEdit_deleteAgainstInsert {a : DeleteOperation} {b : InsertOperation}
    (ha : InRange content (.delete a)) (hroom : content.length < intMaxValue) :
    NonNegative (transformDeleteAgainstInsert a b) ∧
      toEdit (transformDeleteAgainstInsert a b) =
        (toEdit (.delete a)).against (toEdit (.insert b)) := by
  obtain ⟨ha0, haget⟩ := ha
  have hlt : a.position.toInt < intMaxValue := by
    have := (List.getElem?_eq_some_iff.1 haget).1
    simp only [index] at this
    omega
  simp only [toEdit, Edit.against, transformDeleteAgainstInsert, index_lt_index ha0]
  split_ifs with hab
  · exact ⟨ha0, rfl⟩
  · exact ⟨by simp only [NonNegative, toInt_add_one ha0 hlt]; omega,
      by simp only [index_add_one ha0 hlt]⟩

theorem toEdit_deleteAgainstDelete {a b : DeleteOperation} (ha : InRange content (.delete a))
    (hb : InRange content (.delete b)) :
    NonNegative (transformDeleteAgainstDelete a b) ∧
      toEdit (transformDeleteAgainstDelete a b) =
        (toEdit (.delete a)).against (toEdit (.delete b)) := by
  obtain ⟨ha0, -⟩ := ha
  obtain ⟨hb0, -⟩ := hb
  simp only [toEdit, Edit.against, transformDeleteAgainstDelete, index_lt_index ha0,
    index_lt_index hb0, gt_iff_lt]
  split_ifs with hab hba
  · exact ⟨ha0, rfl⟩
  · have hpos : 0 < a.position.toInt := Int.lt_of_le_of_lt hb0 (Int32.lt_iff_toInt_lt.1 hba)
    exact ⟨by simp only [NonNegative, toInt_sub_one hpos]; omega,
      by simp only [index_sub_one hpos]⟩
  · exact ⟨trivial, rfl⟩

/-- In range, `transformAgainst` transforms the edit, and the position stays an index. -/
theorem toEdit_transformAgainst (h1 : InRange content operation1)
    (h2 : perform operation2 content = some content') :
    NonNegative (transformAgainst operation1 operation2) ∧
      toEdit (transformAgainst operation1 operation2) =
        (toEdit operation1).against (toEdit operation2) := by
  have h2in := (perform_eq_some.1 h2).1
  cases operation1 with
  | insert a =>
    cases operation2 with
    | insert b => exact toEdit_insertAgainstInsert h1 (lt_intMaxValue_of_perform_insert h2)
    | delete b => exact toEdit_insertAgainstDelete h1 h2in
    | identity b => exact ⟨h1.1, rfl⟩
  | delete a =>
    cases operation2 with
    | insert b => exact toEdit_deleteAgainstInsert h1 (lt_intMaxValue_of_perform_insert h2)
    | delete b => exact toEdit_deleteAgainstDelete h1 h2in
    | identity b => exact ⟨h1.1, rfl⟩
  | identity a => exact ⟨trivial, rfl⟩

/-- Transformed against a performed operation, an operation stays in range. -/
theorem InRange.transformAgainst (h1 : InRange content operation1)
    (h2 : perform operation2 content = some content') :
    InRange content' (transformAgainst operation1 operation2) := by
  obtain ⟨h0, hedit⟩ := toEdit_transformAgainst h1 h2
  rw [inRange_iff, hedit]
  exact ⟨h0, Edit.act_against h1.isSome_act (act_of_perform h2)⟩

/-- In range, a tie of insertions is a clash of their edits. -/
theorem clash_toEdit (h1 : InRange content operation1) (h2 : InRange content operation2) :
    Edit.Clash (toEdit operation1) (toEdit operation2) ↔ InsertTie operation1 operation2 := by
  cases operation1 <;> cases operation2 <;> simp only [toEdit, Edit.Clash, InsertTie]
  rw [index_inj h1.1 h2.1]

/-- Two performed operations close their diamond exactly if they do not tie. -/
theorem applied_transformAgainst_iff {content1 content2 : Text}
    (h1 : perform operation1 content = some content1)
    (h2 : perform operation2 content = some content2) :
    applied (transformAgainst operation2 operation1) content1 =
      applied (transformAgainst operation1 operation2) content2 ↔
    ¬InsertTie operation1 operation2 := by
  have h1in := (perform_eq_some.1 h1).1
  have h2in := (perform_eq_some.1 h2).1
  have hdiamond : applied (transformAgainst operation2 operation1) content1 =
      applied (transformAgainst operation1 operation2) content2 ↔
      Closes Edit.act Edit.against (toEdit operation1) (toEdit operation2) content := by
    rw [Closes, act_of_perform h1, act_of_perform h2, Option.bind_some, Option.bind_some,
      ← (toEdit_transformAgainst h2in h1).2, ← (toEdit_transformAgainst h1in h2).2,
      ← applied_eq_act (h2in.transformAgainst h1), ← applied_eq_act (h1in.transformAgainst h2)]
  rw [hdiamond, ← clash_toEdit h1in h2in]
  exact ⟨fun hcloses hclash => Edit.not_closes_of_clash hclash h1in.isSome_act hcloses,
    fun hclash => Edit.closes hclash h1in.isSome_act h2in.isSome_act⟩

theorem perform_transformAgainst {content1 content2 : Text}
    (htie : ¬InsertTie operation1 operation2) (h1 : perform operation1 content = some content1)
    (h2 : perform operation2 content = some content2) :
    perform (transformAgainst operation2 operation1) content1 =
      perform (transformAgainst operation1 operation2) content2 := by
  have h21 := (perform_eq_some.1 h2).1.transformAgainst h1
  have h12 := (perform_eq_some.1 h1).1.transformAgainst h2
  rw [perform, perform, if_pos h21, if_pos h12, (applied_transformAgainst_iff h1 h2).2 htie]

theorem length_perform (h : perform operation1 content = some content') :
    content'.length ≤ content.length + 1 :=
  Edit.length_act (act_of_perform h)

theorem exists_perform (h : InRange content operation1) (hroom : content.length < intMaxValue) :
    ∃ content', perform operation1 content = some content' := by
  obtain ⟨content', hact⟩ := Option.isSome_iff_exists.1 h.isSome_act
  have := Edit.length_act hact
  exact ⟨content', perform_eq_some.2 ⟨h, h.applyTo_iff.2 hact, by omega⟩⟩

/-- The plain-text operations have the guarantees of sequence edits. -/
theorem perform_guarded :
    Guarded perform transformAgainst InRange InsertTie List.length intMaxValue where
  size_act := length_perform
  valid_of_act h := (perform_eq_some.1 h).1
  act_of_valid := exists_perform
  valid_tr := InRange.transformAgainst
  closes := perform_transformAgainst

end Against

end OtEditor
