import OtEditor.InRange
import OtEditor.Lib.Provenance

/-!
# A whole history keeps the author's intention

The server transforms an operation against every operation its author had not seen. Here
the characters of the author's text are tracked as individual occurrences through such a
history (`occurrencesAfter`) : the transformed deletion deletes the occurrence it was made
for, or nothing if that is gone, and the transformed insertion goes between the same
surviving characters (`transformAgainstEach_keepsIntention`).
-/

open Transformation

namespace OtEditor

/-- The operations of a history applied one after another, each in range at its turn and
each result a Kotlin `String`. -/
inductive AppliedInRange : Text → List PlainTextSingleCharacterOperation → Text → Prop where
  | nil (content : Text) : AppliedInRange content [] content
  | cons {content content' content'' : Text} {operation : PlainTextSingleCharacterOperation}
      {operations : List PlainTextSingleCharacterOperation}
      (inRange : InRange content operation)
      (applies : operation.applyTo content = .ok content')
      (fits : content'.length ≤ intMaxValue)
      (rest : AppliedInRange content' operations content'') :
      AppliedInRange content (operation :: operations) content''

theorem appliedInRange_iff {content' : Text} :
    ∀ {history : List PlainTextSingleCharacterOperation} {content : Text},
      AppliedInRange content history content' ↔ actAll perform history content = some content'
  | [], content => by
    constructor
    · rintro ⟨⟩
      rfl
    · intro h
      obtain rfl := Option.some.inj h
      exact .nil content
  | operation :: operations, content => by
    rw [actAll_cons, Option.bind_eq_some_iff]
    constructor
    · rintro (_ | ⟨inRange, applies, fits, rest⟩)
      exact ⟨_, perform_eq_some.2 ⟨inRange, applies, fits⟩, appliedInRange_iff.1 rest⟩
    · rintro ⟨content₁, hop, hrest⟩
      obtain ⟨inRange, applies, fits⟩ := perform_eq_some.1 hop
      exact .cons inRange applies fits (appliedInRange_iff.2 hrest)

/-- A history in range performs its edits. -/
theorem actAll_toEdit {content' : Text} :
    ∀ {history : List PlainTextSingleCharacterOperation} {content : Text},
      actAll perform history content = some content' →
      actAll Edit.act (history.map toEdit) content = some content'
  | [], _, h => h
  | operation :: operations, content, h => by
    obtain ⟨content₁, hop, hrest⟩ := Option.bind_eq_some_iff.1 h
    rw [List.map_cons, actAll_cons, act_of_perform hop]
    exact actAll_toEdit hrest

/-- Transforming against a history in range carries the edit past the history's edits. -/
theorem toEdit_transformAgainstEach {content' : Text} :
    ∀ {history : List PlainTextSingleCharacterOperation} {content : Text}
      {operation : PlainTextSingleCharacterOperation}, InRange content operation →
      actAll perform history content = some content' →
      toEdit (transformAgainstEach history operation plainTextOperationsManager) =
        carry Edit.against (toEdit operation) (history.map toEdit)
  | [], _, _, _, _ => rfl
  | h :: history, content, operation, hop, hrun => by
    obtain ⟨content₁, hh, hrest⟩ := Option.bind_eq_some_iff.1 hrun
    have hrec := toEdit_transformAgainstEach (hop.transformAgainst hh) hrest
    rw [(toEdit_transformAgainst hop hh).2] at hrec
    exact hrec

/-- The characters of `content` as occurrences, each numbered with its index, through a
history. -/
def occurrencesAfter (history : List PlainTextSingleCharacterOperation) (content : Text) :
    Tracked Symbol :=
  Edit.trackAll (history.map toEdit) (track content)

/-- The occurrences after a history are the characters of the text after it. -/
theorem map_snd_occurrencesAfter {content content' : Text}
    {history : List PlainTextSingleCharacterOperation}
    (h : AppliedInRange content history content') :
    (occurrencesAfter history content).map Prod.snd = content' :=
  Edit.map_snd_trackAll _ _ (by
    rw [Edit.map_snd_track]
    exact actAll_toEdit (appliedInRange_iff.1 h))

/-- What `operation`, made on a text, has become on a later text whose characters are
`occurrences` of the earlier one. -/
def KeepsIntention (occurrences : Tracked Symbol) :
    (operation operation' : PlainTextSingleCharacterOperation) → Prop
  | .delete operation, operation' =>
    -- the occurrence it was made for, as long as that is there
    ((∃ j, Edit.Origin occurrences j (index operation.position)) →
      ∃ position, operation' = .delete ⟨operation.uuid, position, operation.symbol⟩ ∧
        occurrences[index position]? =
          some (some (index operation.position), operation.symbol)) ∧
    ((¬∃ j, Edit.Origin occurrences j (index operation.position)) →
      operation' = .identity ⟨operation.uuid⟩)
  | .insert operation, operation' =>
    ∃ position, operation' = .insert ⟨operation.uuid, position, operation.symbol⟩ ∧
      ∀ j k, Edit.Origin occurrences j k →
        (j < index position ↔ k < index operation.position)
  | .identity operation, operation' => operation' = .identity operation

theorem eq_insert_of_toEdit {operation : PlainTextSingleCharacterOperation} {i : ℕ}
    {symbol : Symbol} (h : toEdit operation = .insert i symbol) :
    ∃ position, operation = .insert ⟨operation.uuid, position, symbol⟩ ∧ index position = i := by
  cases operation <;> cases h
  exact ⟨_, rfl, rfl⟩

theorem eq_delete_of_toEdit {operation : PlainTextSingleCharacterOperation} {i : ℕ}
    {symbol : Symbol} (h : toEdit operation = .delete i symbol) :
    ∃ position, operation = .delete ⟨operation.uuid, position, symbol⟩ ∧ index position = i := by
  cases operation <;> cases h
  exact ⟨_, rfl, rfl⟩

theorem eq_identity_of_toEdit {operation : PlainTextSingleCharacterOperation}
    (h : toEdit operation = .skip) : operation = .identity ⟨operation.uuid⟩ := by
  cases operation <;> cases h
  rfl

/-- Carried past a history, an edit in range keeps the intention of its operation. -/
theorem keepsIntention_of_toEdit {content content' : Text}
    {history : List PlainTextSingleCharacterOperation}
    {operation operation' : PlainTextSingleCharacterOperation}
    (hrun : actAll perform history content = some content') (hin : InRange content operation)
    (huuid : operation'.uuid = operation.uuid)
    (hedit : toEdit operation' =
      carry Edit.against (toEdit operation) (history.map toEdit)) :
    KeepsIntention (occurrencesAfter history content) operation operation' := by
  have hedits : actAll Edit.act (history.map toEdit) ((track content).map Prod.snd) =
      some content' := by
    rw [Edit.map_snd_track]
    exact actAll_toEdit hrun
  cases operation with
  | insert operation =>
    have hi : index operation.position ≤ (track content).length := by
      simp only [InRange] at hin
      simp only [index, track, List.length_mapIdx]
      omega
    obtain ⟨j, hj, -, hsplits⟩ := Edit.insert_carry (a := operation.symbol) _ _ _ hedits hi
      (Edit.splits_track content _)
    obtain ⟨position, heq, rfl⟩ := eq_insert_of_toEdit (hedit.trans hj)
    rw [huuid] at heq
    exact ⟨position, heq, hsplits⟩
  | delete operation =>
    have hi : (track content)[index operation.position]? =
        some (some (index operation.position), operation.symbol) := by
      rw [Edit.getElem?_track, hin.2, Option.map_some]
    obtain ⟨j, hj, hget⟩ | ⟨hskip, hgone⟩ :=
      Edit.delete_carry _ _ _ hedits (Edit.unique_track content) hi
    · obtain ⟨position, heq, rfl⟩ := eq_delete_of_toEdit (hedit.trans hj)
      rw [huuid] at heq
      exact ⟨fun _ => ⟨position, heq, hget⟩, fun hnone => (hnone ⟨_, _, hget⟩).elim⟩
    · have heq := eq_identity_of_toEdit (hedit.trans hskip)
      rw [huuid] at heq
      exact ⟨fun hthere => (hthere.elim hgone).elim, fun _ => heq⟩
  | identity operation =>
    have heq := eq_identity_of_toEdit (hedit.trans (Edit.carry_skip _))
    rw [huuid] at heq
    exact heq

/-- Transforming against a whole history keeps the author's intention : under its own
`uuid` the operation is in range after the history, and acts on the occurrences it was made
for. -/
theorem transformAgainstEach_keepsIntention {content content' : Text}
    {history : List PlainTextSingleCharacterOperation}
    {operation : PlainTextSingleCharacterOperation}
    (hhistory : AppliedInRange content history content') (hin : InRange content operation) :
    (transformAgainstEach history operation plainTextOperationsManager).uuid =
        operation.uuid ∧
      (∃ content'', (transformAgainstEach history operation
        plainTextOperationsManager).applyTo content' = .ok content'') ∧
      InRange content' (transformAgainstEach history operation plainTextOperationsManager) ∧
      (occurrencesAfter history content).map Prod.snd = content' ∧
      KeepsIntention (occurrencesAfter history content) operation
        (transformAgainstEach history operation plainTextOperationsManager) := by
  have hrun := appliedInRange_iff.1 hhistory
  have huuid := plainTextOperationsManager_keepsUuid.transformAgainstEach history operation
  have hin' : InRange content' (transformAgainstEach history operation
      plainTextOperationsManager) :=
    perform_guarded.valid_carry history operation content hin hrun
  exact ⟨huuid, hin'.exists_applyTo, hin', map_snd_occurrencesAfter hhistory,
    keepsIntention_of_toEdit hrun hin huuid (toEdit_transformAgainstEach hin hrun)⟩

/-- The second of two equal letters is deleted after the first one was, and after a third
one was typed before it. -/
theorem transformAgainstEach_keepsIntention_twins :
    KeepsIntention
      (occurrencesAfter [.delete ⟨"h1", 0, 97⟩, .insert ⟨"h2", 0, 97⟩] [97, 97])
      (.delete ⟨"o", 1, 97⟩)
      (transformAgainstEach [.delete ⟨"h1", 0, 97⟩, .insert ⟨"h2", 0, 97⟩]
        (.delete ⟨"o", 1, 97⟩) plainTextOperationsManager) := by
  have hhistory : AppliedInRange [97, 97] [.delete ⟨"h1", 0, 97⟩, .insert ⟨"h2", 0, 97⟩]
      [97, 97] :=
    .cons (by decide) rfl (by decide) (.cons (by decide) rfl (by decide) (.nil [97, 97]))
  exact (transformAgainstEach_keepsIntention hhistory (by decide)).2.2.2.2

end OtEditor
