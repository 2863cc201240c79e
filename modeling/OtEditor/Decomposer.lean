import OtEditor.Dynamic
import OtEditor.Laws

/-!
# From a diff to operations

`oninput` takes an edit of the text area apart with `diff_main` and turns the entries into
operations on single characters. `diffEntryToOperationList` keeps a cursor : it stands at the end of
the text already rewritten, so a deletion repeats one position and an insertion moves on with
its characters. `diffToOperationList_exact` : whatever the kinds and their order, if the entries
describe the two contents, the operations rewrite the first into the second, each in range at
its turn, and their inverses lead back.
-/

open Transformation

namespace OtEditor

inductive DiffType where
  | deletion
  | equality
  | insertion
  deriving DecidableEq

structure Diff where
  diffType : DiffType
  content : Text
  deriving DecidableEq

/-- `toDiff`. The class in the second message is that of the kind, not of the content. -/
def toDiff (simpleName : JsValue → Text) (rawDiff : List JsValue) : Except Throwable Diff :=
  match rawDiff with
  | [rawDiffType, rawContent] =>
    match rawContent with
    | .string content =>
      if rawDiffType = .number (-1) then .ok ⟨.deletion, content⟩
      else if rawDiffType = .number 0 then .ok ⟨.equality, content⟩
      else if rawDiffType = .number 1 then .ok ⟨.insertion, content⟩
      else .error (.illegalArgumentException (utf16 "Invalid diffType " ++
        rawDiffType.template ++ utf16 ", must be -1, 0 or 1"))
    | _ => .error (.illegalStateException (utf16 "Invalid content type: " ++
        simpleName rawDiffType ++ utf16 ", must be String"))
  | _ => .error (.illegalStateException (utf16 "Invalid diff array size: " ++
      utf16 (toString rawDiff.length) ++ utf16 ", must be 2"))

/-- What an entry says of the initial content. -/
def Diff.before (diff : Diff) : Text :=
  if diff.diffType = .insertion then [] else diff.content

/-- What an entry says of the changed content. -/
def Diff.after (diff : Diff) : Text :=
  if diff.diffType = .deletion then [] else diff.content

/-- An entry as the diff library returns it. -/
def Diff.raw (diff : Diff) : List JsValue :=
  [.number (match diff.diffType with
    | .deletion => -1
    | .equality => 0
    | .insertion => 1), .string diff.content]

theorem toDiff_raw (simpleName : JsValue → Text) (diff : Diff) :
    toDiff simpleName diff.raw = .ok diff := by
  obtain ⟨_ | _ | _, content⟩ := diff <;> rfl

theorem mapM_toDiff_raw (simpleName : JsValue → Text) :
    ∀ diffs : List Diff, (diffs.map Diff.raw).mapM (toDiff simpleName) = .ok diffs
  | [] => rfl
  | diff :: diffs => by
    rw [List.map_cons, List.mapM_cons, toDiff_raw, mapM_toDiff_raw simpleName diffs]
    rfl

section Decomposer

variable {σ : Type} (generateId : σ → Text × σ)

def deletionAt (cursor : Int32) (symbol : Symbol) :
    Effect σ PlainTextSingleCharacterOperation := do
  let uuid ← Effect.ofState generateId
  return .delete ⟨uuid, cursor, symbol⟩

def insertionAt (cursor : Int32) (symbol : Symbol) :
    Effect σ PlainTextSingleCharacterOperation := do
  let uuid ← Effect.ofState generateId
  return .insert ⟨uuid, cursor, symbol⟩

/-- The operations of one entry, and the new cursor. -/
def diffEntryToOperationList (diff : Diff) (cursor : Int32) :
    Effect σ (List PlainTextSingleCharacterOperation × Int32) :=
  match diff.diffType with
  | .deletion => do
    let operations ← diff.content.mapM (deletionAt generateId cursor)
    return (operations, cursor)
  | .equality => return ([], cursor + .ofNat diff.content.length)
  | .insertion => do
    let operations ← diff.content.zipIdx.mapM fun indexed =>
      insertionAt generateId (cursor + .ofNat indexed.2) indexed.1
    return (operations, cursor + .ofNat diff.content.length)

/-- `diffToOperationList`, for the `diff_main` of the diff library. -/
def diffToOperationList (simpleName : JsValue → Text)
    (diff_main : Text → Text → List (List JsValue)) (initialContent changedContent : Text) :
    Effect σ (List PlainTextSingleCharacterOperation) := do
  let diffs ← Effect.ofResult ((diff_main initialContent changedContent).mapM (toDiff simpleName))
  let result ← diffs.foldlM (fun result diff => do
    let next ← diffEntryToOperationList generateId diff result.2
    return (result.1 ++ next.1, next.2)) ([], 0)
  return result.1

/-! ## The operations of one entry -/

/-- The content after an operation, if that is in range. -/
def applyInRange (operation : PlainTextSingleCharacterOperation) (content : Text) : Option Text :=
  if InRange content operation then applied operation content else none

theorem applyInRange_eq_some {operation : PlainTextSingleCharacterOperation}
    {content content' : Text} : applyInRange operation content = some content' ↔
      InRange content operation ∧ operation.applyTo content = .ok content' := by
  unfold applyInRange
  split_ifs with hin
  · exact applied_eq_some.trans (and_iff_right hin).symm
  · simp [hin]

theorem applyInRange_of_act {operation : PlainTextSingleCharacterOperation}
    {content content' : Text} (h0 : NonNegative operation)
    (hact : (toEdit operation).act content = some content') :
    applyInRange operation content = some content' := by
  have hin := inRange_of_act h0 hact
  exact applyInRange_eq_some.2 ⟨hin, hin.applyTo_iff.2 hact⟩

theorem exec_mapM_cons {α β : Type} {f : α → Effect σ β} {a : α} {l : List α} {b : β}
    {bs : List β} {s s₁ s₂ : σ} (hhead : (f a).exec s = (.ok b, s₁))
    (htail : Effect.exec (l.mapM f) s₁ = (.ok bs, s₂)) :
    Effect.exec ((a :: l).mapM f) s = (.ok (b :: bs), s₂) := by
  rw [List.mapM_cons, Effect.exec_bind_ok hhead, Effect.exec_bind_ok htail, Effect.exec_pure]

theorem toInt_add_ofNat {p : Int32} {n : ℕ} (h0 : 0 ≤ p.toInt)
    (hfits : p.toInt + n ≤ intMaxValue) : (p + .ofNat n).toInt = p.toInt + n := by
  simp only [intMaxValue] at hfits
  rw [Int32.toInt_add, Int32.toInt_ofNat_of_lt (by omega), Int.bmod_eq_of_le] <;> omega

/-- Deletions at one position delete a part of the text. -/
theorem exec_deletions {cursor : Int32} {rewritten : Text}
    (hcursor : cursor.toInt = rewritten.length) (rest : Text) : ∀ (content : Text) (s : σ),
    ∃ operations s', Effect.exec (content.mapM (deletionAt generateId cursor)) s =
        (.ok operations, s') ∧
      actAll applyInRange operations (rewritten ++ (content ++ rest)) = some (rewritten ++ rest)
  | [], s => ⟨[], s, rfl, rfl⟩
  | symbol :: content, s => by
    obtain ⟨operations, s', hexec, hrun⟩ := exec_deletions hcursor rest content (generateId s).2
    have hindex : index cursor = rewritten.length := by
      simp only [index]
      omega
    have hdelete : applyInRange (.delete ⟨(generateId s).1, cursor, symbol⟩)
        (rewritten ++ symbol :: (content ++ rest)) = some (rewritten ++ (content ++ rest)) := by
      refine applyInRange_of_act (by simp only [NonNegative]; omega) ?_
      rw [toEdit, hindex]
      exact Edit.act_delete_append symbol rewritten (content ++ rest)
    refine ⟨_, s', exec_mapM_cons rfl hexec, ?_⟩
    rw [actAll_cons, List.cons_append, hdelete]
    exact hrun

/-- Insertions at successive positions insert a part of a text. -/
theorem exec_insertions {cursor : Int32} {rewritten : Text}
    (hcursor : cursor.toInt = rewritten.length) (rest : Text) : ∀ (content inserted : Text) (s : σ),
    rewritten.length + inserted.length + content.length ≤ intMaxValue →
    ∃ operations s', Effect.exec ((content.zipIdx inserted.length).mapM fun indexed =>
        insertionAt generateId (cursor + .ofNat indexed.2) indexed.1) s = (.ok operations, s') ∧
      actAll applyInRange operations (rewritten ++ inserted ++ rest) =
        some (rewritten ++ inserted ++ content ++ rest)
  | [], inserted, s, _ => ⟨[], s, rfl, by simp⟩
  | symbol :: content, inserted, s, hfits => by
    rw [List.length_cons] at hfits
    have hlength : (inserted ++ [symbol]).length = inserted.length + 1 := List.length_append
    obtain ⟨operations, s', hexec, hrun⟩ := exec_insertions hcursor rest content
      (inserted ++ [symbol]) (generateId s).2 (by omega)
    have hposition := toInt_add_ofNat (p := cursor) (n := inserted.length) (by omega) (by omega)
    have hindex : index (cursor + .ofNat inserted.length) = (rewritten ++ inserted).length := by
      rw [List.length_append, index]
      omega
    have hinsert : applyInRange
        (.insert ⟨(generateId s).1, cursor + .ofNat inserted.length, symbol⟩)
        (rewritten ++ inserted ++ rest) = some (rewritten ++ (inserted ++ [symbol]) ++ rest) := by
      refine applyInRange_of_act (by simp only [NonNegative]; omega) ?_
      rw [toEdit, hindex, Edit.act_insert_append]
      simp
    refine ⟨_, s', exec_mapM_cons rfl (hlength ▸ hexec), ?_⟩
    rw [actAll_cons, hinsert, Option.bind_some, hrun]
    simp

/-- One entry rewrites its part of the text, and leaves the cursor at the end of it. -/
theorem exec_diffEntry {diff : Diff} {cursor : Int32} {rewritten : Text}
    (hcursor : cursor.toInt = rewritten.length)
    (hfits : (rewritten ++ diff.after).length ≤ intMaxValue) (rest : Text) (s : σ) :
    ∃ operations cursor' s',
      (diffEntryToOperationList generateId diff cursor).exec s = (.ok (operations, cursor'), s') ∧
      cursor'.toInt = (rewritten ++ diff.after).length ∧
      actAll applyInRange operations (rewritten ++ (diff.before ++ rest)) =
        some (rewritten ++ diff.after ++ rest) := by
  obtain ⟨_ | _ | _, content⟩ := diff
  · obtain ⟨operations, s', hexec, hrun⟩ :=
      exec_deletions generateId hcursor rest content s
    refine ⟨operations, cursor, s', Effect.exec_bind_ok hexec, ?_, ?_⟩
    · simpa [Diff.after] using hcursor
    · simpa [Diff.before, Diff.after] using hrun
  · change (rewritten ++ content).length ≤ intMaxValue at hfits
    rw [List.length_append] at hfits
    refine ⟨[], cursor + .ofNat content.length, s, rfl, ?_, ?_⟩
    · rw [toInt_add_ofNat (by omega) (by omega), hcursor]
      simp [Diff.after]
    · simp [Diff.before, Diff.after]
  · change (rewritten ++ content).length ≤ intMaxValue at hfits
    rw [List.length_append] at hfits
    obtain ⟨operations, s', hexec, hrun⟩ :=
      exec_insertions generateId hcursor rest content [] s (by simpa using hfits)
    refine ⟨operations, cursor + .ofNat content.length, s', Effect.exec_bind_ok hexec, ?_, ?_⟩
    · rw [toInt_add_ofNat (by omega) (by omega), hcursor]
      simp [Diff.after]
    · simpa [Diff.before, Diff.after] using hrun

/-- Entry by entry the first content is rewritten into the second. -/
theorem exec_diffEntries {initialContent : Text} :
    ∀ {diffs : List Diff} {operations : List PlainTextSingleCharacterOperation} {cursor : Int32}
      {rewritten : Text}, cursor.toInt = rewritten.length →
      (rewritten ++ diffs.flatMap Diff.after).length ≤ intMaxValue →
      actAll applyInRange operations initialContent =
        some (rewritten ++ diffs.flatMap Diff.before) → ∀ s : σ,
      ∃ operations' cursor' s', Effect.exec (diffs.foldlM (fun result diff => do
          let next ← diffEntryToOperationList generateId diff result.2
          return (result.1 ++ next.1, next.2)) (operations, cursor)) s =
          (.ok (operations', cursor'), s') ∧
        actAll applyInRange operations' initialContent =
          some (rewritten ++ diffs.flatMap Diff.after)
  | [], operations, cursor, rewritten, _, _, hrun, s => ⟨operations, cursor, s, rfl, hrun⟩
  | diff :: diffs, operations, cursor, rewritten, hcursor, hfits, hrun, s => by
    rw [List.flatMap_cons, ← List.append_assoc] at hfits
    have hfirst : (rewritten ++ diff.after).length ≤ intMaxValue := by
      rw [List.length_append] at hfits
      omega
    obtain ⟨next, cursor₁, s₁, hexec, hcursor₁, hnext⟩ :=
      exec_diffEntry generateId hcursor hfirst (diffs.flatMap Diff.before) s
    have hrun₁ : actAll applyInRange (operations ++ next) initialContent =
        some (rewritten ++ diff.after ++ diffs.flatMap Diff.before) := by
      rw [actAll_append, hrun, Option.bind_some, List.flatMap_cons, hnext]
    obtain ⟨operations', cursor', s', hrest, hrun'⟩ := exec_diffEntries hcursor₁ hfits hrun₁ s₁
    refine ⟨operations', cursor', s', ?_, ?_⟩
    · have hentry : Effect.exec (do
          let next ← diffEntryToOperationList generateId diff cursor
          return (operations ++ next.1, next.2)) s = (.ok (operations ++ next, cursor₁), s₁) :=
        Effect.exec_bind_ok hexec
      rw [List.foldlM_cons]
      exact (Effect.exec_bind_ok hentry).trans hrest
    · rw [hrun', List.flatMap_cons, List.append_assoc]

end Decomposer

/-- The inverse of an operation in range is in range after it, and takes it back. -/
theorem applyInRange_invert {operation inverse : PlainTextSingleCharacterOperation}
    {content content' : Text}
    (hinverse : ∃ generatedId, inverse = PlainTextOperationsManager.invert generatedId operation)
    (happly : applyInRange operation content = some content') :
    applyInRange inverse content' = some content := by
  obtain ⟨generatedId, rfl⟩ := hinverse
  obtain ⟨hin, happly⟩ := applyInRange_eq_some.1 happly
  exact applyInRange_eq_some.2 (hin.invert_applyTo generatedId happly)

/-- Of entries that describe two contents, the decomposer makes operations that rewrite the
first into the second, each in range at its turn, and whose inverses lead back. -/
theorem diffToOperationList_exact {σ : Type} (generateId : σ → Text × σ)
    (simpleName : JsValue → Text) (diff_main : Text → Text → List (List JsValue))
    {initialContent changedContent : Text} {diffs : List Diff}
    (hdiffs : diff_main initialContent changedContent = diffs.map Diff.raw)
    (hbefore : diffs.flatMap Diff.before = initialContent)
    (hafter : diffs.flatMap Diff.after = changedContent)
    (hfits : changedContent.length ≤ intMaxValue) (s : σ) :
    ∃ operations s', (diffToOperationList generateId simpleName diff_main initialContent
        changedContent).exec s = (.ok operations, s') ∧
      actAll applyInRange operations initialContent = some changedContent ∧
      ∀ inverses, List.Forall₂ (fun operation inverse => ∃ generatedId, inverse =
          plainTextOperationsManager.invert generatedId operation) operations inverses →
        actAll applyInRange inverses.reverse changedContent = some initialContent := by
  have htoDiff : (diff_main initialContent changedContent).mapM (toDiff simpleName) =
      .ok diffs := by
    rw [hdiffs]
    exact mapM_toDiff_raw simpleName diffs
  have hcursor : (0 : Int32).toInt = ([] : Text).length := rfl
  have hstart : actAll applyInRange [] initialContent = some ([] ++ diffs.flatMap Diff.before) :=
    congrArg some hbefore.symm
  obtain ⟨operations, cursor, s', hexec, hrun⟩ :=
    exec_diffEntries generateId hcursor (hafter.symm ▸ hfits) hstart s
  rw [List.nil_append, hafter] at hrun
  refine ⟨operations, s', ?_, hrun, ?_⟩
  · rw [diffToOperationList, htoDiff, Effect.exec_ofResult_ok_bind, Effect.exec_bind_ok hexec,
      Effect.exec_pure]
  · intro inverses hinverses
    exact actAll_reverse_of_inverses applyInRange applyInRange_invert hinverses hrun

/-- The first of two letters is replaced. -/
theorem diffToOperationList_exact_replacement :
    ∃ operations s', (diffToOperationList (fun n : ℕ => (utf16 "id", n + 1)) JsValue.template
        (fun _ _ => [[.number (-1), .string [97]], [.number 1, .string [120]],
          [.number 0, .string [98]]]) [97, 98] [120, 98]).exec 0 = (.ok operations, s') ∧
      actAll applyInRange operations [97, 98] = some [120, 98] := by
  obtain ⟨operations, s', hexec, hrun, -⟩ := diffToOperationList_exact
    (fun n : ℕ => (utf16 "id", n + 1)) JsValue.template
    (fun _ _ => [[.number (-1), .string [97]], [.number 1, .string [120]],
      [.number 0, .string [98]]])
    (show _ = [⟨.deletion, [97]⟩, ⟨.insertion, [120]⟩, ⟨.equality, [98]⟩].map Diff.raw from rfl)
    (show _ = [97, 98] from rfl) (show _ = [120, 98] from rfl) (by decide) 0
  exact ⟨operations, s', hexec, hrun⟩

end OtEditor
