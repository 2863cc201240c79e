import OtEditor.Decomposer
import OtEditor.Session
import OtEditor.DiffMatchPatch.Main

/-!
# Typing

The user changes the text area as a whole. `beforeinput` keeps the text before the change, and
`oninput` takes the change apart with the diff library and queues an operation for each
symbol. Whatever the user makes of the text, the operations rewrite the text before into the
text after, each in range at its turn (`oninput_spec`).

If the diff throws, then so does `oninput`, before it has queued anything. The text area keeps
the change that nobody will hear of.
-/

open Transformation

namespace OtEditor

open DiffMatchPatch

/-- The page, the variable `previousTextAreaData` and the state of the uuid generator. -/
structure Editor (σ : Type) where
  page : Page
  previousTextAreaData : Text
  ids : σ

/-- Why a handler ends early : an exception of the Kotlin code, or the diff does not return. -/
inductive Failure where
  | throws (e : Throwable)
  | stops (stop : Stop)
  deriving DecidableEq

namespace Editor

variable {σ : Type} (generateId : σ → Text × σ) (simpleName : JsValue → Text)

/-- The handler of `beforeinput`. -/
def beforeinput (editor : Editor σ) : Editor σ :=
  { editor with previousTextAreaData := editor.page.textArea.value }

/-- The browser shows what the user made of the text. -/
def change (cur : Text) (editor : Editor σ) : Editor σ :=
  { editor with
    page := { editor.page with textArea := { editor.page.textArea with value := cur } } }

/-- `oninput` after `diff_main` has returned. -/
def processDiffs (diffs : List Diff) : Effect (Editor σ) Unit := do
  let cur := (← get).page.textArea.value
  let previous := (← get).previousTextAreaData
  let operations ← Effect.onPart Editor.ids (fun ids editor => { editor with ids })
    (diffToOperationList generateId simpleName (fun _ _ => diffs.map Diff.raw) previous cur)
  modify fun editor => { editor with previousTextAreaData := editor.page.textArea.value }
  forM operations fun operation =>
    Effect.onPart Editor.page (fun page editor => { editor with page }) (onLocalOperation operation)

/-- `oninput`, with the number of readings of the clock before the deadline of the diff. -/
def oninput (left : ℕ) (editor : Editor σ) : Except Failure Unit × Editor σ :=
  match diffMain left editor.previousTextAreaData editor.page.textArea.value with
  | .error stop => (.error (.stops stop), editor)
  | .ok diffs =>
    let (result, editor') := (processDiffs generateId simpleName diffs).exec editor
    (result.mapError .throws, editor')

/-! ## What a change of the text becomes -/

/-- Of entries that spell two texts the decomposer makes operations from one to the other. -/
theorem exec_diffToOperationList {diffs : List Diff} {previous cur : Text}
    (hspells : Spells diffs previous cur) (hfits : cur.length ≤ intMaxValue) (ids : σ) :
    ∃ operations ids', (diffToOperationList generateId simpleName (fun _ _ => diffs.map Diff.raw)
        previous cur).exec ids = (.ok operations, ids') ∧
      actAll applyInRange operations previous = some cur := by
  obtain ⟨rfl, rfl⟩ := hspells
  obtain ⟨operations, cursor, ids', hexec, hrun⟩ :=
    @exec_diffEntries _ generateId (diffText1 diffs) diffs [] 0 [] rfl hfits rfl ids
  refine ⟨operations, ids', ?_, hrun⟩
  rw [diffToOperationList, mapM_toDiff_raw, Effect.exec_ofResult_ok_bind,
    Effect.exec_bind_ok hexec, Effect.exec_pure]

/-- The operations are queued in order. The first is sent, if nothing was pending. -/
theorem exec_forM_onLocalOperation : ∀ (operations : List PlainTextSingleCharacterOperation)
    {editor : Editor σ} {r : ℤ} {ps : List PlainTextSingleCharacterOperation},
    editor.page.clientFsm = ⟨r, .ofPending ps⟩ →
    Effect.exec (forM operations fun operation => Effect.onPart Editor.page
        (fun page editor => { editor with page }) (onLocalOperation operation)) editor =
      (.ok (), { editor with page := { editor.page with
        clientFsm := ⟨r, .ofPending (ps ++ operations)⟩
        sent := editor.page.sent ++
          if ps = [] then firstMessage editor.page.curDocumentUUID r operations else [] } })
  | [], editor, r, ps, hfsm => by
    obtain ⟨⟨clientFsm, _, _, _, _⟩, _, _⟩ := editor
    obtain rfl : clientFsm = _ := hfsm
    simp [firstMessage]
  | operation :: operations, editor, r, ps, hfsm => by
    have hfirst : Effect.exec (Effect.onPart Editor.page (fun page editor => { editor with page })
        (onLocalOperation operation)) editor = (.ok (), { editor with page := { editor.page with
          clientFsm := ⟨r, .ofPending (ps ++ [operation])⟩
          sent := editor.page.sent ++
            if ps = [] then [⟨editor.page.curDocumentUUID, r, operation⟩] else [] } }) := by
      rw [Effect.exec_onPart, exec_onLocalOperation operation hfsm]
    rw [List.forM_cons, Effect.exec_bind_ok hfirst, exec_forM_onLocalOperation operations rfl]
    by_cases hps : ps = [] <;> simp [hps, firstMessage]

/-- `oninput` queues operations that rewrite the text before into the text that is shown, each
in range at its turn. It fails only if the diff throws, and then it does nothing. -/
theorem oninput_spec (left : ℕ) {editor : Editor σ} {r : ℤ}
    {ps : List PlainTextSingleCharacterOperation}
    (hfsm : editor.page.clientFsm = ⟨r, .ofPending ps⟩)
    (hfits : editor.page.textArea.value.length ≤ intMaxValue) :
    (diffMain left editor.previousTextAreaData editor.page.textArea.value = .error .typeError ∧
      oninput generateId simpleName left editor = (.error (.stops .typeError), editor)) ∨
    ∃ operations ids, oninput generateId simpleName left editor = (.ok (),
        { page := { editor.page with
            clientFsm := ⟨r, .ofPending (ps ++ operations)⟩
            sent := editor.page.sent ++
              if ps = [] then firstMessage editor.page.curDocumentUUID r operations else [] }
          previousTextAreaData := editor.page.textArea.value
          ids }) ∧
      actAll applyInRange operations editor.previousTextAreaData =
        some editor.page.textArea.value := by
  rcases diffMain_spec left editor.previousTextAreaData editor.page.textArea.value with
    ⟨herror, -⟩ | ⟨diffs, hdiffs, hspells, -⟩
  · exact .inl ⟨herror, by rw [oninput, herror]⟩
  · right
    obtain ⟨operations, ids, hexec, hrun⟩ :=
      exec_diffToOperationList generateId simpleName hspells hfits editor.ids
    refine ⟨operations, ids, ?_, hrun⟩
    have hdecompose : Effect.exec (Effect.onPart Editor.ids (fun ids editor => { editor with ids })
        (diffToOperationList generateId simpleName (fun _ _ => diffs.map Diff.raw)
          editor.previousTextAreaData editor.page.textArea.value)) editor =
        (.ok operations, { editor with ids }) := by
      rw [Effect.exec_onPart, hexec]
    have hprocess := @exec_forM_onLocalOperation _ operations { editor with
      ids, previousTextAreaData := editor.page.textArea.value } _ _ hfsm
    rw [oninput, hdiffs]
    simp only [processDiffs, Effect.exec_bind_ok (Effect.exec_get editor),
      Effect.exec_bind_ok hdecompose, Effect.exec_bind_ok (Effect.exec_modify _ _), hprocess]
    rfl

end Editor

end OtEditor
