import OtEditor.ClientFsm
import OtEditor.PlainText

/-!
# The page

The page shows a document in a text area and carries out the commands of the client state
machine : it applies a remote operation to the text and moves the selection with it, or
sends an operation to the server with the revision the machine has by then. An operation
that throws on the text is noticed only after the machine has processed it
(`exec_onMessageReceived_other`).
-/

namespace OtEditor

/-- The text area. Its value is read back as it was assigned, without the browser's normalization
of newlines. -/
structure TextArea where
  value : Text
  selectionStart : Option Int32
  selectionEnd : Option Int32
  deriving DecidableEq

/-- A message to `/app/document/{documentUUID}/revision/{revision}`. -/
structure Message where
  documentUUID : String
  revision : ℤ
  operation : PlainTextSingleCharacterOperation
  deriving DecidableEq

/-- The page with a document loaded. `sent` are the messages it has handed to the socket. -/
structure Page where
  clientFsm : ClientFSM PlainTextSingleCharacterOperation
  textArea : TextArea
  documentTitle : String
  curDocumentUUID : String
  sent : List Message
  deriving DecidableEq

def transformCursorPosition (cursorPosition : Int32) :
    PlainTextSingleCharacterOperation → Int32
  | .insert operation =>
    if operation.position ≤ cursorPosition then cursorPosition + 1 else cursorPosition
  | .delete operation =>
    if operation.position < cursorPosition then cursorPosition - 1 else cursorPosition
  | .identity _ => cursorPosition

def applyOperationLocally (operation : PlainTextSingleCharacterOperation) :
    Effect Page Unit := do
  let textArea := (← get).textArea
  let selectionStartPos := textArea.selectionStart.map (transformCursorPosition · operation)
  let selectionEndPos := textArea.selectionEnd.map (transformCursorPosition · operation)
  let modifiedContent ← Effect.ofResult (operation.applyTo textArea.value)
  modify fun page => { page with
    textArea := ⟨modifiedContent, selectionStartPos, selectionEndPos⟩ }

def sendOperation (operation : PlainTextSingleCharacterOperation) : Effect Page Unit :=
  modify fun page => { page with
    sent := page.sent ++ [⟨page.curDocumentUUID, page.clientFsm.revision, operation⟩] }

def onOperationApplicationCommand :
    OperationApplicationCommand PlainTextSingleCharacterOperation → Effect Page Unit
  | .applyOperationLocally operation => applyOperationLocally operation
  | .sendOperationToServer operation => sendOperation operation
  | .noCommand => pure ()

/-- An effect of the client document manager, whose machine the page holds. -/
def onClientFsm {α : Type} (m : Effect (ClientFSM PlainTextSingleCharacterOperation) α) :
    Effect Page α :=
  Effect.onPart Page.clientFsm (fun clientFsm page => { page with clientFsm }) m

/-- `onMessageReceived`, for the operation of the payload. -/
def onMessageReceived (operation : PlainTextSingleCharacterOperation) : Effect Page Unit := do
  let command ← onClientFsm
    (ClientDocumentManager.processRemoteOperation plainTextOperationsManager operation)
  onOperationApplicationCommand command

/-- What `oninput` does with each operation of an edit of the text area. -/
def onLocalOperation (operation : PlainTextSingleCharacterOperation) : Effect Page Unit := do
  let command ← onClientFsm (ClientDocumentManager.processLocalOperation operation)
  onOperationApplicationCommand command

/-- `loadDocument`, for the answer of the server. -/
def loadDocument (textArea : TextArea) (uuid : String) (document : PlainTextDocument) : Page where
  clientFsm := ⟨document.revision, .synchronizedState⟩
  textArea := { textArea with value := document.content }
  documentTitle := document.title
  curDocumentUUID := uuid
  sent := []

/-! ## What the handlers do -/

/-- The message that sends the first pending operation, if there is one. -/
def firstMessage (documentUUID : String) (revision : ℤ) :
    List PlainTextSingleCharacterOperation → List Message
  | [] => []
  | pendingOperation :: _ => [⟨documentUUID, revision, pendingOperation⟩]

theorem exec_applyOperationLocally_ok {operation : PlainTextSingleCharacterOperation}
    (page : Page) (content : Text) (h : operation.applyTo page.textArea.value = .ok content) :
    (applyOperationLocally operation).exec page =
      (.ok (), { page with textArea :=
        ⟨content, page.textArea.selectionStart.map (transformCursorPosition · operation),
          page.textArea.selectionEnd.map (transformCursorPosition · operation)⟩ }) := by
  rw [applyOperationLocally, Effect.exec_bind_ok (Effect.exec_get page)]
  simp only [h, Effect.exec_ofResult_ok_bind, Effect.exec_modify]

theorem exec_applyOperationLocally_error {operation : PlainTextSingleCharacterOperation}
    {page : Page} {e : Throwable} (h : operation.applyTo page.textArea.value = .error e) :
    (applyOperationLocally operation).exec page = (.error e, page) := by
  rw [applyOperationLocally, Effect.exec_bind_ok (Effect.exec_get page)]
  simp only [h, Effect.exec_ofResult_error_bind]

/-- Applying an operation touches nothing but the text area. -/
theorem exec_applyOperationLocally_frame (operation : PlainTextSingleCharacterOperation)
    (page : Page) : ∃ textArea, ((applyOperationLocally operation).exec page).2 =
      { page with textArea } := by
  cases h : operation.applyTo page.textArea.value with
  | ok content => exact ⟨_, by rw [exec_applyOperationLocally_ok page content h]⟩
  | error e => exact ⟨page.textArea, by rw [exec_applyOperationLocally_error h]⟩

section Handlers

variable {page : Page} {r : ℤ} {ps : List PlainTextSingleCharacterOperation}

/-- A local operation is queued, and sent if nothing was pending. -/
theorem exec_onLocalOperation (operation : PlainTextSingleCharacterOperation)
    (hfsm : page.clientFsm = ⟨r, .ofPending ps⟩) :
    (onLocalOperation operation).exec page =
      (.ok (), { page with
        clientFsm := ⟨r, .ofPending (ps ++ [operation])⟩
        sent := page.sent ++
          if ps = [] then [⟨page.curDocumentUUID, r, operation⟩] else [] }) := by
  have hlocal : (onClientFsm (ClientDocumentManager.processLocalOperation operation)).exec page =
      (.ok (if ps = [] then .sendOperationToServer operation else .noCommand),
        { page with clientFsm := ⟨r, .ofPending (ps ++ [operation])⟩ }) := by
    rw [onClientFsm, Effect.exec_onPart, hfsm, exec_processLocalOperation]
  rw [onLocalOperation, Effect.exec_bind_ok hlocal]
  split_ifs
  · rfl
  · simp [onOperationApplicationCommand]

/-- The confirmation of the first pending operation sends the next one, with the new
revision. -/
theorem exec_onMessageReceived_own {operation p : PlainTextSingleCharacterOperation}
    (hfsm : page.clientFsm = ⟨r, .ofPending (p :: ps)⟩) (huuid : operation.uuid = p.uuid) :
    (onMessageReceived operation).exec page =
      (.ok (), { page with
        clientFsm := ⟨r + 1, .ofPending ps⟩
        sent := page.sent ++ firstMessage page.curDocumentUUID (r + 1) ps }) := by
  have hremote : (onClientFsm (ClientDocumentManager.processRemoteOperation
      plainTextOperationsManager operation)).exec page =
      (.ok (sendFirst ps), { page with clientFsm := ⟨r + 1, .ofPending ps⟩ }) := by
    rw [onClientFsm, Effect.exec_onPart, hfsm, State.ofPending,
      exec_processRemoteOperation_own plainTextOperationsManager ps r huuid]
  rw [onMessageReceived, Effect.exec_bind_ok hremote]
  cases ps with
  | nil => simp [sendFirst, onOperationApplicationCommand, firstMessage]
  | cons q qs => rfl

/-- An operation of another client rebases the pending operations, and only then is carried
past them and applied to the text. -/
theorem exec_onMessageReceived_other {operation : PlainTextSingleCharacterOperation}
    (hfsm : page.clientFsm = ⟨r, .ofPending ps⟩)
    (huuid : ∀ p qs, ps = p :: qs → operation.uuid ≠ p.uuid) :
    (onMessageReceived operation).exec page =
      (applyOperationLocally (transformAgainstEach ps operation plainTextOperationsManager)).exec
        { page with clientFsm := ⟨r + 1, .ofPending (ps.map fun p =>
          plainTextOperationsManager.transformAgainst p operation)⟩ } := by
  have hremote : (onClientFsm (ClientDocumentManager.processRemoteOperation
      plainTextOperationsManager operation)).exec page =
      (.ok (.applyOperationLocally
        (transformAgainstEach ps operation plainTextOperationsManager)),
        { page with clientFsm := ⟨r + 1, .ofPending (ps.map fun p =>
          plainTextOperationsManager.transformAgainst p operation)⟩ }) := by
    rw [onClientFsm, Effect.exec_onPart, hfsm,
      exec_processRemoteOperation_foreign plainTextOperationsManager r huuid]
  rw [onMessageReceived, Effect.exec_bind_ok hremote]
  rfl

/-- A synchronized client applies an operation of another client as it is. -/
theorem exec_onMessageReceived_synchronized (operation : PlainTextSingleCharacterOperation)
    (hfsm : page.clientFsm = ⟨r, .synchronizedState⟩) :
    (onMessageReceived operation).exec page = (applyOperationLocally operation).exec
      { page with clientFsm := ⟨r + 1, .synchronizedState⟩ } := by
  have hother : ∀ (p : PlainTextSingleCharacterOperation) qs, [] = p :: qs →
      operation.uuid ≠ p.uuid := by
    intro p qs hcons
    cases hcons
  rw [← State.ofPending] at hfsm
  rw [exec_onMessageReceived_other hfsm hother]
  rfl

end Handlers

end OtEditor
