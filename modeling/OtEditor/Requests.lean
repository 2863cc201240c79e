import OtEditor.ServerLog

/-!
# Requests to the server, and documents that do not interfere

The server receives operations, saves posted documents and removes documents. Reads go by
the id of the request and writes by the `uuid` of the document, so what isolates documents
from each other is that every document is stored under its own uuid, which every request
keeps (`Stores.OwnUuid.serve`). The answers to the requests for a document, and what is
stored for it in the end, depend on these requests alone (`requests_do_not_interfere`).
-/

open Responder

namespace OtEditor

open ServerDocumentManager

/-- A request to the server. -/
inductive Request (D O : Type) where
  | receiveOperation (call : Call O)
  | save (document : D)
  | remove (documentUUID : String)

variable {T D O : Type} [Operation T O] [Document T D] (m : OperationsManager O)
  (u : DocumentUpdater T D)

/-- The document a request is addressed to. -/
def Request.target : Request D O → String
  | .receiveOperation call => call.documentUUID
  | .save document => Document.uuid document
  | .remove documentUUID => documentUUID

/-- What a request does. Only `receiveOperation` returns an operation. -/
def Request.handle : Request D O → Effect (Stores D O) (Option O)
  | .receiveOperation call => do
    return some (← ServerDocumentManager.receiveOperation m u call.documentUUID call.revision
      call.operation)
  | .save document => do
    DocumentController.postDocument document
    return none
  | .remove documentUUID => do
    DocumentStorageService.remove documentUUID
    return none

/-- Answer a request. -/
def serve (request : Request D O) (stores : Stores D O) :
    Except Throwable (Option O) × Stores D O :=
  (request.handle m u).exec stores

theorem serve_receiveOperation (call : Call O) (stores : Stores D O) :
    serve m u (.receiveOperation call) stores =
      ((serveCall m u call stores).1.map some, (serveCall m u call stores).2) := by
  rw [serve, Request.handle, Effect.exec_bind, ← serveCall]
  rcases serveCall m u call stores with ⟨_ | _, _⟩ <;> rfl

theorem serve_save (document : D) (stores : Stores D O) :
    serve m u (.save document) stores = (.ok none, { stores with
      documents := Function.update stores.documents (Document.uuid document) (some document) }) :=
  rfl

theorem serve_remove (documentUUID : String) (stores : Stores D O) :
    serve m u (.remove documentUUID) stores = (.ok none,
      ⟨Function.update stores.documents documentUUID none,
        Function.update stores.operations documentUUID none⟩) :=
  rfl

/-! ## Every request keeps documents under their own uuid -/

section OwnUuid

variable {m u} (hu : u.Lawful)
include hu

theorem Stores.OwnUuid.serveCall {stores : Stores D O} (hown : stores.OwnUuid) (call : Call O) :
    (serveCall m u call stores).2.OwnUuid := by
  unfold OtEditor.serveCall
  rcases exec_receiveOperation_cases m u stores call.documentUUID call.revision
    call.operation with ⟨e, -, hexec⟩ | ⟨_, document, content, -, -, -, hexec⟩
  · rw [hexec]
    exact hown
  · rw [hexec]
    exact hown.record hu

theorem Stores.OwnUuid.serve {stores : Stores D O} (hown : stores.OwnUuid) :
    ∀ request : Request D O, (serve m u request stores).2.OwnUuid
  | .receiveOperation call => by
    rw [serve_receiveOperation]
    exact hown.serveCall hu call
  | .save document => by
    intro uuid d hd
    by_cases h : uuid = Document.uuid document
    · subst h
      simp only [serve_save, Function.update_self, Option.some.injEq] at hd
      rw [hd]
    · simp only [serve_save, Function.update_of_ne h] at hd
      exact hown uuid d hd
  | .remove documentUUID => by
    intro uuid d hd
    by_cases h : uuid = documentUUID
    · subst h
      simp [serve_remove] at hd
    · simp only [serve_remove, Function.update_of_ne h] at hd
      exact hown uuid d hd

end OwnUuid

/-! ## What is stored for a document depends on its own requests -/

/-- What is stored for a document : the document, if present, and its operations. -/
def Stores.view (documentUUID : String) (stores : Stores D O) : Option D × Option (List O) :=
  (stores.documents documentUUID, stores.operations documentUUID)

section Interference

variable {m u} (hu : u.Lawful)
include hu

/-- A request for another document changes nothing. -/
theorem view_serve_of_ne {stores : Stores D O} (hown : stores.OwnUuid) {documentUUID : String} :
    ∀ request : Request D O, request.target ≠ documentUUID →
      (serve m u request stores).2.view documentUUID = stores.view documentUUID
  | .receiveOperation call, h => by
    rw [serve_receiveOperation, OtEditor.serveCall]
    rcases exec_receiveOperation_cases m u stores call.documentUUID call.revision
      call.operation with ⟨e, -, hexec⟩ | ⟨_, document, content, -, hdocument, -, hexec⟩
    · rw [hexec]
    · have hne : documentUUID ≠ Document.uuid document := by
        rw [hown _ _ hdocument]
        exact Ne.symm h
      rw [hexec, Stores.view, Stores.documents_record_of_ne hu hne,
        Stores.operations_record_of_ne hne, Stores.view]
  | .save document, h => by
    have hne : documentUUID ≠ Document.uuid document := Ne.symm h
    simp only [serve_save, Stores.view, Function.update_of_ne hne]
  | .remove uuid, h => by
    have hne : documentUUID ≠ uuid := Ne.symm h
    simp only [serve_remove, Stores.view, Function.update_of_ne hne]

/-- A call reads nothing but what is stored for its document. -/
theorem view_serveCall_congr {s t : Stores D O} (hs : s.OwnUuid) (call : Call O)
    (hst : s.view call.documentUUID = t.view call.documentUUID) :
    (serveCall m u call s).1 = (serveCall m u call t).1 ∧
      (serveCall m u call s).2.view call.documentUUID =
        (serveCall m u call t).2.view call.documentUUID := by
  obtain ⟨hdocuments, hoperations⟩ := Prod.mk.inj hst
  have hconcurrent : s.concurrent call.documentUUID call.revision =
      t.concurrent call.documentUUID call.revision := by
    rw [Stores.concurrent, hoperations, Stores.concurrent]
  have hrecorded : s.recorded call.documentUUID = t.recorded call.documentUUID := by
    rw [Stores.recorded, hoperations, Stores.recorded]
  rw [serveCall, serveCall, exec_receiveOperation, exec_receiveOperation, ← hconcurrent,
    ← hdocuments]
  cases s.concurrent call.documentUUID call.revision with
  | error e => exact ⟨rfl, hst⟩
  | ok concurrentOperations =>
    cases hdocument : s.documents call.documentUUID with
    | none => exact ⟨rfl, hst⟩
    | some document =>
      cases happly : Operation.applyTo (transformAgainstEach concurrentOperations call.operation m)
        (Document.content document) with
      | error e =>
        simp only [happly]
        exact ⟨trivial, hst⟩
      | ok content =>
        have hid : Document.uuid document = call.documentUUID := hs _ _ hdocument
        simp only [happly, Stores.view, Stores.record, hid, hu.uuid, hrecorded,
          Function.update_self]
        exact ⟨trivial, trivial⟩

/-- A request for a document is answered from what is stored for it. -/
theorem view_serve_congr {s t : Stores D O} (hs : s.OwnUuid) {documentUUID : String} :
    ∀ request : Request D O, request.target = documentUUID →
      s.view documentUUID = t.view documentUUID →
      (serve m u request s).1 = (serve m u request t).1 ∧
        (serve m u request s).2.view documentUUID = (serve m u request t).2.view documentUUID
  | .receiveOperation call, h, hst => by
    subst h
    obtain ⟨hanswer, hview⟩ := view_serveCall_congr hu hs call hst
    rw [serve_receiveOperation, serve_receiveOperation, hanswer]
    exact ⟨rfl, hview⟩
  | .save document, h, hst => by
    subst h
    rw [serve_save, serve_save]
    simp only [Stores.view, Request.target, Function.update_self]
    exact ⟨trivial, congrArg (some document, ·) (Prod.mk.inj hst).2⟩
  | .remove _, h, _ => by
    subst h
    simp [serve_remove, Stores.view, Request.target]

end Interference

/-- A request to the plain-text server. -/
abbrev PlainTextRequest := Request PlainTextDocument PlainTextSingleCharacterOperation

/-- Answer a request to the plain-text server. -/
abbrev servePlainTextRequest :
    PlainTextRequest → PlainTextStores →
      Except Throwable (Option PlainTextSingleCharacterOperation) × PlainTextStores :=
  serve plainTextOperationsManager plainTextDocumentUpdater

/-- Two runs of the plain-text server with the same requests for a document give the same
answers to them and store the same document and operations in the end. -/
theorem requests_do_not_interfere (start : PlainTextStores) (hown : start.OwnUuid)
    (documentUUID : String) (requests requests' : List PlainTextRequest)
    (hsame : (requests.filter fun request => request.target = documentUUID) =
      requests'.filter fun request => request.target = documentUUID) :
    let result := run servePlainTextRequest requests start
    let result' := run servePlainTextRequest requests' start
    (result.1.filter fun answer => answer.1.target = documentUUID) =
        (result'.1.filter fun answer => answer.1.target = documentUUID) ∧
      result.2.documents documentUUID = result'.2.documents documentUUID ∧
      result.2.operations documentUUID = result'.2.operations documentUUID := by
  intro result result'
  have hu := plainTextDocumentUpdater_lawful
  have hvisible : ∀ (request : PlainTextRequest) (s t : PlainTextStores),
      s.OwnUuid → t.OwnUuid → request.target = documentUUID →
      s.view documentUUID = t.view documentUUID →
      (servePlainTextRequest request s).1 = (servePlainTextRequest request t).1 ∧
        (servePlainTextRequest request s).2.view documentUUID =
          (servePlainTextRequest request t).2.view documentUUID :=
    fun request _ _ hs _ htarget hst => view_serve_congr hu hs request htarget hst
  obtain ⟨hanswers, hview⟩ := run_unwinding (fun request _ hs => hs.serve hu request)
    (fun request _ hs htarget => view_serve_of_ne hu hs request htarget) hvisible hown hown rfl
    hsame
  exact ⟨hanswers, Prod.mk.inj hview⟩

/-- A removal and a failing call on another document around an insertion. -/
theorem requests_do_not_interfere_initialStores :
    let insertion : PlainTextRequest := .receiveOperation ⟨"1", 0, .insert ⟨"a", 0, 120⟩⟩
    let other : PlainTextRequest := .receiveOperation ⟨"2", 7, .delete ⟨"b", 1, 120⟩⟩
    (run servePlainTextRequest [.remove "2", insertion, other] initialStores).2.operations "1" =
      (run servePlainTextRequest [insertion] initialStores).2.operations "1" :=
  (requests_do_not_interfere initialStores fresh_initialStores.ownUuid "1" _ _
    (by simp [Request.target])).2.2

end OtEditor
