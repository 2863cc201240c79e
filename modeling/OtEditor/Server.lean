import OtEditor.PlainText
import Mathlib.Logic.Function.Basic

/-!
# The server

Documents and recorded operations live in two maps (`Stores`). The repositories write one
of them each, the document storage service both, and `receiveOperation` transforms an
operation of a client against the operations it had not seen, applies it to the document
and records it. `exec_receiveOperation` is the whole call : nothing is written before the
last point at which it can throw.
-/

set_option linter.unusedSectionVars false

namespace OtEditor

/-- The maps of the two in-memory repositories. -/
structure Stores (D O : Type) where
  documents : String → Option D
  operations : String → Option (List O)

/-- `DocumentNotFoundException(id)`. -/
def documentNotFoundException (id : String) : Throwable :=
  .documentNotFoundException (utf16 ("No document found with id = " ++ id))

variable {T D O : Type} [Operation T O] [Document T D]

namespace DocumentRepository

def getDocumentByUUID (uuid : String) : Effect (Stores D O) D := do
  match (← get).documents uuid with
  | some document => return document
  | none => throw (documentNotFoundException uuid)

def save (document : D) : Effect (Stores D O) Unit :=
  modify fun stores => { stores with
    documents := Function.update stores.documents (Document.uuid document) (some document) }

def remove (documentUUID : String) : Effect (Stores D O) Unit :=
  modify fun stores => { stores with
    documents := Function.update stores.documents documentUUID none }

end DocumentRepository

namespace OperationsRepository

def operationsCount (documentUUID : String) : Effect (Stores D O) ℤ := do
  match (← get).operations documentUUID with
  | some list => return list.length
  | none => return 0

def addOperation (documentUUID : String) (operation : O) : Effect (Stores D O) Unit :=
  modify fun stores => { stores with
    operations := Function.update stores.operations documentUUID
      (some (match stores.operations documentUUID with
        | some list => list ++ [operation]
        | none => [operation])) }

/-- The operations with at least the given revision. Without a list there is no `drop`, so a
negative revision is not rejected. -/
def getOperationsWithRevisionGte (documentUUID : String) (revision : ℤ) :
    Effect (Stores D O) (List O) := do
  match (← get).operations documentUUID with
  | some list => Effect.ofResult (kotlinDrop list revision)
  | none => return []

def removeDocumentOperations (documentUUID : String) : Effect (Stores D O) Unit :=
  modify fun stores => { stores with
    operations := Function.update stores.operations documentUUID none }

end OperationsRepository

namespace DocumentStorageService

def getConcurrentOperations (documentUUID : String) (revision : ℤ) :
    Effect (Stores D O) (List O) :=
  OperationsRepository.getOperationsWithRevisionGte documentUUID revision

def getRevision (documentUUID : String) : Effect (Stores D O) ℤ :=
  OperationsRepository.operationsCount documentUUID

def updateDocumentWithOperation (documentUpdater : DocumentUpdater T D) (document : D)
    (modifiedContent : T) (operation : O) : Effect (Stores D O) Unit := do
  DocumentRepository.save (documentUpdater.updateContentAndRevision document modifiedContent
    (Document.revision document + 1))
  OperationsRepository.addOperation (Document.uuid document) operation

def getDocumentByUUID (uuid : String) : Effect (Stores D O) D :=
  DocumentRepository.getDocumentByUUID uuid

def save (document : D) : Effect (Stores D O) Unit :=
  DocumentRepository.save document

def remove (documentUUID : String) : Effect (Stores D O) Unit := do
  DocumentRepository.remove documentUUID
  OperationsRepository.removeDocumentOperations documentUUID

end DocumentStorageService

namespace ServerDocumentManager

open DocumentStorageService

def getRevision (documentUUID : String) : Effect (Stores D O) ℤ :=
  DocumentStorageService.getRevision documentUUID

def getDocument (documentUUID : String) : Effect (Stores D O) D :=
  getDocumentByUUID documentUUID

def receiveOperation (operationsManager : OperationsManager O)
    (documentUpdater : DocumentUpdater T D) (documentUUID : String) (revision : ℤ)
    (operation : O) : Effect (Stores D O) O := do
  let concurrentOperations ← getConcurrentOperations documentUUID revision
  let transformedOperation :=
    transformAgainstEach concurrentOperations operation operationsManager
  let document ← getDocument documentUUID
  let updatedContent ← Effect.ofResult
    (Operation.applyTo transformedOperation (Document.content document))
  updateDocumentWithOperation documentUpdater document updatedContent transformedOperation
  return transformedOperation

end ServerDocumentManager

namespace OtWsController

/-- `sendMessage`. The document is also read for the log, before and after. -/
def sendMessage (operationsManager : OperationsManager O)
    (documentUpdater : DocumentUpdater T D) (operation : O) (documentUUID : String)
    (revision : ℤ) : Effect (Stores D O) O := do
  let _ ← ServerDocumentManager.getDocument documentUUID
  let transformedOperation ← ServerDocumentManager.receiveOperation operationsManager
    documentUpdater documentUUID revision operation
  let _ ← ServerDocumentManager.getDocument documentUUID
  return transformedOperation

end OtWsController

namespace DocumentController

def getDocument (documentId : String) : Effect (Stores D O) D :=
  DocumentRepository.getDocumentByUUID documentId

def postDocument (document : D) : Effect (Stores D O) Unit :=
  DocumentRepository.save document

end DocumentController

/-- The stores `OtConfig` starts the server with. -/
def initialStores : Stores PlainTextDocument PlainTextSingleCharacterOperation where
  documents uuid :=
    if uuid = "1" then some ⟨"1", 0, [], "Document 1"⟩
    else if uuid = "2" then some ⟨"2", 0, utf16 "kek", "Document 2"⟩
    else none
  operations _ := none

/-! ## What a call does -/

namespace Stores

/-- The operations recorded for a document. -/
def recorded (stores : Stores D O) (documentUUID : String) : List O :=
  (stores.operations documentUUID).getD []

/-- The result of `getConcurrentOperations`. -/
def concurrent (stores : Stores D O) (documentUUID : String) (revision : ℤ) :
    Except Throwable (List O) :=
  match stores.operations documentUUID with
  | some list => kotlinDrop list revision
  | none => .ok []

/-- The stores after a document was updated with an operation. -/
def record (stores : Stores D O) (documentUpdater : DocumentUpdater T D) (document : D)
    (modifiedContent : T) (operation : O) : Stores D O where
  documents :=
    let updated := documentUpdater.updateContentAndRevision document modifiedContent
      (Document.revision document + 1)
    Function.update stores.documents (Document.uuid updated) (some updated)
  operations := Function.update stores.operations (Document.uuid document)
    (some (stores.recorded (Document.uuid document) ++ [operation]))

/-- Every document is stored under its own uuid. -/
def OwnUuid (stores : Stores D O) : Prop :=
  ∀ uuid document, stores.documents uuid = some document → Document.uuid document = uuid

end Stores

open ServerDocumentManager DocumentStorageService

omit [Operation T O] [Document T D] in
/-- Only a negative revision against a recorded list is rejected. -/
theorem Stores.concurrent_eq_error {stores : Stores D O} {documentUUID : String} {revision : ℤ}
    {e : Throwable} (h : stores.concurrent documentUUID revision = .error e) :
    ∃ list, stores.operations documentUUID = some list ∧ revision < 0 ∧
      kotlinDrop list revision = .error e := by
  unfold Stores.concurrent at h
  cases hentry : stores.operations documentUUID with
  | none => simp [hentry] at h
  | some list =>
    rw [hentry] at h
    refine ⟨list, rfl, ?_, h⟩
    by_contra hnonneg
    simp [kotlinDrop, hnonneg] at h

omit [Operation T O] [Document T D] in
/-- A revision that is a number drops as many operations. -/
theorem Stores.concurrent_natCast (stores : Stores D O) (uuid : String) (n : ℕ) :
    stores.concurrent uuid n = .ok ((stores.recorded uuid).drop n) := by
  unfold Stores.concurrent Stores.recorded
  cases stores.operations uuid with
  | none => simp
  | some list => exact kotlinDrop_natCast list n

theorem exec_getConcurrentOperations (stores : Stores D O) (documentUUID : String)
    (revision : ℤ) : (getConcurrentOperations documentUUID revision).exec stores =
      (stores.concurrent documentUUID revision, stores) := by
  show ((match stores.operations documentUUID with
    | some list => Effect.ofResult (kotlinDrop list revision)
    | none => pure [] : Effect (Stores D O) (List O))).exec stores = _
  unfold Stores.concurrent
  cases stores.operations documentUUID <;> rfl

theorem exec_getRevision (stores : Stores D O) (documentUUID : String) :
    (ServerDocumentManager.getRevision documentUUID).exec stores =
      (.ok ((stores.recorded documentUUID).length : ℤ), stores) := by
  show ((match stores.operations documentUUID with
    | some list => pure (list.length : ℤ)
    | none => pure 0 : Effect (Stores D O) ℤ)).exec stores = _
  unfold Stores.recorded
  cases stores.operations documentUUID <;> rfl

theorem exec_getDocument (stores : Stores D O) (documentUUID : String) :
    (getDocument documentUUID).exec stores =
      ((match stores.documents documentUUID with
        | some document => .ok document
        | none => .error (documentNotFoundException documentUUID)), stores) := by
  show ((match stores.documents documentUUID with
    | some document => pure document
    | none => throw (documentNotFoundException documentUUID) : Effect (Stores D O) D)).exec
      stores = _
  cases stores.documents documentUUID <;> rfl

theorem exec_updateDocumentWithOperation (stores : Stores D O)
    (documentUpdater : DocumentUpdater T D) (document : D) (modifiedContent : T)
    (operation : O) :
    (updateDocumentWithOperation documentUpdater document modifiedContent operation).exec
      stores = (.ok (), stores.record documentUpdater document modifiedContent operation) := by
  rw [updateDocumentWithOperation, DocumentRepository.save,
    Effect.exec_bind_ok (Effect.exec_modify _ _), OperationsRepository.addOperation,
    Effect.exec_modify]
  unfold Stores.record Stores.recorded
  cases stores.operations (Document.uuid document) <;> rfl

section Receive

variable (m : OperationsManager O) (u : DocumentUpdater T D)

/-- The whole call, as a function of the operations and the document it reads. -/
theorem exec_receiveOperation (stores : Stores D O) (documentUUID : String) (revision : ℤ)
    (operation : O) :
    (receiveOperation m u documentUUID revision operation).exec stores =
      match stores.concurrent documentUUID revision with
      | .error e => (.error e, stores)
      | .ok concurrentOperations =>
        match stores.documents documentUUID with
        | none => (.error (documentNotFoundException documentUUID), stores)
        | some document =>
          let transformedOperation := transformAgainstEach concurrentOperations operation m
          match Operation.applyTo transformedOperation (Document.content document) with
          | .error e => (.error e, stores)
          | .ok content =>
            (.ok transformedOperation, stores.record u document content transformedOperation) := by
  have h₁ := exec_getConcurrentOperations stores documentUUID revision
  have h₂ := exec_getDocument stores documentUUID
  cases hconcurrent : stores.concurrent documentUUID revision with
  | error e =>
    rw [hconcurrent] at h₁
    rw [receiveOperation, Effect.exec_bind_error h₁]
  | ok concurrentOperations =>
    rw [hconcurrent] at h₁
    rw [receiveOperation, Effect.exec_bind_ok h₁]
    cases hdocument : stores.documents documentUUID with
    | none =>
      rw [hdocument] at h₂
      rw [Effect.exec_bind_error h₂]
    | some document =>
      rw [hdocument] at h₂
      rw [Effect.exec_bind_ok h₂]
      cases happly : Operation.applyTo (transformAgainstEach concurrentOperations operation m)
        (Document.content document) with
      | error e => simp only [Effect.exec_ofResult_error_bind, happly]
      | ok content =>
        rw [Effect.exec_ofResult_ok_bind,
          Effect.exec_bind_ok (exec_updateDocumentWithOperation _ _ _ _ _)]
        simp only [happly, Effect.exec_pure]

/-- Why a call throws : a negative revision against recorded operations, an unknown document,
or a transformed operation that fails to apply. -/
inductive Rejected (stores : Stores D O) (documentUUID : String) (revision : ℤ) (operation : O) :
    Throwable → Prop where
  | revision {list : List O} {e : Throwable} (entry : stores.operations documentUUID = some list)
      (negative : revision < 0) (message : kotlinDrop list revision = .error e) :
      Rejected stores documentUUID revision operation e
  | document (unknown : stores.documents documentUUID = none) :
      Rejected stores documentUUID revision operation (documentNotFoundException documentUUID)
  | application {concurrentOperations : List O} {document : D} {e : Throwable}
      (concurrent : stores.concurrent documentUUID revision = .ok concurrentOperations)
      (known : stores.documents documentUUID = some document)
      (fails : Operation.applyTo (transformAgainstEach concurrentOperations operation m)
        (Document.content document) = .error e) :
      Rejected stores documentUUID revision operation e

/-- A call is rejected and leaves the stores as they were, or finds its document, applies the
transformed operation and records it. -/
theorem exec_receiveOperation_cases (stores : Stores D O) (documentUUID : String)
    (revision : ℤ) (operation : O) :
    (∃ e, Rejected m stores documentUUID revision operation e ∧
      (receiveOperation m u documentUUID revision operation).exec stores = (.error e, stores)) ∨
    ∃ concurrentOperations document content,
      stores.concurrent documentUUID revision = .ok concurrentOperations ∧
      stores.documents documentUUID = some document ∧
      Operation.applyTo (transformAgainstEach concurrentOperations operation m)
        (Document.content document) = .ok content ∧
      (receiveOperation m u documentUUID revision operation).exec stores =
        (.ok (transformAgainstEach concurrentOperations operation m),
          stores.record u document content
            (transformAgainstEach concurrentOperations operation m)) := by
  rw [exec_receiveOperation]
  cases hconcurrent : stores.concurrent documentUUID revision with
  | error e =>
    obtain ⟨list, hentry, hnegative, hdrop⟩ := Stores.concurrent_eq_error hconcurrent
    exact Or.inl ⟨e, .revision hentry hnegative hdrop, rfl⟩
  | ok concurrentOperations =>
    cases hdocument : stores.documents documentUUID with
    | none => exact Or.inl ⟨_, .document hdocument, rfl⟩
    | some document =>
      cases happly : Operation.applyTo (transformAgainstEach concurrentOperations operation m)
        (Document.content document) with
      | error e =>
        exact Or.inl ⟨e, .application hconcurrent hdocument happly, by simp only [happly]⟩
      | ok content => exact Or.inr ⟨_, _, _, rfl, rfl, happly, by simp only [happly]⟩

end Receive

/-! ## What a recorded operation changes -/

namespace Stores

variable {u : DocumentUpdater T D} (hu : u.Lawful) {stores : Stores D O} {document : D}
  {content : T} {operation : O}

@[simp] theorem recorded_record_self :
    (stores.record u document content operation).recorded (Document.uuid document) =
      stores.recorded (Document.uuid document) ++ [operation] := by
  simp [record, recorded]

theorem operations_record_of_ne {uuid : String} (h : uuid ≠ Document.uuid document) :
    (stores.record u document content operation).operations uuid = stores.operations uuid :=
  Function.update_of_ne h _ _

theorem recorded_record_of_ne {uuid : String} (h : uuid ≠ Document.uuid document) :
    (stores.record u document content operation).recorded uuid = stores.recorded uuid := by
  rw [recorded, recorded, operations_record_of_ne h]

include hu

theorem documents_record_self :
    (stores.record u document content operation).documents (Document.uuid document) =
      some (u.updateContentAndRevision document content (Document.revision document + 1)) := by
  simp [record, hu.uuid]

theorem documents_record_of_ne {uuid : String} (h : uuid ≠ Document.uuid document) :
    (stores.record u document content operation).documents uuid = stores.documents uuid := by
  simp [record, hu.uuid, h]

theorem OwnUuid.record (hown : stores.OwnUuid) :
    (stores.record u document content operation).OwnUuid := by
  intro uuid d hd
  by_cases h : uuid = Document.uuid document
  · subst h
    rw [documents_record_self hu] at hd
    obtain rfl := Option.some.inj hd
    exact hu.uuid _ _ _
  · rw [documents_record_of_ne hu h] at hd
    exact hown uuid d hd

end Stores

/-- On a known document `sendMessage` is `receiveOperation` : the readings for the log find
the document. -/
theorem exec_sendMessage (m : OperationsManager O) {u : DocumentUpdater T D} (hu : u.Lawful)
    {stores : Stores D O} {documentUUID : String} {document : D}
    (hdocument : stores.documents documentUUID = some document)
    (hid : Document.uuid document = documentUUID) (operation : O) (revision : ℤ) :
    (OtWsController.sendMessage m u operation documentUUID revision).exec stores =
      (receiveOperation m u documentUUID revision operation).exec stores := by
  have hbefore := exec_getDocument stores documentUUID
  rw [hdocument] at hbefore
  rw [OtWsController.sendMessage, Effect.exec_bind_ok hbefore]
  rcases exec_receiveOperation_cases m u stores documentUUID revision operation with
    ⟨e, -, hexec⟩ | ⟨concurrentOperations, document', content, -, hdocument', -, hexec⟩
  · rw [Effect.exec_bind_error hexec, hexec]
  · obtain rfl : document = document' := Option.some.inj (hdocument.symm.trans hdocument')
    subst hid
    have hafter := exec_getDocument (stores.record u document content
      (transformAgainstEach concurrentOperations operation m)) (Document.uuid document)
    rw [Stores.documents_record_self hu] at hafter
    rw [Effect.exec_bind_ok hexec, Effect.exec_bind_ok hafter, hexec, Effect.exec_pure]

/-- On an unknown document `sendMessage` throws and leaves the stores as they were. -/
theorem exec_sendMessage_unknown (m : OperationsManager O) (u : DocumentUpdater T D)
    {stores : Stores D O} {documentUUID : String}
    (hdocument : stores.documents documentUUID = none) (operation : O) (revision : ℤ) :
    (OtWsController.sendMessage m u operation documentUUID revision).exec stores =
      (.error (documentNotFoundException documentUUID), stores) := by
  have hbefore := exec_getDocument stores documentUUID
  rw [hdocument] at hbefore
  rw [OtWsController.sendMessage, Effect.exec_bind_error hbefore]

end OtEditor
