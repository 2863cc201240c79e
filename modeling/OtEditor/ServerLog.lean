import OtEditor.Server
import OtEditor.Lib.Responder

/-!
# The server log replays to the document

Calls of `receiveOperation` in any order, on known and unknown documents, with any revision
and any operation. After each of them the recorded operations of a document lead from its
initial content to its current one and are as many as its revision (`LogReplays`,
`logReplays_serveCall`), and a call that throws has changed nothing (`receiveOperation_log`).
-/

open Responder

namespace OtEditor

open ServerDocumentManager

/-- A call of `receiveOperation`. -/
structure Call (O : Type) where
  documentUUID : String
  revision : ℤ
  operation : O

/-- The stores of the plain-text server. -/
abbrev PlainTextStores := Stores PlainTextDocument PlainTextSingleCharacterOperation

section Generic

variable {T D O : Type} [Operation T O] [Document T D] (m : OperationsManager O)
  (u : DocumentUpdater T D)

/-- Answer a call. -/
def serveCall (call : Call O) (stores : Stores D O) : Except Throwable O × Stores D O :=
  (receiveOperation m u call.documentUUID call.revision call.operation).exec stores

/-- The log of every document of `start` leads from its content there to its content now,
and its revision counts the log. Other documents have neither content nor log. -/
structure LogReplays (start stores : Stores D O) : Prop where
  ownUuid : stores.OwnUuid
  known : ∀ uuid document, start.documents uuid = some document →
    ∃ document', stores.documents uuid = some document' ∧
      appliedAll (stores.recorded uuid) (Document.content document) =
        some (Document.content document') ∧
      Document.revision document' = (stores.recorded uuid).length
  unknown : ∀ uuid, start.documents uuid = none →
    stores.documents uuid = none ∧ stores.recorded uuid = []
  /-- An empty list of operations is never left behind. -/
  entry : ∀ uuid, stores.operations uuid = some [] → start.operations uuid = some []

/-- Documents stored under their own uuid, with revision zero and no recorded operations. -/
structure Fresh (stores : Stores D O) : Prop where
  ownUuid : stores.OwnUuid
  revision : ∀ uuid document, stores.documents uuid = some document →
    Document.revision document = 0
  recorded : ∀ uuid, stores.recorded uuid = []

/-- On fresh stores the empty log replays. -/
theorem Fresh.logReplays {start : Stores D O} (h : Fresh start) : LogReplays start start where
  ownUuid := h.ownUuid
  known uuid document hdocument := by
    refine ⟨document, hdocument, ?_, ?_⟩
    · rw [h.recorded]
      rfl
    · rw [h.recorded, h.revision uuid document hdocument]
      rfl
  unknown uuid hnone := ⟨hnone, h.recorded uuid⟩
  entry _ hempty := hempty

variable {m u} (hu : u.Lawful)
include hu

/-- A recorded operation extends the log of its document by one entry. -/
theorem LogReplays.record {start stores : Stores D O} (h : LogReplays start stores)
    {uuid : String} {document : D} {content : T} {operation : O}
    (hdocument : stores.documents uuid = some document)
    (happly : Operation.applyTo operation (Document.content document) = .ok content) :
    LogReplays start (stores.record u document content operation) := by
  obtain rfl : Document.uuid document = uuid := h.ownUuid _ _ hdocument
  refine ⟨h.ownUuid.record hu, fun uuid document₀ hstart => ?_, fun uuid hstart => ?_,
    fun uuid hempty => ?_⟩
  · obtain ⟨document', hnow, hreplay, hcount⟩ := h.known uuid document₀ hstart
    by_cases hid : uuid = Document.uuid document
    · subst hid
      obtain rfl := Option.some.inj (hnow.symm.trans hdocument)
      refine ⟨_, Stores.documents_record_self hu, ?_, ?_⟩
      · rw [Stores.recorded_record_self, hu.content, appliedAll, Transformation.actAll_append,
          ← appliedAll, hreplay, Option.bind_some, Transformation.actAll_cons,
          applied_eq_some.2 happly]
        rfl
      · rw [Stores.recorded_record_self, hu.revision, hcount, List.length_append]
        rfl
    · rw [Stores.documents_record_of_ne hu hid, Stores.recorded_record_of_ne hid]
      exact ⟨document', hnow, hreplay, hcount⟩
  · obtain ⟨hnone, hempty⟩ := h.unknown uuid hstart
    have hid : uuid ≠ Document.uuid document := by
      rintro rfl
      exact Option.some_ne_none _ (hdocument.symm.trans hnone)
    rw [Stores.documents_record_of_ne hu hid, Stores.recorded_record_of_ne hid]
    exact ⟨hnone, hempty⟩
  · by_cases hid : uuid = Document.uuid document
    · subst hid
      simp [Stores.record] at hempty
    · rw [Stores.operations_record_of_ne hid] at hempty
      exact h.entry uuid hempty

/-- One call keeps the log. -/
theorem logReplays_serveCall {start : Stores D O} (call : Call O) (stores : Stores D O)
    (h : LogReplays start stores) : LogReplays start (serveCall m u call stores).2 := by
  unfold serveCall
  rcases exec_receiveOperation_cases m u stores call.documentUUID call.revision
    call.operation with ⟨e, -, hexec⟩ | ⟨_, document, content, -, hdocument, happly, hexec⟩
  · rw [hexec]
    exact h
  · rw [hexec]
    exact h.record hu hdocument happly

/-- What a call answers : the entry it added to the log of its document, or an exception
and nothing. -/
theorem serveCall_answer {stores : Stores D O} (hown : stores.OwnUuid) (call : Call O) :
    (∃ operation, (serveCall m u call stores).1 = .ok operation ∧
      (serveCall m u call stores).2.recorded call.documentUUID =
        stores.recorded call.documentUUID ++ [operation] ∧
      ∀ uuid, uuid ≠ call.documentUUID →
        (serveCall m u call stores).2.recorded uuid = stores.recorded uuid ∧
        (serveCall m u call stores).2.documents uuid = stores.documents uuid) ∨
    ∃ e, Rejected m stores call.documentUUID call.revision call.operation e ∧
      serveCall m u call stores = (.error e, stores) := by
  unfold serveCall
  rcases exec_receiveOperation_cases m u stores call.documentUUID call.revision
    call.operation with hrejected | ⟨_, document, content, -, hdocument, -, hexec⟩
  · exact Or.inr hrejected
  · have hid : Document.uuid document = call.documentUUID := hown _ _ hdocument
    rw [hexec, ← hid]
    exact Or.inl ⟨_, rfl, Stores.recorded_record_self, fun uuid h =>
      ⟨Stores.recorded_record_of_ne h, Stores.documents_record_of_ne hu h⟩⟩

end Generic

/-! ## The plain-text server -/

/-- Why a call of `receiveOperation` throws on the plain-text server. -/
inductive Thrown (stores : PlainTextStores) (call : Call PlainTextSingleCharacterOperation) :
    Prop where
  | unknownDocument (h : stores.documents call.documentUUID = none)
  | negativeRevision (h : call.revision < 0) (entry : stores.operations call.documentUUID ≠ none)
  | symbolMismatch (concurrentOperations : List PlainTextSingleCharacterOperation)
      (operation : DeleteOperation) (document : PlainTextDocument)
      (concurrent : stores.concurrent call.documentUUID call.revision = .ok concurrentOperations)
      (delete : transformAgainstEach concurrentOperations call.operation
        plainTextOperationsManager = .delete operation)
      (known : stores.documents call.documentUUID = some document)
      (mismatch : operation.SymbolMismatch document.content)

theorem Thrown.of_rejected {stores : PlainTextStores}
    {call : Call PlainTextSingleCharacterOperation} {e : Throwable}
    (h : Rejected plainTextOperationsManager stores call.documentUUID call.revision
      call.operation e) : Thrown stores call := by
  cases h with
  | revision entry negative _ => exact .negativeRevision negative (by simp [entry])
  | document unknown => exact .unknownDocument unknown
  | @application concurrentOperations document _ concurrent known fails =>
    cases hop : transformAgainstEach concurrentOperations call.operation
      plainTextOperationsManager with
    | insert operation =>
      rw [hop] at fails
      change operation.applyTo document.content = _ at fails
      unfold InsertOperation.applyTo at fails
      split_ifs at fails
    | delete operation =>
      rw [hop] at fails
      exact .symbolMismatch _ operation document concurrent hop known
        (DeleteOperation.applyTo_eq_error.1 ⟨_, fails⟩)
    | identity operation =>
      rw [hop] at fails
      cases fails

theorem Stores.recorded_record_plainText (stores : PlainTextStores)
    (document : PlainTextDocument) (content : Text)
    (operation : PlainTextSingleCharacterOperation) :
    (stores.record plainTextDocumentUpdater document content operation).recorded document.uuid =
      stores.recorded document.uuid ++ [operation] :=
  Stores.recorded_record_self

theorem Stores.documents_record_plainText (stores : PlainTextStores)
    (document : PlainTextDocument) (content : Text)
    (operation : PlainTextSingleCharacterOperation) :
    (stores.record plainTextDocumentUpdater document content operation).documents document.uuid =
      some { document with content, revision := document.revision + 1 } :=
  Stores.documents_record_self plainTextDocumentUpdater_lawful

/-- Answer a call on the plain-text server. -/
abbrev servePlainText := serveCall plainTextOperationsManager plainTextDocumentUpdater

/-- After every call of a run from fresh stores the log of every document replays to its
content and its revision counts it. The call returned the entry it added, or it threw and
changed nothing. -/
theorem receiveOperation_log (start : PlainTextStores) (hfresh : Fresh start)
    (calls : List (Call PlainTextSingleCharacterOperation))
    (call : Call PlainTextSingleCharacterOperation) :
    let before := (run servePlainText calls start).2
    let result := (servePlainText call before).1
    let after := (servePlainText call before).2
    LogReplays start after ∧
    (∀ uuid, (getRevision uuid).exec after = (.ok ((after.recorded uuid).length : ℤ), after)) ∧
    (∀ operation, result = .ok operation →
      after.recorded call.documentUUID = before.recorded call.documentUUID ++ [operation] ∧
      ∀ uuid, uuid ≠ call.documentUUID → after.recorded uuid = before.recorded uuid ∧
        after.documents uuid = before.documents uuid) ∧
    (∀ e, result = .error e → after = before ∧ Thrown before call) := by
  intro before result after
  have hu := plainTextDocumentUpdater_lawful
  have hbefore : LogReplays start before :=
    invariant_run (fun call stores => logReplays_serveCall hu call stores) calls hfresh.logReplays
  refine ⟨logReplays_serveCall hu call before hbefore, fun uuid => exec_getRevision after uuid,
    fun operation hresult => ?_, fun e hresult => ?_⟩
  · rcases serveCall_answer hu hbefore.ownUuid call with ⟨op, hok, hlog⟩ | ⟨e, -, herror⟩
    · obtain rfl : op = operation := Except.ok.inj (hok.symm.trans hresult)
      exact hlog
    · cases (congrArg Prod.fst herror).symm.trans hresult
  · rcases serveCall_answer hu hbefore.ownUuid call with ⟨op, hok, -⟩ | ⟨e, hrejected, herror⟩
    · cases hok.symm.trans hresult
    · exact ⟨congrArg Prod.snd herror, .of_rejected hrejected⟩

theorem fresh_initialStores : Fresh initialStores where
  ownUuid uuid document h := by
    simp only [initialStores] at h
    split_ifs at h with h1 h2 <;> cases h <;> simp_all [Document.uuid]
  revision uuid document h := by
    simp only [initialStores] at h
    split_ifs at h <;> cases h <;> rfl
  recorded _ := rfl

/-- On the stores the server starts with, after a stale insertion and a failing deletion. -/
theorem receiveOperation_log_initialStores :
    let calls : List (Call PlainTextSingleCharacterOperation) :=
      [⟨"2", 0, .insert ⟨"a", 0, 120⟩⟩, ⟨"2", 0, .insert ⟨"b", 3, 121⟩⟩]
    let after := (servePlainText ⟨"2", 2, .delete ⟨"c", 0, 107⟩⟩
      (run servePlainText calls initialStores).2).2
    LogReplays initialStores after ∧ after.recorded "2" =
      [.insert ⟨"a", 0, 120⟩, .insert ⟨"b", 4, 121⟩] := by
  refine ⟨(receiveOperation_log initialStores fresh_initialStores _ _).1, ?_⟩
  decide

end OtEditor
