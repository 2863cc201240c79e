import OtEditor.Page

/-!
# A remote operation is handled entirely or not at all

`onMessageReceived` lets the machine process an operation and then carries out the command.
The machine has moved on by the time `applyOperationLocally` can throw, so a client that finds
another symbol where it should delete has counted an operation that it did not apply; the
server applies an operation before it records it. This is the only way to handle a message by
halves (`handledEntirely_or_notHandled_iff`) : the client handles it entirely or leaves
everything as it was, unless what it would apply is a deletion of a symbol that does not stand
there (`Misfits`).
-/

namespace OtEditor

variable {page : Page} {operation : PlainTextSingleCharacterOperation}

/-- The command was carried out on the way from one page to another. -/
def CarriedOut (page page' : Page) :
    OperationApplicationCommand PlainTextSingleCharacterOperation → Prop
  | .applyOperationLocally operation =>
    operation.applyTo page.textArea.value = .ok page'.textArea.value ∧
      page'.textArea.selectionStart =
        page.textArea.selectionStart.map (transformCursorPosition · operation) ∧
      page'.textArea.selectionEnd =
        page.textArea.selectionEnd.map (transformCursorPosition · operation) ∧
      page'.sent = page.sent
  | .sendOperationToServer operation =>
    page'.sent = page.sent ++ [⟨page.curDocumentUUID, page'.clientFsm.revision, operation⟩] ∧
      page'.textArea = page.textArea
  | .noCommand => page'.sent = page.sent ∧ page'.textArea = page.textArea

/-- The handler completes, with the revision counted and the returned command carried out. -/
def HandledEntirely (page : Page) (operation : PlainTextSingleCharacterOperation) : Prop :=
  ∃ command page', (onMessageReceived operation).exec page = (.ok (), page') ∧
    (ClientDocumentManager.processRemoteOperation plainTextOperationsManager operation).exec
      page.clientFsm = (.ok command, page'.clientFsm) ∧
    page'.clientFsm.revision = page.clientFsm.revision + 1 ∧ CarriedOut page page' command

/-- The handler throws, and the machine and the text are as before the message. -/
def NotHandled (page : Page) (operation : PlainTextSingleCharacterOperation) : Prop :=
  ∃ e page', (onMessageReceived operation).exec page = (.error e, page') ∧
    page'.clientFsm = page.clientFsm ∧ page'.textArea.value = page.textArea.value

/-- The operation would delete a symbol that does not stand there. -/
def DeletesOther (content : Text) (operation : PlainTextSingleCharacterOperation) : Prop :=
  ∃ deletion, operation = .delete deletion ∧ deletion.SymbolMismatch content

/-- The operation comes from another client, and carried past the pending operations it would
delete a symbol that does not stand there. -/
def Misfits (page : Page) (operation : PlainTextSingleCharacterOperation) : Prop :=
  match page.clientFsm.state with
  | .synchronizedState => DeletesOther page.textArea.value operation
  | .awaitConfirmationState [] => False
  | .awaitConfirmationState (pendingOperation :: pendingOperations) =>
    operation.uuid ≠ pendingOperation.uuid ∧ DeletesOther page.textArea.value
      (transformAgainstEach (pendingOperation :: pendingOperations) operation
        plainTextOperationsManager)

theorem deletesOther_iff {content : Text} :
    DeletesOther content operation ↔ ∃ e, operation.applyTo content = .error e := by
  unfold DeletesOther
  rcases operation with a | a | a
  · refine iff_of_false (by simp) ?_
    rintro ⟨e, he⟩
    change a.applyTo content = _ at he
    unfold InsertOperation.applyTo at he
    split_ifs at he
  · rw [show (∃ e, PlainTextSingleCharacterOperation.applyTo (.delete a) content = .error e) ↔
      a.SymbolMismatch content from DeleteOperation.applyTo_eq_error]
    simp
  · exact iff_of_false (by simp) (by rintro ⟨e, ⟨⟩⟩)

section Foreign

variable {r : ℤ} {ps : List PlainTextSingleCharacterOperation}
  (hfsm : page.clientFsm = ⟨r, .ofPending ps⟩)
  (huuid : ∀ p qs, ps = p :: qs → operation.uuid ≠ p.uuid)
include hfsm huuid

/-- An operation of another client is handled entirely or not at all exactly if carried past
the pending operations it can be applied. -/
theorem handled_iff_of_foreign :
    HandledEntirely page operation ∨ NotHandled page operation ↔
      ¬DeletesOther page.textArea.value
        (transformAgainstEach ps operation plainTextOperationsManager) := by
  have hprocess := exec_processRemoteOperation_foreign plainTextOperationsManager r huuid
  have hreceived := exec_onMessageReceived_other hfsm huuid
  rw [deletesOther_iff]
  rcases happly : (transformAgainstEach ps operation plainTextOperationsManager).applyTo
      page.textArea.value with e | content
  · have hthrows := hreceived.trans (exec_applyOperationLocally_error happly)
    refine iff_of_false ?_ (by simp)
    rintro (⟨command, page', hok, -⟩ | ⟨e', page', herror, hsame, -⟩)
    · simp [hthrows] at hok
    · -- the machine has counted the operation
      obtain ⟨-, rfl⟩ := Prod.mk.inj (hthrows.symm.trans herror)
      have hrevision := congrArg ClientFSM.revision (hsame.trans hfsm)
      exact absurd hrevision (show r + 1 ≠ r by omega)
  · have hcompletes := hreceived.trans (exec_applyOperationLocally_ok _ content happly)
    refine iff_of_true (.inl ⟨_, _, hcompletes, hfsm ▸ hprocess, ?_, ?_⟩) (by simp)
    · rw [hfsm]
    · exact ⟨happly, rfl, rfl, rfl⟩

end Foreign

/-- The confirmation of the first pending operation is handled entirely. -/
theorem handledEntirely_of_own {r : ℤ} {p : PlainTextSingleCharacterOperation}
    {ps : List PlainTextSingleCharacterOperation}
    (hfsm : page.clientFsm = ⟨r, .ofPending (p :: ps)⟩) (huuid : operation.uuid = p.uuid) :
    HandledEntirely page operation := by
  have hprocess := exec_processRemoteOperation_own plainTextOperationsManager ps r huuid
  refine ⟨_, _, exec_onMessageReceived_own hfsm huuid, hfsm ▸ hprocess, by rw [hfsm], ?_⟩
  rcases ps with _ | ⟨q, qs⟩
  · exact ⟨List.append_nil _, rfl⟩
  · exact ⟨rfl, rfl⟩

/-- Without a pending operation to compare with, the machine throws before it moves on. -/
theorem notHandled_of_nil {r : ℤ} (hfsm : page.clientFsm = ⟨r, .awaitConfirmationState []⟩) :
    NotHandled page operation := by
  obtain ⟨e, hprocess⟩ : ∃ e, (ClientDocumentManager.processRemoteOperation
      plainTextOperationsManager operation).exec page.clientFsm = (.error e, page.clientFsm) := by
    rw [hfsm]
    exact ⟨_, rfl⟩
  have honPage : (onClientFsm (ClientDocumentManager.processRemoteOperation
      plainTextOperationsManager operation)).exec page = (.error e, page) := by
    rw [onClientFsm, Effect.exec_onPart, hprocess]
  exact ⟨_, page, Effect.exec_bind_error honPage, rfl, rfl⟩

/-- A client handles a remote operation entirely or not at all exactly if it does not
misfit. -/
theorem handledEntirely_or_notHandled_iff (page : Page)
    (operation : PlainTextSingleCharacterOperation) :
    HandledEntirely page operation ∨ NotHandled page operation ↔ ¬Misfits page operation := by
  unfold Misfits
  rcases hfsm : page.clientFsm with ⟨r, _ | (_ | ⟨p, ps⟩)⟩
  · have hnone : page.clientFsm = ⟨r, .ofPending []⟩ := hfsm
    exact handled_iff_of_foreign hnone (by simp)
  · exact iff_of_true (.inr (notHandled_of_nil hfsm)) not_false
  · by_cases huuid : operation.uuid = p.uuid
    · exact iff_of_true (.inl (handledEntirely_of_own hfsm huuid)) (by simp [huuid])
    · have hforeign : ∀ q qs, p :: ps = q :: qs → operation.uuid ≠ q.uuid := by
        rintro q qs ⟨⟩
        exact huuid
      rw [handled_iff_of_foreign hfsm hforeign]
      simp [huuid]

/-- A synchronized client with "b" receives the deletion of an "a" at the start : it throws,
and has counted the deletion. -/
theorem mismatch_counted :
    let page : Page := ⟨⟨0, .synchronizedState⟩, ⟨utf16 "b", none, none⟩, "Document 1", "1", []⟩
    (onMessageReceived (.delete ⟨"o", 0, 97⟩)).exec page =
        (.error (DeleteOperation.failure ⟨"o", 0, 97⟩ 98),
          { page with clientFsm := ⟨1, .synchronizedState⟩ }) ∧
      ¬HandledEntirely page (.delete ⟨"o", 0, 97⟩) ∧ ¬NotHandled page (.delete ⟨"o", 0, 97⟩) := by
  intro page
  have hthrows : (onMessageReceived (.delete ⟨"o", 0, 97⟩)).exec page =
      (.error (DeleteOperation.failure ⟨"o", 0, 97⟩ 98),
        { page with clientFsm := ⟨1, .synchronizedState⟩ }) := rfl
  refine ⟨hthrows, ?_, ?_⟩
  · rintro ⟨command, page', hok, -⟩
    simp [hthrows] at hok
  · rintro ⟨e, page', herror, hsame, -⟩
    obtain ⟨-, rfl⟩ := Prod.mk.inj (hthrows.symm.trans herror)
    exact absurd (congrArg ClientFSM.revision hsame) (by decide)

end OtEditor
