import OtEditor.Operation

/-!
# The client state machine

A client is synchronized, or awaits the confirmation of the first of its pending
operations. `ClientDocumentManager` dispatches local and remote operations to the current
state, which updates the machine and returns a command for the page to carry out.
-/

namespace OtEditor

/-- What the page has to do after an operation was processed. -/
inductive OperationApplicationCommand (O : Type) where
  | applyOperationLocally (operation : O)
  | sendOperationToServer (operation : O)
  | noCommand
  deriving DecidableEq

/-- `SynchronizedState` and `AwaitConfirmationState`. -/
inductive State (O : Type) where
  | synchronizedState
  | awaitConfirmationState (pendingOperations : List O)
  deriving DecidableEq

/-- `ClientFSM`. -/
structure ClientFSM (O : Type) where
  revision : ℤ
  state : State O
  deriving DecidableEq

variable {T O : Type} [Operation T O]

/-- `++clientFSM.revision`. -/
def incrementRevision : Effect (ClientFSM O) Unit :=
  modify fun clientFSM => { clientFSM with revision := clientFSM.revision + 1 }

/-- `clientFSM.state = state`. -/
def setState (state : State O) : Effect (ClientFSM O) Unit :=
  modify fun clientFSM => { clientFSM with state }

namespace SynchronizedState

def processLocalOperation (operation : O) :
    Effect (ClientFSM O) (OperationApplicationCommand O) := do
  setState (.awaitConfirmationState [operation])
  return .sendOperationToServer operation

def processRemoteOperation (operation : O) :
    Effect (ClientFSM O) (OperationApplicationCommand O) := do
  setState .synchronizedState
  incrementRevision
  return .applyOperationLocally operation

end SynchronizedState

namespace AwaitConfirmationState

def addOperation (pendingOperations : List O) (operation : O) : State O :=
  .awaitConfirmationState (pendingOperations ++ [operation])

def processLocalOperation (pendingOperations : List O) (operation : O) :
    Effect (ClientFSM O) (OperationApplicationCommand O) := do
  setState (addOperation pendingOperations operation)
  return .noCommand

/-- `pendingOperations[0]`. -/
def firstPending : List O → Except Throwable O
  | [] => .error (.indexOutOfBoundsException
      (utf16 "Empty list doesn't contain element at index 0."))
  | pendingOperation :: _ => .ok pendingOperation

/-- The confirmation of the first pending operation. -/
def confirmFirst (pendingOperations : List O) :
    Effect (ClientFSM O) (OperationApplicationCommand O) :=
  match pendingOperations.drop 1 with
  | [] => do
    setState .synchronizedState
    return .noCommand
  | restOperation :: restOperations => do
    setState (.awaitConfirmationState (restOperation :: restOperations))
    return .sendOperationToServer restOperation

/-- An operation of another client. Every pending operation is transformed against the
operation as it was received. -/
def processOther (operationsManager : OperationsManager O) (pendingOperations : List O)
    (operation : O) : Effect (ClientFSM O) (OperationApplicationCommand O) := do
  setState (.awaitConfirmationState (pendingOperations.map fun pendingOperation =>
    operationsManager.transformAgainst pendingOperation operation))
  return .applyOperationLocally
    (transformAgainstEach pendingOperations operation operationsManager)

def processRemoteOperation (operationsManager : OperationsManager O)
    (pendingOperations : List O) (operation : O) :
    Effect (ClientFSM O) (OperationApplicationCommand O) := do
  let pendingOperation ← Effect.ofResult (firstPending pendingOperations)
  let command ← (if Operation.uuid operation = Operation.uuid pendingOperation then
      confirmFirst pendingOperations
    else processOther operationsManager pendingOperations operation)
  incrementRevision
  return command

end AwaitConfirmationState

namespace ClientDocumentManager

def processLocalOperation (operation : O) :
    Effect (ClientFSM O) (OperationApplicationCommand O) := do
  match (← get).state with
  | .synchronizedState => SynchronizedState.processLocalOperation operation
  | .awaitConfirmationState pendingOperations =>
    AwaitConfirmationState.processLocalOperation pendingOperations operation

def processRemoteOperation (operationsManager : OperationsManager O) (operation : O) :
    Effect (ClientFSM O) (OperationApplicationCommand O) := do
  match (← get).state with
  | .synchronizedState => SynchronizedState.processRemoteOperation operation
  | .awaitConfirmationState pendingOperations =>
    AwaitConfirmationState.processRemoteOperation operationsManager pendingOperations operation

end ClientDocumentManager

/-! ## What the machine does -/

/-- The pending operations of a state. -/
def State.pending : State O → List O
  | .synchronizedState => []
  | .awaitConfirmationState pendingOperations => pendingOperations

/-- The state with the given operations pending. -/
def State.ofPending : List O → State O
  | [] => .synchronizedState
  | pendingOperation :: pendingOperations =>
    .awaitConfirmationState (pendingOperation :: pendingOperations)

omit [Operation T O] in
@[simp] theorem State.pending_ofPending (pendingOperations : List O) :
    (State.ofPending pendingOperations).pending = pendingOperations := by
  cases pendingOperations <;> rfl

/-- The command that sends the first pending operation, if there is one. -/
def sendFirst : List O → OperationApplicationCommand O
  | [] => .noCommand
  | pendingOperation :: _ => .sendOperationToServer pendingOperation

open ClientDocumentManager AwaitConfirmationState

/-- A local operation is sent at once only if nothing is pending. -/
theorem exec_processLocalOperation (operation : O) (r : ℤ) (ps : List O) :
    (processLocalOperation operation).exec ⟨r, .ofPending ps⟩ =
      (.ok (if ps = [] then .sendOperationToServer operation else .noCommand),
        ⟨r, .ofPending (ps ++ [operation])⟩) := by
  cases ps <;> rfl

/-- A synchronized client applies a remote operation as it is. -/
theorem exec_processRemoteOperation_synchronized (m : OperationsManager O) (operation : O)
    (r : ℤ) : (processRemoteOperation m operation).exec ⟨r, .synchronizedState⟩ =
      (.ok (.applyOperationLocally operation), ⟨r + 1, .synchronizedState⟩) :=
  rfl

/-- The confirmation of the first pending operation drops it and sends the next one. -/
theorem exec_processRemoteOperation_own (m : OperationsManager O) {operation p : O}
    (ps : List O) (r : ℤ) (h : Operation.uuid operation = Operation.uuid p) :
    (processRemoteOperation m operation).exec ⟨r, .awaitConfirmationState (p :: ps)⟩ =
      (.ok (sendFirst ps), ⟨r + 1, .ofPending ps⟩) := by
  show (AwaitConfirmationState.processRemoteOperation m (p :: ps) operation).exec _ = _
  rw [AwaitConfirmationState.processRemoteOperation, firstPending,
    Effect.exec_ofResult_ok_bind, if_pos h]
  cases ps <;> rfl

/-- An operation of another client is carried past the pending ones and applied. -/
theorem exec_processRemoteOperation_other (m : OperationsManager O) {operation p : O}
    (ps : List O) (r : ℤ) (h : Operation.uuid operation ≠ Operation.uuid p) :
    (processRemoteOperation m operation).exec ⟨r, .awaitConfirmationState (p :: ps)⟩ =
      (.ok (.applyOperationLocally (transformAgainstEach (p :: ps) operation m)),
        ⟨r + 1, .ofPending ((p :: ps).map fun q => m.transformAgainst q operation)⟩) := by
  show (AwaitConfirmationState.processRemoteOperation m (p :: ps) operation).exec _ = _
  rw [AwaitConfirmationState.processRemoteOperation, firstPending,
    Effect.exec_ofResult_ok_bind, if_neg h]
  rfl

/-- Whatever is pending, an operation of another client is carried past it and applied. -/
theorem exec_processRemoteOperation_foreign (m : OperationsManager O) {operation : O}
    {ps : List O} (r : ℤ)
    (h : ∀ p qs, ps = p :: qs → Operation.uuid operation ≠ Operation.uuid p) :
    (processRemoteOperation m operation).exec ⟨r, .ofPending ps⟩ =
      (.ok (.applyOperationLocally (transformAgainstEach ps operation m)),
        ⟨r + 1, .ofPending (ps.map fun q => m.transformAgainst q operation)⟩) :=
  match ps with
  | [] => exec_processRemoteOperation_synchronized m operation r
  | p :: qs => exec_processRemoteOperation_other m qs r (h p qs rfl)

end OtEditor
