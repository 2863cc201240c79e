import OtEditor.Page
import OtEditor.Server
import OtEditor.ServerLog
import OtEditor.Lib.Machine

/-!
# A session of clients on one server

Any number of clients edit documents of one server. A user edits (`Action.edit`), the server
handles the next message of a client and broadcasts the result (`Action.serve`), and a client
handles its next broadcast (`Action.deliver`), in any order. The messages of a client
arrive in the order sent, and so do the broadcasts to a client. A handler that throws is
abandoned : the server then broadcasts nothing, and a page keeps what its state machine did.

A session also keeps a record of each client's operations that no step reads : those it
edited, those it received, and with each message those received before it was sent.
-/

set_option linter.unusedSectionVars false

namespace OtEditor

/-- A message on its way to the server. -/
structure Envelope where
  message : Message
  /-- What the sender had received when it sent the message. -/
  receivedAtSend : List PlainTextSingleCharacterOperation
  deriving DecidableEq

/-- A client and its two channels. -/
structure Client where
  page : Page
  /-- The messages the server has not handled. -/
  outbox : List Envelope
  /-- The broadcasts the client has not handled. -/
  inbox : List PlainTextSingleCharacterOperation
  /-- The local operations processed. -/
  edited : List PlainTextSingleCharacterOperation
  /-- The broadcasts handled. -/
  received : List PlainTextSingleCharacterOperation
  deriving DecidableEq

namespace Client

/-- The text a client shows. -/
def text (client : Client) : Text :=
  client.page.textArea.value

/-- The operations a client waits to be confirmed. -/
def pending (client : Client) : List PlainTextSingleCharacterOperation :=
  client.page.clientFsm.state.pending

/-- The socket takes the messages of the page. -/
def flush (client : Client) : Client :=
  { client with
    page := { client.page with sent := [] }
    outbox := client.outbox ++ client.page.sent.map fun message => ⟨message, client.received⟩ }

/-- The page after the user made an edit, which the text area shows before `oninput` runs. -/
def typed (page : Page) (operation : PlainTextSingleCharacterOperation) : Page :=
  { page with textArea := { page.textArea with
    value := (applied operation page.textArea.value).getD page.textArea.value } }

/-- The user makes an edit. -/
def edit (client : Client) (operation : PlainTextSingleCharacterOperation) : Client :=
  flush { client with
    page := ((onLocalOperation operation).exec (typed client.page operation)).2
    edited := client.edited ++ [operation] }

/-- The client handles a broadcast. -/
def receive (client : Client) (operation : PlainTextSingleCharacterOperation) : Client :=
  flush { client with
    page := ((onMessageReceived operation).exec client.page).2
    received := client.received ++ [operation] }

/-- A client that has loaded a document. -/
def opened (textArea : TextArea) (documentUUID : String) (document : PlainTextDocument) :
    Client where
  page := loadDocument textArea documentUUID document
  outbox := []
  inbox := []
  edited := []
  received := []

/-- A broadcast on the topic of a document reaches the clients that show it. -/
def hear (documentUUID : String) (operation : PlainTextSingleCharacterOperation)
    (client : Client) : Client :=
  if client.page.curDocumentUUID = documentUUID then
    { client with inbox := client.inbox ++ [operation] }
  else client

theorem text_hear (documentUUID : String) (operation : PlainTextSingleCharacterOperation)
    (client : Client) : (client.hear documentUUID operation).text = client.text := by
  rw [hear]
  split_ifs <;> rfl

end Client

/-- The server and its clients. `usedUuids` are the operation uuids generated so far. -/
structure Session (ι : Type) where
  stores : PlainTextStores
  clients : ι → Client
  usedUuids : List Text

/-- What can happen in a session. -/
inductive Action (ι : Type) where
  | edit (i : ι) (operation : PlainTextSingleCharacterOperation)
  | serve (i : ι)
  | deliver (i : ι)
  deriving DecidableEq

/-- `sendMessage` for a message. -/
def handleMessage (message : Message) :
    Effect PlainTextStores PlainTextSingleCharacterOperation :=
  OtWsController.sendMessage plainTextOperationsManager plainTextDocumentUpdater
    message.operation message.documentUUID message.revision

variable {ι : Type} [DecidableEq ι]

namespace Session

/-- One step of a session, if it is possible. The uuid of an edit is new. -/
def step (s : Session ι) : Action ι → Option (Session ι)
  | .edit i operation =>
    if operation.uuid ∈ s.usedUuids then none
    else some { s with
      clients := Function.update s.clients i ((s.clients i).edit operation)
      usedUuids := s.usedUuids ++ [operation.uuid] }
  | .serve i =>
    match (s.clients i).outbox with
    | [] => none
    | envelope :: outbox =>
      let clients := Function.update s.clients i { s.clients i with outbox }
      match (handleMessage envelope.message).exec s.stores with
      | (.ok operation, stores) => some { s with
          stores
          clients := fun j => (clients j).hear envelope.message.documentUUID operation }
      | (.error _, stores) => some { s with stores, clients }
  | .deliver i =>
    match (s.clients i).inbox with
    | [] => none
    | operation :: inbox => some { s with
        clients := Function.update s.clients i
          (Client.receive { s.clients i with inbox } operation) }

/-- Every client shows the document, is synchronized at the length of its history, and has
sent and received nothing. -/
structure Started (documentUUID : String) (s : Session ι) : Prop where
  stored : ∀ document, s.stores.documents documentUUID = some document →
    document.uuid = documentUUID
  clients : ∀ i, ∃ textArea documentTitle, s.clients i =
    { page := ⟨⟨(s.stores.recorded documentUUID).length, .synchronizedState⟩, textArea,
        documentTitle, documentUUID, []⟩
      outbox := [], inbox := [], edited := [], received := [] }
  used : ∀ operation ∈ s.stores.recorded documentUUID, operation.uuid ∈ s.usedUuids

/-- Every client has loaded the document from the server, whose revision counts its history. -/
structure OpenedOn (documentUUID : String) (document : PlainTextDocument) (s : Session ι) :
    Prop where
  stored : s.stores.documents documentUUID = some document
  ownUuid : document.uuid = documentUUID
  revision : document.revision = (s.stores.recorded documentUUID).length
  clients : ∀ i, ∃ textArea, s.clients i = .opened textArea documentUUID document
  used : ∀ operation ∈ s.stores.recorded documentUUID, operation.uuid ∈ s.usedUuids

theorem OpenedOn.started {documentUUID : String} {document : PlainTextDocument} {s : Session ι}
    (h : s.OpenedOn documentUUID document) : s.Started documentUUID where
  stored document' hdocument := by
    obtain rfl := Option.some.inj (h.stored.symm.trans hdocument)
    exact h.ownUuid
  clients i := by
    obtain ⟨textArea, hi⟩ := h.clients i
    exact ⟨_, _, by rw [hi, Client.opened, loadDocument, h.revision]⟩
  used := h.used

/-- The sessions that runs of any steps reach. -/
abbrev Reaches (s s' : Session ι) : Prop :=
  Machine.Reaches step (fun _ _ => True) s s'

end Session

/-- Two clients open the second document the server starts with, `kek`. -/
def Session.twoClients : Session Bool where
  stores := initialStores
  clients _ := .opened ⟨[], none, none⟩ "2" ⟨"2", 0, utf16 "kek", "Document 2"⟩
  usedUuids := []

theorem Session.twoClients_openedOn :
    Session.twoClients.OpenedOn "2" ⟨"2", 0, utf16 "kek", "Document 2"⟩ where
  stored := by decide
  ownUuid := rfl
  revision := rfl
  clients _ := ⟨_, rfl⟩
  used operation h := by cases h

/-! ## What a step does -/

namespace Session

variable {s s' : Session ι} {i : ι}

theorem step_edit {operation : PlainTextSingleCharacterOperation}
    (h : s.step (.edit i operation) = some s') :
    operation.uuid ∉ s.usedUuids ∧
      s' = ⟨s.stores, Function.update s.clients i ((s.clients i).edit operation),
        s.usedUuids ++ [operation.uuid]⟩ := by
  rw [step] at h
  split_ifs at h with hused
  exact ⟨hused, (Option.some.inj h).symm⟩

theorem step_serve (h : s.step (.serve i) = some s') :
    ∃ envelope outbox, (s.clients i).outbox = envelope :: outbox ∧
      ((∃ e stores, (handleMessage envelope.message).exec s.stores = (.error e, stores) ∧
        s' = ⟨stores, Function.update s.clients i { s.clients i with outbox }, s.usedUuids⟩) ∨
      ∃ operation stores,
        (handleMessage envelope.message).exec s.stores = (.ok operation, stores) ∧
        s' = ⟨stores, fun j => (Function.update s.clients i { s.clients i with outbox } j).hear
          envelope.message.documentUUID operation, s.usedUuids⟩) := by
  simp only [step] at h
  cases hout : (s.clients i).outbox with
  | nil => simp [hout] at h
  | cons envelope outbox =>
    refine ⟨envelope, outbox, rfl, ?_⟩
    simp only [hout] at h
    rcases hexec : (handleMessage envelope.message).exec s.stores with ⟨e | operation, stores⟩
    · rw [hexec] at h
      exact Or.inl ⟨e, stores, rfl, (Option.some.inj h).symm⟩
    · rw [hexec] at h
      exact Or.inr ⟨operation, stores, rfl, (Option.some.inj h).symm⟩

theorem step_deliver (h : s.step (.deliver i) = some s') :
    ∃ operation inbox, (s.clients i).inbox = operation :: inbox ∧
      s' = ⟨s.stores, Function.update s.clients i
        (Client.receive { s.clients i with inbox } operation), s.usedUuids⟩ := by
  simp only [step] at h
  cases hin : (s.clients i).inbox with
  | nil => simp [hin] at h
  | cons operation inbox =>
    simp only [hin] at h
    exact ⟨operation, inbox, rfl, (Option.some.inj h).symm⟩

end Session

namespace Client

variable {client : Client} {r : ℤ} {ps : List PlainTextSingleCharacterOperation}

/-- Without messages there is nothing for the socket to take. -/
theorem flush_eq_self (hsent : client.page.sent = []) : client.flush = client := by
  obtain ⟨⟨_, _, _, _, sent⟩, _, _, _, _⟩ := client
  obtain rfl : sent = [] := hsent
  simp [flush]

/-- The first pending operation as a message, if there is one. -/
def firstEnvelope (documentUUID : String) (revision : ℤ)
    (received : List PlainTextSingleCharacterOperation) :
    List PlainTextSingleCharacterOperation → List Envelope
  | [] => []
  | p :: _ => [⟨⟨documentUUID, revision, p⟩, received⟩]

theorem edit_eq (hfsm : client.page.clientFsm = ⟨r, .ofPending ps⟩)
    (hsent : client.page.sent = []) (operation : PlainTextSingleCharacterOperation) :
    client.edit operation = { client with
      page := { typed client.page operation with
        clientFsm := ⟨r, .ofPending (ps ++ [operation])⟩ }
      outbox := client.outbox ++
        if ps = [] then [⟨⟨client.page.curDocumentUUID, r, operation⟩, client.received⟩] else []
      edited := client.edited ++ [operation] } := by
  have hexec := exec_onLocalOperation operation
    (show (typed client.page operation).clientFsm = ⟨r, .ofPending ps⟩ from hfsm)
  rw [edit, hexec, flush]
  split_ifs <;> simp [typed, hsent]

theorem receive_own {operation p : PlainTextSingleCharacterOperation}
    (hfsm : client.page.clientFsm = ⟨r, .ofPending (p :: ps)⟩) (hsent : client.page.sent = [])
    (huuid : operation.uuid = p.uuid) :
    client.receive operation = { client with
      page := { client.page with clientFsm := ⟨r + 1, .ofPending ps⟩ }
      outbox := client.outbox ++ firstEnvelope client.page.curDocumentUUID (r + 1)
        (client.received ++ [operation]) ps
      received := client.received ++ [operation] } := by
  rw [receive, exec_onMessageReceived_own hfsm huuid, flush]
  cases ps <;> simp [firstEnvelope, firstMessage, hsent]

theorem receive_other {operation : PlainTextSingleCharacterOperation}
    (hfsm : client.page.clientFsm = ⟨r, .ofPending ps⟩) (hsent : client.page.sent = [])
    (huuid : ∀ p qs, ps = p :: qs → operation.uuid ≠ p.uuid) :
    client.receive operation = { client with
      page := ((applyOperationLocally (transformAgainstEach ps operation
        plainTextOperationsManager)).exec { client.page with
          clientFsm := ⟨r + 1, .ofPending (ps.map fun p =>
            plainTextOperationsManager.transformAgainst p operation)⟩ }).2
      received := client.received ++ [operation] } := by
  rw [receive, exec_onMessageReceived_other hfsm huuid, flush_eq_self]
  obtain ⟨textArea, hpage⟩ := exec_applyOperationLocally_frame
    (transformAgainstEach ps operation plainTextOperationsManager)
    { client.page with clientFsm := ⟨r + 1, .ofPending (ps.map fun p =>
      plainTextOperationsManager.transformAgainst p operation)⟩ }
  exact (congrArg Page.sent hpage).trans hsent

end Client

end OtEditor
