import OtEditor.Session
import OtEditor.Lib.Link

/-!
# The clients of a session are authors of a log

Each client of a session is the author of a stop-and-wait link (`Client.link`) : the log is
what was broadcast, the queue is what the state machine has pending, and the flight is what
is in the channel to the server. The channels and the revisions are wired so that the link
is what the client and the server compute (`Client.Wired`). Every step of a session is, for
each client, a step of its link or nothing (`Session.Inv.step`), so every session reached
keeps the invariant of the links (`Session.Inv.of_reaches`).
-/

set_option linter.unusedSectionVars false

open Transformation

namespace OtEditor

open PlainTextSingleCharacterOperation PlainTextOperationsManager

namespace Client

/-- A client as the author of a link. -/
def link (client : Client) : Link PlainTextSingleCharacterOperation Text where
  log := client.received ++ client.inbox
  seen := client.received.length
  queue := client.pending
  flight := client.outbox.map fun envelope =>
    (envelope.message.operation, envelope.receivedAtSend.length)
  made := client.edited.map uuid

/-- A waiting client adjusts its pending operations to a remote operation. -/
def adjust (operation : PlainTextSingleCharacterOperation)
    (pending : List PlainTextSingleCharacterOperation) :
    List PlainTextSingleCharacterOperation :=
  pending.map fun p => transformAgainst p operation

/-- The invariant of a link of plain-text operations. -/
abbrev LinkInv : Link PlainTextSingleCharacterOperation Text → Prop :=
  Link.Inv uuid transformAgainst

/-- A step of a link of plain-text operations. -/
abbrev LinkStep : Link PlainTextSingleCharacterOperation Text →
    Link PlainTextSingleCharacterOperation Text → Prop :=
  Link.Step uuid transformAgainst adjust

/-- Every step of a link keeps its invariant. -/
theorem LinkStep.inv {l l' : Link PlainTextSingleCharacterOperation Text}
    (hstep : LinkStep l l') (h : LinkInv l) : LinkInv l' := by
  refine h.step (fun x ps => ?_) (fun x p ps => ⟨_, List.map_cons⟩) hstep
  show (ps.map fun p => transformAgainst p x).map uuid = _
  rw [List.map_map]
  exact List.map_congr_left fun p _ => plainTextOperationsManager_keepsUuid p x

/-- An edit makes one name. -/
theorem made_edit (client : Client) (operation : PlainTextSingleCharacterOperation) :
    (client.edit operation).link.made = client.link.made ++ [operation.uuid] :=
  List.map_append

theorem made_hear (documentUUID : String) (operation : PlainTextSingleCharacterOperation)
    (client : Client) : (client.hear documentUUID operation).link.made = client.link.made := by
  rw [hear]
  split_ifs <;> rfl

/-- A client and its channels, where `recorded` is what the server recorded and `history`
what it had recorded at the start. -/
structure Wired (documentUUID : String)
    (history recorded : List PlainTextSingleCharacterOperation) (client : Client) : Prop where
  shown : client.page.curDocumentUUID = documentUUID
  sent : client.page.sent = []
  fsm : client.page.clientFsm =
    ⟨(history.length + client.received.length : ℕ), .ofPending client.pending⟩
  delivered : history ++ (client.received ++ client.inbox) = recorded
  outbox : ∀ envelope ∈ client.outbox, envelope.message.documentUUID = documentUUID ∧
    envelope.message.revision = (history.length + envelope.receivedAtSend.length : ℕ) ∧
    envelope.receivedAtSend <+: client.received

namespace Wired

variable {documentUUID : String} {history recorded : List PlainTextSingleCharacterOperation}
  {client : Client} (h : client.Wired documentUUID history recorded)
include h

theorem link_edit (operation : PlainTextSingleCharacterOperation) :
    (client.edit operation).link = { client.link with
      queue := client.link.queue ++ [operation]
      flight := if client.link.queue = [] then
        client.link.flight ++ [(operation, client.link.seen)] else client.link.flight
      made := client.link.made ++ [operation.uuid] } := by
  rw [edit_eq h.fsm h.sent]
  by_cases hpending : client.pending = []
  · ext1 <;> simp [link, hpending]
    simp [pending]
  · ext1 <;> simp [link, hpending]
    simp [pending]

/-- A client that edits makes an operation on its link. -/
theorem edit (operation : PlainTextSingleCharacterOperation)
    (hfresh : ∀ x ∈ recorded, x.uuid ≠ operation.uuid) :
    (client.edit operation).Wired documentUUID history recorded ∧
      LinkStep client.link (client.edit operation).link := by
  refine ⟨?_, ?_⟩
  · rw [edit_eq h.fsm h.sent]
    refine ⟨h.shown, h.sent, ?_, h.delivered, fun envelope henvelope => ?_⟩
    · simp [pending]
    · rcases List.mem_append.1 henvelope with hold | hnew
      · exact h.outbox envelope hold
      · split_ifs at hnew
        · rw [List.mem_singleton.1 hnew]
          exact ⟨h.shown, rfl, List.prefix_refl _⟩
        · cases hnew
  · rw [h.link_edit]
    refine .make operation fun x hx => hfresh x ?_
    rw [← h.delivered]
    exact List.mem_append_right _ hx

/-- The broadcast of an operation extends the log. -/
theorem hear (operation : PlainTextSingleCharacterOperation) :
    (client.hear documentUUID operation).Wired documentUUID history (recorded ++ [operation]) ∧
      (client.hear documentUUID operation).link =
        { client.link with log := client.link.log ++ [operation] } := by
  rw [Client.hear, if_pos h.shown]
  refine ⟨⟨h.shown, h.sent, h.fsm, ?_, h.outbox⟩, ?_⟩
  · simp [← h.delivered]
  · simp [link, pending]

/-- The server takes the next message from the channel. -/
theorem tail {envelope : Envelope} {outbox : List Envelope}
    (hout : client.outbox = envelope :: outbox) :
    ({ client with outbox } : Client).Wired documentUUID history recorded :=
  ⟨h.shown, h.sent, h.fsm, h.delivered, fun e he => h.outbox e (by simp [hout, he])⟩

/-- The next entry of the log is the next broadcast. -/
theorem next {operation : PlainTextSingleCharacterOperation}
    {inbox : List PlainTextSingleCharacterOperation} (hin : client.inbox = operation :: inbox) :
    client.link.log[client.link.seen]? = some operation := by
  simp [link, hin]

/-- What the channels and the ghosts of a client are after it handled a broadcast. -/
theorem receive_wired {operation : PlainTextSingleCharacterOperation}
    {inbox : List PlainTextSingleCharacterOperation} (hin : client.inbox = operation :: inbox)
    (ps : List PlainTextSingleCharacterOperation) (textArea : TextArea) (outbox : List Envelope)
    (hout : ∀ envelope ∈ outbox, envelope.message.documentUUID = documentUUID ∧
      envelope.message.revision = (history.length + envelope.receivedAtSend.length : ℕ) ∧
      envelope.receivedAtSend <+: client.received ++ [operation]) :
    ({ client with
      page := { client.page with
        clientFsm := ⟨(history.length + client.received.length : ℕ) + 1, .ofPending ps⟩
        textArea }
      outbox := client.outbox ++ outbox
      inbox
      received := client.received ++ [operation] } : Client).Wired documentUUID history
        recorded := by
  refine ⟨h.shown, h.sent, ?_, ?_, fun envelope henvelope => ?_⟩
  · simp [pending, Int.add_assoc]
  · simp [← h.delivered, hin]
  · rcases List.mem_append.1 henvelope with hold | hnew
    · obtain ⟨hid, hrevision, hprefix⟩ := h.outbox envelope hold
      exact ⟨hid, hrevision, hprefix.trans (List.prefix_append _ _)⟩
    · exact hout envelope hnew

section Own

variable {operation p : PlainTextSingleCharacterOperation}
  {inbox ps : List PlainTextSingleCharacterOperation}
  (hin : client.inbox = operation :: inbox) (hpending : client.pending = p :: ps)
  (huuid : operation.uuid = p.uuid)
include hin hpending huuid

/-- A client that gets its own operation back sends the next one. -/
theorem receive_own_eq : receive { client with inbox } operation = { client with
    page := { client.page with
      clientFsm := ⟨(history.length + client.received.length : ℕ) + 1, .ofPending ps⟩ }
    outbox := client.outbox ++ firstEnvelope client.page.curDocumentUUID
      ((history.length + client.received.length : ℕ) + 1) (client.received ++ [operation]) ps
    inbox
    received := client.received ++ [operation] } := by
  have hfsm := h.fsm
  rw [hpending] at hfsm
  have hreceive : ({ client with inbox } : Client).receive operation = _ :=
    Client.receive_own hfsm h.sent huuid
  exact hreceive

theorem link_receive_own : (receive { client with inbox } operation).link = { client.link with
    seen := client.link.seen + 1
    queue := ps
    flight := client.link.flight ++ Link.send (client.link.seen + 1) ps } := by
  rw [h.receive_own_eq hin hpending huuid]
  ext1
  · simp [link, hin]
  · simp [link]
  · simp [link, pending]
  · cases ps <;> simp [link, firstEnvelope, Link.send]
  · rfl

/-- A client that gets its own operation back takes a confirmation on its link. -/
theorem receive_own :
    (receive { client with inbox } operation).Wired documentUUID history recorded ∧
      LinkStep client.link (receive { client with inbox } operation).link := by
  refine ⟨?_, ?_⟩
  · rw [h.receive_own_eq hin hpending huuid]
    refine h.receive_wired hin ps client.page.textArea _ fun envelope henvelope => ?_
    cases ps with
    | nil => cases henvelope
    | cons q qs =>
      rw [List.mem_singleton.1 henvelope]
      refine ⟨h.shown, ?_, List.prefix_refl _⟩
      simp [Int.add_assoc]
  · rw [h.link_receive_own hin hpending huuid]
    exact .confirm operation p ps (h.next hin) hpending huuid

end Own

section Other

variable {operation : PlainTextSingleCharacterOperation}
  {inbox : List PlainTextSingleCharacterOperation} (hin : client.inbox = operation :: inbox)
  (huuid : ∀ p qs, client.pending = p :: qs → operation.uuid ≠ p.uuid)
include hin huuid

/-- A client that receives another client's operation adjusts its pending operations, whether
or not the operation applies to its text. -/
theorem receive_other_eq : ∃ textArea, receive { client with inbox } operation = { client with
    page := { client.page with
      clientFsm := ⟨(history.length + client.received.length : ℕ) + 1,
        .ofPending (adjust operation client.pending)⟩
      textArea }
    inbox
    received := client.received ++ [operation] } := by
  have hreceive : ({ client with inbox } : Client).receive operation = _ :=
    Client.receive_other h.fsm h.sent huuid
  obtain ⟨textArea, hpage⟩ := exec_applyOperationLocally_frame
    (transformAgainstEach client.pending operation plainTextOperationsManager)
    { client.page with
      clientFsm := ⟨(history.length + client.received.length : ℕ) + 1,
        .ofPending (client.pending.map fun p =>
          plainTextOperationsManager.transformAgainst p operation)⟩ }
  rw [hreceive, hpage]
  exact ⟨textArea, rfl⟩

/-- If the operation applies to the text, that is the new text. -/
theorem text_receive_other {text : Text} (happly : (transformAgainstEach client.pending operation
    plainTextOperationsManager).applyTo client.text = .ok text) :
    (receive { client with inbox } operation).text = text := by
  have hreceive : ({ client with inbox } : Client).receive operation = _ :=
    Client.receive_other h.fsm h.sent huuid
  have hexec : (applyOperationLocally (transformAgainstEach client.pending operation
      plainTextOperationsManager)).exec { client.page with
        clientFsm := ⟨(history.length + client.received.length : ℕ) + 1,
          .ofPending (client.pending.map fun p =>
            plainTextOperationsManager.transformAgainst p operation)⟩ } = _ :=
    exec_applyOperationLocally_ok _ text happly
  rw [hreceive, Client.text, hexec]

theorem link_receive_other : (receive { client with inbox } operation).link = { client.link with
    seen := client.link.seen + 1, queue := adjust operation client.link.queue } := by
  obtain ⟨textArea, hreceive⟩ := h.receive_other_eq hin huuid
  rw [hreceive]
  ext1
  · simp [link, hin]
  · simp [link]
  · simp [link, pending]
  · rfl
  · rfl

/-- A client that receives another client's operation takes it on its link. -/
theorem receive_other :
    (receive { client with inbox } operation).Wired documentUUID history recorded ∧
      LinkStep client.link (receive { client with inbox } operation).link := by
  refine ⟨?_, ?_⟩
  · obtain ⟨textArea, hreceive⟩ := h.receive_other_eq hin huuid
    have hwired := h.receive_wired hin (adjust operation client.pending) textArea [] (by simp)
    rw [List.append_nil] at hwired
    rwa [hreceive]
  · rw [h.link_receive_other hin huuid]
    exact .take operation (h.next hin) huuid

end Other

end Wired

end Client

namespace Session

variable {ι : Type} [DecidableEq ι] {documentUUID : String}
  {history : List PlainTextSingleCharacterOperation} {s s' : Session ι}

/-- What every step of a session keeps. -/
structure Inv (documentUUID : String) (history : List PlainTextSingleCharacterOperation)
    (s : Session ι) : Prop where
  stored : ∀ document, s.stores.documents documentUUID = some document →
    document.uuid = documentUUID
  wired : ∀ i, (s.clients i).Wired documentUUID history (s.stores.recorded documentUUID)
  link : ∀ i, Client.LinkInv (s.clients i).link
  recorded_used : ∀ x ∈ s.stores.recorded documentUUID, x.uuid ∈ s.usedUuids
  made_used : ∀ i, ∀ name ∈ (s.clients i).link.made, name ∈ s.usedUuids
  made_since : ∀ i, ∀ name ∈ (s.clients i).link.made, ∀ x ∈ history, x.uuid ≠ name
  /-- No uuid is made by two clients. -/
  apart : ∀ i j, i ≠ j → ∀ name ∈ (s.clients i).link.made, name ∉ (s.clients j).link.made

theorem Started.inv (h : s.Started documentUUID) :
    s.Inv documentUUID (s.stores.recorded documentUUID) := by
  have hclient : ∀ i, (s.clients i).link = ⟨[], 0, [], [], []⟩ := by
    intro i
    obtain ⟨textArea, documentTitle, hi⟩ := h.clients i
    rw [hi]
    rfl
  refine ⟨h.stored, fun i => ?_, fun i => ?_, h.used, fun i => ?_, fun i => ?_,
    fun i j _ => ?_⟩
  · obtain ⟨textArea, documentTitle, hi⟩ := h.clients i
    rw [hi]
    exact ⟨rfl, rfl, rfl, List.append_nil _, fun _ he => by cases he⟩
  · rw [hclient]
    exact ⟨Nat.le_refl _, rfl, .idle rfl rfl fun _ hx => by cases hx⟩
  · simp [hclient]
  · simp [hclient]
  · simp [hclient]

/-- A client that makes nothing leaves the names as they are. -/
theorem made_update {i : ι} {client : Client} (hmade : client.link.made = (s.clients i).link.made)
    (j : ι) : (Function.update s.clients i client j).link.made = (s.clients j).link.made := by
  by_cases hji : j = i
  · subst hji
    rw [Function.update_self, hmade]
  · rw [Function.update_of_ne hji]

namespace Inv

variable (h : s.Inv documentUUID history) {i : ι}
include h

section Serve

variable {envelope : Envelope} {outbox : List Envelope}
  (hout : (s.clients i).outbox = envelope :: outbox)
include hout

theorem sent : (s.clients i).link.flight =
    (envelope.message.operation, envelope.receivedAtSend.length) ::
      outbox.map fun e => (e.message.operation, e.receivedAtSend.length) := by
  simp [Client.link, hout]

/-- The server finds concurrent to a message what its sender had not received. -/
theorem concurrent_eq : s.stores.concurrent documentUUID envelope.message.revision =
    .ok ((s.clients i).link.log.drop envelope.receivedAtSend.length) := by
  have hwired := h.wired i
  obtain ⟨-, hrevision, -⟩ := hwired.outbox envelope (by simp [hout])
  rw [hrevision, Stores.concurrent_natCast, ← hwired.delivered, ← List.drop_drop, List.drop_left]
  rfl

/-- The server carries the message past what its sender had not received, and records it if
it applies. -/
theorem exec_handleMessage : (handleMessage envelope.message).exec s.stores =
    match s.stores.documents documentUUID with
    | none => (.error (documentNotFoundException documentUUID), s.stores)
    | some document =>
      let operation := carry transformAgainst envelope.message.operation
        ((s.clients i).link.log.drop envelope.receivedAtSend.length)
      match operation.applyTo document.content with
      | .error e => (.error e, s.stores)
      | .ok content =>
        (.ok operation, s.stores.record plainTextDocumentUpdater document content operation) := by
  obtain ⟨hid, -, -⟩ := (h.wired i).outbox envelope (by simp [hout])
  rw [handleMessage, hid]
  cases hdocument : s.stores.documents documentUUID with
  | none => exact exec_sendMessage_unknown _ _ hdocument _ _
  | some document =>
    rw [exec_sendMessage plainTextOperationsManager plainTextDocumentUpdater_lawful hdocument
      (h.stored document hdocument), exec_receiveOperation, h.concurrent_eq hout, hdocument]
    cases happly : (carry transformAgainst envelope.message.operation
      ((s.clients i).link.log.drop envelope.receivedAtSend.length)).applyTo document.content <;>
      simp only [transformAgainstEach_eq_carry, plainTextOperationsManager, Operation.applyTo,
        Document.content, happly]

/-- The message is transformed and recorded, or it throws and changes nothing. -/
theorem handleMessage_cases :
    (∃ e, (handleMessage envelope.message).exec s.stores = (.error e, s.stores)) ∨
    ∃ operation document content,
      operation = carry transformAgainst envelope.message.operation
        ((s.clients i).link.log.drop envelope.receivedAtSend.length) ∧
      s.stores.documents documentUUID = some document ∧
      operation.applyTo document.content = .ok content ∧
      (handleMessage envelope.message).exec s.stores =
        (.ok operation, s.stores.record plainTextDocumentUpdater document content operation) := by
  have hexec := h.exec_handleMessage hout
  cases hdocument : s.stores.documents documentUUID with
  | none => exact Or.inl ⟨_, by rw [hexec, hdocument]⟩
  | some document =>
    cases happly : (carry transformAgainst envelope.message.operation
      ((s.clients i).link.log.drop envelope.receivedAtSend.length)).applyTo document.content with
    | error e => exact Or.inl ⟨e, by simp only [hexec, hdocument, happly]⟩
    | ok content =>
      exact Or.inr ⟨_, document, content, rfl, rfl, happly, by
        simp only [hexec, hdocument, happly]⟩

/-- What the server records of a message has a uuid its sender made. -/
theorem uuid_mem_made {operation : PlainTextSingleCharacterOperation}
    (hoperation : operation = carry transformAgainst envelope.message.operation
      ((s.clients i).link.log.drop envelope.receivedAtSend.length)) :
    operation.uuid ∈ (s.clients i).link.made := by
  obtain ⟨-, -, -, p, ps, hqueue, hp⟩ := (h.link i).of_flight (h.sent hout)
  have hkeep := carry_keeps transformAgainst plainTextOperationsManager_keepsUuid
  have huuid : operation.uuid = p.uuid := by
    rw [hoperation, hp]
    exact (hkeep _ _).trans (hkeep _ _).symm
  rw [huuid]
  exact (h.link i).name_mem_made_of_mem_queue (by simp [hqueue])

end Serve

/-- What a step does to the clients : each is still wired, and has taken a step on its link
or none. -/
def Advances (documentUUID : String) (history : List PlainTextSingleCharacterOperation)
    (s s' : Session ι) : Prop :=
  ∀ j, (s'.clients j).Wired documentUUID history (s'.stores.recorded documentUUID) ∧
    ((s'.clients j).link = (s.clients j).link ∨
      Client.LinkStep (s.clients j).link (s'.clients j).link)

/-- A step of one client alone. -/
theorem advances_of_update {stores : PlainTextStores} {client : Client} {usedUuids : List Text}
    (hrecorded : stores.recorded documentUUID = s.stores.recorded documentUUID)
    (hclient : client.Wired documentUUID history (s.stores.recorded documentUUID) ∧
      Client.LinkStep (s.clients i).link client.link) :
    Advances documentUUID history s
      ⟨stores, Function.update s.clients i client, usedUuids⟩ := by
  intro j
  simp only [hrecorded]
  by_cases hji : j = i
  · subst hji
    rw [Function.update_self]
    exact ⟨hclient.1, Or.inr hclient.2⟩
  · rw [Function.update_of_ne hji]
    exact ⟨h.wired j, Or.inl rfl⟩

theorem advances_edit {operation : PlainTextSingleCharacterOperation}
    (hused : operation.uuid ∉ s.usedUuids) (usedUuids : List Text) :
    Advances documentUUID history s
      ⟨s.stores, Function.update s.clients i ((s.clients i).edit operation), usedUuids⟩ :=
  h.advances_of_update rfl ((h.wired i).edit operation fun x hx huuid =>
    hused (huuid ▸ h.recorded_used x hx))

theorem advances_deliver {operation : PlainTextSingleCharacterOperation}
    {inbox : List PlainTextSingleCharacterOperation}
    (hin : (s.clients i).inbox = operation :: inbox) (usedUuids : List Text) :
    Advances documentUUID history s
      ⟨s.stores, Function.update s.clients i
        (Client.receive { s.clients i with inbox } operation), usedUuids⟩ := by
  refine h.advances_of_update rfl ?_
  cases hpending : (s.clients i).pending with
  | nil => exact (h.wired i).receive_other hin (by simp [hpending])
  | cons p ps =>
    by_cases huuid : operation.uuid = p.uuid
    · exact (h.wired i).receive_own hin hpending huuid
    · refine (h.wired i).receive_other hin fun q qs hqueue => ?_
      obtain ⟨rfl, -⟩ := List.cons.inj (hpending.symm.trans hqueue)
      exact huuid

section Serve

variable {envelope : Envelope} {outbox : List Envelope}
  (hout : (s.clients i).outbox = envelope :: outbox)
include hout

/-- A message that throws is dropped. -/
theorem advances_refuse (usedUuids : List Text) : Advances documentUUID history s
    ⟨s.stores, Function.update s.clients i { s.clients i with outbox }, usedUuids⟩ :=
  h.advances_of_update rfl ⟨(h.wired i).tail hout, .refuse _ _ _ (h.sent hout)⟩

/-- A recorded operation is broadcast : its author records a message, and to the others it is
foreign. -/
theorem advances_record {operation : PlainTextSingleCharacterOperation}
    {document : PlainTextDocument}
    (hoperation : operation = carry transformAgainst envelope.message.operation
      ((s.clients i).link.log.drop envelope.receivedAtSend.length))
    (hdocument : s.stores.documents documentUUID = some document) (content : Text)
    (usedUuids : List Text) :
    Advances documentUUID history s
      ⟨s.stores.record plainTextDocumentUpdater document content operation,
        fun j => (Function.update s.clients i { s.clients i with outbox } j).hear
          envelope.message.documentUUID operation, usedUuids⟩ := by
  intro j
  obtain ⟨hid, -, -⟩ := (h.wired i).outbox envelope (by simp [hout])
  have hrecorded : (s.stores.record plainTextDocumentUpdater document content
      operation).recorded documentUUID = s.stores.recorded documentUUID ++ [operation] := by
    obtain rfl := h.stored document hdocument
    exact s.stores.recorded_record_plainText document content operation
  simp only [hid, hrecorded]
  by_cases hji : j = i
  · subst hji
    rw [Function.update_self]
    obtain ⟨hwired, hlink⟩ := ((h.wired j).tail hout).hear operation
    refine ⟨hwired, Or.inr ?_⟩
    rw [hlink, hoperation]
    exact .record _ _ _ (h.sent hout)
  · rw [Function.update_of_ne hji]
    obtain ⟨hwired, hlink⟩ := (h.wired j).hear operation
    refine ⟨hwired, Or.inr ?_⟩
    rw [hlink]
    exact .foreign operation (h.apart i j (Ne.symm hji) _ (h.uuid_mem_made hout hoperation))

end Serve

/-! ## Every step keeps the invariant -/

/-- Steps on the links keep the invariant of the links. -/
theorem link_of_advances (hadvances : Advances documentUUID history s s') (j : ι) :
    Client.LinkInv (s'.clients j).link := by
  rcases (hadvances j).2 with heq | hstep
  · rw [heq]
    exact h.link j
  · exact hstep.inv (h.link j)

/-- Without a new uuid the names stay apart. -/
theorem of_made_eq (hadvances : Advances documentUUID history s s')
    (hstored : ∀ document, s'.stores.documents documentUUID = some document →
      document.uuid = documentUUID)
    (hmade : ∀ j, (s'.clients j).link.made = (s.clients j).link.made)
    (hused : s'.usedUuids = s.usedUuids)
    (hrecorded : ∀ x ∈ s'.stores.recorded documentUUID, x.uuid ∈ s.usedUuids) :
    s'.Inv documentUUID history where
  stored := hstored
  wired j := (hadvances j).1
  link := h.link_of_advances hadvances
  recorded_used := hused ▸ hrecorded
  made_used j := by
    rw [hmade, hused]
    exact h.made_used j
  made_since j := by
    rw [hmade]
    exact h.made_since j
  apart j k hjk := by
    rw [hmade, hmade]
    exact h.apart j k hjk

/-- An edit makes one name, which nobody used. -/
theorem step_edit {operation : PlainTextSingleCharacterOperation}
    (hstep : s.step (.edit i operation) = some s') :
    s'.Inv documentUUID history ∧ Advances documentUUID history s s' := by
  obtain ⟨hused, rfl⟩ := Session.step_edit hstep
  have hadvances := h.advances_edit (i := i) hused (s.usedUuids ++ [operation.uuid])
  have hmade : ∀ j, ∀ name ∈ (Function.update s.clients i
      ((s.clients i).edit operation) j).link.made,
      name ∈ (s.clients j).link.made ∨ j = i ∧ name = operation.uuid := by
    intro j name hname
    by_cases hji : j = i
    · subst hji
      rw [Function.update_self, Client.made_edit, List.mem_append, List.mem_singleton] at hname
      exact hname.imp_right fun hname => ⟨rfl, hname⟩
    · rw [Function.update_of_ne hji] at hname
      exact Or.inl hname
  refine ⟨⟨h.stored, fun j => (hadvances j).1, h.link_of_advances hadvances,
    fun x hx => List.mem_append_left _ (h.recorded_used x hx), fun j name hname => ?_,
    fun j name hname x hx => ?_, fun j k hjk name hj hk => ?_⟩, hadvances⟩
  · rcases hmade j name hname with hold | ⟨-, rfl⟩
    · exact List.mem_append_left _ (h.made_used j name hold)
    · exact List.mem_append_right _ (List.mem_singleton_self _)
  · rcases hmade j name hname with hold | ⟨-, rfl⟩
    · exact h.made_since j name hold x hx
    · exact fun huuid => hused (huuid ▸ h.recorded_used x
        ((h.wired i).delivered ▸ List.mem_append_left _ hx))
  · rcases hmade j name hj with hj' | ⟨hji, hname⟩
    · rcases hmade k name hk with hk' | ⟨-, hname⟩
      · exact h.apart j k hjk name hj' hk'
      · exact hused (hname ▸ h.made_used j name hj')
    · rcases hmade k name hk with hk' | ⟨hki, -⟩
      · exact hused (hname ▸ h.made_used k name hk')
      · exact hjk (hji.trans hki.symm)

theorem step_serve (hstep : s.step (.serve i) = some s') :
    s'.Inv documentUUID history ∧ Advances documentUUID history s s' := by
  obtain ⟨envelope, outbox, hout, hserve⟩ := Session.step_serve hstep
  have hmade : ∀ j, (Function.update s.clients i { s.clients i with outbox } j).link.made =
      (s.clients j).link.made := made_update rfl
  rcases h.handleMessage_cases hout with ⟨e, herror⟩ |
    ⟨operation, document, content, hoperation, hdocument, -, hok⟩
  · rcases hserve with ⟨e', stores, hexec, rfl⟩ | ⟨operation, stores, hexec, rfl⟩
    · obtain ⟨-, rfl⟩ := Prod.mk.inj (hexec.symm.trans herror)
      have hadvances := h.advances_refuse hout s.usedUuids
      exact ⟨h.of_made_eq hadvances h.stored hmade rfl h.recorded_used, hadvances⟩
    · cases hexec.symm.trans herror
  · rcases hserve with ⟨e, stores, hexec, rfl⟩ | ⟨operation', stores, hexec, rfl⟩
    · cases hexec.symm.trans hok
    · obtain ⟨hoperation', rfl⟩ := Prod.mk.inj (hexec.symm.trans hok)
      obtain rfl := Except.ok.inj hoperation'
      have hadvances := h.advances_record hout hoperation hdocument content s.usedUuids
      refine ⟨h.of_made_eq hadvances (fun d hd => ?_) (fun j => ?_) rfl fun x hx => ?_,
        hadvances⟩
      · obtain rfl := h.stored document hdocument
        rw [s.stores.documents_record_plainText] at hd
        obtain rfl := Option.some.inj hd
        rfl
      · rw [Client.made_hear, hmade]
      · obtain rfl := h.stored document hdocument
        rw [s.stores.recorded_record_plainText] at hx
        rcases List.mem_append.1 hx with hx | hx
        · exact h.recorded_used x hx
        · rw [List.mem_singleton.1 hx]
          exact h.made_used i _ (h.uuid_mem_made hout hoperation)

theorem step_deliver (hstep : s.step (.deliver i) = some s') :
    s'.Inv documentUUID history ∧ Advances documentUUID history s s' := by
  obtain ⟨operation, inbox, hin, rfl⟩ := Session.step_deliver hstep
  have hadvances := h.advances_deliver hin s.usedUuids
  exact ⟨h.of_made_eq hadvances h.stored (made_update rfl) rfl h.recorded_used, hadvances⟩

/-- Every step keeps the invariant, and is for every client a step of its link or none. -/
theorem step {a : Action ι} (hstep : s.step a = some s') :
    s'.Inv documentUUID history ∧ Advances documentUUID history s s' := by
  cases a with
  | edit i operation => exact h.step_edit hstep
  | serve i => exact h.step_serve hstep
  | deliver i => exact h.step_deliver hstep

/-- Every session reached keeps the invariant. -/
theorem of_reaches (hreaches : Reaches s s') : s'.Inv documentUUID history :=
  Machine.Reaches.invariant (fun _ _ _ hs _ hstep => (hs.step hstep).1) h hreaches

end Inv

end Session

end OtEditor
