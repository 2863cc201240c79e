import OtEditor.SessionLink

/-!
# Clients and server agree on the operations

In every session reached from a start, the server transforms an operation against exactly
the operations its author had not received when it sent it, and the client finds its own
operation as it transformed it itself (`acknowledged_operation_eq`). No local edit is lost,
duplicated or reordered, and a client has at most one operation outstanding (`no_edit_lost`).
-/

namespace OtEditor

open PlainTextSingleCharacterOperation PlainTextOperationsManager DocumentStorageService

variable {ι : Type} [DecidableEq ι] {documentUUID : String} {start s : Session ι}

namespace Client

/-- The operations among some that a client edited itself. -/
def ownAmong (client : Client) (operations : List PlainTextSingleCharacterOperation) :
    List PlainTextSingleCharacterOperation :=
  operations.filter fun operation => operation.uuid ∈ client.edited.map uuid

section Link

variable {client : Client} (h : LinkInv client.link)

theorem ownAmong_eq (client : Client) (xs : List PlainTextSingleCharacterOperation) :
    client.ownAmong xs = client.link.own uuid xs :=
  List.filter_congr fun _ _ => decide_eq_decide.2 Iff.rfl

theorem take_link (client : Client) :
    client.link.log.take client.link.seen = client.received := by
  simp [link]

theorem unseen_link (client : Client) : client.link.unseen = client.inbox := by
  simp [Link.unseen, link]

theorem ownAmong_eq_nil {xs : List PlainTextSingleCharacterOperation}
    (hxs : ∀ x ∈ xs, x.uuid ∉ client.link.made) : client.ownAmong xs = [] :=
  List.filter_eq_nil_iff.2 fun x hx hown => hxs x hx (of_decide_eq_true hown)

include h

/-- The operations edited are those confirmed and then those pending. -/
theorem edited_eq : client.edited.map uuid =
    (client.ownAmong client.received).map uuid ++ client.pending.map uuid := by
  have hledger := h.ledger
  rwa [take_link, ← ownAmong_eq] at hledger

/-- The operations broadcast from a client are those confirmed and perhaps the first pending
one. -/
theorem ownAmong_log :
    (client.ownAmong client.link.log).map uuid = (client.ownAmong client.received).map uuid ∨
    ∃ p ps, client.pending = p :: ps ∧ (client.ownAmong client.link.log).map uuid =
      (client.ownAmong client.received).map uuid ++ [p.uuid] := by
  have hlog := h.own_log plainTextOperationsManager_keepsUuid
  rwa [take_link, ← ownAmong_eq, ← ownAmong_eq] at hlog

/-- At most one operation is in a channel. -/
theorem length_outstanding : client.outbox.length + (client.ownAmong client.inbox).length ≤ 1 := by
  have hflight : client.link.flight.length = client.outbox.length := List.length_map _
  rw [ownAmong_eq, ← unseen_link, ← hflight]
  rcases h.outstanding plainTextOperationsManager_keepsUuid with
    ⟨hnone, hle⟩ | ⟨p, ps, x, -, hx, -, hnone⟩
  · rw [hnone]
    exact hle
  · rw [hx, hnone]
    exact Nat.le_refl _

end Link

end Client

namespace Session

/-- Whenever the server handles a message, the concurrent operations are the history its
sender had not received when it sent it, and none of them is the sender's. Whenever a client
gets the operation it waits for back, it is the one it has pending, in every field. -/
theorem acknowledged_operation_eq (hstart : start.Started documentUUID)
    (hreaches : Reaches start s) (i : ι) :
    (∀ envelope outbox, (s.clients i).outbox = envelope :: outbox →
      ∃ concurrent, (getConcurrentOperations envelope.message.documentUUID
          envelope.message.revision).exec s.stores = (.ok concurrent, s.stores) ∧
        start.stores.recorded documentUUID ++ envelope.receivedAtSend ++ concurrent =
          s.stores.recorded documentUUID ∧
        (s.clients i).ownAmong concurrent = []) ∧
    ∀ operation inbox p ps, (s.clients i).inbox = operation :: inbox →
      (s.clients i).page.clientFsm.state = .awaitConfirmationState (p :: ps) →
      operation.uuid = p.uuid → operation = p := by
  have h := hstart.inv.of_reaches hreaches
  have hwired := h.wired i
  refine ⟨fun envelope outbox hout => ?_, fun operation inbox p ps hin hstate huuid => ?_⟩
  · obtain ⟨hid, -, since, hsince⟩ := hwired.outbox envelope (by simp [hout])
    obtain ⟨-, -, hforeign, -⟩ := (h.link i).of_flight (h.sent hout)
    refine ⟨_, ?_, ?_, Client.ownAmong_eq_nil hforeign⟩
    · rw [hid, exec_getConcurrentOperations, h.concurrent_eq hout]
    · have hlog : (s.clients i).link.log =
          envelope.receivedAtSend ++ (since ++ (s.clients i).inbox) := by
        rw [Client.link, ← hsince, List.append_assoc]
      rw [← hwired.delivered, ← hsince, hlog, List.drop_left, List.append_assoc,
        List.append_assoc]
  · have hpending : (s.clients i).pending = p :: ps := by
      rw [Client.pending, hstate, State.pending]
    exact ((h.link i).head_eq (hwired.next hin) hpending huuid).1

/-- For every client : the operations it edited are those it got back and then those pending,
it never waits with nothing pending, its operations in the history are those it got back and
perhaps the first pending one, at most one of its operations is outstanding, and its revision
counts what it received. -/
theorem no_edit_lost (hstart : start.Started documentUUID) (hreaches : Reaches start s) (i : ι) :
    let client := s.clients i
    let confirmed := (client.ownAmong client.received).map uuid
    client.edited.map uuid = confirmed ++ client.pending.map uuid ∧
    client.page.clientFsm.state ≠ .awaitConfirmationState [] ∧
    ((client.ownAmong (s.stores.recorded documentUUID)).map uuid = confirmed ∨
      ∃ p ps, client.pending = p :: ps ∧
        (client.ownAmong (s.stores.recorded documentUUID)).map uuid = confirmed ++ [p.uuid]) ∧
    client.outbox.length + (client.ownAmong client.inbox).length ≤ 1 ∧
    client.page.clientFsm.revision =
      (start.clients i).page.clientFsm.revision + client.received.length := by
  intro client confirmed
  have h := hstart.inv.of_reaches hreaches
  have hwired := h.wired i
  -- nothing recorded before the start is the client's
  have hbefore : client.ownAmong (start.stores.recorded documentUUID) = [] :=
    Client.ownAmong_eq_nil fun x hx hmade => h.made_since i _ hmade x hx rfl
  have hrecorded : client.ownAmong (s.stores.recorded documentUUID) =
      client.ownAmong client.link.log := by
    rw [← hwired.delivered, Client.ownAmong, List.filter_append, ← Client.ownAmong, hbefore]
    rfl
  refine ⟨Client.edited_eq (h.link i), ?_, ?_, Client.length_outstanding (h.link i), ?_⟩
  · rw [hwired.fsm]
    cases (s.clients i).pending <;> simp [State.ofPending]
  · rw [hrecorded]
    exact Client.ownAmong_log (h.link i)
  · obtain ⟨textArea, documentTitle, hi⟩ := hstart.clients i
    rw [hwired.fsm, hi]
    exact Int.natCast_add _ _

/-- Two clients have inserted at the start, the server has recorded both insertions, and the
second client has received only the first. -/
def concurrentInsertions : Session Bool :=
  Machine.after step (fun _ _ => True)
    [.edit false (.insert ⟨"a", 0, 97⟩), .edit true (.insert ⟨"b", 0, 98⟩), .serve false,
      .serve true, .deliver true] twoClients

theorem acknowledged_operation_eq_twoClients :
    ∃ p, (concurrentInsertions.clients true).inbox = [.insert ⟨"b", 1, 98⟩] ∧
      (concurrentInsertions.clients true).page.clientFsm.state = .awaitConfirmationState [p] ∧
      PlainTextSingleCharacterOperation.insert ⟨"b", 1, 98⟩ = p :=
  ⟨.insert ⟨"b", 1, 98⟩, by decide, by decide,
    (acknowledged_operation_eq twoClients_openedOn.started (Machine.reaches_after _ _) true).2
      _ [] _ []
      (show (concurrentInsertions.clients true).inbox = _ by decide)
      (show (concurrentInsertions.clients true).page.clientFsm.state = _ by decide) rfl⟩

theorem no_edit_lost_twoClients :
    (concurrentInsertions.clients true).edited.map uuid = ["b"] ∧
      (concurrentInsertions.clients true).pending.map uuid = ["b"] ∧
      (concurrentInsertions.clients true).outbox.length + ((concurrentInsertions.clients
        true).ownAmong (concurrentInsertions.clients true).inbox).length ≤ 1 :=
  ⟨by decide, by decide,
    (no_edit_lost twoClients_openedOn.started (Machine.reaches_after _ _) true).2.2.2.1⟩

end Session

end OtEditor
