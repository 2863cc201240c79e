import OtEditor.SessionLink
import OtEditor.InRange
import OtEditor.Lib.Replica

/-!
# When the texts converge

Each user edits honestly : in range on the text the client shows, deleting the character
that stands there (`Session.Honest`). The clients then hold replicas of the document
(`Replicas`), and these stay together as long as no broadcast meets either of two defects
where it is taken past the pending operations of a client (`NoDefect`) :

* two insertions at one position both move to the right, so if they insert different symbols
  the client and the server put them in different orders ;
* the client transforms each pending operation against the broadcast as it was received,
  not against the broadcast carried past the pending operations before.

In runs that avoid both, no `applyTo` throws (`no_applyTo_throws`), and once every message is
delivered and every client synchronized, all texts equal the server's (`texts_converge`).
Either defect breaks both.
-/

set_option linter.unusedSectionVars false

open Transformation

namespace OtEditor

open PlainTextSingleCharacterOperation PlainTextOperationsManager

/-- The next broadcast is the client's own, or it ties with no pending operation on its way
past them, and each pending operation is transformed against it as received in the same way
as against it carried past those before. -/
def NoDefect : (inbox pending : List PlainTextSingleCharacterOperation) → Prop
  | operation :: _, p :: ps => operation.uuid = p.uuid ∨
      NoClashAlong transformAgainst InsertTie operation (p :: ps) ∧
        AlikeAlong transformAgainst operation operation (p :: ps)
  | [], _ | _ :: _, [] => True

instance : ∀ inbox pending, Decidable (NoDefect inbox pending)
  | _ :: _, _ :: _ => inferInstanceAs (Decidable (_ ∨ _ ∧ _))
  | [], _ | _ :: _, [] => inferInstanceAs (Decidable True)

namespace Session

variable {ι : Type} [DecidableEq ι]

/-- An edit is in range on the text of its client. -/
def Honest (s : Session ι) : Action ι → Prop
  | .edit i operation => InRange (s.clients i).text operation
  | .serve _ | .deliver _ => True

instance (s : Session ι) : ∀ a, Decidable (s.Honest a)
  | .edit _ _ => inferInstanceAs (Decidable (InRange _ _))
  | .serve _ | .deliver _ => inferInstanceAs (Decidable True)

/-- The text at the start, the operations broadcast to a client and those it has pending leave
room in a Kotlin `String`. -/
def Room (content : Text) (client : Client) : Prop :=
  content.length + (client.received.length + client.inbox.length) + client.pending.length <
    intMaxValue

instance (content : Text) : DecidablePred (Room content) := fun _ =>
  inferInstanceAs (Decidable (_ < _))

/-- The steps that avoid the defects. -/
def Avoids (content : Text) (s : Session ι) : Action ι → Prop
  | .edit i operation => s.Honest (.edit i operation) ∧ Room content (s.clients i)
  | .serve i => Room content (s.clients i)
  | .deliver i => Room content (s.clients i) ∧
      NoDefect (s.clients i).inbox (s.clients i).pending

instance (content : Text) (s : Session ι) : ∀ a, Decidable (s.Avoids content a)
  | .edit _ _ => inferInstanceAs (Decidable (_ ∧ _))
  | .serve i => inferInstanceAs (Decidable (Room content (s.clients i)))
  | .deliver _ => inferInstanceAs (Decidable (_ ∧ _))

/-- No message is on its way, and every client is synchronized. -/
def Quiescent (s : Session ι) : Prop :=
  ∀ i, (s.clients i).outbox = [] ∧ (s.clients i).inbox = [] ∧
    (s.clients i).page.clientFsm.state = .synchronizedState

/-- The server stores the document at the revision of its history, and every client holds a
replica of it. -/
structure Replicas (documentUUID : String) (content : Text) (s : Session ι)
    (document : PlainTextDocument) : Prop where
  stored : s.stores.documents documentUUID = some document
  revision : document.revision = (s.stores.recorded documentUUID).length
  replica : ∀ i, (s.clients i).link.Replicates perform content document.content
    (s.clients i).text

variable {documentUUID : String} {history : List PlainTextSingleCharacterOperation}
  {content : Text} {document : PlainTextDocument} {s s' start : Session ι}

theorem OpenedOn.replicas (h : s.OpenedOn documentUUID document) :
    s.Replicas documentUUID document.content document where
  stored := h.stored
  revision := h.revision
  replica i := by
    obtain ⟨textArea, hi⟩ := h.clients i
    rw [hi]
    exact ⟨document.content, rfl, rfl, rfl⟩

namespace Replicas

variable (hr : s.Replicas documentUUID content document) (h : s.Inv documentUUID history) {i : ι}
include hr h

/-- With room to spare, an operation in range on the text of a client can be performed. -/
theorem perform_text (hroom : Room content (s.clients i))
    {operation : PlainTextSingleCharacterOperation}
    (hin : InRange (s.clients i).text operation) :
    ∃ text, perform operation (s.clients i).text = some text := by
  have hsize := (hr.replica i).size_text perform_guarded (h.link i).seen_le
  refine exists_perform hin (Nat.lt_of_le_of_lt hsize ?_)
  simpa [Room, Client.link] using hroom

section Serve

variable {envelope : Envelope} {outbox : List Envelope}
  (hout : (s.clients i).outbox = envelope :: outbox)
include hout

/-- What the server makes of a message is in range on the document. -/
theorem inRange_message : InRange document.content
    (carry transformAgainst envelope.message.operation
      ((s.clients i).link.log.drop envelope.receivedAtSend.length)) :=
  (hr.replica i).valid_flight perform_guarded (h.link i) (h.sent hout)

/-- A message is recorded and its operation performed. -/
theorem handleMessage_ok : ∃ operation content',
    operation = carry transformAgainst envelope.message.operation
      ((s.clients i).link.log.drop envelope.receivedAtSend.length) ∧
    operation.applyTo document.content = .ok content' ∧
    (handleMessage envelope.message).exec s.stores =
      (.ok operation, s.stores.record plainTextDocumentUpdater document content' operation) := by
  obtain ⟨content', happly⟩ := (hr.inRange_message h hout).exists_applyTo
  refine ⟨_, content', rfl, happly, ?_⟩
  simp only [h.exec_handleMessage hout, hr.stored, happly]

end Serve

/-- A broadcast of another client is, carried past the pending operations, in range on the
text. -/
theorem inRange_broadcast {operation : PlainTextSingleCharacterOperation}
    {inbox : List PlainTextSingleCharacterOperation}
    (hin : (s.clients i).inbox = operation :: inbox) :
    InRange (s.clients i).text
      (transformAgainstEach (s.clients i).pending operation plainTextOperationsManager) :=
  (hr.replica i).valid_next perform_guarded ((h.wired i).next hin)

/-- A client handles its next broadcast without an exception. -/
theorem onMessageReceived_ok {operation : PlainTextSingleCharacterOperation}
    {inbox : List PlainTextSingleCharacterOperation}
    (hin : (s.clients i).inbox = operation :: inbox) :
    ((onMessageReceived operation).exec (s.clients i).page).1 = .ok () := by
  have hfsm := (h.wired i).fsm
  by_cases hown : ∃ p ps, (s.clients i).pending = p :: ps ∧ operation.uuid = p.uuid
  · obtain ⟨p, ps, hpending, huuid⟩ := hown
    rw [hpending] at hfsm
    rw [exec_onMessageReceived_own hfsm huuid]
  · obtain ⟨text, happly⟩ := (hr.inRange_broadcast h hin).exists_applyTo
    rw [exec_onMessageReceived_other hfsm fun p ps hpending huuid => hown ⟨p, ps, hpending, huuid⟩]
    refine congrArg Prod.fst (exec_applyOperationLocally_ok _ text ?_)
    exact happly

/-! ## The steps keep the replicas together -/

omit h in
/-- A step of one client alone. -/
theorem update {client : Client} {usedUuids : List Text}
    (hclient : client.link.Replicates perform content document.content client.text) :
    (⟨s.stores, Function.update s.clients i client, usedUuids⟩ : Session ι).Replicas
      documentUUID content document := by
  refine ⟨hr.stored, hr.revision, fun j => ?_⟩
  by_cases hji : j = i
  · subst hji
    simp only [Function.update_self]
    exact hclient
  · simp only [Function.update_of_ne hji]
    exact hr.replica j

theorem edit {operation : PlainTextSingleCharacterOperation} {usedUuids : List Text}
    (hin : InRange (s.clients i).text operation) (hroom : Room content (s.clients i)) :
    (⟨s.stores, Function.update s.clients i ((s.clients i).edit operation), usedUuids⟩ :
      Session ι).Replicas documentUUID content document := by
  obtain ⟨text, hperform⟩ := hr.perform_text h hroom hin
  have hlink := (h.wired i).link_edit operation
  have htext : ((s.clients i).edit operation).text = text := by
    rw [Client.edit_eq (h.wired i).fsm (h.wired i).sent]
    show (applied operation (s.clients i).text).getD _ = text
    rw [applied_eq_some.2 (perform_eq_some.1 hperform).2.1]
    rfl
  refine hr.update ?_
  rw [htext]
  exact (hr.replica i).make hperform (by rw [hlink]) (by rw [hlink]) (by rw [hlink])

theorem serve {envelope : Envelope} {outbox : List Envelope}
    (hout : (s.clients i).outbox = envelope :: outbox) (hroom : Room content (s.clients i))
    {operation : PlainTextSingleCharacterOperation} {content' : Text}
    (hoperation : operation = carry transformAgainst envelope.message.operation
      ((s.clients i).link.log.drop envelope.receivedAtSend.length))
    (happly : operation.applyTo document.content = .ok content') :
    ∃ document', (⟨s.stores.record plainTextDocumentUpdater document content' operation,
      fun j => (Function.update s.clients i { s.clients i with outbox } j).hear
        envelope.message.documentUUID operation, s.usedUuids⟩ : Session ι).Replicas
          documentUUID content document' := by
  obtain ⟨hid, -, -⟩ := (h.wired i).outbox envelope (by simp [hout])
  obtain rfl : document.uuid = documentUUID := h.stored document hr.stored
  have hperform : perform operation document.content = some content' := by
    have hsize := (hr.replica i).size_doc perform_guarded (h.link i).seen_le
    have hin := hr.inRange_message h hout
    rw [← hoperation] at hin
    obtain ⟨content₁, hcontent₁⟩ := exists_perform hin (by
      simp only [Room, Client.link, List.length_append] at hroom hsize
      omega)
    obtain rfl := Except.ok.inj ((perform_eq_some.1 hcontent₁).2.1.symm.trans happly)
    exact hcontent₁
  refine ⟨_, s.stores.documents_record_plainText document content' operation, ?_, fun j => ?_⟩
  · rw [s.stores.recorded_record_plainText, List.length_append]
    exact congrArg (· + 1) hr.revision
  · have hle := (h.link j).seen_le
    simp only [hid]
    by_cases hji : j = i
    · subst hji
      rw [Function.update_self]
      have hwired := (h.wired j).tail hout
      have hlink := (hwired.hear operation).2
      rw [Client.text_hear]
      exact (hr.replica j).append hperform hle (by rw [hlink]; rfl) (by rw [hlink]; rfl)
        (by rw [hlink]; rfl)
    · rw [Function.update_of_ne hji]
      have hlink := ((h.wired j).hear operation).2
      rw [Client.text_hear]
      exact (hr.replica j).append hperform hle (by rw [hlink]) (by rw [hlink]) (by rw [hlink])

theorem deliver {operation : PlainTextSingleCharacterOperation}
    {inbox : List PlainTextSingleCharacterOperation} {usedUuids : List Text}
    (hin : (s.clients i).inbox = operation :: inbox) (hroom : Room content (s.clients i))
    (hdefect : NoDefect (s.clients i).inbox (s.clients i).pending) :
    (⟨s.stores, Function.update s.clients i
      (Client.receive { s.clients i with inbox } operation), usedUuids⟩ :
        Session ι).Replicas documentUUID content document := by
  have hwired := h.wired i
  have hnext := hwired.next hin
  refine hr.update ?_
  by_cases hown : ∃ p ps, (s.clients i).pending = p :: ps ∧ operation.uuid = p.uuid
  · obtain ⟨p, ps, hpending, huuid⟩ := hown
    have hlink := hwired.link_receive_own hin hpending huuid
    have htext : (Client.receive { s.clients i with inbox } operation).text =
        (s.clients i).text := by
      rw [hwired.receive_own_eq hin hpending huuid]
      rfl
    obtain ⟨rfl, -⟩ := (h.link i).head_eq hnext hpending huuid
    rw [htext]
    exact (hr.replica i).confirm hnext hpending (by rw [hlink]) (by rw [hlink]) (by rw [hlink])
  · have hother : ∀ p ps, (s.clients i).pending = p :: ps → operation.uuid ≠ p.uuid :=
      fun p ps hpending huuid => hown ⟨p, ps, hpending, huuid⟩
    have hlink := hwired.link_receive_other hin hother
    have hclean : NoClashAlong transformAgainst InsertTie operation (s.clients i).pending ∧
        AlikeAlong transformAgainst operation operation (s.clients i).pending := by
      rw [hin] at hdefect
      cases hpending : (s.clients i).pending with
      | nil => exact ⟨trivial, trivial⟩
      | cons p ps =>
        rw [hpending] at hdefect
        exact hdefect.resolve_left (hother p ps hpending)
    obtain ⟨text, hperform⟩ := hr.perform_text h hroom (hr.inRange_broadcast h hin)
    rw [hwired.text_receive_other hin hother (perform_eq_some.1 hperform).2.1]
    refine (hr.replica i).take perform_guarded hnext (h.link i).seen_le hclean.1 ?_ hperform
      (by rw [hlink]) (by rw [hlink]) ?_
    · simpa [Room, Client.link] using hroom
    · rw [hlink]
      exact map_eq_rebase transformAgainst operation _ operation hclean.2

/-- A step that avoids the defects keeps the replicas together. -/
theorem step {a : Action ι} (havoids : s.Avoids content a) (hstep : s.step a = some s') :
    ∃ document', s'.Replicas documentUUID content document' := by
  cases a with
  | edit i operation =>
    obtain ⟨-, rfl⟩ := step_edit hstep
    exact ⟨document, hr.edit h havoids.1 havoids.2⟩
  | serve i =>
    obtain ⟨envelope, outbox, hout, hserve⟩ := step_serve hstep
    obtain ⟨operation, content', hoperation, happly, hok⟩ := hr.handleMessage_ok h hout
    rcases hserve with ⟨e, stores, hexec, rfl⟩ | ⟨operation', stores, hexec, rfl⟩
    · cases hexec.symm.trans hok
    · obtain ⟨hoperation', rfl⟩ := Prod.mk.inj (hexec.symm.trans hok)
      obtain rfl := Except.ok.inj hoperation'
      exact hr.serve h hout havoids hoperation happly
  | deliver i =>
    obtain ⟨operation, inbox, hin, rfl⟩ := step_deliver hstep
    exact ⟨document, hr.deliver h hin havoids.1 havoids.2⟩

end Replicas

/-! ## Runs -/

/-- Runs that avoid the defects lead to replicas of one document. -/
theorem OpenedOn.of_reaches (hstart : start.OpenedOn documentUUID document)
    (hreaches : Machine.Reaches step (Avoids document.content) start s) :
    s.Inv documentUUID (start.stores.recorded documentUUID) ∧
      ∃ document', s.Replicas documentUUID document.content document' := by
  have hkeep : ∀ (s : Session ι) a s', (s.Inv documentUUID (start.stores.recorded documentUUID) ∧
      ∃ document', s.Replicas documentUUID document.content document') →
      s.Avoids document.content a → s.step a = some s' →
      s'.Inv documentUUID (start.stores.recorded documentUUID) ∧
        ∃ document', s'.Replicas documentUUID document.content document' := by
    rintro s a s' ⟨hinv, document', hreplicas⟩ havoids hstep
    exact ⟨(hinv.step hstep).1, hreplicas.step hinv havoids hstep⟩
  exact Machine.Reaches.invariant hkeep ⟨hstart.started.inv, document, hstart.replicas⟩ hreaches

/-- In a run that avoids the defects, once every message is delivered and every client is
synchronized, every client shows the content of the document at its revision. -/
theorem texts_converge (hstart : start.OpenedOn documentUUID document)
    (hreaches : Machine.Reaches step (Avoids document.content) start s)
    (hquiet : s.Quiescent) :
    ∃ document', s.stores.documents documentUUID = some document' ∧
      ∀ i, (s.clients i).text = document'.content ∧
        (s.clients i).page.clientFsm.revision = document'.revision := by
  obtain ⟨hinv, document', hreplicas⟩ := hstart.of_reaches hreaches
  refine ⟨document', hreplicas.stored, fun i => ?_⟩
  obtain ⟨-, hinbox, hstate⟩ := hquiet i
  have hqueue : (s.clients i).link.queue = [] := by
    rw [Client.link, Client.pending, hstate, State.pending]
  have hunseen : (s.clients i).link.unseen = [] := by
    simp [Link.unseen, Client.link, hinbox]
  have hdelivered := (hinv.wired i).delivered
  rw [hinbox, List.append_nil] at hdelivered
  refine ⟨(hreplicas.replica i).eq_of_quiet hunseen hqueue, ?_⟩
  rw [(hinv.wired i).fsm, hreplicas.revision, ← hdelivered, List.length_append]

/-- In a run that avoids the defects no `applyTo` throws : the server records the next message
of every client, and every client handles its next broadcast. -/
theorem no_applyTo_throws (hstart : start.OpenedOn documentUUID document)
    (hreaches : Machine.Reaches step (Avoids document.content) start s) (i : ι) :
    (∀ envelope outbox, (s.clients i).outbox = envelope :: outbox →
      ∃ operation, ((handleMessage envelope.message).exec s.stores).1 = .ok operation) ∧
    ∀ operation inbox, (s.clients i).inbox = operation :: inbox →
      ((onMessageReceived operation).exec (s.clients i).page).1 = .ok () := by
  obtain ⟨hinv, document', hreplicas⟩ := hstart.of_reaches hreaches
  refine ⟨fun envelope outbox hout => ?_, fun operation inbox hin =>
    hreplicas.onMessageReceived_ok hinv hin⟩
  obtain ⟨operation, content', -, -, hok⟩ := hreplicas.handleMessage_ok hinv hout
  exact ⟨operation, congrArg Prod.fst hok⟩

/-- Both clients edit `kek` at once, at different places, and all is delivered. -/
def editsApart : Session Bool :=
  Machine.after step (Avoids (utf16 "kek"))
    [.edit false (.insert ⟨"a", 0, 97⟩), .edit true (.delete ⟨"b", 2, 107⟩), .serve false,
      .serve true, .deliver true, .deliver false, .deliver false, .deliver true] twoClients

theorem texts_converge_editsApart :
    editsApart.Quiescent ∧ (editsApart.clients true).text = utf16 "ake" ∧
      ∃ document, editsApart.stores.documents "2" = some document ∧
        ∀ i, (editsApart.clients i).text = document.content ∧
          (editsApart.clients i).page.clientFsm.revision = document.revision :=
  have hquiet : editsApart.Quiescent := by
    show ∀ i, _
    decide
  ⟨hquiet, by decide, texts_converge twoClients_openedOn (Machine.reaches_after _ _) hquiet⟩

/-- The first client has inserted, and the second has deleted before that reached it. -/
def deletionOnItsWay : Session Bool :=
  Machine.after step (Avoids (utf16 "kek"))
    [.edit false (.insert ⟨"a", 0, 97⟩), .edit true (.delete ⟨"b", 2, 107⟩), .serve false]
    twoClients

theorem no_applyTo_throws_deletionOnItsWay :
    ∃ operation, ((handleMessage ⟨"2", 0, .delete ⟨"b", 2, 107⟩⟩).exec
      deletionOnItsWay.stores).1 = .ok operation :=
  (no_applyTo_throws twoClients_openedOn (Machine.reaches_after _ _) true).1
    ⟨⟨"2", 0, .delete ⟨"b", 2, 107⟩⟩, []⟩ []
    (show (deletionOnItsWay.clients true).outbox = _ by decide)

/-! ## The defects -/

/-- Both clients insert a letter at the start of `kek` at once. -/
def insertsTied : Session Bool :=
  Machine.after step Honest
    [.edit false (.insert ⟨"a", 0, 97⟩), .edit true (.insert ⟨"b", 0, 98⟩), .serve false,
      .serve true, .deliver false, .deliver false, .deliver true, .deliver true] twoClients

/-- The server and the first client have the letters in one order, the second client in the
other. -/
theorem insertsTied_diverge :
    twoClients.OpenedOn "2" ⟨"2", 0, utf16 "kek", "Document 2"⟩ ∧
      Machine.Reaches step Honest twoClients insertsTied ∧ insertsTied.Quiescent ∧
      (insertsTied.stores.documents "2").map PlainTextDocument.content = some (utf16 "abkek") ∧
      (insertsTied.clients false).text = utf16 "abkek" ∧
      (insertsTied.clients true).text = utf16 "bakek" :=
  ⟨twoClients_openedOn, Machine.reaches_after _ _, by show ∀ i, _; decide, by decide, by decide,
    by decide⟩

/-- Then the second client deletes the letter it sees at the start. -/
def deletionAfterTie : Session Bool :=
  Machine.after step Honest [.edit true (.delete ⟨"c", 0, 98⟩)] insertsTied

/-- The server finds the other letter there and throws. -/
theorem deletionAfterTie_throws :
    twoClients.OpenedOn "2" ⟨"2", 0, utf16 "kek", "Document 2"⟩ ∧
      Machine.Reaches step Honest twoClients deletionAfterTie ∧
      (deletionAfterTie.clients true).outbox.map Envelope.message =
        [⟨"2", 2, .delete ⟨"c", 0, 98⟩⟩] ∧
      ((handleMessage ⟨"2", 2, .delete ⟨"c", 0, 98⟩⟩).exec deletionAfterTie.stores).1 =
        .error (DeleteOperation.failure ⟨"c", 0, 98⟩ 97) :=
  ⟨twoClients_openedOn, (Machine.reaches_after _ _).trans (Machine.reaches_after _ _), by decide,
    by decide⟩

/-- Two pending insertions and one of the other client, at three places : the second pending
one is moved as if the first did not stand before it. -/
def secondMisplaced : Session Bool :=
  Machine.after step Honest
    [.edit true (.insert ⟨"x", 0, 120⟩), .edit true (.insert ⟨"y", 1, 121⟩),
      .edit false (.insert ⟨"z", 1, 122⟩), .serve false, .serve true, .deliver true,
      .deliver true, .serve true, .deliver true, .deliver false, .deliver false,
      .deliver false] twoClients

example : secondMisplaced.Quiescent ∧
    (secondMisplaced.clients false).text = utf16 "xkyzek" ∧
    (secondMisplaced.clients true).text = utf16 "xykzek" := by
  refine ⟨by show ∀ i, _; decide, ?_⟩
  decide

end Session

end OtEditor
