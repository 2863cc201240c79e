import OtEditor.Session

/-!
# Joining a document

A client that opens a document first gets its content and revision, and only when its socket
connects subscribes to the operations. In between other clients go on, and nothing tells the
joining client what it missed. So once it has handled all it was sent, it shows the
document at the server's revision if and only if the server recorded nothing for the document
between the two steps (`joined_upToDate_iff`).
-/

namespace OtEditor

/-- A client that joins. It has not loaded the document, or shows it without hearing of its
operations, or is subscribed, with the broadcasts it has not handled. -/
inductive Joiner where
  | outside
  | loaded (page : Page)
  | subscribed (page : Page) (inbox : List PlainTextSingleCharacterOperation)
  deriving DecidableEq

namespace Joiner

/-- A broadcast on the topic of a document. -/
def hear (documentUUID : String) (operation : PlainTextSingleCharacterOperation) :
    Joiner → Joiner
  | .subscribed page inbox =>
    if page.curDocumentUUID = documentUUID then .subscribed page (inbox ++ [operation])
    else .subscribed page inbox
  | joiner => joiner

/-- The client has loaded the document and does not hear of its operations. -/
def isLoaded : Joiner → Bool
  | .loaded _ => true
  | .outside | .subscribed _ _ => false

end Joiner

/-- The server and a client that joins. -/
structure Joining where
  stores : PlainTextStores
  joiner : Joiner

namespace Joining

/-- What can happen while a client joins : the server handles a message of another client, or
the joining client loads the document, has its socket connected, or handles a broadcast. -/
inductive Action where
  | serve (message : Message)
  | load (textArea : TextArea)
  | subscribe
  | deliver

/-- One step, if it is possible. -/
def step (documentUUID : String) (s : Joining) : Action → Option Joining
  | .serve message =>
    match (handleMessage message).exec s.stores with
    | (.ok operation, stores) => some ⟨stores, s.joiner.hear message.documentUUID operation⟩
    | (.error _, stores) => some { s with stores }
  | .load textArea =>
    match s.joiner, (DocumentController.getDocument documentUUID).exec s.stores with
    | .outside, (.ok document, stores) =>
      some ⟨stores, .loaded (loadDocument textArea documentUUID document)⟩
    | _, _ => none
  | .subscribe =>
    match s.joiner with
    | .loaded page => some { s with joiner := .subscribed page [] }
    | _ => none
  | .deliver =>
    match s.joiner with
    | .subscribed page (operation :: inbox) =>
      some { s with joiner := .subscribed ((onMessageReceived operation).exec page).2 inbox }
    | _ => none

/-- The server knows the document, at the revision of its history, and nobody has joined. -/
structure Started (documentUUID : String) (s : Joining) : Prop where
  ownUuid : s.stores.OwnUuid
  known : ∃ document, s.stores.documents documentUUID = some document ∧
    document.revision = (s.stores.recorded documentUUID).length
  outside : s.joiner = .outside

/-- The server finds the document of a message, and the operation, transformed, applies. -/
def accepts (stores : PlainTextStores) (message : Message) : Bool :=
  match stores.concurrent message.documentUUID message.revision,
    stores.documents message.documentUUID with
  | .ok concurrentOperations, some document =>
    (applied (transformAgainstEach concurrentOperations message.operation
      plainTextOperationsManager) document.content).isSome
  | _, _ => false

/-- The steps that make the client miss nothing : while it shows the document and is not
subscribed, the server accepts no operation for the document. -/
def InTime (documentUUID : String) (s : Joining) : Action → Prop
  | .serve message =>
    s.joiner.isLoaded → message.documentUUID = documentUUID → accepts s.stores message = false
  | .load _ | .subscribe | .deliver => True

instance (documentUUID : String) (s : Joining) : ∀ a, Decidable (InTime documentUUID s a)
  | .serve _ => inferInstanceAs (Decidable (_ → _ → _))
  | .load _ | .subscribe | .deliver => inferInstanceAs (Decidable True)

/-! ## What the server does with a message -/

variable {documentUUID : String} {missed : ℕ} {document : PlainTextDocument} {page : Page}
  {inbox : List PlainTextSingleCharacterOperation} {s s' : Joining}

/-- A message that is not accepted throws and changes nothing, and an accepted one is
transformed and recorded. -/
theorem handleMessage_cases {stores : PlainTextStores} (hown : stores.OwnUuid)
    (message : Message) :
    (accepts stores message = false ∧
      ∃ e, (handleMessage message).exec stores = (.error e, stores)) ∨
    accepts stores message = true ∧ ∃ operation document content,
      stores.documents message.documentUUID = some document ∧
      applied operation document.content = some content ∧
      (handleMessage message).exec stores =
        (.ok operation, stores.record plainTextDocumentUpdater document content operation) := by
  unfold accepts
  cases hdocument : stores.documents message.documentUUID with
  | none =>
    refine Or.inl ⟨?_, _, exec_sendMessage_unknown _ _ hdocument _ _⟩
    cases stores.concurrent message.documentUUID message.revision <;> rfl
  | some document =>
    rw [handleMessage, exec_sendMessage plainTextOperationsManager plainTextDocumentUpdater_lawful
      hdocument (hown _ _ hdocument), exec_receiveOperation, hdocument]
    cases stores.concurrent message.documentUUID message.revision with
    | error e => exact Or.inl ⟨rfl, e, rfl⟩
    | ok concurrentOperations =>
      simp only
      cases happly : Operation.applyTo (transformAgainstEach concurrentOperations
        message.operation plainTextOperationsManager) (Document.content document) with
      | error e =>
        refine Or.inl ⟨?_, e, rfl⟩
        show (Except.toOption (Operation.applyTo _ (Document.content document))).isSome = false
        rw [happly]
        rfl
      | ok content =>
        have happlied := applied_eq_some.2 happly
        exact Or.inr ⟨Option.isSome_of_mem happlied, _, document, content, rfl, happlied, rfl⟩

/-! ## The joining client follows the document, less what it missed -/

/-- The page is synchronized at the revision of the document, less the operations it will
still get and those it missed. If it missed none, those it will get lead to the content. -/
structure Follows (documentUUID : String) (missed : ℕ) (document : PlainTextDocument)
    (page : Page) (inbox : List PlainTextSingleCharacterOperation) : Prop where
  curDocumentUUID : page.curDocumentUUID = documentUUID
  clientFsm : page.clientFsm =
    ⟨document.revision - inbox.length - missed, .synchronizedState⟩
  text : missed = 0 → appliedAll inbox page.textArea.value = some document.content

namespace Follows

theorem load (textArea : TextArea) :
    Follows documentUUID 0 document (loadDocument textArea documentUUID document) [] := by
  refine ⟨rfl, ?_, fun _ => rfl⟩
  simp [loadDocument]

/-- The client handles a broadcast. If it missed none, the broadcast applies to its text. -/
theorem deliver {operation : PlainTextSingleCharacterOperation}
    (h : Follows documentUUID missed document page (operation :: inbox)) :
    Follows documentUUID missed document ((onMessageReceived operation).exec page).2 inbox := by
  have hcount : document.revision - (operation :: inbox).length - missed + 1 =
      document.revision - inbox.length - missed := by
    rw [List.length_cons]
    omega
  rw [exec_onMessageReceived_synchronized operation h.clientFsm, hcount]
  set synchronized : Page := { page with
    clientFsm := ⟨document.revision - inbox.length - missed, .synchronizedState⟩ }
  obtain ⟨textArea, hframe⟩ := exec_applyOperationLocally_frame operation synchronized
  refine ⟨?_, ?_, fun hmissed => ?_⟩
  · rw [hframe]
    exact h.curDocumentUUID
  · rw [hframe]
  · obtain ⟨content, happlied, hrest⟩ := Option.bind_eq_some_iff.1 (h.text hmissed)
    rw [exec_applyOperationLocally_ok synchronized content (applied_eq_some.1 happlied)]
    exact hrest

/-- The server records an operation, and the client hears of it. -/
theorem hear {operation : PlainTextSingleCharacterOperation} {content : Text}
    (h : Follows documentUUID missed document page inbox)
    (happlied : applied operation document.content = some content) :
    Follows documentUUID missed { document with content, revision := document.revision + 1 }
      page (inbox ++ [operation]) := by
  refine ⟨h.curDocumentUUID, ?_, fun hmissed => ?_⟩
  · rw [h.clientFsm]
    simp only [List.length_append, List.length_singleton, ClientFSM.mk.injEq, and_true]
    omega
  · have htext := h.text hmissed
    rw [appliedAll] at htext ⊢
    rw [Transformation.actAll_append, htext, Option.bind_some, Transformation.actAll_cons,
      happlied]
    rfl

/-- The server records an operation, and the client does not hear of it. -/
theorem miss (content : Text) (h : Follows documentUUID missed document page inbox) :
    Follows documentUUID (missed + 1)
      { document with content, revision := document.revision + 1 } page inbox := by
  refine ⟨h.curDocumentUUID, ?_, fun hmissed => absurd hmissed (Nat.succ_ne_zero missed)⟩
  rw [h.clientFsm]
  simp only [ClientFSM.mk.injEq, and_true]
  omega

end Follows

/-- The joining client follows the document, if it has loaded it. -/
def Lags (documentUUID : String) (missed : ℕ)
    (document : PlainTextDocument) : Joiner → Prop
  | .outside => missed = 0
  | .loaded page => Follows documentUUID missed document page []
  | .subscribed page inbox => Follows documentUUID missed document page inbox

/-- What every step keeps, with the number of operations missed so far. -/
structure Inv (documentUUID : String) (missed : ℕ) (s : Joining) : Prop where
  ownUuid : s.stores.OwnUuid
  known : ∃ document, s.stores.documents documentUUID = some document ∧
    document.revision = (s.stores.recorded documentUUID).length ∧
    Lags documentUUID missed document s.joiner

theorem Started.inv (h : s.Started documentUUID) : s.Inv documentUUID 0 := by
  obtain ⟨document, hdocument, hrevision⟩ := h.known
  refine ⟨h.ownUuid, document, hdocument, hrevision, ?_⟩
  rw [h.outside]
  rfl

namespace Lags

variable {joiner : Joiner}

/-- The server records an operation for the document : the client misses it if it has loaded
the document and is not subscribed. -/
theorem record {operation : PlainTextSingleCharacterOperation} {content : Text}
    (h : Lags documentUUID missed document joiner)
    (happlied : applied operation document.content = some content) :
    Lags documentUUID (if joiner.isLoaded then missed + 1 else missed)
      { document with content, revision := document.revision + 1 }
      (joiner.hear documentUUID operation) := by
  cases joiner with
  | outside => exact h
  | loaded page => exact Follows.miss content h
  | subscribed page inbox =>
    rw [Joiner.hear, if_pos (Follows.curDocumentUUID h)]
    exact Follows.hear h happlied

/-- A broadcast on the topic of another document does not reach the client. -/
theorem hear_eq {other : String} (hother : other ≠ documentUUID)
    (h : Lags documentUUID missed document joiner)
    (operation : PlainTextSingleCharacterOperation) : joiner.hear other operation = joiner := by
  cases joiner with
  | outside => rfl
  | loaded page => rfl
  | subscribed page inbox =>
    rw [Joiner.hear, if_neg]
    rw [Follows.curDocumentUUID h]
    exact hother.symm

end Lags

namespace Inv

section Record

variable {operation : PlainTextSingleCharacterOperation} {document' : PlainTextDocument}
  {content : Text}

/-- The server records an operation for the document. -/
theorem record_self (h : s.Inv documentUUID missed)
    (hdocument : s.stores.documents documentUUID = some document')
    (happlied : applied operation document'.content = some content) :
    Inv documentUUID (if s.joiner.isLoaded then missed + 1 else missed)
      ⟨s.stores.record plainTextDocumentUpdater document' content operation,
        s.joiner.hear documentUUID operation⟩ := by
  obtain ⟨document, hknown, hrevision, hlags⟩ := h.known
  obtain rfl : document = document' := Option.some.inj (hknown.symm.trans hdocument)
  obtain rfl : document.uuid = documentUUID := h.ownUuid _ _ hdocument
  refine ⟨h.ownUuid.record plainTextDocumentUpdater_lawful, _,
    s.stores.documents_record_plainText document content operation, ?_, hlags.record happlied⟩
  rw [s.stores.recorded_record_plainText, List.length_append]
  exact congrArg (· + 1) hrevision

/-- The server records an operation for another document. -/
theorem record_other (h : s.Inv documentUUID missed) (hother : document'.uuid ≠ documentUUID) :
    Inv documentUUID missed
      ⟨s.stores.record plainTextDocumentUpdater document' content operation,
        s.joiner.hear document'.uuid operation⟩ := by
  obtain ⟨document, hknown, hrevision, hlags⟩ := h.known
  have hu := plainTextDocumentUpdater_lawful
  refine ⟨h.ownUuid.record hu, document, ?_, ?_, ?_⟩
  · rwa [Stores.documents_record_of_ne hu hother.symm]
  · rwa [Stores.recorded_record_of_ne hother.symm]
  · rwa [hlags.hear_eq hother]

end Record

/-- The number of operations missed grows by one if the server accepts an operation for the
document while the client has loaded it and is not subscribed, and else stays as it is. -/
theorem step_serve {message : Message} (h : s.Inv documentUUID missed)
    (hstep : step documentUUID s (.serve message) = some s') :
    ∃ missed', s'.Inv documentUUID missed' ∧ missed ≤ missed' ∧
      (missed' = missed ↔ InTime documentUUID s (.serve message)) := by
  simp only [step] at hstep
  rcases handleMessage_cases h.ownUuid message with
    ⟨hrefused, e, hexec⟩ | ⟨haccepted, operation, document, content, hdocument, happlied, hexec⟩
  · rw [hexec] at hstep
    obtain rfl := Option.some.inj hstep
    exact ⟨missed, h, Nat.le_refl missed, iff_of_true rfl fun _ _ => hrefused⟩
  rw [hexec] at hstep
  obtain rfl := Option.some.inj hstep
  by_cases hmessage : message.documentUUID = documentUUID
  · rw [hmessage] at hdocument ⊢
    refine ⟨_, h.record_self hdocument happlied, ?_, ?_⟩
    · split_ifs <;> omega
    · simp [InTime, hmessage, haccepted]
  · have hid : document.uuid = message.documentUUID := h.ownUuid _ _ hdocument
    rw [← hid] at hmessage ⊢
    exact ⟨missed, h.record_other hmessage, Nat.le_refl missed,
      iff_of_true rfl fun _ heq => absurd (hid.trans heq) hmessage⟩

theorem step_load {textArea : TextArea} (h : s.Inv documentUUID missed)
    (hstep : step documentUUID s (.load textArea) = some s') : s'.Inv documentUUID missed := by
  obtain ⟨document, hknown, hrevision, hlags⟩ := h.known
  have hget : (DocumentController.getDocument documentUUID).exec s.stores =
      (.ok document, s.stores) := by
    have hexec := exec_getDocument s.stores documentUUID
    rwa [hknown] at hexec
  obtain ⟨stores, joiner⟩ := s
  cases joiner with
  | outside =>
    simp only [step, hget] at hstep
    obtain rfl := Option.some.inj hstep
    obtain rfl : missed = 0 := hlags
    exact ⟨h.ownUuid, document, hknown, hrevision, Follows.load textArea⟩
  | loaded page => cases hstep
  | subscribed page inbox => cases hstep

theorem step_subscribe (h : s.Inv documentUUID missed)
    (hstep : step documentUUID s .subscribe = some s') : s'.Inv documentUUID missed := by
  obtain ⟨stores, joiner⟩ := s
  cases joiner with
  | loaded page =>
    obtain rfl := Option.some.inj hstep
    exact ⟨h.ownUuid, h.known⟩
  | outside => cases hstep
  | subscribed page inbox => cases hstep

theorem step_deliver (h : s.Inv documentUUID missed)
    (hstep : step documentUUID s .deliver = some s') : s'.Inv documentUUID missed := by
  obtain ⟨stores, joiner⟩ := s
  obtain ⟨document, hknown, hrevision, hlags⟩ := h.known
  rcases joiner with _ | page | ⟨page, _ | ⟨operation, inbox⟩⟩
  · cases hstep
  · cases hstep
  · cases hstep
  · obtain rfl := Option.some.inj hstep
    exact ⟨h.ownUuid, document, hknown, hrevision, Follows.deliver hlags⟩

/-- The client misses an operation exactly at the steps that are not in time. -/
theorem step (h : s.Inv documentUUID missed) {a : Action}
    (hstep : step documentUUID s a = some s') :
    ∃ missed', s'.Inv documentUUID missed' ∧ missed ≤ missed' ∧
      (missed' = missed ↔ InTime documentUUID s a) := by
  cases a with
  | serve message => exact h.step_serve hstep
  | load textArea =>
    exact ⟨missed, h.step_load hstep, Nat.le_refl missed, iff_of_true rfl trivial⟩
  | subscribe => exact ⟨missed, h.step_subscribe hstep, Nat.le_refl missed, iff_of_true rfl trivial⟩
  | deliver => exact ⟨missed, h.step_deliver hstep, Nat.le_refl missed, iff_of_true rfl trivial⟩

/-- With nothing left to handle, the page is up to date if and only if nothing was missed. -/
theorem upToDate_iff (h : s.Inv documentUUID missed) (hjoined : s.joiner = .subscribed page []) :
    (page.clientFsm.revision = (s.stores.recorded documentUUID).length ∧
      (s.stores.documents documentUUID).map PlainTextDocument.content =
        some page.textArea.value) ↔ missed = 0 := by
  obtain ⟨document, hknown, hrevision, hlags⟩ := h.known
  rw [hjoined] at hlags
  have hfsm : page.clientFsm.revision = document.revision - missed := by
    rw [Follows.clientFsm hlags]
    simp
  rw [hfsm, ← hrevision, hknown]
  constructor
  · rintro ⟨hcount, -⟩
    omega
  · rintro rfl
    have htext := Option.some.inj (Follows.text hlags rfl)
    exact ⟨by simp, congrArg some htext.symm⟩

end Inv

/-! ## Runs -/

/-- After any run of a client that joined and handled every broadcast : its revision counts
the history of the document and its text is the content, if and only if the server accepted
no operation for the document between the loading and the subscription. -/
theorem joined_upToDate_iff {start : Joining} (hstart : start.Started documentUUID)
    (actions : List Action)
    (hrun : Machine.follow (step documentUUID) (fun _ _ => True) actions start = some s)
    (hjoined : s.joiner = .subscribed page []) :
    (page.clientFsm.revision = (s.stores.recorded documentUUID).length ∧
      (s.stores.documents documentUUID).map PlainTextDocument.content =
        some page.textArea.value) ↔
    Machine.follow (step documentUUID) (InTime documentUUID) actions start = some s := by
  have hsteps : ∀ missed (s : Joining) a t, s.Inv documentUUID missed →
      step documentUUID s a = some t → ∃ missed', t.Inv documentUUID missed' ∧
        missed ≤ missed' ∧ (missed' = missed ↔ InTime documentUUID s a) :=
    fun _ _ _ _ h hstep => h.step hstep
  obtain ⟨missed, hinv, -, hcount⟩ := Machine.follow_counts hsteps actions hstart.inv hrun
  rw [hinv.upToDate_iff hjoined, hcount]

/-- A client that will join the second document the server starts with, `kek`. -/
def newcomer : Joining :=
  ⟨initialStores, .outside⟩

theorem newcomer_started : newcomer.Started "2" :=
  ⟨fresh_initialStores.ownUuid, ⟨⟨"2", 0, utf16 "kek", "Document 2"⟩, by decide, rfl⟩, rfl⟩

/-- Insertions are accepted before the client loads the document and after it subscribes. -/
def joinedInTime : Joining :=
  Machine.after (step "2") (fun _ _ => True)
    [.serve ⟨"2", 0, .insert ⟨"a", 0, 97⟩⟩, .load ⟨[], none, none⟩, .subscribe,
      .serve ⟨"2", 0, .insert ⟨"b", 0, 98⟩⟩, .deliver] newcomer

theorem joined_upToDate_iff_joinedInTime :
    let page : Page := ⟨⟨2, .synchronizedState⟩, ⟨utf16 "abkek", none, none⟩, "Document 2", "2", []⟩
    joinedInTime.joiner = .subscribed page [] ∧
      page.clientFsm.revision = (joinedInTime.stores.recorded "2").length ∧
      (joinedInTime.stores.documents "2").map PlainTextDocument.content =
        some page.textArea.value :=
  have hjoined : joinedInTime.joiner = .subscribed ⟨⟨2, .synchronizedState⟩,
      ⟨utf16 "abkek", none, none⟩, "Document 2", "2", []⟩ [] := by decide
  ⟨hjoined, (joined_upToDate_iff newcomer_started _ (Machine.follow_eq_after (by decide))
    hjoined).2 rfl⟩

/-- An insertion is accepted after the client loads the document and before it subscribes. -/
def joinedLate : Joining :=
  Machine.after (step "2") (fun _ _ => True)
    [.load ⟨[], none, none⟩, .serve ⟨"2", 0, .insert ⟨"a", 0, 97⟩⟩, .subscribe] newcomer

/-- The client has nothing left to handle, and neither the revision nor the text of the
document. -/
theorem joinedLate_falls_behind :
    newcomer.Started "2" ∧
      Machine.Reaches (step "2") (fun _ _ => True) newcomer joinedLate ∧
      joinedLate.joiner = .subscribed ⟨⟨0, .synchronizedState⟩, ⟨utf16 "kek", none, none⟩,
        "Document 2", "2", []⟩ [] ∧
      (joinedLate.stores.recorded "2").length = 1 ∧
      (joinedLate.stores.documents "2").map PlainTextDocument.content = some (utf16 "akek") :=
  ⟨newcomer_started, Machine.reaches_after _ _, by decide, by decide, by decide⟩

end Joining

end OtEditor
