import OtEditor.InRange
import OtEditor.Requests
import OtEditor.SessionLink

/-!
# Sessions on several documents

The clients of a session may show different documents of the server. Those that show one
document do not notice the others : what they and the server do for the document is a run of
a session of these clients alone (`documents_independent`). So whatever holds of the runs in
which all clients show one document holds for each document of any run.
-/

set_option linter.unusedSectionVars false

namespace OtEditor

open ServerDocumentManager

/-! ## What a message does to the documents -/

section Message

variable {s t : PlainTextStores} (hown : s.OwnUuid) (message : Message)
include hown

/-- A message is a call, if the server knows the document. -/
theorem exec_handleMessage_eq : (handleMessage message).exec s =
    match s.documents message.documentUUID with
    | none => (.error (documentNotFoundException message.documentUUID), s)
    | some _ => serveCall plainTextOperationsManager plainTextDocumentUpdater
        ⟨message.documentUUID, message.revision, message.operation⟩ s := by
  cases hdocument : s.documents message.documentUUID with
  | none => exact exec_sendMessage_unknown _ _ hdocument _ _
  | some document =>
    exact exec_sendMessage _ plainTextDocumentUpdater_lawful hdocument (hown _ _ hdocument) _ _

theorem ownUuid_handleMessage : ((handleMessage message).exec s).2.OwnUuid := by
  rw [exec_handleMessage_eq hown]
  cases s.documents message.documentUUID with
  | none => exact hown
  | some document => exact hown.serveCall plainTextDocumentUpdater_lawful _

/-- A message for another document changes nothing. -/
theorem view_handleMessage_of_ne {documentUUID : String}
    (hne : message.documentUUID ≠ documentUUID) :
    ((handleMessage message).exec s).2.view documentUUID = s.view documentUUID := by
  rw [exec_handleMessage_eq hown]
  cases s.documents message.documentUUID with
  | none => rfl
  | some document =>
    exact (congrArg _ (congrArg Prod.snd (serve_receiveOperation _ _ _ s).symm)).trans
      (view_serve_of_ne plainTextDocumentUpdater_lawful hown (.receiveOperation
        ⟨message.documentUUID, message.revision, message.operation⟩) hne)

/-- A message is answered from what is stored for its document. -/
theorem handleMessage_congr (hview : s.view message.documentUUID = t.view message.documentUUID) :
    ((handleMessage message).exec s).1 = ((handleMessage message).exec t).1 ∧
      ((handleMessage message).exec s).2.view message.documentUUID =
        ((handleMessage message).exec t).2.view message.documentUUID := by
  have hdocuments : s.documents message.documentUUID = t.documents message.documentUUID :=
    congrArg Prod.fst hview
  rw [exec_handleMessage_eq hown]
  cases hdocument : s.documents message.documentUUID with
  | none =>
    rw [handleMessage, exec_sendMessage_unknown _ _ (hdocuments ▸ hdocument)]
    exact ⟨rfl, hview⟩
  | some document =>
    rw [handleMessage, exec_sendMessage _ plainTextDocumentUpdater_lawful (hdocuments ▸ hdocument)
      (hown _ _ hdocument)]
    exact view_serveCall_congr plainTextDocumentUpdater_lawful hown
      ⟨message.documentUUID, message.revision, message.operation⟩ hview

end Message

namespace Session

variable {ι : Type} [DecidableEq ι]

/-- Every client shows a document, is synchronized at the length of its history, and has sent
and received nothing. -/
structure StartedEach (shows : ι → String) (s : Session ι) : Prop where
  ownUuid : s.stores.OwnUuid
  clients : ∀ i, ∃ textArea documentTitle, s.clients i =
    { page := ⟨⟨(s.stores.recorded (shows i)).length, .synchronizedState⟩, textArea,
        documentTitle, shows i, []⟩
      outbox := [], inbox := [], edited := [], received := [] }
  used : ∀ documentUUID, ∀ operation ∈ s.stores.recorded documentUUID,
    operation.uuid ∈ s.usedUuids

/-- The clients of a session that show a document. -/
def onDocument (shows : ι → String) (documentUUID : String) (s : Session ι) :
    Session {i // shows i = documentUUID} where
  stores := s.stores
  clients := s.clients ∘ Subtype.val
  usedUuids := s.usedUuids

/-- The edits that clients may make. -/
def Permits (may : Client → PlainTextSingleCharacterOperation → Prop) (s : Session ι) :
    Action ι → Prop
  | .edit i operation => may (s.clients i) operation
  | .serve _ | .deliver _ => True

instance (may : Client → PlainTextSingleCharacterOperation → Prop)
    [∀ client, DecidablePred (may client)] (s : Session ι) : DecidablePred (s.Permits may)
  | .edit _ _ => inferInstanceAs (Decidable (may _ _))
  | .serve _ | .deliver _ => inferInstanceAs (Decidable True)

/-- Every client shows its document and sends messages for no other. -/
def ShowsEach (shows : ι → String) (s : Session ι) : Prop :=
  ∀ i, (s.clients i).page.curDocumentUUID = shows i ∧
    ∀ envelope ∈ (s.clients i).outbox, envelope.message.documentUUID = shows i

/-- A session of the clients that show a document goes along with the whole session. -/
structure GoesAlong {shows : ι → String} {documentUUID : String} (s : Session ι)
    (t : Session {i // shows i = documentUUID}) : Prop where
  clients : t.clients = s.clients ∘ Subtype.val
  view : s.stores.view documentUUID = t.stores.view documentUUID
  used : t.usedUuids ⊆ s.usedUuids

variable {shows : ι → String} {documentUUID : String} {s s' start : Session ι}
  {may : Client → PlainTextSingleCharacterOperation → Prop}

theorem StartedEach.started (h : s.StartedEach shows) (documentUUID : String) :
    (s.onDocument shows documentUUID).Started documentUUID where
  stored document hdocument := h.ownUuid _ _ hdocument
  clients := by
    rintro ⟨i, rfl⟩
    exact h.clients i
  used := h.used documentUUID

namespace GoesAlong

variable {t : Session {i // shows i = documentUUID}} (h : s.GoesAlong t)
include h

theorem client (i : {i // shows i = documentUUID}) : t.clients i = s.clients i :=
  congrFun h.clients i

/-- A client that shows the document takes a step alone. -/
theorem update (i : {i // shows i = documentUUID}) (client : Client) {used used' : List Text}
    (hused : used' ⊆ used) :
    (⟨s.stores, Function.update s.clients i client, used⟩ : Session ι).GoesAlong
      ⟨t.stores, Function.update t.clients i client, used'⟩ where
  clients := by
    rw [h.clients]
    exact (Function.update_comp_eq_of_injective _ Subtype.val_injective _ _).symm
  view := h.view
  used := hused

/-- A client that shows another document takes a step alone. -/
theorem update_other {i : ι} (hi : shows i ≠ documentUUID) (client : Client) {used : List Text}
    (hused : t.usedUuids ⊆ used) :
    (⟨s.stores, Function.update s.clients i client, used⟩ : Session ι).GoesAlong t where
  clients := by
    rw [h.clients]
    refine (Function.update_comp_eq_of_forall_ne _ _ fun j hj => hi ?_).symm
    rw [← hj]
    exact j.2
  view := h.view
  used := hused

section Serve

variable {envelope : Envelope} {outbox : List Envelope}

/-- The server handles a message of a client that shows the document. -/
theorem serve (hown : s.stores.OwnUuid) {i : {i // shows i = documentUUID}}
    (hout : (s.clients i).outbox = envelope :: outbox)
    (hmessage : envelope.message.documentUUID = documentUUID)
    (hstep : s.step (.serve i) = some s') :
    ∃ t', t.step (.serve i) = some t' ∧ s'.GoesAlong t' := by
  subst hmessage
  obtain ⟨envelope', outbox', hout', hserve⟩ := step_serve hstep
  obtain ⟨rfl, rfl⟩ := List.cons.inj (hout.symm.trans hout')
  have hout₁ : (t.clients i).outbox = envelope :: outbox := by rw [h.client, hout]
  have hclients : Function.update t.clients i { t.clients i with outbox } =
      Function.update s.clients i { s.clients i with outbox } ∘ Subtype.val := by
    rw [h.client, h.clients]
    exact (Function.update_comp_eq_of_injective _ Subtype.val_injective _ _).symm
  obtain ⟨hanswer, hview⟩ := handleMessage_congr hown envelope.message h.view
  rcases ht : (handleMessage envelope.message).exec t.stores with ⟨answer, stores⟩
  rw [ht] at hanswer hview
  rcases hserve with ⟨e, stores', hexec, rfl⟩ | ⟨operation, stores', hexec, rfl⟩
  · rw [hexec] at hanswer hview
    obtain rfl : _ = answer := hanswer
    exact ⟨⟨stores, Function.update t.clients i { t.clients i with outbox }, t.usedUuids⟩,
      by simp only [step, hout₁, ht], hclients, hview, h.used⟩
  · rw [hexec] at hanswer hview
    obtain rfl : _ = answer := hanswer
    refine ⟨⟨stores, fun j => (Function.update t.clients i { t.clients i with outbox } j).hear
        envelope.message.documentUUID operation, t.usedUuids⟩,
      by simp only [step, hout₁, ht], ?_, hview, h.used⟩
    funext j
    exact congrArg (Client.hear _ operation) (congrFun hclients j)

/-- The server handles a message of a client that shows another document. -/
theorem serve_other (hown : s.stores.OwnUuid) {i : ι} (hi : shows i ≠ documentUUID)
    (hout : (s.clients i).outbox = envelope :: outbox)
    (hmessage : envelope.message.documentUUID = shows i)
    (hshown : ∀ j, (t.clients j).page.curDocumentUUID = documentUUID)
    (hstep : s.step (.serve i) = some s') : s'.GoesAlong t := by
  obtain ⟨envelope', outbox', hout', hserve⟩ := step_serve hstep
  obtain ⟨rfl, rfl⟩ := List.cons.inj (hout.symm.trans hout')
  have hview := view_handleMessage_of_ne hown envelope.message
    (show envelope.message.documentUUID ≠ documentUUID by rwa [hmessage])
  have hclients (j : {i // shows i = documentUUID}) :
      Function.update s.clients i { s.clients i with outbox } j = t.clients j := by
    rw [h.client, Function.update_of_ne]
    rintro hj
    exact hi (hj ▸ j.2)
  rcases hserve with ⟨e, stores, hexec, rfl⟩ | ⟨operation, stores, hexec, rfl⟩
  · rw [hexec] at hview
    exact ⟨funext fun j => (hclients j).symm, hview.trans h.view, h.used⟩
  · rw [hexec] at hview
    refine ⟨funext fun j => ?_, hview.trans h.view, h.used⟩
    -- the clients of the document do not hear of another document
    have hhear : (t.clients j).hear envelope.message.documentUUID operation = t.clients j := by
      rw [Client.hear, if_neg]
      rw [hshown, hmessage]
      exact Ne.symm hi
    exact hhear.symm.trans (congrArg (Client.hear _ operation) (hclients j).symm)

end Serve

/-- A step of a client that shows the document is a step of the session that goes along, and
any other step is none. -/
theorem step (hown : s.stores.OwnUuid) (hshown : s.ShowsEach shows) {a : Action ι}
    (ha : s.Permits may a) (hstep : s.step a = some s') :
    ∃ t', Machine.Reaches Session.step (Permits may) t t' ∧ s'.GoesAlong t' := by
  have hshown' (j : {i // shows i = documentUUID}) :
      (t.clients j).page.curDocumentUUID = documentUUID := by
    rw [h.client]
    exact (hshown j).1.trans j.2
  cases a with
  | edit i operation =>
    obtain ⟨hnew, rfl⟩ := step_edit hstep
    by_cases hi : shows i = documentUUID
    · have hstep' : t.step (.edit ⟨i, hi⟩ operation) = some ⟨t.stores,
          Function.update t.clients ⟨i, hi⟩ ((t.clients ⟨i, hi⟩).edit operation),
          t.usedUuids ++ [operation.uuid]⟩ := by
        rw [Session.step, if_neg fun hused => hnew (h.used hused)]
      refine ⟨_, .single ⟨.edit ⟨i, hi⟩ operation, ?_, hstep'⟩, ?_⟩
      · show may (t.clients ⟨i, hi⟩) operation
        rw [h.client]
        exact ha
      · rw [h.client]
        exact h.update ⟨i, hi⟩ _ fun x hx => (List.mem_append.1 hx).elim
          (fun hx => List.mem_append_left _ (h.used hx)) (List.mem_append_right _)
    · exact ⟨t, .refl, h.update_other hi _ (List.Subset.trans h.used (List.subset_append_left _ _))⟩
  | serve i =>
    obtain ⟨envelope, outbox, hout, -⟩ := step_serve hstep
    have hmessage := (hshown i).2 envelope (by simp [hout])
    by_cases hi : shows i = documentUUID
    · obtain ⟨t', hstep', h'⟩ := h.serve hown (i := ⟨i, hi⟩) hout (hmessage.trans hi) hstep
      exact ⟨t', .single ⟨.serve ⟨i, hi⟩, trivial, hstep'⟩, h'⟩
    · exact ⟨t, .refl, h.serve_other hown hi hout hmessage hshown' hstep⟩
  | deliver i =>
    obtain ⟨operation, inbox, hin, rfl⟩ := step_deliver hstep
    by_cases hi : shows i = documentUUID
    · have hin' : (t.clients ⟨i, hi⟩).inbox = operation :: inbox := by rw [h.client, hin]
      have hstep' : t.step (.deliver ⟨i, hi⟩) = some ⟨t.stores, Function.update t.clients ⟨i, hi⟩
          (Client.receive { t.clients ⟨i, hi⟩ with inbox } operation), t.usedUuids⟩ := by
        simp only [Session.step, hin']
      refine ⟨_, .single ⟨.deliver ⟨i, hi⟩, trivial, hstep'⟩, ?_⟩
      rw [h.client]
      exact h.update ⟨i, hi⟩ _ h.used
    · exact ⟨t, .refl, h.update_other hi _ h.used⟩

end GoesAlong

/-! ## Runs -/

/-- A step keeps every document stored under its own uuid. -/
theorem ownUuid_of_step (hown : s.stores.OwnUuid) {a : Action ι} (hstep : s.step a = some s') :
    s'.stores.OwnUuid := by
  cases a with
  | edit i operation =>
    obtain ⟨-, rfl⟩ := step_edit hstep
    exact hown
  | serve i =>
    obtain ⟨envelope, outbox, -, hserve⟩ := step_serve hstep
    have hown' := ownUuid_handleMessage hown envelope.message
    rcases hserve with ⟨e, stores, hexec, rfl⟩ | ⟨operation, stores, hexec, rfl⟩ <;>
      rwa [hexec] at hown'
  | deliver i =>
    obtain ⟨operation, inbox, -, rfl⟩ := step_deliver hstep
    exact hown

/-- In a session whose clients show different documents, the clients of each document take
part in a run of their own, as if there were no others : the run has the same clients and the
same document. -/
theorem documents_independent (hstart : start.StartedEach shows)
    (hreaches : Machine.Reaches step (Permits may) start s) (documentUUID : String) :
    (start.onDocument shows documentUUID).Started documentUUID ∧
      ∃ t, Machine.Reaches step (Permits may) (start.onDocument shows documentUUID) t ∧
        (∀ i, t.clients i = s.clients i) ∧
        t.stores.documents documentUUID = s.stores.documents documentUUID ∧
        t.stores.recorded documentUUID = s.stores.recorded documentUUID := by
  have hkeep (s : Session ι) (a : Action ι) (s' : Session ι)
      (hs : s.stores.OwnUuid ∧ ∀ documentUUID, ∃ t, Machine.Reaches step (Permits may)
        (start.onDocument shows documentUUID) t ∧ s.GoesAlong t)
      (ha : s.Permits may a) (hstep : s.step a = some s') :
      s'.stores.OwnUuid ∧ ∀ documentUUID, ∃ t, Machine.Reaches step (Permits may)
        (start.onDocument shows documentUUID) t ∧ s'.GoesAlong t := by
    obtain ⟨hown, halong⟩ := hs
    -- what a client shows is known from the run of its own document
    have hshown : s.ShowsEach shows := by
      intro i
      obtain ⟨t, ht, h⟩ := halong (shows i)
      have hwired := ((hstart.started (shows i)).inv.of_reaches
        (ht.mono fun _ _ _ => trivial)).wired ⟨i, rfl⟩
      rw [h.client] at hwired
      exact ⟨hwired.shown, fun envelope he => (hwired.outbox envelope he).1⟩
    refine ⟨ownUuid_of_step hown hstep, fun documentUUID => ?_⟩
    obtain ⟨t, ht, h⟩ := halong documentUUID
    obtain ⟨t', ht', h'⟩ := h.step hown hshown ha hstep
    exact ⟨t', ht.trans ht', h'⟩
  obtain ⟨-, halong⟩ := hreaches.invariant hkeep ⟨hstart.ownUuid, fun documentUUID =>
    ⟨_, .refl, rfl, rfl, fun _ hx => hx⟩⟩
  obtain ⟨t, ht, h⟩ := halong documentUUID
  obtain ⟨hdocuments, hoperations⟩ := Prod.mk.inj h.view
  refine ⟨hstart.started documentUUID, t, ht, h.client, hdocuments.symm, ?_⟩
  rw [Stores.recorded, Stores.recorded, hoperations]

/-- What the clients of `eachDocument` show. -/
def eachShows (i : Bool) : String :=
  if i then "2" else "1"

/-- The clients open the two documents that the server starts with. -/
def eachDocument : Session Bool where
  stores := initialStores
  clients i := if i then .opened ⟨[], none, none⟩ "2" ⟨"2", 0, utf16 "kek", "Document 2"⟩
    else .opened ⟨[], none, none⟩ "1" ⟨"1", 0, [], "Document 1"⟩
  usedUuids := []

theorem eachDocument_startedEach : eachDocument.StartedEach eachShows where
  ownUuid := fresh_initialStores.ownUuid
  clients
    | true => ⟨_, _, rfl⟩
    | false => ⟨_, _, rfl⟩
  used _ _ h := by cases h

/-- Both insert, the second twice, and the server records all. -/
def eachInserted : Session Bool :=
  Machine.after step (Permits fun client operation => InRange client.text operation)
    [.edit false (.insert ⟨"a", 0, 97⟩), .edit true (.insert ⟨"b", 1, 98⟩), .serve true,
      .edit true (.insert ⟨"c", 0, 99⟩), .serve false, .deliver true, .deliver false,
      .serve true] eachDocument

theorem documents_independent_eachInserted :
    ∃ t, Machine.Reaches step (Permits fun client operation => InRange client.text operation)
        (eachDocument.onDocument eachShows "2") t ∧
      (∀ i, t.clients i = eachInserted.clients i) ∧
      t.stores.documents "2" = some ⟨"2", 2, utf16 "ckbek", "Document 2"⟩ := by
  obtain ⟨-, t, ht, hclients, hdocuments, -⟩ :=
    documents_independent eachDocument_startedEach
      (show Machine.Reaches step (Permits _) eachDocument eachInserted from
        Machine.reaches_after _ _) "2"
  exact ⟨t, ht, hclients, hdocuments.trans (by decide)⟩

end Session

end OtEditor
