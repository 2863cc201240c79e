import OtEditor.Requests
import OtEditor.Lib.History
import OtEditor.Lib.Machine

/-!
# A single thread for the operations, others for the documents

`sendMessage` runs on a single-thread executor, one call after the other. The handlers of
`DocumentController` run on threads of their own, so a document can be loaded or posted between
any two accesses of a call to the two maps (`Threads.step`). As long as none is posted between
the reading of the same document by the call and its saving, nobody can tell the difference to a
server that answers every call at once (`calls_linearize`). What is posted in between is lost,
and so is what is loaded of it (`Threads.Overtakes`) : leaving out these posts and loads, and
nothing else, every run is one of a server that answers at once (`posts_lost`).

Calls may wait here in any number. With a single thread in its inbound channel, which waits for the
answer, the server as it is configured has no more than one.
-/

set_option linter.unusedSectionVars false

open History

namespace OtEditor

open ServerDocumentManager DocumentStorageService

/-- What a client can see of the server, in order. -/
inductive Event (D O : Type) where
  | submitted (call : Call O)
  | answered (call : Call O) (result : Except Throwable O)
  | loaded (documentId : String) (result : Except Throwable D)
  | posted (document : D)

/-- What arrives at the server. -/
inductive Arrival (D O : Type) where
  | submit (call : Call O)
  | load (documentId : String)
  | post (document : D)

/-- What can happen : something arrives, or the executor goes on. -/
inductive ServerAction (D O : Type) where
  | arrive (arrival : Arrival D O)
  | run

/-- The stores, the calls that wait for the executor, and what has been seen. -/
structure Server (D O : Type) where
  stores : Stores D O
  waiting : List (Call O)
  history : List (Event D O)

/-- Where the executor is in `sendMessage`, with what it needs to go on. -/
inductive Point (T D O : Type) where
  | entered (call : Call O)
  | logged (call : Call O)
  | transformed (call : Call O) (transformedOperation : O)
  | applied (call : Call O) (transformedOperation : O) (document : D) (updatedContent : T)
  | saved (call : Call O) (transformedOperation : O) (document : D)
  | added (call : Call O) (transformedOperation : O)

/-- A server whose executor may be in the middle of a call. -/
structure Threads (T D O : Type) extends Server D O where
  point : Option (Point T D O)

variable {T D O : Type} [Operation T O] [Document T D] (m : OperationsManager O)
  (u : DocumentUpdater T D)

namespace Server

/-- What is seen when something arrives. A load is one access to the documents. -/
def seen (server : Server D O) : Arrival D O → Event D O
  | .submit call => .submitted call
  | .load documentId =>
    .loaded documentId ((DocumentController.getDocument documentId).exec server.stores).1
  | .post document => .posted document

/-- A call is put at the end of the queue. A post is one access to the documents. -/
def arrive (server : Server D O) (arrival : Arrival D O) : Server D O :=
  let history := server.history ++ [server.seen arrival]
  match arrival with
  | .submit call => { server with waiting := server.waiting ++ [call], history }
  | .load _ => { server with history }
  | .post document => { server with
      stores := ((DocumentController.postDocument document).exec server.stores).2, history }

theorem history_arrive (server : Server D O) (arrival : Arrival D O) :
    (server.arrive arrival).history = server.history ++ [server.seen arrival] := by
  cases arrival <;> rfl

/-- A server that answers the first call of the queue at once. -/
def step (server : Server D O) : ServerAction D O → Option (Server D O)
  | .arrive arrival => some (server.arrive arrival)
  | .run =>
    match server.waiting with
    | [] => none
    | call :: calls =>
      let (result, stores) := (OtWsController.sendMessage m u call.operation call.documentUUID
        call.revision).exec server.stores
      some ⟨stores, calls, server.history ++ [.answered call result]⟩

end Server

namespace Point

/-- The call. -/
def call : Point T D O → Call O
  | entered call | logged call | transformed call _ | applied call _ _ _ | saved call _ _
  | added call _ => call

/-- `sendMessage` up to the next access, or to the end. The first and the last reading are for
the log. -/
def resume : Point T D O → Effect (Stores D O) (Point T D O ⊕ O)
  | entered call => do
    let _ ← ServerDocumentManager.getDocument call.documentUUID
    return .inl (logged call)
  | logged call => do
    let concurrentOperations ← getConcurrentOperations call.documentUUID call.revision
    return .inl (transformed call (transformAgainstEach concurrentOperations call.operation m))
  | transformed call transformedOperation => do
    let document ← getDocument call.documentUUID
    let updatedContent ← Effect.ofResult
      (Operation.applyTo transformedOperation (Document.content document))
    return .inl (applied call transformedOperation document updatedContent)
  | applied call transformedOperation document updatedContent => do
    DocumentRepository.save (u.updateContentAndRevision document updatedContent
      (Document.revision document + 1))
    return .inl (saved call transformedOperation document)
  | saved call transformedOperation document => do
    OperationsRepository.addOperation (Document.uuid document) transformedOperation
    return .inl (added call transformedOperation)
  | added call transformedOperation => do
    let _ ← ServerDocumentManager.getDocument call.documentUUID
    return .inr transformedOperation

end Point

namespace Threads

/-- The executor takes a call from the queue, or goes on to the next access. -/
def step (s : Threads T D O) : ServerAction D O → Option (Threads T D O)
  | .arrive arrival => some { s with toServer := s.toServer.arrive arrival }
  | .run =>
    match s.point, s.waiting with
    | none, [] => none
    | none, call :: calls => some { s with waiting := calls, point := some (.entered call) }
    | some point, waiting =>
      match (point.resume m u).exec s.stores with
      | (.ok (.inl next), stores) => some ⟨⟨stores, waiting, s.history⟩, some next⟩
      | (.ok (.inr operation), stores) =>
        some ⟨⟨stores, waiting, s.history ++ [.answered point.call (.ok operation)]⟩, none⟩
      | (.error e, stores) =>
        some ⟨⟨stores, waiting, s.history ++ [.answered point.call (.error e)]⟩, none⟩

/-- The document that the executor has read and has yet to save. -/
def held (s : Threads T D O) : Option D :=
  match s.point with
  | some (.applied _ _ document _) => some document
  | _ => none

/-- Nothing is posted for a document that the executor has read and has yet to save. -/
def Undisturbed (s : Threads T D O) : ServerAction D O → Prop
  | .arrive (.post document) =>
    ∀ document' ∈ s.held, Document.uuid document ≠ Document.uuid document'
  | _ => True

instance (s : Threads T D O) : DecidablePred s.Undisturbed
  | .arrive (.post _) => inferInstanceAs (Decidable (∀ _ ∈ s.held, _ ≠ _))
  | .arrive (.submit _) | .arrive (.load _) | .run => inferInstanceAs (Decidable True)

end Threads

/-! ## When a call takes effect -/

/-- The event is the answer to a call. -/
def Event.IsAnswer : Event D O → Prop
  | .answered _ _ => True
  | _ => False

/-- The event is a call or the answer to a call. -/
def Event.isCall : Event D O → Bool
  | .submitted _ | .answered _ _ => true
  | _ => false

namespace Point

/-- A call takes effect when the document is saved. Until then it is as good as waiting. -/
def unserved : Option (Point T D O) → List (Call O)
  | some (entered call) | some (logged call) | some (transformed call _)
  | some (applied call _ _ _) => [call]
  | _ => []

/-- The answer that will be given. -/
def owed : Option (Point T D O) → List (Event D O)
  | some (saved call operation _) | some (added call operation) => [.answered call (.ok operation)]
  | _ => []

/-- The stores as they are if calls take effect at once. -/
def committed (stores : Stores D O) : Option (Point T D O) → Stores D O
  | some (applied _ _ document _) => { stores with
      documents := Function.update stores.documents (Document.uuid document) (some document) }
  | some (saved _ operation document) => { stores with
      operations := Function.update stores.operations (Document.uuid document)
        (some (stores.recorded (Document.uuid document) ++ [operation])) }
  | _ => stores

@[simp] theorem unserved_none : unserved (none : Option (Point T D O)) = [] :=
  rfl

@[simp] theorem owed_none : (owed (none : Option (Point T D O)) : List (Event D O)) = [] :=
  rfl

@[simp] theorem committed_none (stores : Stores D O) :
    committed stores (none : Option (Point T D O)) = stores :=
  rfl

/-- What the executor has found out. -/
def Knows (stores : Stores D O) : Point T D O → Prop
  | entered _ => True
  | logged call => (stores.documents call.documentUUID).isSome
  | transformed call operation => (stores.documents call.documentUUID).isSome ∧
      ∃ operations, stores.concurrent call.documentUUID call.revision = .ok operations ∧
        operation = transformAgainstEach operations call.operation m
  | applied call operation document content => Document.uuid document = call.documentUUID ∧
      Operation.applyTo operation (Document.content document) = .ok content ∧
      ∃ operations, stores.concurrent call.documentUUID call.revision = .ok operations ∧
        operation = transformAgainstEach operations call.operation m
  | saved call _ document => Document.uuid document = call.documentUUID ∧
      (stores.documents call.documentUUID).isSome
  | added call _ => (stores.documents call.documentUUID).isSome

end Point

namespace Threads

/-- Documents are stored under their own uuid, and what the executor has found out still holds. -/
structure Inv (s : Threads T D O) : Prop where
  ownUuid : s.stores.OwnUuid
  knows : ∀ point ∈ s.point, point.Knows m s.stores

/-- The document the executor holds is the one stored. -/
def Current (s : Threads T D O) : Prop :=
  ∀ document ∈ s.held, s.stores.documents (Document.uuid document) = some document

/-- The server has taken the events that were kept, with the answers as soon as calls take
effect. -/
structure Matches (s : Threads T D O) (kept : List (Event D O)) (server : Server D O) : Prop where
  stores : server.stores = Point.committed s.stores s.point
  waiting : server.waiting = Point.unserved s.point ++ s.waiting
  history : Sooner Event.IsAnswer (kept ++ Point.owed s.point) server.history

/-- A document is posted that the executor has read and has yet to save, or the one posted is
loaded. -/
def Overtakes (s : Threads T D O) : Arrival D O → Prop
  | .submit _ => False
  | .load documentId => ∃ document ∈ s.held, Document.uuid document = documentId ∧
      s.stores.documents documentId ≠ some document
  | .post document => ∃ document' ∈ s.held, Document.uuid document = Document.uuid document'

section Kept

variable [DecidableEq D]

instance (s : Threads T D O) : DecidablePred s.Overtakes
  | .submit _ => inferInstanceAs (Decidable False)
  | .load _ => inferInstanceAs (Decidable (∃ _ ∈ s.held, _ ∧ _ ≠ _))
  | .post _ => inferInstanceAs (Decidable (∃ _ ∈ s.held, _ = _))

/-- What is seen in a step, unless it overtakes a call. -/
def kept (s : Threads T D O) : ServerAction D O → Threads T D O → List (Event D O)
  | .arrive arrival, _ => if s.Overtakes arrival then [] else [s.toServer.seen arrival]
  | .run, s' => s'.history.drop s.history.length

/-- What is seen in a run, less what overtakes a call. -/
def keptAlong (actions : List (ServerAction D O)) (start : Threads T D O) : List (Event D O) :=
  Machine.emitted (step m u) kept actions start

end Kept

end Threads

section Arrive

variable {m u} {s : Threads T D O} {kept : List (Event D O)} {server : Server D O}

/-- A post takes nothing back of what the executor has found out. -/
theorem Point.Knows.post {stores : Stores D O} (document : D) :
    ∀ {point : Point T D O}, point.Knows m stores →
      point.Knows m ((DocumentController.postDocument document).exec stores).2 := by
  have hsome {documentUUID : String} (h : (stores.documents documentUUID).isSome) :
      (((DocumentController.postDocument document).exec stores).2.documents
        documentUUID).isSome := by
    by_cases heq : documentUUID = Document.uuid document
    · subst heq
      simp [DocumentController.postDocument, DocumentRepository.save]
    · simpa [DocumentController.postDocument, DocumentRepository.save, Function.update_of_ne heq]
        using h
  rintro (_ | _ | _ | _ | _ | _) hknows
  · trivial
  · exact hsome hknows
  · exact ⟨hsome hknows.1, hknows.2⟩
  · exact hknows
  · exact ⟨hknows.1, hsome hknows.2⟩
  · exact hsome hknows

theorem Threads.Inv.arrive (hu : u.Lawful) (hs : s.Inv m) :
    ∀ arrival : Arrival D O, Threads.Inv m { s with toServer := s.toServer.arrive arrival }
  | .submit _ | .load _ => ⟨hs.ownUuid, hs.knows⟩
  | .post document => ⟨hs.ownUuid.serve (m := m) hu (.save document),
      fun point hpoint => (hs.knows point hpoint).post document⟩

theorem Threads.mem_held_iff {document : D} : document ∈ s.held ↔ ∃ call operation content,
    s.point = some (.applied call operation document content) := by
  obtain ⟨_, _ | (_ | _ | _ | _ | _ | _)⟩ := s <;> simp [Threads.held]

/-- A post of another document does not matter to what is committed. -/
theorem committed_post (document : D)
    (hne : ∀ document' ∈ s.held, Document.uuid document ≠ Document.uuid document') :
    ((DocumentController.postDocument document).exec (Point.committed s.stores s.point)).2 =
      Point.committed ((DocumentController.postDocument document).exec s.stores).2 s.point := by
  obtain ⟨⟨stores, _, _⟩, _ | (_ | _ | _ | ⟨_, _, document', _⟩ | _ | _)⟩ := s
  case applied =>
    have hcomm := Function.update_comm (hne document' rfl) (some document) (some document')
      stores.documents
    simp [DocumentController.postDocument, DocumentRepository.save, Point.committed, hcomm]
  all_goals rfl

/-- A document is loaded as it is committed, unless the executor holds another. -/
theorem documents_committed (documentId : String)
    (hheld : ∀ document ∈ s.held, Document.uuid document = documentId →
      s.stores.documents documentId = some document) :
    (Point.committed s.stores s.point).documents documentId = s.stores.documents documentId := by
  obtain ⟨_, _ | (_ | _ | _ | ⟨_, _, document, _⟩ | _ | _)⟩ := s
  case applied =>
    by_cases heq : documentId = Document.uuid document
    · subst heq
      rw [hheld document rfl rfl]
      exact Function.update_self ..
    · exact Function.update_of_ne heq ..
  all_goals rfl

theorem isAnswer_of_mem_owed {point : Option (Point T D O)} :
    ∀ event ∈ Point.owed point, event.IsAnswer := by
  rcases point with _ | (_ | _ | _ | _ | _ | _) <;> simp [Point.owed, Event.IsAnswer]

/-- The server that answers at once takes what overtakes no call. -/
theorem Threads.Matches.arrive (hmatches : s.Matches kept server) {arrival : Arrival D O}
    (hovertakes : ¬s.Overtakes arrival) :
    Threads.Matches { s with toServer := s.toServer.arrive arrival }
      (kept ++ [s.toServer.seen arrival]) (server.arrive arrival) := by
  have hseen : server.seen arrival = s.toServer.seen arrival := by
    cases arrival with
    | submit _ | post _ => rfl
    | load documentId =>
      have hdocument := documents_committed (s := s) documentId fun document hheld hid => by
        by_contra hne
        exact hovertakes ⟨document, hheld, hid, hne⟩
      show (.loaded documentId ((getDocument documentId).exec server.stores).1 : Event D O) =
        .loaded documentId ((getDocument documentId).exec s.stores).1
      rw [exec_getDocument, exec_getDocument, hmatches.stores, hdocument]
  refine ⟨?_, ?_, ?_⟩
  · cases arrival with
    | submit _ | load _ => exact hmatches.stores
    | post document =>
      simp only [Server.arrive, hmatches.stores]
      exact committed_post document fun document' hheld hid => hovertakes ⟨document', hheld, hid⟩
  · cases arrival with
    | submit call =>
      show server.waiting ++ [call] = _
      rw [hmatches.waiting, List.append_assoc]
      rfl
    | load _ | post _ => exact hmatches.waiting
  · have hevent : ¬(s.toServer.seen arrival).IsAnswer := by
      cases arrival <;> exact not_false
    rw [Server.history_arrive, hseen]
    exact Sooner.arrive hevent isAnswer_of_mem_owed hmatches.history

/-- The server that answers at once does without what overtakes a call. -/
theorem Threads.Matches.overtaken (hmatches : s.Matches kept server) {arrival : Arrival D O}
    (hovertakes : s.Overtakes arrival) :
    Threads.Matches { s with toServer := s.toServer.arrive arrival } kept server := by
  refine ⟨?_, ?_, hmatches.history⟩
  · rw [hmatches.stores]
    cases arrival with
    | submit _ => exact hovertakes.elim
    | load _ => rfl
    | post document =>
      obtain ⟨document', hheld, hid⟩ := hovertakes
      obtain ⟨call, operation, content, hpoint⟩ := mem_held_iff.1 hheld
      simp [Server.arrive, hpoint, Point.committed, DocumentController.postDocument,
        DocumentRepository.save, hid]
  · cases arrival with
    | submit _ => exact hovertakes.elim
    | load _ | post _ => exact hmatches.waiting

end Arrive

section Run

variable {m u} {s s' : Threads T D O} {kept : List (Event D O)} {server : Server D O}

/-- What the executor can do : go on without effect, fail, save a document, or answer. -/
inductive Threads.Turn (m : OperationsManager O) (u : DocumentUpdater T D) (s : Threads T D O) :
    Threads T D O → Prop where
  | wait {stores : Stores D O} {waiting : List (Call O)} {point : Option (Point T D O)}
      (documents : stores.documents = s.stores.documents)
      (committed : Point.committed stores point = Point.committed s.stores s.point)
      (unserved : Point.unserved point ++ waiting = Point.unserved s.point ++ s.waiting)
      (owed : (Point.owed point : List (Event D O)) = Point.owed s.point)
      (unfinished : ∀ call operation, s.point ≠ some (.added call operation)) :
      Turn m u s ⟨⟨stores, waiting, s.history⟩, point⟩
  | fail {call : Call O} {e : Throwable} (unserved : Point.unserved s.point = [call])
      (owed : (Point.owed s.point : List (Event D O)) = [])
      (committed : Point.committed s.stores s.point = s.stores)
      (rejects : (OtWsController.sendMessage m u call.operation call.documentUUID
        call.revision).exec s.stores = (.error e, s.stores)) :
      Turn m u s ⟨⟨s.stores, s.waiting, s.history ++ [.answered call (.error e)]⟩, none⟩
  | save {call : Call O} {operation : O} {document : D} {content : T}
      (point : s.point = some (.applied call operation document content))
      (accepts : (OtWsController.sendMessage m u call.operation call.documentUUID
          call.revision).exec (Point.committed s.stores s.point) =
        (.ok operation, (Point.committed s.stores s.point).record u document content operation)) :
      Turn m u s ⟨⟨((DocumentRepository.save (u.updateContentAndRevision document content
          (Document.revision document + 1)) : Effect (Stores D O) Unit).exec s.stores).2,
        s.waiting, s.history⟩, some (.saved call operation document)⟩
  | answer {call : Call O} {operation : O} (point : s.point = some (.added call operation)) :
      Turn m u s ⟨⟨s.stores, s.waiting, s.history ++ [.answered call (.ok operation)]⟩, none⟩

omit [Operation T O] in
/-- A document is saved over whatever was posted in the meantime. -/
theorem committed_save (hu : u.Lawful) (stores : Stores D O) (call : Call O) (operation : O)
    (document : D) (content : T) :
    Point.committed ((DocumentRepository.save (u.updateContentAndRevision document content
      (Document.revision document + 1)) : Effect (Stores D O) Unit).exec stores).2
        (some (.saved call operation document)) =
      (Point.committed stores (some (.applied call operation document content))).record u document
        content operation := by
  simp [DocumentRepository.save, Point.committed, Stores.record, Stores.recorded, hu.uuid]

omit [Operation T O] in
/-- An operation is added to those recorded. -/
theorem committed_addOperation (stores : Stores D O) (call : Call O) (operation : O)
    (document : D) :
    Point.committed ((OperationsRepository.addOperation (Document.uuid document) operation :
        Effect (Stores D O) Unit).exec stores).2 (some (.added call operation)) =
      Point.committed stores (some (.saved call operation document)) := by
  rw [OperationsRepository.addOperation, Effect.exec_modify]
  simp only [Point.committed, Stores.recorded]
  cases stores.operations (Document.uuid document) <;> rfl

/-- A step of the executor is one of its turns. If it holds a document then, it has just read
it. -/
theorem Threads.Inv.turn (hu : u.Lawful) (hs : s.Inv m) (hstep : s.step m u .run = some s') :
    s'.Inv m ∧ s'.Current ∧ s.Turn m u s' := by
  obtain ⟨⟨stores, waiting, history⟩, point⟩ := s
  have hown : stores.OwnUuid := hs.ownUuid
  rcases point with _ | point
  · rcases waiting with _ | ⟨call, calls⟩
    · cases hstep
    · obtain rfl := Option.some.inj hstep
      exact ⟨⟨hown, by rintro _ ⟨⟩; trivial⟩, by rintro _ ⟨⟩,
        .wait rfl rfl rfl rfl (by rintro _ _ ⟨⟩)⟩
  have hknows := hs.knows point rfl
  rcases point with call | call | ⟨call, operation⟩ | ⟨call, operation, document, content⟩ |
    ⟨call, operation, document⟩ | ⟨call, operation⟩
  case entered =>
    have hread := exec_getDocument stores call.documentUUID
    rcases hdocument : stores.documents call.documentUUID with _ | document
    · rw [hdocument] at hread
      simp only [step, Point.resume, Effect.exec_bind_error hread] at hstep
      obtain rfl := Option.some.inj hstep
      exact ⟨⟨hown, by rintro _ ⟨⟩⟩, by rintro _ ⟨⟩, .fail rfl rfl rfl
        (exec_sendMessage_unknown m u hdocument call.operation call.revision)⟩
    · rw [hdocument] at hread
      simp only [step, Point.resume, Effect.exec_bind_ok hread, Effect.exec_pure] at hstep
      obtain rfl := Option.some.inj hstep
      refine ⟨⟨hown, ?_⟩, by rintro _ ⟨⟩, .wait rfl rfl rfl rfl (by rintro _ _ ⟨⟩)⟩
      rintro _ ⟨⟩
      exact Option.isSome_iff_exists.2 ⟨document, hdocument⟩
  case logged =>
    obtain ⟨document, hdocument⟩ := Option.isSome_iff_exists.1 hknows
    have hread := exec_getConcurrentOperations stores call.documentUUID call.revision
    rcases hconcurrent : stores.concurrent call.documentUUID call.revision with e | operations
    · rw [hconcurrent] at hread
      simp only [step, Point.resume, Effect.exec_bind_error hread] at hstep
      obtain rfl := Option.some.inj hstep
      have hrejects : (OtWsController.sendMessage m u call.operation call.documentUUID
          call.revision).exec stores = (.error e, stores) := by
        rw [exec_sendMessage m hu hdocument (hown _ _ hdocument), exec_receiveOperation,
          hconcurrent]
      exact ⟨⟨hown, by rintro _ ⟨⟩⟩, by rintro _ ⟨⟩, .fail rfl rfl rfl hrejects⟩
    · rw [hconcurrent] at hread
      simp only [step, Point.resume, Effect.exec_bind_ok hread, Effect.exec_pure] at hstep
      obtain rfl := Option.some.inj hstep
      refine ⟨⟨hown, ?_⟩, by rintro _ ⟨⟩, .wait rfl rfl rfl rfl (by rintro _ _ ⟨⟩)⟩
      rintro _ ⟨⟩
      exact ⟨hknows, operations, hconcurrent, rfl⟩
  case transformed =>
    obtain ⟨hsome, operations, hconcurrent, rfl⟩ := hknows
    obtain ⟨document, hdocument⟩ := Option.isSome_iff_exists.1 hsome
    have hread := exec_getDocument stores call.documentUUID
    rw [hdocument] at hread
    rcases happly : Operation.applyTo (transformAgainstEach operations call.operation m)
      (Document.content document) with e | content
    · simp only [step, Point.resume, Effect.exec_bind_ok hread, happly,
        Effect.exec_ofResult_error_bind] at hstep
      obtain rfl := Option.some.inj hstep
      have hrejects : (OtWsController.sendMessage m u call.operation call.documentUUID
          call.revision).exec stores = (.error e, stores) := by
        rw [exec_sendMessage m hu hdocument (hown _ _ hdocument), exec_receiveOperation,
          hconcurrent, hdocument]
        simp only [happly]
      exact ⟨⟨hown, by rintro _ ⟨⟩⟩, by rintro _ ⟨⟩, .fail rfl rfl rfl hrejects⟩
    · simp only [step, Point.resume, Effect.exec_bind_ok hread, happly,
        Effect.exec_ofResult_ok_bind, Effect.exec_pure] at hstep
      obtain rfl := Option.some.inj hstep
      have hid := hown _ _ hdocument
      refine ⟨⟨hown, ?_⟩, ?_, .wait rfl ?_ rfl rfl (by rintro _ _ ⟨⟩)⟩
      · rintro _ ⟨⟩
        exact ⟨hid, happly, operations, hconcurrent, rfl⟩
      · rintro _ ⟨⟩
        rwa [hid]
      · simp [Point.committed, hid, ← hdocument]
  case applied =>
    obtain ⟨hid, happly, operations, hconcurrent, hoperation⟩ := hknows
    obtain rfl := Option.some.inj hstep
    refine ⟨⟨hown.serve (m := m) hu (.save _), ?_⟩, by rintro _ ⟨⟩, .save rfl ?_⟩
    · rintro _ ⟨⟩
      refine ⟨hid, ?_⟩
      show (Function.update stores.documents _ _ call.documentUUID).isSome
      rw [hu.uuid, hid, Function.update_self]
      rfl
    · set committed := Point.committed stores (some (.applied call operation document content))
      have hdocument : committed.documents call.documentUUID = some document := by
        rw [← hid]
        exact Function.update_self ..
      have hconcurrent' : committed.concurrent call.documentUUID call.revision = .ok operations :=
        hconcurrent
      rw [exec_sendMessage m hu hdocument hid, exec_receiveOperation, hconcurrent', hdocument]
      simp only [← hoperation, happly]
  case saved =>
    obtain ⟨hid, hsome⟩ := hknows
    obtain rfl := Option.some.inj hstep
    refine ⟨⟨hown, ?_⟩, by rintro _ ⟨⟩, .wait rfl ?_ rfl rfl (by rintro _ _ ⟨⟩)⟩
    · rintro _ ⟨⟩
      exact hsome
    · exact committed_addOperation stores call operation document
  case added =>
    obtain ⟨document, hdocument⟩ := Option.isSome_iff_exists.1 hknows
    have hread := exec_getDocument stores call.documentUUID
    rw [hdocument] at hread
    simp only [step, Point.resume, Effect.exec_bind_ok hread, Effect.exec_pure] at hstep
    obtain rfl := Option.some.inj hstep
    exact ⟨⟨hown, by rintro _ ⟨⟩⟩, by rintro _ ⟨⟩, .answer rfl⟩

/-- A call takes effect. -/
theorem Threads.Matches.serve (hmatches : s.Matches kept server) {call : Call O}
    (hcall : Point.unserved s.point = [call]) {result : Except Throwable O} {stores : Stores D O}
    (hexec : (OtWsController.sendMessage m u call.operation call.documentUUID call.revision).exec
      (Point.committed s.stores s.point) = (result, stores)) :
    Machine.Reaches (Server.step m u) (fun _ _ => True) server
      ⟨stores, s.waiting, server.history ++ [.answered call result]⟩ := by
  refine .single ⟨.run, trivial, ?_⟩
  simp [Server.step, hmatches.waiting, hcall, hmatches.stores, hexec]

/-- The server that answers at once does nothing in a turn, or answers. -/
theorem Threads.Matches.turn (hu : u.Lawful) (hmatches : s.Matches kept server)
    (hturn : s.Turn m u s') :
    ∃ events server', s'.history = s.history ++ events ∧
      Machine.Reaches (Server.step m u) (fun _ _ => True) server server' ∧
      s'.Matches (kept ++ events) server' := by
  have hhistory := hmatches.history
  cases hturn with
  | wait _ hcommitted hunserved howed _ =>
    refine ⟨[], server, (List.append_nil _).symm, .refl, hmatches.stores.trans hcommitted.symm,
      hmatches.waiting.trans hunserved.symm, ?_⟩
    rw [List.append_nil]
    exact howed ▸ hhistory
  | fail hunserved howed hcommitted hrejects =>
    have hserve := hmatches.serve hunserved (hcommitted.symm ▸ hrejects)
    rw [howed, List.append_nil] at hhistory
    refine ⟨_, _, rfl, hserve, hcommitted, rfl, ?_⟩
    show Sooner _ (kept ++ [_] ++ []) _
    rw [List.append_nil]
    exact hhistory.append _
  | @save call operation document content hpoint haccepts =>
    have hunserved : Point.unserved s.point = [call] := by rw [hpoint]; rfl
    refine ⟨[], _, (List.append_nil _).symm, hmatches.serve hunserved haccepts, ?_, rfl, ?_⟩
    · rw [hpoint]
      exact (committed_save hu s.stores call operation document content).symm
    · rw [hpoint] at hhistory
      rw [List.append_nil]
      have hkept : Sooner Event.IsAnswer (kept ++ []) server.history := hhistory
      rw [List.append_nil] at hkept
      exact hkept.append _
  | answer hpoint =>
    have hstores := hmatches.stores
    have hwaiting := hmatches.waiting
    rw [hpoint] at hstores hwaiting hhistory
    refine ⟨_, server, rfl, .refl, hstores, hwaiting, ?_⟩
    show Sooner _ (kept ++ [_] ++ []) _
    rw [List.append_nil]
    exact hhistory

end Run

/-! ## Whole runs -/

namespace Threads

variable {m u} {start s : Threads T D O}

/-- Between two calls, the two servers are in the same state. -/
theorem matches_iff_of_idle (hidle : s.point = none) {kept : List (Event D O)}
    {server : Server D O} : s.Matches kept server ↔
      server.stores = s.stores ∧ server.waiting = s.waiting ∧
        Sooner Event.IsAnswer kept server.history := by
  refine ⟨fun h => ⟨?_, ?_, ?_⟩, fun ⟨hstores, hwaiting, hhistory⟩ => ⟨?_, ?_, ?_⟩⟩
  · simpa [hidle] using h.stores
  · simpa [hidle] using h.waiting
  · simpa [hidle] using h.history
  · simpa [hidle] using hstores
  · simpa [hidle] using hwaiting
  · simpa [hidle] using hhistory

/-- What arrives without disturbing the executor leaves the document it holds alone. -/
theorem Current.arrive (hs : s.Current) {arrival : Arrival D O}
    (hundisturbed : s.Undisturbed (.arrive arrival)) :
    Current { s with toServer := s.toServer.arrive arrival } := by
  intro document hheld
  cases arrival with
  | submit _ | load _ => exact hs document hheld
  | post document' =>
    have hne : Document.uuid document ≠ Document.uuid document' :=
      (hundisturbed document hheld).symm
    exact (Function.update_of_ne hne ..).trans (hs document hheld)

/-- What arrives without disturbing the executor does not overtake the call. -/
theorem Current.not_overtakes (hs : s.Current) {arrival : Arrival D O}
    (hundisturbed : s.Undisturbed (.arrive arrival)) : ¬s.Overtakes arrival := by
  cases arrival with
  | submit _ => exact not_false
  | load _ =>
    rintro ⟨document, hheld, rfl, hne⟩
    exact hne (hs document hheld)
  | post document' =>
    rintro ⟨document, hheld, hid⟩
    exact hundisturbed document hheld hid

/-- As long as nothing is posted for a document between its reading and its saving, nobody can
tell the difference to a server that answers every call at once. -/
theorem calls_linearize (hu : u.Lawful) (hown : start.stores.OwnUuid) (hidle : start.point = none)
    (hreaches : Machine.Reaches (step m u) Undisturbed start s) :
    ∃ server, Machine.Reaches (Server.step m u) (fun _ _ => True) start.toServer server ∧
      Sooner Event.IsAnswer (s.history ++ Point.owed s.point) server.history ∧
      (s.point = none → server.stores = s.stores ∧ server.waiting = s.waiting) := by
  have hfollow (s : Threads T D O) (a : ServerAction D O) (s' : Threads T D O) (server : Server D O)
      (hs : s.Inv m ∧ s.Current ∧ s.Matches s.history server) (ha : s.Undisturbed a)
      (hstep : s.step m u a = some s') :
      ∃ server', Machine.Reaches (Server.step m u) (fun _ _ => True) server server' ∧
        s'.Inv m ∧ s'.Current ∧ s'.Matches s'.history server' := by
    obtain ⟨hinv, hcurrent, hmatches⟩ := hs
    cases a with
    | arrive arrival =>
      obtain rfl := Option.some.inj hstep
      refine ⟨server.arrive arrival, .single ⟨.arrive arrival, trivial, rfl⟩,
        hinv.arrive hu arrival, hcurrent.arrive ha, ?_⟩
      rw [Server.history_arrive]
      exact hmatches.arrive (hcurrent.not_overtakes ha)
    | run =>
      obtain ⟨hinv', hcurrent', hturn⟩ := hinv.turn hu hstep
      obtain ⟨events, server', hevents, hreaches, hnext⟩ := hmatches.turn hu hturn
      exact ⟨server', hreaches, hinv', hcurrent', hevents ▸ hnext⟩
  have hinv : start.Inv m := ⟨hown, by simp [hidle]⟩
  have hcurrent : start.Current := by
    simp [Current, held, hidle]
  obtain ⟨server, hserver, -, -, hmatches⟩ := hreaches.simulation hfollow
    ⟨hinv, hcurrent, (matches_iff_of_idle hidle).2 ⟨rfl, rfl, .refl⟩⟩
  refine ⟨server, hserver, hmatches.history, fun hs => ?_⟩
  obtain ⟨hstores, hwaiting, -⟩ := (matches_iff_of_idle hs).1 hmatches
  exact ⟨hstores, hwaiting⟩

/-- The plain-text server at its start. -/
def atStart : Threads Text PlainTextDocument PlainTextSingleCharacterOperation :=
  ⟨⟨initialStores, [], []⟩, none⟩

/-- A call that inserts a symbol. The document is loaded before and after it is saved, and in
the meantime another is posted. -/
def loadedTwice : Threads Text PlainTextDocument PlainTextSingleCharacterOperation :=
  Machine.after (step plainTextOperationsManager plainTextDocumentUpdater) Undisturbed
    [.arrive (.submit ⟨"2", 0, .insert ⟨"a", 3, 33⟩⟩), .run, .run, .run, .run,
      .arrive (.load "2"), .arrive (.post ⟨"3", 0, [], "Document 3"⟩), .run,
      .arrive (.load "2"), .run, .run] atStart

theorem calls_linearize_loadedTwice :
    ∃ server, Machine.Reaches
        (Server.step plainTextOperationsManager plainTextDocumentUpdater) (fun _ _ => True)
        atStart.toServer server ∧
      Sooner Event.IsAnswer loadedTwice.history server.history ∧
      server.stores.recorded "2" = [.insert ⟨"a", 3, 33⟩] := by
  have hpoint : loadedTwice.point = none := by
    rw [← Option.isNone_iff_eq_none]
    decide
  obtain ⟨server, hserver, hhistory, hidle⟩ := calls_linearize (s := loadedTwice)
    plainTextDocumentUpdater_lawful fresh_initialStores.ownUuid rfl
    (Machine.reaches_after _ atStart)
  refine ⟨server, hserver, by simpa [hpoint] using hhistory, ?_⟩
  rw [Stores.recorded, (hidle hpoint).1]
  decide

section Lost

variable [DecidableEq D] {kept : List (Event D O)} {server : Server D O}

/-- The server that answers at once has taken the events that were kept, all calls and answers
among them. -/
structure Keeps (m : OperationsManager O) (s : Threads T D O) (kept : List (Event D O))
    (server : Server D O) : Prop where
  inv : s.Inv m
  taken : s.Matches kept server
  sublist : kept.Sublist s.history
  calls : kept.filter Event.isCall = s.history.filter Event.isCall

theorem Keeps.arrive (hu : u.Lawful) (h : s.Keeps m kept server) (arrival : Arrival D O) :
    ∃ server', Machine.Reaches (Server.step m u) (fun _ _ => True) server server' ∧
      Keeps m { s with toServer := s.toServer.arrive arrival }
        (kept ++ s.kept (.arrive arrival) { s with toServer := s.toServer.arrive arrival })
        server' := by
  rw [Threads.kept]
  split_ifs with hovertakes
  · refine ⟨server, .refl, h.inv.arrive hu arrival, ?_, ?_, ?_⟩
    · rw [List.append_nil]
      exact h.taken.overtaken hovertakes
    · rw [Server.history_arrive]
      exact h.sublist.append (List.nil_sublist _)
    · rw [Server.history_arrive, List.filter_append, List.filter_append, h.calls]
      cases arrival with
      | submit _ => exact hovertakes.elim
      | load _ | post _ => rfl
  · refine ⟨server.arrive arrival, .single ⟨.arrive arrival, trivial, rfl⟩,
      h.inv.arrive hu arrival, h.taken.arrive hovertakes, ?_, ?_⟩
    · rw [Server.history_arrive]
      exact h.sublist.append_right _
    · rw [Server.history_arrive, List.filter_append, List.filter_append, h.calls]

theorem Keeps.step (hu : u.Lawful) (h : s.Keeps m kept server) {a : ServerAction D O}
    {s' : Threads T D O} (hstep : s.step m u a = some s') :
    ∃ server', Machine.Reaches (Server.step m u) (fun _ _ => True) server server' ∧
      s'.Keeps m (kept ++ s.kept a s') server' := by
  cases a with
  | arrive arrival =>
    obtain rfl := Option.some.inj hstep
    exact h.arrive hu arrival
  | run =>
    obtain ⟨hinv', -, hturn⟩ := h.inv.turn hu hstep
    obtain ⟨events, server', hevents, hreaches, hnext⟩ := h.taken.turn hu hturn
    have hkept : s.kept .run s' = events := by rw [Threads.kept, hevents, List.drop_left]
    rw [hkept]
    refine ⟨server', hreaches, hinv', hnext, ?_, ?_⟩
    · exact hevents ▸ h.sublist.append_right events
    · rw [hevents, List.filter_append, List.filter_append, h.calls]

/-- Whatever is posted and loaded in between : leaving out what overtakes a call, nobody can tell
the difference to a server that answers every call at once. -/
theorem posts_lost (hu : u.Lawful) (hown : start.stores.OwnUuid) (hidle : start.point = none)
    (actions : List (ServerAction D O))
    (hrun : Machine.follow (step m u) (fun _ _ => True) actions start = some s) :
    let kept := start.history ++ keptAlong m u actions start
    kept.Sublist s.history ∧ kept.filter Event.isCall = s.history.filter Event.isCall ∧
      ∃ server, Machine.Reaches (Server.step m u) (fun _ _ => True) start.toServer server ∧
        Sooner Event.IsAnswer (kept ++ Point.owed s.point) server.history ∧
        (s.point = none → server.stores = s.stores ∧ server.waiting = s.waiting) := by
  have hstart : start.Keeps m start.history start.toServer :=
    ⟨⟨hown, by simp [hidle]⟩, (matches_iff_of_idle hidle).2 ⟨rfl, rfl, .refl⟩, .refl _, rfl⟩
  obtain ⟨server, hserver, h⟩ : ∃ server,
      Machine.Reaches (Server.step m u) (fun _ _ => True) start.toServer server ∧
        s.Keeps m (start.history ++ keptAlong m u actions start) server :=
    Machine.follow_simulation (R := fun kept s server => s.Keeps m kept server)
      (fun _ _ _ _ _ h hstep => h.step hu hstep) actions hstart hrun
  refine ⟨h.sublist, h.calls, server, hserver, h.taken.history, fun hs => ?_⟩
  obtain ⟨hstores, hwaiting, -⟩ := (matches_iff_of_idle hs).1 h.taken
  exact ⟨hstores, hwaiting⟩

end Lost

/-- A call that inserts a symbol. The document is posted, and loaded, after the call has read the
one it replaces. -/
def postInBetween : List (ServerAction PlainTextDocument PlainTextSingleCharacterOperation) :=
  [.arrive (.submit ⟨"2", 0, .insert ⟨"a", 3, 33⟩⟩), .run, .run, .run, .run,
    .arrive (.post ⟨"2", 0, utf16 "new", "Document 2"⟩), .arrive (.load "2"), .run, .run, .run]

def postedInBetween : Threads Text PlainTextDocument PlainTextSingleCharacterOperation :=
  Machine.after (step plainTextOperationsManager plainTextDocumentUpdater) (fun _ _ => True)
    postInBetween atStart

/-- Only the call and its answer are kept. -/
theorem posts_lost_postedInBetween :
    let kept : List (Event PlainTextDocument PlainTextSingleCharacterOperation) :=
      [.submitted ⟨"2", 0, .insert ⟨"a", 3, 33⟩⟩,
        .answered ⟨"2", 0, .insert ⟨"a", 3, 33⟩⟩ (.ok (.insert ⟨"a", 3, 33⟩))]
    postedInBetween.history.length = 4 ∧ kept.Sublist postedInBetween.history ∧
      kept.filter Event.isCall = postedInBetween.history.filter Event.isCall ∧
      ∃ server, Machine.Reaches
          (Server.step plainTextOperationsManager plainTextDocumentUpdater) (fun _ _ => True)
          atStart.toServer server ∧
        Sooner Event.IsAnswer kept server.history ∧
        server.stores.documents "2" = some ⟨"2", 1, utf16 "kek!", "Document 2"⟩ := by
  have hpoint : postedInBetween.point = none := by
    rw [← Option.isNone_iff_eq_none]
    decide
  obtain ⟨hsublist, hcalls, server, hserver, hhistory, hidle⟩ :=
    posts_lost (s := postedInBetween) plainTextDocumentUpdater_lawful fresh_initialStores.ownUuid
      rfl postInBetween (Machine.follow_eq_after (by decide))
  rw [hpoint, Point.owed_none, List.append_nil] at hhistory
  refine ⟨by decide, hsublist, hcalls, server, hserver, hhistory, ?_⟩
  rw [(hidle hpoint).1]
  decide

end Threads

end OtEditor
