import OtEditor.Requests

/-!
# The revision of a document and its history

A client that reads a document at revision `r` asks for the operations it missed by
dropping `r` entries of the history (`IndexesHistory`). The server keeps the revision
twice : as a field of the document, and as the length of the recorded operations.
`receiveOperation` moves both and `remove` deletes both, but `save` writes the document
alone. So the revisions index the histories through a run exactly as long as every
document is saved with the number of operations recorded for it
(`revisions_index_histories_iff`).
-/

open Responder

namespace OtEditor

open ServerDocumentManager DocumentStorageService

variable {T D O : Type} [Operation T O] [Document T D] (m : OperationsManager O)
  (u : DocumentUpdater T D)

/-- The operations accepted for a document by the calls of a run, in order. -/
def acceptedOperations (documentUUID : String) (answers : List (Call O × Except Throwable O)) :
    List O :=
  answers.filterMap fun answer =>
    if answer.1.documentUUID = documentUUID then answer.2.toOption else none

/-- The revision of every document is the number of its operations, and after any further
calls the operations at or above that revision are the ones these calls added. -/
def IndexesHistory (stores : Stores D O) : Prop :=
  ∀ uuid document, stores.documents uuid = some document →
    ((ServerDocumentManager.getRevision uuid).exec stores).1 = .ok (Document.revision document) ∧
    ∀ calls : List (Call O),
      let later := run (serveCall m u) calls stores
      ((getConcurrentOperations uuid (Document.revision document)).exec later.2).1 =
        .ok (acceptedOperations uuid later.1)

/-- The revision of every document is the number of its recorded operations. -/
def RevisionsCount (stores : Stores D O) : Prop :=
  ∀ uuid document, stores.documents uuid = some document →
    Document.revision document = (stores.recorded uuid).length

/-! ## What the requests do to the revisions -/

theorem RevisionsCount.remove {stores : Stores D O} (h : RevisionsCount stores)
    (documentUUID : String) : RevisionsCount (serve m u (.remove documentUUID) stores).2 := by
  intro uuid d hd
  by_cases hid : uuid = documentUUID
  · subst hid
    simp [serve_remove] at hd
  · simp only [serve_remove, Function.update_of_ne hid] at hd
    simp only [serve_remove, Stores.recorded, Function.update_of_ne hid]
    exact h uuid d hd

/-- A saved document has to come with the revision that counts what is recorded for it. -/
theorem revisionsCount_save_iff {stores : Stores D O} (h : RevisionsCount stores)
    (document : D) : RevisionsCount (serve m u (.save document) stores).2 ↔
      Document.revision document = (stores.recorded (Document.uuid document)).length := by
  constructor
  · intro hsave
    exact hsave (Document.uuid document) document (by simp [serve_save])
  · intro hrevision uuid d hd
    by_cases hid : uuid = Document.uuid document
    · subst hid
      simp only [serve_save, Function.update_self, Option.some.injEq] at hd
      subst hd
      exact hrevision
    · simp only [serve_save, Function.update_of_ne hid] at hd
      exact h uuid d hd

section Lawful

variable {m u} (hu : u.Lawful)
include hu

/-- A recorded operation moves both revisions. -/
theorem RevisionsCount.serveCall {stores : Stores D O} (hown : stores.OwnUuid)
    (h : RevisionsCount stores) (call : Call O) :
    RevisionsCount (serveCall m u call stores).2 := by
  unfold OtEditor.serveCall
  rcases exec_receiveOperation_cases m u stores call.documentUUID call.revision
    call.operation with ⟨e, -, hexec⟩ | ⟨_, document, content, -, hdocument, -, hexec⟩
  · rw [hexec]
    exact h
  · rw [hexec]
    intro uuid d hd
    by_cases hid : uuid = Document.uuid document
    · subst hid
      rw [Stores.documents_record_self hu] at hd
      obtain rfl := Option.some.inj hd
      have hcount := h _ _ hdocument
      rw [← hown _ _ hdocument] at hcount
      rw [hu.revision, hcount, Stores.recorded_record_self, List.length_append]
      rfl
    · rw [Stores.documents_record_of_ne hu hid] at hd
      rw [h uuid d hd, Stores.recorded_record_of_ne hid]

/-- Calls add to the history of a document the operations they accept for it. -/
theorem recorded_run (uuid : String) : ∀ (calls : List (Call O)) (stores : Stores D O),
    stores.OwnUuid → (run (serveCall m u) calls stores).2.recorded uuid =
      stores.recorded uuid ++ acceptedOperations uuid (run (serveCall m u) calls stores).1
  | [], stores, _ => by simp [acceptedOperations]
  | call :: calls, stores, hown => by
    have hrest := recorded_run uuid calls (serveCall m u call stores).2 (hown.serveCall hu call)
    rw [run_cons_snd, hrest, run_cons_fst]
    rcases serveCall_answer (m := m) hu hown call with
      ⟨operation, hok, hself, hothers⟩ | ⟨e, -, herror⟩
    · by_cases hid : call.documentUUID = uuid
      · subst hid
        simp [acceptedOperations, hok, hself, Except.toOption]
      · simp [acceptedOperations, hid, (hothers uuid (Ne.symm hid)).1]
    · simp [acceptedOperations, herror, Except.toOption]

/-- The revisions index the histories exactly if they count them. -/
theorem indexesHistory_iff {stores : Stores D O} (hown : stores.OwnUuid) :
    IndexesHistory m u stores ↔ RevisionsCount stores := by
  constructor
  · intro h uuid document hdocument
    have hrevision := (h uuid document hdocument).1
    rw [exec_getRevision] at hrevision
    exact (Except.ok.inj hrevision).symm
  · intro h uuid document hdocument
    rw [exec_getRevision, h uuid document hdocument]
    refine ⟨rfl, fun calls => ?_⟩
    intro later
    rw [exec_getConcurrentOperations, Stores.concurrent_natCast, recorded_run hu uuid calls _ hown,
      List.drop_left]

end Lawful

/-! ## Runs -/

/-- Every document saved in a run comes with the number of operations then recorded for
its uuid. -/
def SavesCount (start : PlainTextStores) (requests : List PlainTextRequest) : Prop :=
  ∀ before document after, requests = before ++ .save document :: after →
    document.revision =
      (((run servePlainTextRequest before start).2.recorded document.uuid).length : ℤ)

/-- From fresh stores the revisions index the histories after every prefix of a run exactly
if every document is saved with the number of operations recorded for it. -/
theorem revisions_index_histories_iff (start : PlainTextStores) (hfresh : Fresh start)
    (requests : List PlainTextRequest) :
    (∀ before, before <+: requests →
      IndexesHistory plainTextOperationsManager plainTextDocumentUpdater
        (run servePlainTextRequest before start).2) ↔
      SavesCount start requests := by
  have hu := plainTextDocumentUpdater_lawful
  have hown : ∀ before, (run servePlainTextRequest before start).2.OwnUuid := fun before =>
    invariant_run (fun request _ hs => hs.serve hu request) before hfresh.ownUuid
  simp only [indexesHistory_iff hu (hown _)]
  constructor
  · rintro h before document after rfl
    have hsaved := h (before ++ [.save document]) ⟨after, by simp⟩
    rw [run_append_snd, run_cons_snd, run_nil] at hsaved
    exact (revisionsCount_save_iff plainTextOperationsManager plainTextDocumentUpdater
      (h before (List.prefix_append _ _)) document).1 hsaved
  · intro h before hbefore
    refine invariant_run_prefix (fun before request after hsplit hcount => ?_) ?_ before hbefore
    · cases request with
      | receiveOperation call =>
        rw [servePlainTextRequest, serve_receiveOperation]
        exact hcount.serveCall hu (hown before) call
      | save document =>
        exact (revisionsCount_save_iff _ _ hcount document).2 (h before document after hsplit)
      | remove documentUUID => exact hcount.remove _ _ documentUUID
    · intro uuid document hdocument
      rw [hfresh.revision uuid document hdocument, hfresh.recorded]
      rfl

/-- A document saved under a new uuid with revision zero. -/
theorem revisions_index_histories_new_document :
    let requests : List PlainTextRequest := [.save ⟨"3", 0, utf16 "kek", "Document 3"⟩]
    IndexesHistory plainTextOperationsManager plainTextDocumentUpdater
      (run servePlainTextRequest requests initialStores).2 := by
  refine (revisions_index_histories_iff initialStores fresh_initialStores _).2 ?_ _
    List.prefix_rfl
  intro before document after hsplit
  cases before with
  | nil =>
    obtain ⟨hsave, -⟩ := List.cons.inj hsplit
    obtain rfl := Request.save.inj hsave
    rfl
  | cons _ _ => simp at hsplit

/-- The first document saved anew, at revision zero, after an operation was recorded for it :
whoever reads it is sent that operation again. -/
theorem saved_again_not_indexesHistory :
    let requests : List PlainTextRequest :=
      [.receiveOperation ⟨"1", 0, .insert ⟨"a", 0, 120⟩⟩, .save ⟨"1", 0, [], "Document 1"⟩]
    Fresh initialStores ∧
      ¬IndexesHistory plainTextOperationsManager plainTextDocumentUpdater
        (run servePlainTextRequest requests initialStores).2 := by
  refine ⟨fresh_initialStores, fun h => ?_⟩
  obtain ⟨-, hconcurrent⟩ := h "1" ⟨"1", 0, [], "Document 1"⟩ (by decide)
  exact absurd (hconcurrent []) (by decide)

end OtEditor
