import OtEditor.Joining
import OtEditor.Threads

/-!
# Joining while a call is handled

A client can load a document while the executor is in the middle of a call, and then it may
already see an operation that is still to be broadcast. If it subscribed before the broadcast, it
would get this operation a second time. So a client that joins must not only miss no broadcast :
once it has handled all it was sent, it is up to date if and only if what was broadcast between the
loading and the subscription was already in what it loaded, and what it loaded had nothing of
what was then broadcast (`newcomer_upToDate_iff`).

The single thread of the inbound channel waits for the answer to a call, so it handles a
subscription between two calls, and then the second condition holds (`inTime_subscribe`). A load
comes on another thread, at any time.
-/

namespace OtEditor

/-- The operations of a document among the answers. -/
def broadcasts (documentUUID : String)
    (events : List (Event PlainTextDocument PlainTextSingleCharacterOperation)) :
    List PlainTextSingleCharacterOperation :=
  events.filterMap fun
    | .answered call (.ok operation) =>
      if call.documentUUID = documentUUID then some operation else none
    | _ => none

theorem broadcasts_answered (documentUUID : String)
    (call : Call PlainTextSingleCharacterOperation)
    (operation : PlainTextSingleCharacterOperation) :
    broadcasts documentUUID [.answered call (.ok operation)] =
      if call.documentUUID = documentUUID then [operation] else [] := by
  by_cases h : call.documentUUID = documentUUID <;> simp [broadcasts, h]

namespace Joiner

/-- An answer is broadcast on the topic of its document. -/
def hearAll (joiner : Joiner)
    (events : List (Event PlainTextDocument PlainTextSingleCharacterOperation)) : Joiner :=
  events.foldl (fun joiner event =>
    match event with
    | .answered call (.ok operation) => joiner.hear call.documentUUID operation
    | _ => joiner) joiner

/-- The page of a client that has loaded the document and is not subscribed. -/
def loadedPage : Joiner → Option Page
  | .loaded page => some page
  | .outside | .subscribed _ _ => none

end Joiner

/-- The server, whose executor may be in the middle of a call, and a client that joins. -/
structure Newcomer where
  threads : Threads Text PlainTextDocument PlainTextSingleCharacterOperation
  joiner : Joiner

namespace Newcomer

/-- What can happen while a client joins. -/
inductive Action where
  | submit (call : Call PlainTextSingleCharacterOperation)
  | run
  | load (textArea : TextArea)
  | subscribe
  | deliver

/-- One step, if it is possible. -/
def step (documentUUID : String) (s : Newcomer) : Action → Option Newcomer
  | .submit call =>
    some { s with threads.toServer := s.threads.toServer.arrive (.submit call) }
  | .run =>
    (s.threads.step plainTextOperationsManager plainTextDocumentUpdater .run).map fun threads =>
      ⟨threads, s.joiner.hearAll (threads.history.drop s.threads.history.length)⟩
  | .load textArea =>
    match s.joiner, (DocumentController.getDocument documentUUID).exec s.threads.stores with
    | .outside, (.ok document, _) =>
      some { s with joiner := .loaded (loadDocument textArea documentUUID document) }
    | _, _ => none
  | .subscribe =>
    match s.joiner with
    | .loaded page => some { s with joiner := .subscribed page [] }
    | _ => none
  | .deliver =>
    match s.joiner with
    | .subscribed page (operation :: inbox) =>
      some { s with joiner := .subscribed ((onMessageReceived operation).exec page).2 inbox }
    | _ => none

/-- The executor is idle, the server knows the document, at the revision of its history, and
nobody has joined. -/
structure Started (documentUUID : String) (s : Newcomer) : Prop where
  ownUuid : s.threads.stores.OwnUuid
  idle : s.threads.point = none
  known : ∃ document, s.threads.stores.documents documentUUID = some document ∧
    document.revision = (s.threads.stores.recorded documentUUID).length
  outside : s.joiner = .outside

/-- The operation of the document that is saved and still to be broadcast. -/
def unheard (documentUUID : String) (s : Newcomer) : List PlainTextSingleCharacterOperation :=
  broadcasts documentUUID (Point.owed s.threads.point)

/-- The executor is about to answer with an operation of the document. -/
def answers (documentUUID : String) (s : Newcomer) : Bool :=
  match s.threads.point with
  | some (.added call _) => call.documentUUID = documentUUID
  | _ => false

/-- The page has all that is saved of the document. -/
def UpTo (documentUUID : String) (s : Newcomer) (page : Page) : Prop :=
  (s.threads.stores.documents documentUUID).map PlainTextDocument.revision =
    some page.clientFsm.revision

/-- The steps that make the client get everything once : what is broadcast while it is not
subscribed is in the page it has loaded, and what is still to be broadcast when it subscribes is
not. -/
def InTime (documentUUID : String) (s : Newcomer) : Action → Prop
  | .run => ∀ page ∈ s.joiner.loadedPage, s.answers documentUUID = true → s.UpTo documentUUID page
  | .subscribe => ∀ page ∈ s.joiner.loadedPage, s.unheard documentUUID ≠ [] →
      ¬s.UpTo documentUUID page
  | .submit _ | .load _ | .deliver => True

instance (documentUUID : String) (s : Newcomer) (page : Page) :
    Decidable (s.UpTo documentUUID page) :=
  inferInstanceAs (Decidable (_ = _))

instance (documentUUID : String) (s : Newcomer) : ∀ a, Decidable (InTime documentUUID s a)
  | .run => inferInstanceAs (Decidable (∀ _ ∈ s.joiner.loadedPage, _ → _))
  | .subscribe => inferInstanceAs (Decidable (∀ _ ∈ s.joiner.loadedPage, _ → ¬_))
  | .submit _ | .load _ | .deliver => inferInstanceAs (Decidable True)

/-! ## The client trails the document -/

open Joining

variable {documentUUID : String} {lapses : ℕ} {document : PlainTextDocument} {page : Page}
  {inbox unheard : List PlainTextSingleCharacterOperation} {joiner : Joiner} {s s' : Newcomer}

/-- A page that will not get an operation has missed it. -/
theorem follows_lose {operation : PlainTextSingleCharacterOperation}
    (h : Follows documentUUID lapses document page (operation :: inbox)) :
    Follows documentUUID (lapses + 1) document page inbox := by
  refine ⟨h.curDocumentUUID, ?_, fun hlapses => absurd hlapses (Nat.succ_ne_zero lapses)⟩
  rw [h.clientFsm, List.length_cons]
  simp only [ClientFSM.mk.injEq, and_true]
  omega

/-- A page that follows a document with operations to come is not up to it. -/
theorem revision_lt_of_follows (h : Follows documentUUID lapses document page inbox)
    (hinbox : inbox ≠ []) : page.clientFsm.revision < document.revision := by
  have hlength := List.length_pos_iff.2 hinbox
  rw [h.clientFsm]
  show document.revision - inbox.length - lapses < document.revision
  omega

/-- A subscription between two calls is in time. -/
theorem inTime_subscribe (hidle : s.threads.point = none) : InTime documentUUID s .subscribe := by
  intro page _ hunheard
  rw [unheard, hidle] at hunheard
  exact absurd rfl hunheard

/-- How the joining client follows the document : with what is still to be broadcast to come,
or, once loaded, with that in it already. When it is subscribed and has missed something or will
get something twice, it is on its way to another revision. -/
def Trails (documentUUID : String) (lapses : ℕ) (document : PlainTextDocument)
    (unheard : List PlainTextSingleCharacterOperation) : Joiner → Prop
  | .outside => lapses = 0
  | .loaded page => Follows documentUUID lapses document page unheard ∨
      lapses = 0 ∧ unheard ≠ [] ∧ Follows documentUUID 0 document page []
  | .subscribed page inbox => ∃ revision : ℤ,
      Follows documentUUID lapses { document with revision } page (inbox ++ unheard) ∧
      if lapses = 0 then revision = document.revision else revision - lapses ≠ document.revision

/-- What every step keeps, with the number of operations missed or still to come twice. -/
structure Inv (documentUUID : String) (lapses : ℕ) (s : Newcomer) : Prop where
  threads : s.threads.Inv plainTextOperationsManager
  current : s.threads.Current
  known : ∃ document, s.threads.stores.documents documentUUID = some document ∧
    document.revision =
      ((Point.committed s.threads.stores s.threads.point).recorded documentUUID).length ∧
    Trails documentUUID lapses document (s.unheard documentUUID) s.joiner

theorem Started.inv (h : s.Started documentUUID) : s.Inv documentUUID 0 := by
  obtain ⟨document, hdocument, hrevision⟩ := h.known
  refine ⟨⟨h.ownUuid, by simp [h.idle]⟩, by simp [Threads.Current, Threads.held, h.idle], document,
    hdocument, ?_, ?_⟩
  · rw [h.idle]
    exact hrevision
  · rw [h.outside]
    rfl

namespace Trails

/-- The operation is saved. -/
theorem save {operation : PlainTextSingleCharacterOperation} {content : Text}
    (h : Trails documentUUID lapses document [] joiner)
    (happlied : applied operation document.content = some content) :
    Trails documentUUID lapses { document with content, revision := document.revision + 1 }
      [operation] joiner := by
  cases joiner with
  | outside => exact h
  | loaded page =>
    rcases h with h | ⟨-, hne, -⟩
    · exact .inl (Follows.hear h happlied)
    · exact absurd rfl hne
  | subscribed page inbox =>
    obtain ⟨revision, h, hrevision⟩ := h
    rw [List.append_nil] at h
    refine ⟨revision + 1, Follows.hear h happlied, ?_⟩
    split_ifs at hrevision ⊢
    · rw [hrevision]
    · show revision + 1 - lapses ≠ document.revision + 1
      omega

/-- The operation is broadcast : the client misses it if it has not subscribed, unless it was in
what the client loaded. -/
theorem answer {operation : PlainTextSingleCharacterOperation}
    (h : Trails documentUUID lapses document [operation] joiner) :
    ∃ lapses', Trails documentUUID lapses' document [] (joiner.hear documentUUID operation) ∧
      lapses ≤ lapses' ∧ (lapses' = lapses ↔
        ∀ page ∈ joiner.loadedPage, document.revision = page.clientFsm.revision) := by
  cases joiner with
  | outside => exact ⟨lapses, h, Nat.le_refl _, iff_of_true rfl (by rintro _ ⟨⟩)⟩
  | loaded page =>
    rcases h with h | ⟨rfl, -, h⟩
    · have hlt := revision_lt_of_follows h (List.cons_ne_nil _ _)
      refine ⟨lapses + 1, .inl (follows_lose h), Nat.le_succ _,
        iff_of_false (by omega) fun heq => ?_⟩
      have := heq page rfl
      omega
    · refine ⟨0, .inl h, Nat.le_refl _, iff_of_true rfl ?_⟩
      rintro _ ⟨⟩
      rw [h.clientFsm]
      simp
  | subscribed page inbox =>
    obtain ⟨revision, h, hrevision⟩ := h
    rw [Joiner.hear, if_pos (Follows.curDocumentUUID h)]
    refine ⟨lapses, ⟨revision, ?_, hrevision⟩, Nat.le_refl _, iff_of_true rfl (by rintro _ ⟨⟩)⟩
    rwa [List.append_nil]

/-- The document is loaded, with what is saved and still to be broadcast. -/
theorem load (textArea : TextArea) (h : Trails documentUUID lapses document unheard .outside) :
    Trails documentUUID lapses document unheard
      (.loaded (loadDocument textArea documentUUID document)) := by
  obtain rfl : lapses = 0 := h
  have hfollows : Follows documentUUID 0 document _ [] := Follows.load textArea
  cases unheard with
  | nil => exact .inl hfollows
  | cons operation unheard => exact .inr ⟨rfl, List.cons_ne_nil _ _, hfollows⟩

/-- The client subscribes : it will get an operation twice if it has loaded it and the operation
is still to be broadcast. -/
theorem subscribe (h : Trails documentUUID lapses document unheard (.loaded page)) :
    ∃ lapses', Trails documentUUID lapses' document unheard (.subscribed page []) ∧
      lapses ≤ lapses' ∧ (lapses' = lapses ↔
        (unheard ≠ [] → document.revision ≠ page.clientFsm.revision)) := by
  rcases h with h | ⟨rfl, hunheard, h⟩
  · refine ⟨lapses, ⟨document.revision, h, ?_⟩, Nat.le_refl _,
      iff_of_true rfl fun hunheard => Int.ne_of_gt (revision_lt_of_follows h hunheard)⟩
    split_ifs with hlapses
    · rfl
    · omega
  · have hrevision : document.revision = page.clientFsm.revision := by
      rw [h.clientFsm]
      simp
    -- the revision it is on its way to is one too high
    refine ⟨1, ⟨document.revision + unheard.length + 1, ⟨h.curDocumentUUID, ?_, by rintro ⟨⟩⟩, ?_⟩,
      Nat.zero_le 1, iff_of_false Nat.one_ne_zero fun hne => hne hunheard hrevision⟩
    · rw [h.clientFsm]
      simp only [List.nil_append, List.length_nil, ClientFSM.mk.injEq, and_true]
      omega
    · have := List.length_pos_iff.2 hunheard
      rw [if_neg Nat.one_ne_zero]
      omega

theorem deliver {operation : PlainTextSingleCharacterOperation}
    (h : Trails documentUUID lapses document unheard (.subscribed page (operation :: inbox))) :
    Trails documentUUID lapses document unheard
      (.subscribed ((onMessageReceived operation).exec page).2 inbox) := by
  obtain ⟨revision, h, hrevision⟩ := h
  exact ⟨revision, Follows.deliver h, hrevision⟩

/-- A broadcast on the topic of another document does not reach the client. -/
theorem hear_eq {other : String} (hother : other ≠ documentUUID)
    (h : Trails documentUUID lapses document unheard joiner)
    (operation : PlainTextSingleCharacterOperation) : joiner.hear other operation = joiner := by
  cases joiner with
  | outside => rfl
  | loaded page => rfl
  | subscribed page inbox =>
    obtain ⟨revision, h, -⟩ := h
    rw [Joiner.hear, if_neg]
    rw [Follows.curDocumentUUID h]
    exact hother.symm

end Trails

theorem upTo_iff (hdocument : s.threads.stores.documents documentUUID = some document) :
    s.UpTo documentUUID page ↔ document.revision = page.clientFsm.revision := by
  simp [UpTo, hdocument]

/-- Only an answer is broadcast. -/
theorem inTime_run (h : ∀ call operation, s.threads.point = some (.added call operation) →
    call.documentUUID ≠ documentUUID) : InTime documentUUID s .run := by
  intro page _ hanswers
  obtain ⟨⟨server, _ | (_ | _ | _ | _ | _ | ⟨call, operation⟩)⟩, joiner⟩ := s
  case added => exact absurd (of_decide_eq_true hanswers) (h call operation rfl)
  all_goals cases hanswers

namespace Inv

section Run

variable {stores : PlainTextStores} {waiting : List (Call PlainTextSingleCharacterOperation)}
  {history : List (Event PlainTextDocument PlainTextSingleCharacterOperation)}
  {call : Call PlainTextSingleCharacterOperation} {operation : PlainTextSingleCharacterOperation}
  {document' : PlainTextDocument} {content : Text}

/-- The executor saves a document : if it is the one the client joins, the client trails it with
one more operation to come. -/
theorem save (h : Inv documentUUID lapses
      ⟨⟨⟨stores, waiting, history⟩, some (.applied call operation document' content)⟩, joiner⟩)
    {next : Threads Text PlainTextDocument PlainTextSingleCharacterOperation}
    (hinv : next.Inv plainTextOperationsManager) (hcurrent : next.Current)
    (hstores : next.stores = ((DocumentRepository.save
      (plainTextDocumentUpdater.updateContentAndRevision document' content
        (document'.revision + 1)) : Effect PlainTextStores Unit).exec stores).2)
    (hpoint : next.point = some (.saved call operation document')) :
    Inv documentUUID lapses ⟨next, joiner⟩ := by
  obtain ⟨document, hdocument, hrevision, htrails⟩ := h.known
  obtain ⟨hid, happly, -⟩ := h.threads.knows _ rfl
  have hknown : stores.documents document'.uuid = some document' := h.current document' rfl
  have hcommitted : Point.committed next.stores next.point =
      (Point.committed stores (some (.applied call operation document' content))).record
        plainTextDocumentUpdater document' content operation := by
    rw [hstores, hpoint]
    exact committed_save plainTextDocumentUpdater_lawful stores call operation document' content
  have hunheard : (Newcomer.mk next joiner).unheard documentUUID =
      if call.documentUUID = documentUUID then [operation] else [] := by
    rw [unheard, hpoint]
    exact broadcasts_answered documentUUID call operation
  refine ⟨hinv, hcurrent, ?_⟩
  simp only [hunheard, hcommitted]
  by_cases hcall : call.documentUUID = documentUUID
  · obtain rfl : document'.uuid = documentUUID := hid.trans hcall
    obtain rfl : document = document' := Option.some.inj (hdocument.symm.trans hknown)
    refine ⟨{ document with content, revision := document.revision + 1 }, ?_, ?_, ?_⟩
    · rw [hstores]
      exact Function.update_self ..
    · rw [Stores.recorded_record_plainText, List.length_append]
      exact congrArg (· + 1) hrevision
    · rw [if_pos hcall]
      exact Trails.save htrails (applied_eq_some.2 happly)
  · have hother : document'.uuid ≠ documentUUID := fun heq => hcall (hid.symm.trans heq)
    refine ⟨document, ?_, ?_, ?_⟩
    · rw [hstores]
      exact (Function.update_of_ne hother.symm ..).trans hdocument
    · rwa [Stores.recorded_record_of_ne hother.symm]
    · rw [if_neg hcall]
      exact htrails

/-- The executor answers : if it is with an operation of the document that the client joins, the
client misses it unless it has subscribed, or it was in what the client loaded. -/
theorem answer (h : Inv documentUUID lapses
      ⟨⟨⟨stores, waiting, history⟩, some (.added call operation)⟩, joiner⟩)
    {next : Threads Text PlainTextDocument PlainTextSingleCharacterOperation}
    (hinv : next.Inv plainTextOperationsManager) (hcurrent : next.Current)
    (hstores : next.stores = stores) (hpoint : next.point = none) :
    ∃ lapses', Inv documentUUID lapses' ⟨next, joiner.hear call.documentUUID operation⟩ ∧
      lapses ≤ lapses' ∧ (lapses' = lapses ↔ InTime documentUUID
        ⟨⟨⟨stores, waiting, history⟩, some (.added call operation)⟩, joiner⟩ .run) := by
  obtain ⟨document, hdocument, hrevision, htrails⟩ := h.known
  replace htrails : Trails documentUUID lapses document
    (broadcasts documentUUID [.answered call (.ok operation)]) joiner := htrails
  rw [broadcasts_answered] at htrails
  have hunheard (joiner : Joiner) : (Newcomer.mk next joiner).unheard documentUUID = [] := by
    rw [unheard, hpoint]
    rfl
  by_cases hcall : call.documentUUID = documentUUID
  · rw [if_pos hcall] at htrails
    obtain ⟨lapses', htrails', hle, hlapses⟩ := htrails.answer
    refine ⟨lapses', ⟨hinv, hcurrent, document, ?_, ?_, ?_⟩, hle, ?_⟩
    · exact hstores ▸ hdocument
    · rw [hstores, hpoint]
      exact hrevision
    · rw [hunheard, hcall]
      exact htrails'
    · rw [hlapses]
      refine forall₂_congr fun page _ => ?_
      rw [upTo_iff hdocument]
      simp [answers, hcall]
  · rw [if_neg hcall] at htrails
    refine ⟨lapses, ⟨hinv, hcurrent, document, ?_, ?_, ?_⟩, Nat.le_refl _,
      iff_of_true rfl (inTime_run ?_)⟩
    · exact hstores ▸ hdocument
    · rw [hstores, hpoint]
      exact hrevision
    · rw [hunheard, htrails.hear_eq hcall]
      exact htrails
    · rintro _ _ ⟨⟩
      exact hcall

/-- The executor goes on : the client misses an operation exactly if the answer is not in time. -/
theorem step_run (h : s.Inv documentUUID lapses) (hstep : step documentUUID s .run = some s') :
    ∃ lapses', s'.Inv documentUUID lapses' ∧ lapses ≤ lapses' ∧
      (lapses' = lapses ↔ InTime documentUUID s .run) := by
  obtain ⟨⟨⟨stores, waiting, history⟩, point⟩, joiner⟩ := s
  obtain ⟨next, hnext, rfl⟩ := Option.map_eq_some_iff.1 hstep
  obtain ⟨document, hdocument, hrevision, htrails⟩ := h.known
  obtain ⟨hinv, hcurrent, hturn⟩ := h.threads.turn plainTextDocumentUpdater_lawful hnext
  cases hturn with
  | wait hdocuments hcommitted _ howed hunfinished =>
    refine ⟨lapses, ⟨hinv, hcurrent, document, ?_, ?_, ?_⟩, Nat.le_refl _,
      iff_of_true rfl (inTime_run fun call operation hpoint => ?_)⟩
    · exact (congrFun hdocuments documentUUID).trans hdocument
    · rwa [hcommitted]
    · rw [List.drop_length, unheard, howed]
      exact htrails
    · exact absurd hpoint (hunfinished call operation)
  | fail _ howed hcommitted _ =>
    refine ⟨lapses, ⟨hinv, hcurrent, document, hdocument, ?_, ?_⟩, Nat.le_refl _,
      iff_of_true rfl (inTime_run fun call operation hpoint => ?_)⟩
    · rwa [hcommitted] at hrevision
    · rw [List.drop_left]
      rw [unheard, howed] at htrails
      exact htrails
    · rw [hpoint] at howed
      cases howed
  | @save call operation document' content hpoint _ =>
    obtain rfl : point = _ := hpoint
    rw [List.drop_length]
    exact ⟨lapses, h.save hinv hcurrent rfl rfl, Nat.le_refl _,
      iff_of_true rfl (inTime_run (by rintro _ _ ⟨⟩))⟩
  | @answer call operation hpoint =>
    obtain rfl : point = _ := hpoint
    rw [List.drop_left]
    exact h.answer hinv hcurrent rfl rfl

end Run

theorem step_load {textArea : TextArea} (h : s.Inv documentUUID lapses)
    (hstep : step documentUUID s (.load textArea) = some s') : s'.Inv documentUUID lapses := by
  obtain ⟨document, hdocument, hrevision, htrails⟩ := h.known
  have hget : (DocumentController.getDocument documentUUID).exec s.threads.stores =
      (.ok document, s.threads.stores) := by
    have hexec := exec_getDocument s.threads.stores documentUUID
    rwa [hdocument] at hexec
  obtain ⟨threads, joiner⟩ := s
  cases joiner with
  | outside =>
    simp only [step, hget] at hstep
    obtain rfl := Option.some.inj hstep
    exact ⟨h.threads, h.current, document, hdocument, hrevision, htrails.load textArea⟩
  | loaded page => cases hstep
  | subscribed page inbox => cases hstep

theorem step_subscribe (h : s.Inv documentUUID lapses)
    (hstep : step documentUUID s .subscribe = some s') :
    ∃ lapses', s'.Inv documentUUID lapses' ∧ lapses ≤ lapses' ∧
      (lapses' = lapses ↔ InTime documentUUID s .subscribe) := by
  obtain ⟨document, hdocument, hrevision, htrails⟩ := h.known
  obtain ⟨threads, joiner⟩ := s
  cases joiner with
  | outside => cases hstep
  | loaded page =>
    obtain rfl := Option.some.inj hstep
    obtain ⟨lapses', htrails', hle, hlapses⟩ := htrails.subscribe
    refine ⟨lapses', ⟨h.threads, h.current, document, hdocument, hrevision, htrails'⟩, hle, ?_⟩
    rw [hlapses, ← not_iff_not]
    simp [InTime, Joiner.loadedPage, upTo_iff hdocument]
  | subscribed page inbox => cases hstep

theorem step_deliver (h : s.Inv documentUUID lapses)
    (hstep : step documentUUID s .deliver = some s') : s'.Inv documentUUID lapses := by
  obtain ⟨document, hdocument, hrevision, htrails⟩ := h.known
  obtain ⟨threads, joiner⟩ := s
  rcases joiner with _ | page | ⟨page, _ | ⟨operation, inbox⟩⟩
  · cases hstep
  · cases hstep
  · cases hstep
  · obtain rfl := Option.some.inj hstep
    exact ⟨h.threads, h.current, document, hdocument, hrevision, htrails.deliver⟩

/-- Something is missed or will come twice exactly after the steps that are not in time. -/
theorem step {a : Action} (h : s.Inv documentUUID lapses)
    (hstep : step documentUUID s a = some s') :
    ∃ lapses', s'.Inv documentUUID lapses' ∧ lapses ≤ lapses' ∧
      (lapses' = lapses ↔ InTime documentUUID s a) := by
  cases a with
  | submit call =>
    obtain rfl := Option.some.inj hstep
    have hinv := h.threads.arrive plainTextDocumentUpdater_lawful (.submit call)
    exact ⟨lapses, ⟨hinv, h.current, h.known⟩, Nat.le_refl _, iff_of_true rfl trivial⟩
  | run => exact h.step_run hstep
  | load textArea => exact ⟨lapses, h.step_load hstep, Nat.le_refl _, iff_of_true rfl trivial⟩
  | subscribe => exact h.step_subscribe hstep
  | deliver => exact ⟨lapses, h.step_deliver hstep, Nat.le_refl _, iff_of_true rfl trivial⟩

/-- With nothing left to broadcast or to handle, the page is up to date if and only if nothing was
missed or came twice. -/
theorem upToDate_iff (h : s.Inv documentUUID lapses) (hidle : s.threads.point = none)
    (hjoined : s.joiner = .subscribed page []) :
    (page.clientFsm.revision = (s.threads.stores.recorded documentUUID).length ∧
      (s.threads.stores.documents documentUUID).map PlainTextDocument.content =
        some page.textArea.value) ↔ lapses = 0 := by
  obtain ⟨document, hdocument, hrevision, htrails⟩ := h.known
  rw [hidle] at hrevision
  replace hrevision : document.revision = (s.threads.stores.recorded documentUUID).length :=
    hrevision
  have hunheard : s.unheard documentUUID = [] := by
    rw [unheard, hidle]
    rfl
  rw [hjoined, hunheard] at htrails
  obtain ⟨revision, hfollows, hlapses⟩ := htrails
  have hfsm : page.clientFsm.revision = revision - lapses := by
    rw [hfollows.clientFsm]
    simp
  rw [hfsm, ← hrevision, hdocument]
  constructor
  · rintro ⟨hcount, -⟩
    by_contra hne
    rw [if_neg hne] at hlapses
    exact hlapses hcount
  · rintro rfl
    rw [if_pos rfl] at hlapses
    have htext := Option.some.inj (hfollows.text rfl)
    exact ⟨by simp [hlapses], congrArg some htext.symm⟩

end Inv

/-! ## Runs -/

/-- After any run of a client that joined and handled every broadcast of an idle server : its
revision counts the history of the document and its text is the content, if and only if what was
broadcast between the loading and the subscription was in what it loaded, and what it loaded had
nothing of what was to be broadcast when it subscribed. -/
theorem newcomer_upToDate_iff {start : Newcomer} (hstart : start.Started documentUUID)
    (actions : List Action)
    (hrun : Machine.follow (step documentUUID) (fun _ _ => True) actions start = some s)
    (hidle : s.threads.point = none) (hjoined : s.joiner = .subscribed page []) :
    (page.clientFsm.revision = (s.threads.stores.recorded documentUUID).length ∧
      (s.threads.stores.documents documentUUID).map PlainTextDocument.content =
        some page.textArea.value) ↔
    Machine.follow (step documentUUID) (InTime documentUUID) actions start = some s := by
  obtain ⟨lapses, hinv, -, hcount⟩ := Machine.follow_counts
    (I := Inv documentUUID) (fun _ _ _ _ h hstep => h.step hstep) actions hstart.inv hrun
  rw [hinv.upToDate_iff hidle hjoined, hcount]

/-- A client that will join the second document the server starts with, `kek`. -/
def outsideAtStart : Newcomer :=
  ⟨Threads.atStart, .outside⟩

theorem outsideAtStart_started : outsideAtStart.Started "2" :=
  ⟨fresh_initialStores.ownUuid, rfl, ⟨⟨"2", 0, utf16 "kek", "Document 2"⟩, by decide, rfl⟩, rfl⟩

/-- The client loads the document between the saving of an insertion and its broadcast, and
subscribes afterwards. Then another insertion is broadcast. -/
def loadInBetween : List Action :=
  [.submit ⟨"2", 0, .insert ⟨"a", 0, 97⟩⟩, .run, .run, .run, .run, .run, .load ⟨[], none, none⟩,
    .run, .run, .subscribe, .submit ⟨"2", 1, .insert ⟨"b", 0, 98⟩⟩, .run, .run, .run, .run, .run,
    .run, .run, .deliver]

/-- The first insertion is not broadcast to the client, which has loaded it. -/
def loadedInBetween : Newcomer :=
  Machine.after (step "2") (fun _ _ => True) loadInBetween outsideAtStart

theorem newcomer_upToDate_iff_loadedInBetween :
    let page : Page := ⟨⟨2, .synchronizedState⟩, ⟨utf16 "bakek", none, none⟩, "Document 2", "2", []⟩
    loadedInBetween.joiner = .subscribed page [] ∧
      page.clientFsm.revision = (loadedInBetween.threads.stores.recorded "2").length ∧
      (loadedInBetween.threads.stores.documents "2").map PlainTextDocument.content =
        some page.textArea.value := by
  have hjoined : loadedInBetween.joiner = .subscribed ⟨⟨2, .synchronizedState⟩,
      ⟨utf16 "bakek", none, none⟩, "Document 2", "2", []⟩ [] := by decide
  have hidle : loadedInBetween.threads.point = none := by
    rw [← Option.isNone_iff_eq_none]
    decide
  have hrun : Machine.follow (step "2") (fun _ _ => True) loadInBetween outsideAtStart =
      some loadedInBetween := Machine.follow_eq_after (by decide)
  exact ⟨hjoined, (newcomer_upToDate_iff outsideAtStart_started _ hrun hidle hjoined).2 rfl⟩

/-- The client loads the document before the insertion is saved, and misses it. -/
example :
    let s := Machine.after (step "2") (fun _ _ => True)
      [.submit ⟨"2", 0, .insert ⟨"a", 0, 97⟩⟩, .run, .run, .run, .run, .load ⟨[], none, none⟩,
        .run, .run, .run, .subscribe] outsideAtStart
    s.joiner = .subscribed
        ⟨⟨0, .synchronizedState⟩, ⟨utf16 "kek", none, none⟩, "Document 2", "2", []⟩ [] ∧
      (s.threads.stores.recorded "2").length = 1 := by
  decide

end Newcomer

end OtEditor
