import OtEditor.Agreement
import OtEditor.Convergence
import Mathlib.Algebra.Order.BigOperators.Group.Finset

/-!
# Runs that settle, and clients that wait forever

When the users stop typing, the server and the clients have only so much left to do : each
pending operation is sent, recorded and broadcast once, so every run of deliveries ends after at
most `Session.load` steps (`deliveries_settle`). If the server accepted every message, then all
clients are synchronized when it ends.

A message that the server rejects is never answered. Its author goes on waiting for the
operation, in every state reached from then on : it sends nothing, and none of its operations,
queued or still to be edited, is recorded (`rejected_waits_forever`).
-/

set_option linter.unusedSectionVars false

namespace OtEditor

open PlainTextSingleCharacterOperation PlainTextOperationsManager

variable {ι : Type} [DecidableEq ι] {documentUUID : String}
  {history : List PlainTextSingleCharacterOperation} {start s s' : Session ι} {i : ι}

/-! ## Clients that are stuck -/

namespace Client

/-- A client waits for an operation that is neither on its way nor among its broadcasts. -/
def Stuck (client : Client) : Prop :=
  Link.Stuck uuid client.link

/-- The queue of a link keeps its names when it is adjusted. -/
theorem map_uuid_adjust (operation : PlainTextSingleCharacterOperation)
    (ps : List PlainTextSingleCharacterOperation) :
    (adjust operation ps).map uuid = ps.map uuid := by
  rw [adjust, List.map_map]
  exact List.map_congr_left fun p _ => plainTextOperationsManager_keepsUuid p operation

end Client

namespace Session

/-- The server takes the message. -/
def Accepts (s : Session ι) : Action ι → Prop
  | .serve i => ∀ envelope outbox, (s.clients i).outbox = envelope :: outbox →
      ∃ operation, ((handleMessage envelope.message).exec s.stores).1 = .ok operation
  | .edit _ _ | .deliver _ => True

/-- Only the server takes messages from a channel. -/
theorem outbox_of_step {a : Action ι} (hstep : s.step a = some s') (i : ι) :
    a = .serve i ∨ (s.clients i).outbox.length ≤ (s'.clients i).outbox.length := by
  cases a with
  | edit j operation =>
    obtain ⟨-, rfl⟩ := step_edit hstep
    right
    by_cases hij : i = j
    · subst hij
      simp [Client.edit, Client.flush]
    · simp [Function.update_of_ne hij]
  | serve j =>
    by_cases hij : i = j
    · exact .inl (congrArg Action.serve hij.symm)
    right
    obtain ⟨envelope, outbox, hout, ⟨e, stores, -, rfl⟩ | ⟨operation, stores, -, rfl⟩⟩ :=
      step_serve hstep
    · simp [Function.update_of_ne hij]
    · simp only [Function.update_of_ne hij, Client.hear]
      split_ifs <;> rfl
  | deliver j =>
    obtain ⟨operation, inbox, -, rfl⟩ := step_deliver hstep
    right
    by_cases hij : i = j
    · subst hij
      simp [Client.receive, Client.flush]
    · simp [Function.update_of_ne hij]

namespace Inv

variable (h : s.Inv documentUUID history)
include h

omit h in
/-- The server drops the message that it rejects. -/
theorem client_of_rejected {envelope : Envelope} {outbox : List Envelope}
    (hout : (s.clients i).outbox = envelope :: outbox) {e : Throwable}
    (herror : ((handleMessage envelope.message).exec s.stores).1 = .error e)
    (hstep : s.step (.serve i) = some s') : s'.clients i = { s.clients i with outbox } := by
  obtain ⟨envelope', outbox', hout', hserve⟩ := Session.step_serve hstep
  obtain ⟨rfl, rfl⟩ := List.cons.inj (hout.symm.trans hout')
  rcases hserve with ⟨e, stores, -, rfl⟩ | ⟨operation, stores, hok, rfl⟩
  · exact Function.update_self ..
  · rw [hok] at herror
    cases herror

/-- The author of a rejected message is stuck. -/
theorem stuck_of_rejected {envelope : Envelope} {outbox : List Envelope}
    (hout : (s.clients i).outbox = envelope :: outbox) {e : Throwable}
    (herror : ((handleMessage envelope.message).exec s.stores).1 = .error e)
    (hstep : s.step (.serve i) = some s') : (s'.clients i).Stuck := by
  rw [client_of_rejected hout herror hstep]
  exact (h.link i).stuck_of_refuse (h.sent hout)

/-- A client gets stuck only by a message that the server rejects. -/
theorem stuck_of_step {a : Action ι} (hstep : s.step a = some s')
    (hstuck : (s'.clients i).Stuck) : (s.clients i).Stuck ∨ ¬s.Accepts a := by
  rcases ((h.step hstep).2 i).2 with hsame | hlink
  · rw [Client.Stuck, hsame] at hstuck
    exact .inl hstuck
  refine ((h.link i).stuck_of_step plainTextOperationsManager_keepsUuid Client.map_uuid_adjust
    hlink hstuck).imp_right ?_
  rintro ⟨o, k, rest, hflight, hrefused⟩ haccepts
  have hlength : (s'.clients i).outbox.length < (s.clients i).outbox.length := by
    have hbefore := congrArg List.length hflight
    have hafter := congrArg (fun link => link.flight.length) hrefused
    simp only [Client.link, List.length_map, List.length_cons] at hbefore hafter
    omega
  obtain rfl := (outbox_of_step hstep i).resolve_right (by omega)
  obtain ⟨envelope, outbox, hout, ⟨e, stores, hexec, rfl⟩ | ⟨operation, stores, hexec, rfl⟩⟩ :=
    Session.step_serve hstep
  · obtain ⟨operation, hok⟩ := haccepts envelope outbox hout
    rw [hexec] at hok
    cases hok
  · -- a broadcast lengthens the log, and a refusal does not
    obtain ⟨hid, -, -⟩ := (h.wired i).outbox envelope (by simp [hout])
    have hlog := congrArg (fun link => link.log.length) hrefused
    have hheard := congrArg (fun link => link.log.length)
      (((h.wired i).tail hout).hear operation).2
    simp only [Function.update_self, hid] at hlog hheard
    simp only [hheard, List.length_append, List.length_singleton] at hlog
    simp [Client.link] at hlog

/-- Without messages and broadcasts, a client that is not stuck is synchronized. -/
theorem synchronized_of_not_stuck (hstuck : ¬(s.clients i).Stuck)
    (houtbox : (s.clients i).outbox = []) (hinbox : (s.clients i).inbox = []) :
    (s.clients i).page.clientFsm.state = .synchronizedState := by
  have hqueue := Link.queue_eq_nil hstuck (by simp [Client.link, houtbox])
    (by rw [Client.unseen_link, hinbox])
  have hpending : (s.clients i).pending = [] := hqueue
  rw [(h.wired i).fsm, hpending]
  rfl

/-- A client that was stuck stays so, waiting for the same operation, and nothing of it is
recorded. -/
theorem stuckSince_of_reaches (hstuck : (s.clients i).Stuck) (hreaches : Reaches s s') :
    Link.StuckSince uuid (s.clients i).link (s'.clients i).link := by
  refine (Machine.Reaches.invariant (I := fun t => t.Inv documentUUID history ∧
    Link.StuckSince uuid (s.clients i).link (t.clients i).link) (fun t a t' ht _ hstep => ?_)
    ⟨h, Link.Stuck.since hstuck⟩ hreaches).2
  obtain ⟨hinv, hsince⟩ := ht
  obtain ⟨hinv', hadvances⟩ := hinv.step hstep
  refine ⟨hinv', ?_⟩
  rcases (hadvances i).2 with hsame | hlink
  · rw [hsame]
    exact hsince
  · exact hsince.step (hinv.link i) Client.map_uuid_adjust hlink

end Inv

/-- After the server has rejected a message, its author waits for the operation in every session
reached from then on, sends nothing, and has nothing recorded of all it edited or edits. -/
theorem rejected_waits_forever {t : Session ι} (hstart : start.Started documentUUID)
    (hreaches : Reaches start s) {envelope : Envelope} {outbox : List Envelope}
    (hout : (s.clients i).outbox = envelope :: outbox) {e : Throwable}
    (herror : ((handleMessage envelope.message).exec s.stores).1 = .error e)
    (hstep : s.step (.serve i) = some s') (hlater : Reaches s' t) :
    (t.clients i).outbox = [] ∧
      (∃ p ps, (t.clients i).pending = p :: ps ∧ p.uuid = envelope.message.operation.uuid) ∧
      ∃ since, t.stores.recorded documentUUID = s'.stores.recorded documentUUID ++ since ∧
        (t.clients i).ownAmong since = [] := by
  have h := hstart.inv.of_reaches hreaches
  have h' := (h.step hstep).1
  have ht := h'.of_reaches hlater
  obtain ⟨⟨-, hflight, -⟩, hhead, hlog, hforeign⟩ :=
    h'.stuckSince_of_reaches (h.stuck_of_rejected hout herror hstep) hlater
  refine ⟨List.map_eq_nil_iff.1 hflight, ?_, ?_⟩
  · obtain ⟨-, -, -, p, ps, hqueue, hp⟩ := (h.link i).of_flight (h.sent hout)
    have hpending : (s'.clients i).link.queue = p :: ps := by
      rw [Inv.client_of_rejected hout herror hstep]
      exact hqueue
    rw [hpending] at hhead
    obtain ⟨rest, hrest⟩ := hhead
    obtain ⟨q, qs, hqs, hq, -⟩ := List.map_eq_cons_iff.1 hrest.symm
    refine ⟨q, qs, hqs, hq.trans ?_⟩
    rw [hp]
    exact Transformation.carry_keeps transformAgainst plainTextOperationsManager_keepsUuid _ _
  · obtain ⟨since, hsince⟩ := hlog
    refine ⟨since, ?_, ?_⟩
    · rw [← (ht.wired i).delivered, ← (h'.wired i).delivered, List.append_assoc]
      exact congrArg _ hsince.symm
    · rw [← hsince, List.drop_left] at hforeign
      exact Client.ownAmong_eq_nil hforeign

/-- The server has thrown at the second client's deletion. -/
def deletionRejected : Session Bool :=
  Machine.after step (fun _ _ => True) [.serve true] deletionAfterTie

/-- The second client has edited once more, and the first client too. -/
def editedInVain : Session Bool :=
  Machine.after step (fun _ _ => True)
    [.edit true (.insert ⟨"d", 0, 100⟩), .edit false (.insert ⟨"e", 5, 101⟩), .serve false,
      .deliver true, .deliver false] deletionRejected

theorem rejected_waits_forever_editedInVain :
    (editedInVain.clients true).pending.map uuid = ["c", "d"] ∧
      (editedInVain.clients true).outbox = [] ∧
      (editedInVain.stores.recorded "2").map uuid = ["a", "b", "e"] :=
  have hreaches : Machine.Reaches step Honest twoClients deletionAfterTie :=
    (Machine.reaches_after _ _).trans (Machine.reaches_after _ _)
  have hout : (deletionAfterTie.clients true).outbox =
      [⟨⟨"2", 2, .delete ⟨"c", 0, 98⟩⟩, (deletionAfterTie.clients true).received⟩] := by decide
  have herror : ((handleMessage ⟨"2", 2, .delete ⟨"c", 0, 98⟩⟩).exec deletionAfterTie.stores).1 =
      .error (DeleteOperation.failure ⟨"c", 0, 98⟩ 97) := by decide
  have hstep : deletionAfterTie.step (.serve true) = some deletionRejected :=
    Machine.step_eq_after (by decide)
  ⟨by decide, (rejected_waits_forever twoClients_openedOn.started
    (hreaches.mono fun _ _ _ => trivial) hout herror hstep (Machine.reaches_after _ _)).1,
    by decide⟩

/-! ## Deliveries end -/

/-- Only the server and the channels are at work. -/
def Delivery : Action ι → Prop
  | .edit _ _ => False
  | .serve _ | .deliver _ => True

instance : DecidablePred (Delivery : Action ι → Prop)
  | .edit _ _ => inferInstanceAs (Decidable False)
  | .serve _ | .deliver _ => inferInstanceAs (Decidable True)

/-- What there is still to do for a client, among `n` : a broadcast is one step, a message is
one step and the broadcasts of it, and a pending operation that is not sent yet is a step
more. -/
def work (n : ℕ) (client : Client) : ℕ :=
  client.inbox.length + (n + 1) * client.outbox.length + (n + 2) * (client.pending.length - 1)

/-- What there is still to do in a session. -/
def load [Fintype ι] (s : Session ι) : ℕ :=
  ∑ i, work (Fintype.card ι) (s.clients i)

theorem work_hear (n : ℕ) (documentUUID : String) (operation : PlainTextSingleCharacterOperation)
    (client : Client) : work n (client.hear documentUUID operation) ≤ work n client + 1 := by
  rw [Client.hear]
  split_ifs
  · simp only [work, Client.pending, List.length_append, List.length_singleton]
    omega
  · exact Nat.le_succ _

theorem work_tail (n : ℕ) {client : Client} {envelope : Envelope} {outbox : List Envelope}
    (hout : client.outbox = envelope :: outbox) :
    work n { client with outbox } + (n + 1) = work n client := by
  simp only [work, Client.pending, hout, List.length_cons, Nat.mul_succ]
  omega

/-- A client that handles a broadcast may send a message, of an operation that was not sent
yet. -/
theorem work_receive (n : ℕ) {client : Client} {recorded : List PlainTextSingleCharacterOperation}
    (h : client.Wired documentUUID history recorded) {operation : PlainTextSingleCharacterOperation}
    {inbox : List PlainTextSingleCharacterOperation} (hin : client.inbox = operation :: inbox) :
    work n (Client.receive { client with inbox } operation) < work n client := by
  by_cases hown : ∃ p ps, client.pending = p :: ps ∧ operation.uuid = p.uuid
  · obtain ⟨p, ps, hpending, huuid⟩ := hown
    have hlength := congrArg List.length hpending
    rw [h.receive_own_eq hin hpending huuid]
    rcases ps with _ | ⟨q, ps⟩
    · simp only [work, Client.pending, State.pending_ofPending, Client.firstEnvelope, hin,
        List.length_cons, List.length_nil, List.append_nil] at hlength ⊢
      omega
    · simp only [work, Client.pending, State.pending_ofPending, Client.firstEnvelope, hin,
        List.length_cons, List.length_nil, List.length_append] at hlength ⊢
      simp only [hlength, Nat.add_sub_cancel, Nat.mul_succ]
      omega
  · obtain ⟨textArea, hreceive⟩ := h.receive_other_eq hin
      fun p ps hpending huuid => hown ⟨p, ps, hpending, huuid⟩
    rw [hreceive]
    simp [work, Client.pending, hin, Client.adjust]

section Load

variable [Fintype ι]

/-- What one client has to do less is less for all. -/
theorem sum_work_update {n m : ℕ} {clients : ι → Client} {client : Client}
    (h : work n client + m ≤ work n (clients i)) :
    ∑ j, work n (Function.update clients i client j) + m ≤ ∑ j, work n (clients j) := by
  have hrest : ∑ j ∈ Finset.univ.erase i, work n (Function.update clients i client j) =
      ∑ j ∈ Finset.univ.erase i, work n (clients j) :=
    Finset.sum_congr rfl fun j hj => by
      rw [Function.update_of_ne (Finset.ne_of_mem_erase hj)]
  rw [← Finset.add_sum_erase _ _ (Finset.mem_univ i), hrest, Function.update_self,
    ← Finset.add_sum_erase _ (fun j => work n (clients j)) (Finset.mem_univ i)]
  omega

/-- Each client hears at most one broadcast. -/
theorem sum_work_hear (clients : ι → Client) (documentUUID : String)
    (operation : PlainTextSingleCharacterOperation) :
    ∑ j, work (Fintype.card ι) ((clients j).hear documentUUID operation) ≤
      ∑ j, work (Fintype.card ι) (clients j) + Fintype.card ι := by
  calc ∑ j, work (Fintype.card ι) ((clients j).hear documentUUID operation)
      ≤ ∑ j, (work (Fintype.card ι) (clients j) + 1) :=
        Finset.sum_le_sum fun j _ => work_hear _ _ _ _
    _ = ∑ j, work (Fintype.card ι) (clients j) + Fintype.card ι := by
        rw [Finset.sum_add_distrib, ← Finset.card_eq_sum_ones, Finset.card_univ]

/-- Every delivery leaves less to do. -/
theorem load_of_delivery (hinv : s.Inv documentUUID history) {a : Action ι} (ha : Delivery a)
    (hstep : s.step a = some s') : s'.load < s.load := by
  cases a with
  | edit i operation => exact ha.elim
  | serve i =>
    obtain ⟨envelope, outbox, hout, hserve⟩ := step_serve hstep
    have hless := sum_work_update (work_tail (Fintype.card ι) hout).le
    rcases hserve with ⟨e, stores, -, rfl⟩ | ⟨operation, stores, -, rfl⟩
    · exact Nat.lt_of_lt_of_le (Nat.lt_add_of_pos_right (Nat.succ_pos _)) hless
    · have hheard := sum_work_hear (Function.update s.clients i { s.clients i with outbox })
        envelope.message.documentUUID operation
      exact (Nat.lt_succ_of_le hheard).trans_le hless
  | deliver i =>
    obtain ⟨operation, inbox, hin, rfl⟩ := step_deliver hstep
    exact sum_work_update (m := 1) (work_receive (Fintype.card ι) (hinv.wired i) hin)

end Load

/-- Nothing is left in the channels where the server and the clients can do nothing. -/
theorem channels_empty (hfinal : ∀ a : Action ι, Delivery a → s.step a = none) (i : ι) :
    (s.clients i).outbox = [] ∧ (s.clients i).inbox = [] := by
  have hserve := hfinal (.serve i) trivial
  have hdeliver := hfinal (.deliver i) trivial
  refine ⟨?_, ?_⟩
  · rcases hout : (s.clients i).outbox with _ | ⟨envelope, outbox⟩
    · rfl
    · simp only [step, hout] at hserve
      rcases hexec : (handleMessage envelope.message).exec s.stores with ⟨_ | _, _⟩ <;>
        simp [hexec] at hserve
  · rcases hin : (s.clients i).inbox with _ | ⟨operation, inbox⟩
    · rfl
    · simp [step, hin] at hdeliver

/-- Clients are not stuck as long as the server accepts every message. -/
theorem not_stuck_of_reaches (hstart : start.Started documentUUID)
    (hreaches : Machine.Reaches step Accepts start s) (i : ι) : ¬(s.clients i).Stuck := by
  have hnone : ¬(start.clients i).Stuck := by
    rintro ⟨hqueue, -, -⟩
    obtain ⟨textArea, documentTitle, hi⟩ := hstart.clients i
    rw [hi] at hqueue
    exact hqueue rfl
  refine (Machine.Reaches.invariant (I := fun s => s.Inv documentUUID
    (start.stores.recorded documentUUID) ∧ ¬(s.clients i).Stuck)
    (fun s a t hs haccepts hstep => ?_) ⟨hstart.inv, hnone⟩ hreaches).2
  refine ⟨(hs.1.step hstep).1, fun hstuck => ?_⟩
  exact (hs.1.stuck_of_step hstep hstuck).elim hs.2 (not_not_intro haccepts)

/-- Deliveries end. From every session reached there are at most `load` of them, however they
are ordered, and some order of them leads to where none is left. If the server has accepted
every message, then the session is quiescent where none is left. -/
theorem deliveries_settle [Fintype ι] (hstart : start.Started documentUUID)
    (hreaches : Machine.Reaches step Accepts start s) :
    (∀ as t, Machine.follow step (fun _ a => Delivery a) as s = some t → as.length ≤ s.load) ∧
      (∃ t, Machine.Reaches step (fun _ a => Delivery a) s t ∧
        ∀ a, Delivery a → t.step a = none) ∧
      ∀ t, Machine.Reaches step (fun s a => Delivery a ∧ s.Accepts a) s t →
        (∀ a, Delivery a → t.step a = none) → t.Quiescent := by
  have hinv := hstart.inv.of_reaches (hreaches.mono fun _ _ _ => trivial)
  have hless (s : Session ι) (a : Action ι) (t : Session ι)
      (hs : s.Inv documentUUID (start.stores.recorded documentUUID)) (ha : Delivery a)
      (hstep : s.step a = some t) :
      t.Inv documentUUID (start.stores.recorded documentUUID) ∧ t.load < s.load :=
    ⟨(hs.step hstep).1, load_of_delivery hs ha hstep⟩
  refine ⟨fun as t hfollow => ?_, ?_, fun t ht hfinal i => ?_⟩
  · exact (Nat.le_add_right _ _).trans (Machine.length_le_of_follow hless as hinv hfollow)
  · obtain ⟨t, ht, -, hfinal⟩ := Machine.exists_final hless s hinv
    exact ⟨t, ht, hfinal⟩
  · have hall : Machine.Reaches step Accepts start t :=
      hreaches.trans (ht.mono fun _ _ h => h.2)
    have hinv' := hstart.inv.of_reaches (hall.mono fun _ _ _ => trivial)
    obtain ⟨houtbox, hinbox⟩ := channels_empty hfinal i
    exact ⟨houtbox, hinbox, hinv'.synchronized_of_not_stuck (not_stuck_of_reaches hstart hall i)
      houtbox hinbox⟩

/-- Three edits, and two messages of them on their way. -/
def threeEdits : Session Bool :=
  Machine.after step (fun _ a => ¬Delivery a)
    [.edit false (.insert ⟨"a", 0, 97⟩), .edit true (.delete ⟨"b", 2, 107⟩),
      .edit true (.insert ⟨"c", 2, 98⟩)] twoClients

theorem deliveries_settle_threeEdits :
    threeEdits.load = 10 ∧ ∃ t, Machine.Reaches step (fun _ a => Delivery a) threeEdits t ∧
      ∀ a, Delivery a → t.step a = none :=
  have hreaches : Machine.Reaches step (fun _ a => ¬Delivery a) twoClients threeEdits :=
    Machine.reaches_after _ _
  have haccepts (s : Session Bool) : ∀ a, ¬Delivery a → s.Accepts a
    | .edit _ _, _ => trivial
    | .serve _, h | .deliver _, h => absurd trivial h
  ⟨by decide, (deliveries_settle twoClients_openedOn.started (hreaches.mono haccepts)).2.1⟩

end Session

end OtEditor
