import OtEditor.Progress
import OtEditor.TypingSession

/-!
# A single typist

As long as only one user types, no broadcast meets a defect : the other clients have nothing
pending that it could be carried past, and the typist's client is waiting for each of its
broadcasts when it comes (`EditedAlone.avoids`). So no `applyTo` throws, deliveries end, and in
the end all clients show what the user typed last and the server stores it, whatever the order
of typing, serving and delivering (`typed_text_arrives`).
-/

set_option linter.unusedSectionVars false

open Transformation

namespace OtEditor

open PlainTextSingleCharacterOperation PlainTextOperationsManager

variable {ι σ : Type} [DecidableEq ι] {documentUUID : String}
  {history : List PlainTextSingleCharacterOperation} {content : Text} {editor : ι}

/-- A client hears at most the broadcast operation. -/
theorem Client.mem_inbox_hear {client : Client} {operation x : PlainTextSingleCharacterOperation}
    (hx : x ∈ (client.hear documentUUID operation).inbox) : x ∈ client.inbox ∨ x = operation := by
  rw [hear] at hx
  split_ifs at hx
  · exact (List.mem_append.1 hx).imp_right List.mem_singleton.1
  · exact .inl hx

namespace Session

/-- Only one client edits, in range, and there is room for everything. -/
def EditsAlone (editor : ι) (content : Text) (s : Session ι) : Action ι → Prop
  | .edit i operation => i = editor ∧ s.Avoids content (.edit i operation)
  | .serve i | .deliver i => Room content (s.clients i)

/-- Only one client has made operations, and what it still has to receive are its own. -/
def EditedAlone (editor : ι) (s : Session ι) : Prop :=
  (∀ i, i ≠ editor → (s.clients i).link.made = []) ∧
    ∀ x ∈ (s.clients editor).inbox, x.uuid ∈ (s.clients editor).link.made

variable {document : PlainTextDocument} {start s s' : Session ι}

/-- What the server returns of a message is its operation, carried past the entries that its
sender had not received. -/
theorem Inv.operation_eq_of_exec (h : s.Inv documentUUID history) {i : ι} {envelope : Envelope}
    {outbox : List Envelope} (hout : (s.clients i).outbox = envelope :: outbox)
    {operation : PlainTextSingleCharacterOperation} {stores : PlainTextStores}
    (hexec : (handleMessage envelope.message).exec s.stores = (.ok operation, stores)) :
    operation = carry transformAgainst envelope.message.operation
      ((s.clients i).link.log.drop envelope.receivedAtSend.length) := by
  rcases h.handleMessage_cases hout with ⟨e, herror⟩ |
    ⟨operation', document, content, hoperation, -, -, hok⟩
  · cases hexec.symm.trans herror
  · obtain ⟨hoperation', -⟩ := Prod.mk.inj (hexec.symm.trans hok)
    exact (Except.ok.inj hoperation').trans hoperation

namespace EditedAlone

variable (hs : s.EditedAlone editor) (h : s.Inv documentUUID history)
include hs h

/-- The other clients have nothing pending. -/
theorem pending_eq_nil {i : ι} (hi : i ≠ editor) : (s.clients i).pending = [] := by
  have hledger := (h.link i).ledger
  rw [hs.1 i hi] at hledger
  exact List.map_eq_nil_iff.1 (List.append_eq_nil_iff.1 hledger.symm).2

/-- The editor gets its own operation back, and waits for it. -/
theorem pending_of_inbox {operation : PlainTextSingleCharacterOperation}
    {inbox : List PlainTextSingleCharacterOperation}
    (hin : (s.clients editor).inbox = operation :: inbox) :
    ∃ ps, (s.clients editor).pending = operation :: ps :=
  (h.link editor).queue_of_own ((h.wired editor).next hin) (hs.2 operation (by simp [hin]))

/-- No broadcast meets a defect. -/
theorem noDefect (i : ι) : NoDefect (s.clients i).inbox (s.clients i).pending := by
  by_cases hi : i = editor
  · subst hi
    cases hin : (s.clients i).inbox with
    | nil => trivial
    | cons operation inbox =>
      obtain ⟨ps, hpending⟩ := hs.pending_of_inbox h hin
      rw [hpending]
      exact .inl rfl
  · rw [hs.pending_eq_nil h hi]
    cases (s.clients i).inbox <;> trivial

/-- A single editor avoids the defects. -/
theorem avoids {a : Action ι} (ha : s.EditsAlone editor content a) : s.Avoids content a := by
  cases a with
  | edit i operation => exact ha.2
  | serve i => exact ha
  | deliver i => exact ⟨ha, hs.noDefect h i⟩

theorem step {a : Action ι} (ha : s.EditsAlone editor content a) (hstep : s.step a = some s') :
    s'.EditedAlone editor := by
  cases a with
  | edit i operation =>
    obtain ⟨-, rfl⟩ := Session.step_edit hstep
    obtain rfl := ha.1
    refine ⟨fun j hj => ?_, fun x hx => ?_⟩
    · simp only [Function.update_of_ne hj]
      exact hs.1 j hj
    · simp only [Function.update_self, Client.made_edit] at hx ⊢
      exact List.mem_append_left _ (hs.2 x hx)
  | serve i =>
    obtain ⟨envelope, outbox, hout, hserve⟩ := Session.step_serve hstep
    have hmade : ∀ j, (Function.update s.clients i { s.clients i with outbox } j).link.made =
        (s.clients j).link.made := made_update rfl
    have hinbox : (Function.update s.clients i { s.clients i with outbox } editor).inbox =
        (s.clients editor).inbox := by
      by_cases hi : editor = i
      · subst hi
        rw [Function.update_self]
      · rw [Function.update_of_ne hi]
    rcases hserve with ⟨e, stores, -, rfl⟩ | ⟨operation, stores, hexec, rfl⟩
    · simp only [EditedAlone, hmade, hinbox]
      exact hs
    · simp only [EditedAlone, Client.made_hear, hmade]
      refine ⟨hs.1, fun x hx => ?_⟩
      rcases Client.mem_inbox_hear hx with hx | rfl
      · exact hs.2 x (hinbox ▸ hx)
      · -- the sender made the operation, so it is the editor
        have hown := h.uuid_mem_made hout (h.operation_eq_of_exec hout hexec)
        by_cases hi : i = editor
        · exact hi ▸ hown
        · rw [hs.1 i hi] at hown
          cases hown
  | deliver i =>
    obtain ⟨operation, inbox, hin, rfl⟩ := Session.step_deliver hstep
    have hmade : ∀ j, (Function.update s.clients i
        (Client.receive { s.clients i with inbox } operation) j).link.made =
        (s.clients j).link.made := made_update rfl
    simp only [EditedAlone, hmade]
    refine ⟨hs.1, fun x hx => hs.2 x ?_⟩
    by_cases hi : editor = i
    · subst hi
      rw [Function.update_self] at hx
      rw [hin]
      exact List.mem_cons_of_mem _ hx
    · rwa [Function.update_of_ne hi] at hx

/-- Deliveries leave the text of the only editor alone. -/
theorem text_of_delivery {a : Action ι} (ha : Delivery a) (hstep : s.step a = some s') :
    (s'.clients editor).text = (s.clients editor).text := by
  cases a with
  | edit i operation => exact ha.elim
  | serve i =>
    obtain ⟨envelope, outbox, -, hserve⟩ := Session.step_serve hstep
    have htext : (Function.update s.clients i { s.clients i with outbox } editor).text =
        (s.clients editor).text := by
      by_cases hi : editor = i
      · subst hi
        rw [Function.update_self]
        rfl
      · rw [Function.update_of_ne hi]
    rcases hserve with ⟨e, stores, -, rfl⟩ | ⟨operation, stores, -, rfl⟩
    · exact htext
    · exact (Client.text_hear ..).trans htext
  | deliver i =>
    obtain ⟨operation, inbox, hin, rfl⟩ := Session.step_deliver hstep
    by_cases hi : editor = i
    · subst hi
      obtain ⟨ps, hpending⟩ := hs.pending_of_inbox h hin
      simp only [Function.update_self]
      rw [(h.wired editor).receive_own_eq hin hpending rfl]
      rfl
    · simp only [Function.update_of_ne hi]

end EditedAlone

/-- The server takes the next message of every replica. -/
theorem Replicas.accepts (hr : s.Replicas documentUUID content document)
    (h : s.Inv documentUUID history) : ∀ a : Action ι, s.Accepts a
  | .edit _ _ | .deliver _ => trivial
  | .serve _ => fun _ _ hout => by
    obtain ⟨operation, content', -, -, hok⟩ := hr.handleMessage_ok h hout
    exact ⟨operation, congrArg Prod.fst hok⟩

/-- As long as only one client edits, all clients hold replicas and the server accepts every
message. -/
theorem OpenedOn.of_editsAlone (hstart : start.OpenedOn documentUUID document)
    (hreaches : Machine.Reaches step (EditsAlone editor document.content) start s) :
    Machine.Reaches step Accepts start s ∧
      s.Inv documentUUID (start.stores.recorded documentUUID) ∧ s.EditedAlone editor ∧
      ∃ document', s.Replicas documentUUID document.content document' := by
  have hstartAlone : start.EditedAlone editor := by
    refine ⟨fun i _ => ?_, fun x hx => ?_⟩
    · obtain ⟨textArea, hi⟩ := hstart.clients i
      rw [hi]
      rfl
    · obtain ⟨textArea, heditor⟩ := hstart.clients editor
      rw [heditor] at hx
      cases hx
  refine Machine.Reaches.mono_of (I := fun s => s.Inv documentUUID
    (start.stores.recorded documentUUID) ∧ s.EditedAlone editor ∧
      ∃ document', s.Replicas documentUUID document.content document') ?_
    ⟨hstart.started.inv, hstartAlone, document, hstart.replicas⟩ hreaches
  rintro s a t ⟨hinv, hs, document', hr⟩ ha hstep
  exact ⟨hr.accepts hinv a, (hinv.step hstep).1, hs.step hinv ha hstep,
    hr.step hinv (hs.avoids hinv ha) hstep⟩

/-- Once all is delivered of what a single client edited, all texts equal the server's. -/
theorem OpenedOn.texts_of_editsAlone (hstart : start.OpenedOn documentUUID document)
    (hreaches : Machine.Reaches step (EditsAlone editor document.content) start s)
    (hfinal : ∀ a : Action ι, Delivery a → s.step a = none) :
    ∃ document', s.stores.documents documentUUID = some document' ∧
      ∀ i, (s.clients i).text = document'.content := by
  obtain ⟨haccepted, hinv, -, document', hr⟩ := hstart.of_editsAlone hreaches
  refine ⟨document', hr.stored, fun i => ?_⟩
  obtain ⟨houtbox, hinbox⟩ := channels_empty hfinal i
  have hunseen : (s.clients i).link.unseen = [] := by rw [Client.unseen_link, hinbox]
  exact (hr.replica i).eq_of_quiet hunseen (Link.queue_eq_nil
    (not_stuck_of_reaches hstart.started haccepted i) (by simp [Client.link, houtbox]) hunseen)

end Session

/-! ## Typing alone -/

/-- Nobody types. -/
def TypingAction.Delivers : TypingAction ι → Prop
  | .type _ _ _ => False
  | .serve _ | .deliver _ => True

instance : DecidablePred (TypingAction.Delivers : TypingAction ι → Prop)
  | .type _ _ _ => inferInstanceAs (Decidable False)
  | .serve _ | .deliver _ => inferInstanceAs (Decidable True)

namespace TypingSession

variable (generateId : σ → Text × σ) (simpleName : JsValue → Text)

/-- Only one user types, and there is room for everything. -/
def TypesAlone (typist : ι) (content : Text) (s : TypingSession ι σ) : TypingAction ι → Prop
  | .type i cur left => i = typist ∧ s.Typable (.type i cur left) ∧
      ∀ s', s.step generateId simpleName (.type i cur left) = some s' →
        Session.Room content (s'.session.clients i)
  | .serve i | .deliver i => Session.Room content (s.session.clients i)

variable {generateId simpleName} {document : PlainTextDocument} {start s s' t : TypingSession ι σ}
  {typist : ι}

/-- A step of the server or of a channel is the same step of the protocol. -/
theorem step_delivers {a : TypingAction ι}
    (ha : s.TypesAlone generateId simpleName typist content a)
    (hdelivers : a.Delivers) (hstep : s.step generateId simpleName a = some s') :
    ∃ b, (s.session.EditsAlone typist content b ∧ Session.Delivery b) ∧
      s.session.step b = some s'.session := by
  cases a with
  | type i cur left => exact hdelivers.elim
  | serve i =>
    obtain ⟨session, hsession, rfl⟩ := Option.map_eq_some_iff.1 hstep
    exact ⟨.serve i, ⟨ha, trivial⟩, hsession⟩
  | deliver i =>
    obtain ⟨session, hsession, rfl⟩ := Option.map_eq_some_iff.1 hstep
    exact ⟨.deliver i, ⟨ha, trivial⟩, hsession⟩

/-- What a single user types are edits of a single client. -/
theorem step_alone (hinv : s.session.Inv documentUUID history) {a : TypingAction ι}
    (ha : s.TypesAlone generateId simpleName typist content a)
    (hstep : s.step generateId simpleName a = some s') :
    Machine.Reaches Session.step (Session.EditsAlone typist content) s.session s'.session := by
  cases a with
  | type i cur left =>
    obtain ⟨rfl, htypable, hroom⟩ := ha
    obtain ⟨operations, hrun, hnodup, hnew, hs'⟩ := step_type hinv htypable.1 htypable.2 hstep
    have hclient : s'.session.clients i = operations.foldl Client.edit (s.session.clients i) := by
      rw [hs']
      exact Function.update_self ..
    rw [Client.foldl_edit_eq (hinv.wired i).fsm (hinv.wired i).sent hrun] at hclient
    have hpending : (s'.session.clients i).pending.length =
        (s.session.clients i).pending.length + operations.length := by
      rw [hclient, Client.pending, State.pending_ofPending, List.length_append]
    have hroom' := hroom s' hstep
    simp only [Session.Room, hpending] at hroom'
    simp only [hclient] at hroom'
    rw [hs']
    refine Session.reaches_edits (n := intMaxValue - content.length) i
      (fun t operation hin hless => ⟨rfl, hin, ?_⟩) hinv hrun hnodup hnew (by omega)
    rw [Session.Room]
    omega
  | serve i =>
    obtain ⟨b, hb, hsession⟩ := step_delivers ha trivial hstep
    exact .single ⟨b, hb.1, hsession⟩
  | deliver i =>
    obtain ⟨b, hb, hsession⟩ := step_delivers ha trivial hstep
    exact .single ⟨b, hb.1, hsession⟩

/-- Once all is delivered of what a single user typed, all clients show what it typed last, and
the server stores it. -/
theorem typed_text_arrives (hstart : start.session.OpenedOn documentUUID document)
    (hbefore : Machine.Reaches (step generateId simpleName)
      (TypesAlone generateId simpleName typist document.content) start s)
    {cur : Text} {left : ℕ}
    (htype : s.TypesAlone generateId simpleName typist document.content (.type typist cur left))
    (hstep : s.step generateId simpleName (.type typist cur left) = some s')
    (hafter : Machine.Reaches (step generateId simpleName)
      (fun s a => s.TypesAlone generateId simpleName typist document.content a ∧ a.Delivers) s' t)
    (hfinal : ∀ a : TypingAction ι, a.Delivers → t.step generateId simpleName a = none) :
    ∃ document', t.session.stores.documents documentUUID = some document' ∧
      document'.content = cur ∧ ∀ i, (t.session.clients i).text = cur := by
  obtain ⟨hreaches, hinv⟩ :=
    reaches_follows (fun _ _ _ hinv ha hstep => step_alone hinv ha hstep) hstart.started.inv hbefore
  have htyped := step_alone hinv htype hstep
  have hinv' := hinv.of_reaches (htyped.mono fun _ _ _ => trivial)
  have hdelivered : Machine.Reaches Session.step (fun s a =>
      s.EditsAlone typist document.content a ∧ Session.Delivery a) s'.session t.session := by
    refine (reaches_follows (fun s a s' _ ha hstep => ?_) hinv' hafter).1
    obtain ⟨b, hb, hsession⟩ := step_delivers ha.1 ha.2 hstep
    exact .single ⟨b, hb, hsession⟩
  -- the typist's text stays what it is after the last change
  have htext : (t.session.clients typist).text = cur := by
    obtain ⟨-, -, halone, -⟩ := hstart.of_editsAlone (hreaches.trans htyped)
    refine (Machine.Reaches.invariant (I := fun u => u.Inv documentUUID
      (start.session.stores.recorded documentUUID) ∧ u.EditedAlone typist ∧
        (u.clients typist).text = cur) ?_ ⟨hinv', halone, ?_⟩ hdelivered).2.2
    · rintro u a v ⟨hu, halone, htext⟩ ha hstep
      exact ⟨(hu.step hstep).1, halone.step hu ha.1 hstep,
        (halone.text_of_delivery hu ha.2 hstep).trans htext⟩
    · exact text_of_type hinv htype.2.1 hstep
  have hquiet (a : Action ι) (ha : Session.Delivery a) : t.session.step a = none := by
    cases a with
    | edit i operation => exact ha.elim
    | serve i => exact Option.map_eq_none_iff.1 (hfinal (.serve i) trivial)
    | deliver i => exact Option.map_eq_none_iff.1 (hfinal (.deliver i) trivial)
  obtain ⟨document', hstored, htexts⟩ := hstart.texts_of_editsAlone
    ((hreaches.trans htyped).trans (hdelivered.mono fun _ _ h => h.1)) hquiet
  have hcontent := (htexts typist).symm.trans htext
  exact ⟨document', hstored, hcontent, fun i => (htexts i).trans hcontent⟩

/-- The first user has typed `keeker`. -/
def typedOnce : TypingSession Bool Text :=
  Machine.after (step nextName fun _ => []) (fun _ _ => True)
    [.type false (utf16 "keeker") 1000] twoUsers

/-- All three insertions have been delivered, one after the other. -/
def typedDelivered : TypingSession Bool Text :=
  Machine.after (step nextName fun _ => [])
    (fun s a => a.Delivers ∧ ∀ i, Session.Room (utf16 "kek") (s.session.clients i))
    [.serve false, .deliver false, .serve false, .deliver true, .deliver false, .deliver true,
      .serve false, .deliver true, .deliver false] typedOnce

theorem typed_text_arrives_typedDelivered :
    ∃ document, typedDelivered.session.stores.documents "2" = some document ∧
      document.content = utf16 "keeker" ∧
      ∀ i, (typedDelivered.session.clients i).text = utf16 "keeker" := by
  have hstep : twoUsers.step nextName (fun _ => []) (.type false (utf16 "keeker") 1000) =
      some typedOnce :=
    Machine.step_eq_after (by decide +kernel)
  have hroom : ∀ s',
      twoUsers.step nextName (fun _ => []) (.type false (utf16 "keeker") 1000) = some s' →
      Session.Room (utf16 "kek") (s'.session.clients false) := by
    intro s' hs'
    obtain rfl := Option.some.inj (hstep.symm.trans hs')
    decide +kernel
  refine typed_text_arrives Session.twoClients_openedOn .refl ⟨rfl, by decide +kernel, hroom⟩ hstep
    ((Machine.reaches_after _ _).mono fun s a ha => ⟨?alone, ha.1⟩) ?final
  case alone =>
    cases a with
    | type i cur left => exact ha.1.elim
    | serve i | deliver i => exact ha.2 i
  case final =>
    rintro (_ | i | i) hdelivers
    · exact hdelivers.elim
    all_goals
      cases i <;> exact Option.isNone_iff_eq_none.1 (by decide +kernel)

end TypingSession

end OtEditor
