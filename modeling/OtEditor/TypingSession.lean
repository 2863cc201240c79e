import OtEditor.Convergence
import OtEditor.Typing

/-!
# Sessions in which users type

A user types (`TypingAction.type`) : the text of a client becomes any other text, by whatever
change, and the handlers of the page make operations of it. The server and the deliveries go on
as before. For the protocol every change is a list of honest edits, as long as the diff does not
throw (`Typable`), so a run in which users type is a run of the session (`typing_refines`).
-/

set_option linter.unusedSectionVars false

open Transformation

namespace OtEditor

open PlainTextSingleCharacterOperation DiffMatchPatch

/-- A session, and what the handlers of the text areas remember. -/
structure TypingSession (ι σ : Type) where
  session : Session ι
  previousTextAreaData : ι → Text
  ids : ι → σ

/-- What can happen while users type. -/
inductive TypingAction (ι : Type) where
  /-- The user makes `cur` of the text, with some readings of the clock left for the diff. -/
  | type (i : ι) (cur : Text) (left : ℕ)
  | serve (i : ι)
  | deliver (i : ι)

variable {ι σ : Type} [DecidableEq ι]

namespace TypingSession

variable (generateId : σ → Text × σ) (simpleName : JsValue → Text)

/-- The editor of a client. -/
def editor (s : TypingSession ι σ) (i : ι) : Editor σ :=
  ⟨(s.session.clients i).page, s.previousTextAreaData i, s.ids i⟩

/-- The editor of a client after its user has typed. -/
def typed (s : TypingSession ι σ) (i : ι) (cur : Text) (left : ℕ) : Editor σ :=
  (Editor.oninput generateId simpleName left ((s.editor i).beforeinput.change cur)).2

/-- The operations that a change has added to those pending. -/
def queued (s : TypingSession ι σ) (i : ι) (editor : Editor σ) :
    List PlainTextSingleCharacterOperation :=
  editor.page.clientFsm.state.pending.drop (s.session.clients i).pending.length

/-- One step, if it is possible. The uuids generated are new. -/
def step (s : TypingSession ι σ) : TypingAction ι → Option (TypingSession ι σ)
  | .type i cur left =>
    let editor := s.typed generateId simpleName i cur left
    let operations := s.queued i editor
    if (operations.map uuid).Nodup ∧ ∀ operation ∈ operations,
        operation.uuid ∉ s.session.usedUuids then
      some {
        session := { s.session with
          clients := Function.update s.session.clients i (Client.flush { s.session.clients i with
            page := editor.page
            edited := (s.session.clients i).edited ++ operations })
          usedUuids := s.session.usedUuids ++ operations.map uuid }
        previousTextAreaData :=
          Function.update s.previousTextAreaData i editor.previousTextAreaData
        ids := Function.update s.ids i editor.ids }
    else none
  | .serve i => (s.session.step (.serve i)).map fun session => { s with session }
  | .deliver i => (s.session.step (.deliver i)).map fun session => { s with session }

/-- The text fits into a Kotlin `String`, and the diff does not throw. -/
def Typable (s : TypingSession ι σ) : TypingAction ι → Prop
  | .type i cur left => cur.length ≤ intMaxValue ∧
      (diffMain left (s.session.clients i).text cur).isOk
  | .serve _ | .deliver _ => True

instance (s : TypingSession ι σ) : DecidablePred s.Typable
  | .type _ _ _ => inferInstanceAs (Decidable (_ ∧ _))
  | .serve _ | .deliver _ => inferInstanceAs (Decidable True)

end TypingSession

/-! ## A change of the text as edits -/

namespace Client

/-- One edit after the other is one change of the text, of which the first operation is sent
if nothing was pending. -/
theorem foldl_edit_eq {cur : Text} :
    ∀ {operations : List PlainTextSingleCharacterOperation} {client : Client} {r : ℤ}
      {ps : List PlainTextSingleCharacterOperation},
      client.page.clientFsm = ⟨r, .ofPending ps⟩ → client.page.sent = [] →
      actAll applyInRange operations client.text = some cur →
      operations.foldl edit client = { client with
        page := { client.page with
          clientFsm := ⟨r, .ofPending (ps ++ operations)⟩
          textArea := { client.page.textArea with value := cur } }
        outbox := client.outbox ++ if ps = [] then
          firstEnvelope client.page.curDocumentUUID r client.received operations else []
        edited := client.edited ++ operations }
  | [], client, r, ps, hfsm, hsent, hrun => by
    obtain ⟨⟨clientFsm, ⟨value, _, _⟩, _, _, _⟩, _, _, _, _⟩ := client
    obtain rfl : clientFsm = _ := hfsm
    obtain rfl : value = cur := Option.some.inj hrun
    simp [firstEnvelope]
  | operation :: operations, client, r, ps, hfsm, hsent, hrun => by
    obtain ⟨text, happly, hrest⟩ := Option.bind_eq_some_iff.1 hrun
    have hfirst := edit_eq hfsm hsent operation
    have htext : (client.edit operation).text = text := by
      rw [hfirst]
      show (applied operation client.text).getD _ = text
      rw [applied_eq_some.2 (applyInRange_eq_some.1 happly).2]
      rfl
    have hsent' : (client.edit operation).page.sent = [] := by
      rw [hfirst]
      exact hsent
    have hfsm' : (client.edit operation).page.clientFsm =
        ⟨r, .ofPending (ps ++ [operation])⟩ := by
      rw [hfirst]
    rw [List.foldl_cons, foldl_edit_eq hfsm' hsent' (htext ▸ hrest), hfirst]
    by_cases hps : ps = [] <;> simp [hps, firstEnvelope, typed]

end Client

namespace Session

/-- Operations that rewrite the text of a client, each in range at its turn, are a run of edits,
if their uuids are new. Before each edit, the client has received, is to receive and has pending
less than at the end. -/
theorem reaches_edits {allowed : Session ι → Action ι → Prop} {cur : Text} {n : ℕ} (i : ι)
    (hallowed : ∀ (t : Session ι) operation, InRange (t.clients i).text operation →
      (t.clients i).received.length + (t.clients i).inbox.length + (t.clients i).pending.length <
        n → allowed t (.edit i operation)) :
    ∀ {operations : List PlainTextSingleCharacterOperation} {s : Session ι}
      {documentUUID : String} {history : List PlainTextSingleCharacterOperation},
      s.Inv documentUUID history → actAll applyInRange operations (s.clients i).text = some cur →
      (operations.map uuid).Nodup → (∀ operation ∈ operations, operation.uuid ∉ s.usedUuids) →
      (s.clients i).received.length + (s.clients i).inbox.length + (s.clients i).pending.length +
        operations.length ≤ n →
      Machine.Reaches step allowed s ⟨s.stores,
        Function.update s.clients i (operations.foldl Client.edit (s.clients i)),
        s.usedUuids ++ operations.map uuid⟩
  | [], s, _, _, _, _, _, _, _ => by
    simp only [List.foldl_nil, Function.update_eq_self, List.map_nil, List.append_nil]
    exact .refl
  | operation :: operations, s, documentUUID, history, hinv, hrun, hnodup, hnew, hn => by
    obtain ⟨text, happly, hrest⟩ := Option.bind_eq_some_iff.1 hrun
    obtain ⟨hin, happlied⟩ := applyInRange_eq_some.1 happly
    rw [List.map_cons, List.nodup_cons] at hnodup
    rw [List.length_cons] at hn
    have hstep : s.step (.edit i operation) = some ⟨s.stores,
        Function.update s.clients i ((s.clients i).edit operation),
        s.usedUuids ++ [operation.uuid]⟩ := by
      rw [step, if_neg (hnew operation List.mem_cons_self)]
    have hedit := Client.edit_eq (hinv.wired i).fsm (hinv.wired i).sent operation
    have htext : ((s.clients i).edit operation).text = text := by
      rw [hedit]
      show (applied operation (s.clients i).text).getD _ = text
      rw [applied_eq_some.2 happlied]
      rfl
    have hpending : ((s.clients i).edit operation).pending.length =
        (s.clients i).pending.length + 1 := by
      rw [hedit, Client.pending, State.pending_ofPending, List.length_append,
        List.length_singleton]
    have hunused : ∀ o ∈ operations, o.uuid ∉ s.usedUuids ++ [operation.uuid] := by
      intro o ho
      rw [List.mem_append, List.mem_singleton, not_or]
      refine ⟨hnew o (List.mem_cons_of_mem _ ho), fun heq => hnodup.1 ?_⟩
      rw [← heq]
      exact List.mem_map_of_mem ho
    have hrest' := reaches_edits i hallowed (hinv.step hstep).1
      (show actAll applyInRange operations _ = some cur by simpa [htext] using hrest) hnodup.2
      hunused (by
        simp only [Function.update_self, hpending]
        simp only [Client.edit, Client.flush]
        omega)
    refine .head ⟨.edit i operation, hallowed s operation hin (by omega), hstep⟩ ?_
    simpa [Function.update_idem, List.append_assoc] using hrest'

end Session

namespace TypingSession

variable {generateId : σ → Text × σ} {simpleName : JsValue → Text} {documentUUID : String}
  {history : List PlainTextSingleCharacterOperation} {s s' : TypingSession ι σ}

/-- A change can only fail if the old and the new text are both long, and a line of the old one
begins with `hasOwnProperty`. -/
theorem typable_type {i : ι} {cur : Text} {left : ℕ} (hfits : cur.length ≤ intMaxValue)
    (h : (s.session.clients i).text.length ≤ 100 ∨ cur.length ≤ 100 ∨
      ¬10 :: hasOwnProperty <:+: (s.session.clients i).text) : s.Typable (.type i cur left) := by
  refine ⟨hfits, ?_⟩
  rcases diffMain_spec left (s.session.clients i).text cur with
    ⟨-, -, ⟨-, hlong, hlong'⟩, hline⟩ | ⟨diffs, hdiffs, -⟩
  · rcases h with h | h | h
    · exact absurd h hlong.not_ge
    · exact absurd h hlong'.not_ge
    · exact absurd hline h
  · rw [hdiffs]
    rfl

/-- What a change of the text does to the session : edits, each in range at its turn and with
new uuids, one after the other. -/
theorem step_type (hinv : s.session.Inv documentUUID history) {i : ι} {cur : Text} {left : ℕ}
    (hfits : cur.length ≤ intMaxValue)
    (hreturns : (diffMain left (s.session.clients i).text cur).isOk)
    (hstep : s.step generateId simpleName (.type i cur left) = some s') :
    ∃ operations, actAll applyInRange operations (s.session.clients i).text = some cur ∧
      (operations.map uuid).Nodup ∧
      (∀ operation ∈ operations, operation.uuid ∉ s.session.usedUuids) ∧
      s'.session = ⟨s.session.stores, Function.update s.session.clients i
        (operations.foldl Client.edit (s.session.clients i)),
        s.session.usedUuids ++ operations.map uuid⟩ := by
  have hwired := hinv.wired i
  have hfsm : ((s.editor i).beforeinput.change cur).page.clientFsm =
      ⟨(history.length + (s.session.clients i).received.length : ℕ),
        .ofPending (s.session.clients i).pending⟩ := hwired.fsm
  rcases Editor.oninput_spec generateId simpleName left hfsm hfits with
    ⟨herror, -⟩ | ⟨operations, ids, hinput, hrun⟩
  · rw [show diffMain left (s.session.clients i).text cur = _ from herror] at hreturns
    cases hreturns
  have hrun' : actAll applyInRange operations (s.session.clients i).text = some cur := hrun
  have hfold := Client.foldl_edit_eq hwired.fsm hwired.sent hrun'
  have hqueued : s.queued i (s.typed generateId simpleName i cur left) = operations := by
    rw [queued, typed, hinput, State.pending_ofPending, List.drop_left]
  have hclient : Client.flush { s.session.clients i with
      page := (s.typed generateId simpleName i cur left).page
      edited := (s.session.clients i).edited ++ operations } =
        operations.foldl Client.edit (s.session.clients i) := by
    rw [hfold, typed, hinput]
    have hsent : (s.session.clients i).page.sent = [] := hwired.sent
    cases operations <;> by_cases hps : (s.session.clients i).pending = [] <;>
      simp [Client.flush, Editor.change, Editor.beforeinput, editor, hsent, hps, firstMessage,
        Client.firstEnvelope]
  simp only [step, hqueued, hclient] at hstep
  split_ifs at hstep with hnew
  obtain rfl := Option.some.inj hstep
  exact ⟨operations, hrun', hnew.1, hnew.2, rfl⟩

/-- A user sees the change. -/
theorem text_of_type (hinv : s.session.Inv documentUUID history) {i : ι} {cur : Text} {left : ℕ}
    (htypable : s.Typable (.type i cur left))
    (hstep : s.step generateId simpleName (.type i cur left) = some s') :
    (s'.session.clients i).text = cur := by
  obtain ⟨operations, hrun, -, -, hs'⟩ := step_type hinv htypable.1 htypable.2 hstep
  have hclient : s'.session.clients i = operations.foldl Client.edit (s.session.clients i) := by
    rw [hs']
    exact Function.update_self ..
  rw [hclient, Client.foldl_edit_eq (hinv.wired i).fsm (hinv.wired i).sent hrun]
  rfl

/-- Every step that can be taken is followed by honest edits and the same steps of the
protocol. -/
theorem step_follows (hinv : s.session.Inv documentUUID history) {a : TypingAction ι}
    (htypable : s.Typable a) (hstep : s.step generateId simpleName a = some s') :
    Machine.Reaches Session.step Session.Honest s.session s'.session := by
  cases a with
  | type i cur left =>
    obtain ⟨operations, hrun, hnodup, hnew, hs'⟩ := step_type hinv htypable.1 htypable.2 hstep
    rw [hs']
    exact Session.reaches_edits i (fun _ _ hin _ => hin) hinv hrun hnodup hnew (Nat.le_refl _)
  | serve i =>
    obtain ⟨session, hsession, rfl⟩ := Option.map_eq_some_iff.1 hstep
    exact .single ⟨.serve i, trivial, hsession⟩
  | deliver i =>
    obtain ⟨session, hsession, rfl⟩ := Option.map_eq_some_iff.1 hstep
    exact .single ⟨.deliver i, trivial, hsession⟩

/-- If the session can follow every step, then it can follow every run. -/
theorem reaches_follows {allowed : TypingSession ι σ → TypingAction ι → Prop}
    {allowed' : Session ι → Action ι → Prop}
    (hfollow : ∀ (s : TypingSession ι σ) a s', s.session.Inv documentUUID history →
      allowed s a → s.step generateId simpleName a = some s' →
      Machine.Reaches Session.step allowed' s.session s'.session)
    (hinv : s.session.Inv documentUUID history)
    (h : Machine.Reaches (step generateId simpleName) allowed s s') :
    Machine.Reaches Session.step allowed' s.session s'.session ∧
      s'.session.Inv documentUUID history := by
  have hsimulates (s : TypingSession ι σ) (a : TypingAction ι) (s' : TypingSession ι σ)
      (t : Session ι) (hs : s.session = t ∧ t.Inv documentUUID history) (ha : allowed s a)
      (hstep : s.step generateId simpleName a = some s') :
      ∃ t', Machine.Reaches Session.step allowed' t t' ∧
        s'.session = t' ∧ t'.Inv documentUUID history := by
    obtain ⟨rfl, hinv⟩ := hs
    have hreaches := hfollow s a s' hinv ha hstep
    exact ⟨s'.session, hreaches, rfl, hinv.of_reaches (hreaches.mono fun _ _ _ => trivial)⟩
  obtain ⟨t, hreaches, rfl, hinv'⟩ := h.simulation hsimulates ⟨rfl, hinv⟩
  exact ⟨hreaches, hinv'⟩

/-- A run in which users type is a run of the session in which every edit is honest. Whatever
the next user makes of a text is then shown, and is processed as operations that rewrite the old
text into it, each in range at its turn. -/
theorem typing_refines (hstart : s.session.Started documentUUID)
    (h : Machine.Reaches (step generateId simpleName) Typable s s') :
    Machine.Reaches Session.step Session.Honest s.session s'.session ∧
      ∀ i cur left s'', s'.Typable (.type i cur left) →
        s'.step generateId simpleName (.type i cur left) = some s'' →
        (s''.session.clients i).text = cur ∧ ∃ operations,
          (s''.session.clients i).edited = (s'.session.clients i).edited ++ operations ∧
          actAll applyInRange operations (s'.session.clients i).text = some cur := by
  obtain ⟨hreaches, hinv⟩ :=
    reaches_follows (fun _ _ _ hinv ha hstep => step_follows hinv ha hstep) hstart.inv h
  refine ⟨hreaches, fun i cur left s'' htypable hstep => ?_⟩
  obtain ⟨operations, hrun, -, -, hs''⟩ := step_type hinv htypable.1 htypable.2 hstep
  have hclient : s''.session.clients i =
      operations.foldl Client.edit (s'.session.clients i) := by
    rw [hs'']
    exact Function.update_self ..
  rw [hclient, Client.foldl_edit_eq (hinv.wired i).fsm (hinv.wired i).sent hrun]
  exact ⟨rfl, operations, rfl, hrun⟩

/-- The names `a`, `aa`, .. and `b`, `ba`, .. -/
def nextName (name : Text) : Text × Text :=
  (name, name ++ [97])

/-- Two users have opened `kek`. -/
def twoUsers : TypingSession Bool Text where
  session := .twoClients
  previousTextAreaData _ := []
  ids i := if i then [98] else [97]

/-- Both users have typed, and the server has heard of the first insertion. -/
def typedBoth : TypingSession Bool Text :=
  Machine.after (step nextName fun _ => []) Typable [.type false (utf16 "keeker") 1000,
    .type true (utf16 "ek") 1000, .serve false, .deliver true] twoUsers

/-- The first user has replaced the text. -/
def typedAgain : TypingSession Bool Text :=
  Machine.after (step nextName fun _ => []) (fun _ _ => True) [.type false (utf16 "ok") 1000]
    typedBoth

theorem typing_refines_typedBoth :
    Machine.Reaches Session.step Session.Honest .twoClients typedBoth.session ∧
      (typedAgain.session.clients false).text = utf16 "ok" ∧
      (typedAgain.session.clients false).pending.length = 9 := by
  obtain ⟨hreaches, htype⟩ := typing_refines (s := twoUsers) Session.twoClients_openedOn.started
    (Machine.reaches_after _ _)
  exact ⟨hreaches, (htype false (utf16 "ok") 1000 typedAgain (by decide +kernel)
    (Machine.step_eq_after (by decide +kernel))).1, by decide +kernel⟩

end TypingSession

end OtEditor
