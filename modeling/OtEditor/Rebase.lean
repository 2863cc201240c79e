import OtEditor.ClientFsm

/-!
# How a waiting client rebases its pending operations

A waiting client carries a remote operation past its pending operations, and transforms
each pending operation against the remote operation as it was received. The diamond closes
if the second part, too, used the remote operation carried past the pending operations
before (`Transformation.rebase`). For a lawful manager the client closes the diamond exactly
when the pending operations after the first act alike either way (`closesDiamond_iff`), as
they do when only one operation is pending (`closesDiamond_single`).
-/

open Transformation

namespace OtEditor

open ClientDocumentManager OperationsManager

variable {T O : Type} [Operation T O]

/-- If the client with `pending` operations answers the remote `operation` with
`ApplyOperationLocally`, its text and the server's meet again from `content` : the pending
operations and then the operation to apply, and the remote operation and then the pending
operations it is left with, give the same content. -/
def ClosesDiamond (m : OperationsManager O) (pending : List O) (operation : O) (content : T) :
    Prop :=
  ∀ (r : ℤ) (operation' : O) (pending' : List O) (fsm : ClientFSM O),
    (processRemoteOperation m operation).exec ⟨r, .awaitConfirmationState pending⟩ =
      (.ok (.applyOperationLocally operation'), fsm) →
    fsm.state = .awaitConfirmationState pending' →
    (appliedAll pending content).bind (applied operation') =
      (applied operation content).bind (appliedAll pending')

/-- After the remote operation and the first pending one, the other pending operations act
alike whether they are transformed against the remote operation as received or against the
remote operation carried past the pending operations before them. -/
def RestActsAlike (m : OperationsManager O) (p : O) (ps : List O) (operation : O)
    (content : T) : Prop :=
  ∀ content', appliedAll [operation, m.transformAgainst p operation] content = some content' →
    appliedAll (ps.map fun q => m.transformAgainst q operation) content' =
      appliedAll (rebase m.transformAgainst (m.transformAgainst operation p) ps) content'

theorem closesDiamond_iff_rebased (m : OperationsManager O) (p : O) (ps : List O)
    {operation : O} (content : T) (huuid : Operation.uuid operation ≠ Operation.uuid p) :
    ClosesDiamond m (p :: ps) operation content ↔
      (appliedAll (p :: ps) content).bind
          (applied (transformAgainstEach (p :: ps) operation m)) =
        (applied operation content).bind
          (appliedAll ((p :: ps).map fun q => m.transformAgainst q operation)) := by
  constructor
  · intro h
    exact h 0 _ _ _ (exec_processRemoteOperation_other m ps 0 huuid) rfl
  · intro h r operation' pending' fsm hexec hstate
    rw [exec_processRemoteOperation_other m ps r huuid] at hexec
    obtain ⟨hcommand, rfl⟩ := Prod.mk.inj hexec
    obtain rfl := OperationApplicationCommand.applyOperationLocally.inj (Except.ok.inj hcommand)
    obtain rfl := State.awaitConfirmationState.inj hstate
    exact h

omit [Operation T O] in
theorem bind_eq_bind_iff {content : Option T} {f g : T → Option T} :
    content.bind f = content.bind g ↔ ∀ c, content = some c → f c = g c := by
  cases content <;> simp

/-- After the remote operation comes the first pending one, transformed against it, and then the
others. -/
theorem bind_appliedAll_cons (m : OperationsManager O) (p operation : O) (content : T)
    (rest : List O) :
    (applied operation content).bind (appliedAll (m.transformAgainst p operation :: rest)) =
      (appliedAll [operation, m.transformAgainst p operation] content).bind (appliedAll rest) :=
  actAll_append applied content [operation, m.transformAgainst p operation] rest

/-- The pending operations and then the remote one carried past them do the same as the remote
operation and then the pending ones rebased past it. -/
theorem bind_transformAgainstEach {m : OperationsManager O} (hm : m.Lawful) (p : O) (ps : List O)
    (operation : O) (content : T) :
    (appliedAll (p :: ps) content).bind (applied (transformAgainstEach (p :: ps) operation m)) =
      (appliedAll [operation, m.transformAgainst p operation] content).bind
        (appliedAll (rebase m.transformAgainst (m.transformAgainst operation p) ps)) := by
  have hcarry : (appliedAll (p :: ps) content).bind
      (applied (transformAgainstEach (p :: ps) operation m)) =
      (applied operation content).bind
        (appliedAll (rebase m.transformAgainst operation (p :: ps))) :=
    actAll_carry applied m.transformAgainst (p :: ps) operation content
      (closesAlong_of_lawful applied m.transformAgainst (lawful_iff.1 hm) _ _ _)
  rw [hcarry, rebase_cons, bind_appliedAll_cons]

/-- For a lawful manager a waiting client closes the diamond exactly when the pending
operations after the first act alike on either rebase. -/
theorem closesDiamond_iff {m : OperationsManager O} (hm : m.Lawful) (p : O) (ps : List O)
    {operation : O} (content : T) (huuid : Operation.uuid operation ≠ Operation.uuid p) :
    ClosesDiamond m (p :: ps) operation content ↔ RestActsAlike m p ps operation content := by
  rw [closesDiamond_iff_rebased m p ps content huuid, bind_transformAgainstEach hm, List.map_cons,
    bind_appliedAll_cons, eq_comm, bind_eq_bind_iff]
  rfl

/-- It is enough that every pending operation is transformed in the same way against the remote
operation as received and as carried past those before. -/
theorem closesDiamond_of_alikeAlong {m : OperationsManager O} (hm : m.Lawful) (p : O)
    (ps : List O) {operation : O} (content : T)
    (huuid : Operation.uuid operation ≠ Operation.uuid p)
    (halike : AlikeAlong m.transformAgainst operation operation (p :: ps)) :
    ClosesDiamond m (p :: ps) operation content := by
  rw [closesDiamond_iff_rebased m p ps content huuid, bind_transformAgainstEach hm,
    map_eq_rebase m.transformAgainst operation _ _ halike, rebase_cons, bind_appliedAll_cons]

/-- With a single pending operation the client always closes the diamond. -/
theorem closesDiamond_single {m : OperationsManager O} (hm : m.Lawful) (p : O) {operation : O}
    (content : T) (huuid : Operation.uuid operation ≠ Operation.uuid p) :
    ClosesDiamond m [p] operation content :=
  closesDiamond_of_alikeAlong hm p [] content huuid ⟨rfl, trivial⟩

/-! ## Concurrent raises -/

/-- Raises a counter by an amount. Of two concurrent raises the larger one counts. -/
structure Raise where
  uuid : Text
  amount : ℕ

instance : Operation ℕ Raise where
  uuid := Raise.uuid
  applyTo operation content := .ok (content + operation.amount)

/-- A concurrent raise leaves what it did not raise already. -/
def raiseManager : OperationsManager Raise where
  transformAgainst operation1 operation2 :=
    { operation1 with amount := operation1.amount - operation2.amount }
  invert generatedId operation := { operation with uuid := generatedId }

theorem raiseManager_lawful : raiseManager.Lawful := by
  intro operation1 operation2 content
  show some (content + operation1.amount + (operation2.amount - operation1.amount)) =
    some (content + operation2.amount + (operation1.amount - operation2.amount))
  congr 1
  omega

/-- A remote raise by nothing leaves the second pending raise alike either way. -/
theorem closesDiamond_iff_raise :
    ClosesDiamond raiseManager [⟨"p1", 1⟩, ⟨"p2", 1⟩] ⟨"r", 0⟩ 0 :=
  (closesDiamond_iff raiseManager_lawful ⟨"p1", 1⟩ [⟨"p2", 1⟩] 0 (by decide)).2 fun content' _ => by
    simp [raiseManager, rebase]

/-- Two pending raises by one and a remote raise by one : the client reaches two, and the
remote raise followed by what stays pending reaches one. -/
theorem raise_not_closesDiamond :
    raiseManager.Lawful ∧
      ¬ClosesDiamond raiseManager [⟨"p1", 1⟩, ⟨"p2", 1⟩] ⟨"r", 1⟩ 0 := by
  refine ⟨raiseManager_lawful, fun h => ?_⟩
  rw [closesDiamond_iff_rebased _ _ _ _ (by decide)] at h
  exact absurd h (by decide)

end OtEditor
