import OtEditor.Kotlin
import OtEditor.Lib.Transformation

/-!
# Operations, their managers, and documents

The interfaces the client and the server are written against : an operation on a content,
the manager that transforms and inverts operations, a document and its updater.
-/

namespace OtEditor

/-- `Operation<T>` : an action on a content, matched by its `uuid`. It may throw. -/
class Operation (T : outParam Type) (O : Type) where
  /-- Unique identifier, used for matching operations. -/
  uuid : O → Text
  /-- The result of applying the operation to a content. -/
  applyTo : O → T → Except Throwable T

/-- `OperationsManager<O>`. `invert` takes the id that the manager's generator hands out. -/
structure OperationsManager (O : Type) where
  /-- One operation transformed against another. -/
  transformAgainst : O → O → O
  /-- The operation that undoes an operation, under a fresh id. -/
  invert : Text → O → O

/-- `Collection<O>.transformAgainstEach`. -/
def transformAgainstEach {O : Type} (operations : List O) (operation : O)
    (operationsManager : OperationsManager O) : O :=
  operations.foldl (fun result currentOperation =>
    operationsManager.transformAgainst result currentOperation) operation

theorem transformAgainstEach_eq_carry {O : Type} (m : OperationsManager O)
    (operations : List O) (operation : O) :
    transformAgainstEach operations operation m =
      Transformation.carry m.transformAgainst operation operations :=
  rfl

/-- The content after an application that does not throw. -/
def applied {T O : Type} [Operation T O] (operation : O) (content : T) : Option T :=
  (Operation.applyTo operation content).toOption

theorem applied_eq_some {T O : Type} [Operation T O] {operation : O} {content content' : T} :
    applied operation content = some content' ↔
      Operation.applyTo operation content = .ok content' := by
  unfold applied
  cases Operation.applyTo operation content <;> simp [Except.toOption]

/-- The content after operations applied in order, if none throws. -/
def appliedAll {T O : Type} [Operation T O] (operations : List O) (content : T) : Option T :=
  Transformation.actAll applied operations content

namespace OperationsManager

variable {T O : Type} [Operation T O]

/-- The law documented on `transformAgainst` : after `operation1` then `operation2'`, and
after `operation2` then `operation1'`, the content is the same. -/
def Lawful (m : OperationsManager O) : Prop :=
  ∀ (operation1 operation2 : O) (content : T),
    (applied operation1 content).bind (applied (m.transformAgainst operation2 operation1)) =
      (applied operation2 content).bind (applied (m.transformAgainst operation1 operation2))

/-- Transforming an operation leaves its `uuid` alone. -/
def KeepsUuid (m : OperationsManager O) : Prop :=
  ∀ operation1 operation2 : O,
    Operation.uuid (m.transformAgainst operation1 operation2) = Operation.uuid operation1

theorem lawful_iff {m : OperationsManager O} :
    m.Lawful ↔ Transformation.Lawful (applied (O := O)) m.transformAgainst :=
  Iff.rfl

theorem KeepsUuid.transformAgainstEach {m : OperationsManager O} (hm : m.KeepsUuid)
    (operations : List O) (operation : O) :
    Operation.uuid (transformAgainstEach operations operation m) = Operation.uuid operation :=
  Transformation.carry_keeps m.transformAgainst hm operations operation

end OperationsManager

/-! ## Documents -/

/-- `Document<T>`. -/
class Document (T : outParam Type) (D : Type) where
  uuid : D → String
  revision : D → ℤ
  content : D → T

/-- `DocumentUpdater<T, D>`. -/
structure DocumentUpdater (T D : Type) where
  updateRevision : D → ℤ → D
  updateContent : D → T → D
  updateContentAndRevision : D → T → ℤ → D

/-- What an updater promises : it writes the fields it is named after and leaves the `uuid`. -/
structure DocumentUpdater.Lawful {T D : Type} [Document T D] (u : DocumentUpdater T D) :
    Prop where
  uuid : ∀ d c r, Document.uuid (u.updateContentAndRevision d c r) = Document.uuid d
  revision : ∀ d c r, Document.revision (u.updateContentAndRevision d c r) = r
  content : ∀ d c r, Document.content (u.updateContentAndRevision d c r) = c

/-- `PlainTextDocument`. -/
structure PlainTextDocument where
  uuid : String
  revision : ℤ
  content : Text
  title : String
  deriving DecidableEq

instance : Document Text PlainTextDocument where
  uuid := PlainTextDocument.uuid
  revision := PlainTextDocument.revision
  content := PlainTextDocument.content

/-- `PlainTextDocumentUpdater`. -/
def plainTextDocumentUpdater : DocumentUpdater Text PlainTextDocument where
  updateRevision document revision := { document with revision }
  updateContent document content := { document with content }
  updateContentAndRevision document content revision := { document with content, revision }

theorem plainTextDocumentUpdater_lawful : plainTextDocumentUpdater.Lawful :=
  ⟨fun _ _ _ => rfl, fun _ _ _ => rfl, fun _ _ _ => rfl⟩

end OtEditor
