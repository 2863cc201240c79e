import OtEditor.Operation
import Mathlib.Data.Int.Order.Basic

/-!
# Single-character operations on plain text

`InsertOperation`, `DeleteOperation` and `IdentityOperation`, their `applyTo`, and the
`PlainTextOperationsManager` that transforms and inverts them. A position is any `Int`; only
`applyTo` looks at the range, and outside it an insertion or deletion does nothing.
-/

namespace OtEditor

/-- Inserts one character. -/
structure InsertOperation where
  uuid : Text
  /-- Position to insert the character in. -/
  position : Int32
  /-- Symbol to insert. -/
  symbol : Symbol
  deriving DecidableEq

/-- Deletes one character. -/
structure DeleteOperation where
  uuid : Text
  /-- Position of the symbol to delete. -/
  position : Int32
  /-- Symbol to delete. -/
  symbol : Symbol
  deriving DecidableEq

/-- Identity operation, does nothing with the content. -/
structure IdentityOperation where
  uuid : Text
  deriving DecidableEq

/-- Operation on plain text content. Modifies one character. -/
inductive PlainTextSingleCharacterOperation where
  | insert (operation : InsertOperation)
  | delete (operation : DeleteOperation)
  | identity (operation : IdentityOperation)
  deriving DecidableEq

/-- A position as a list index. -/
def index (position : Int32) : ℕ :=
  position.toInt.toNat

/-- `InsertOperation.applyTo`. -/
def InsertOperation.applyTo (operation : InsertOperation) (content : Text) :
    Except Throwable Text :=
  if operation.position.toInt < 0 ∨ operation.position.toInt > content.length then
    .ok content
  else
    .ok (content.take (index operation.position) ++ operation.symbol ::
      content.drop (index operation.position))

/-- The message of a deletion that finds another symbol. -/
def DeleteOperation.failure (operation : DeleteOperation) (found : Symbol) : Throwable :=
  .illegalStateException (utf16 "Delete operation failed: expected symbol " ++
    [operation.symbol] ++ utf16 " on position " ++ utf16 (toString operation.position) ++
    utf16 ", found " ++ [found])

/-- `DeleteOperation.applyTo`. -/
def DeleteOperation.applyTo (operation : DeleteOperation) (content : Text) :
    Except Throwable Text :=
  if operation.position.toInt < 0 ∨ operation.position.toInt ≥ content.length then
    .ok content
  else
    -- in range by the guard, so the default is never read
    let found := content.getD (index operation.position) 0
    if found ≠ operation.symbol then .error (operation.failure found)
    else
      .ok (content.take (index operation.position) ++
        content.drop (index operation.position + 1))

/-- The position is in the content, where another symbol stands. -/
def DeleteOperation.SymbolMismatch (operation : DeleteOperation) (content : Text) : Prop :=
  0 ≤ operation.position.toInt ∧
    ∃ found, content[index operation.position]? = some found ∧ found ≠ operation.symbol

/-- A deletion throws exactly at another symbol. -/
theorem DeleteOperation.applyTo_eq_error {operation : DeleteOperation} {content : Text} :
    (∃ e, operation.applyTo content = .error e) ↔ operation.SymbolMismatch content := by
  unfold DeleteOperation.applyTo DeleteOperation.SymbolMismatch
  split_ifs with hrange
  · have : content.length ≤ index operation.position ∨ operation.position.toInt < 0 := by
      simp only [index]
      omega
    rcases this with h | h
    · simp [h]
    · simp [show ¬0 ≤ operation.position.toInt by omega]
  · have hlt : index operation.position < content.length := by
      simp only [index]
      omega
    simp only [List.getD_eq_getElem?_getD, List.getElem?_eq_getElem hlt, Option.getD_some]
    split_ifs with hfound
    · have hnonneg : 0 ≤ operation.position.toInt := by omega
      simp [hfound, hnonneg]
    · simp_all

/-- `IdentityOperation.applyTo`. -/
def IdentityOperation.applyTo (_operation : IdentityOperation) (content : Text) :
    Except Throwable Text :=
  .ok content

namespace PlainTextSingleCharacterOperation

/-- `uuid` of an operation of any kind. -/
def uuid : PlainTextSingleCharacterOperation → Text
  | insert operation => operation.uuid
  | delete operation => operation.uuid
  | identity operation => operation.uuid

/-- `applyTo` of an operation of any kind. -/
def applyTo : PlainTextSingleCharacterOperation → Text → Except Throwable Text
  | insert operation => operation.applyTo
  | delete operation => operation.applyTo
  | identity operation => operation.applyTo

instance : Operation Text PlainTextSingleCharacterOperation where
  uuid := uuid
  applyTo := applyTo

end PlainTextSingleCharacterOperation

namespace PlainTextOperationsManager

/-- Two insertions at one position both move to the right. -/
def transformInsertAgainstInsert (operation1 operation2 : InsertOperation) :
    PlainTextSingleCharacterOperation :=
  if operation1.position < operation2.position then .insert operation1
  else .insert { operation1 with position := operation1.position + 1 }

def transformInsertAgainstDelete (operation1 : InsertOperation)
    (operation2 : DeleteOperation) : PlainTextSingleCharacterOperation :=
  if operation1.position ≤ operation2.position then .insert operation1
  else .insert ⟨operation1.uuid, operation1.position - 1, operation1.symbol⟩

def transformDeleteAgainstInsert (operation1 : DeleteOperation)
    (operation2 : InsertOperation) : PlainTextSingleCharacterOperation :=
  if operation1.position < operation2.position then .delete operation1
  else .delete { operation1 with position := operation1.position + 1 }

def transformDeleteAgainstDelete (operation1 operation2 : DeleteOperation) :
    PlainTextSingleCharacterOperation :=
  if operation1.position < operation2.position then .delete operation1
  else if operation1.position > operation2.position then
    .delete { operation1 with position := operation1.position - 1 }
  else .identity ⟨operation1.uuid⟩

def transformAgainst :
    (operation1 operation2 : PlainTextSingleCharacterOperation) →
      PlainTextSingleCharacterOperation
  | .insert operation1, .insert operation2 => transformInsertAgainstInsert operation1 operation2
  | .insert operation1, .delete operation2 => transformInsertAgainstDelete operation1 operation2
  | .insert operation1, .identity _ => .insert operation1
  | .delete operation1, .insert operation2 => transformDeleteAgainstInsert operation1 operation2
  | .delete operation1, .delete operation2 => transformDeleteAgainstDelete operation1 operation2
  | .delete operation1, .identity _ => .delete operation1
  | .identity operation1, _ => .identity operation1

/-- `invert`, under the id `generatedId` of the id generator. -/
def invert (generatedId : Text) :
    PlainTextSingleCharacterOperation → PlainTextSingleCharacterOperation
  | .insert operation => .delete ⟨generatedId, operation.position, operation.symbol⟩
  | .delete operation => .insert ⟨generatedId, operation.position, operation.symbol⟩
  | .identity _ => .identity ⟨generatedId⟩

end PlainTextOperationsManager

/-- `PlainTextOperationsManager`. -/
def plainTextOperationsManager : OperationsManager PlainTextSingleCharacterOperation where
  transformAgainst := PlainTextOperationsManager.transformAgainst
  invert := PlainTextOperationsManager.invert

theorem plainTextOperationsManager_keepsUuid : plainTextOperationsManager.KeepsUuid := by
  intro operation1 operation2
  cases operation1 <;> cases operation2 <;>
    simp only [plainTextOperationsManager, PlainTextOperationsManager.transformAgainst]
  · unfold PlainTextOperationsManager.transformInsertAgainstInsert
    split_ifs <;> rfl
  · unfold PlainTextOperationsManager.transformInsertAgainstDelete
    split_ifs <;> rfl
  · unfold PlainTextOperationsManager.transformDeleteAgainstInsert
    split_ifs <;> rfl
  · unfold PlainTextOperationsManager.transformDeleteAgainstDelete
    split_ifs <;> rfl

end OtEditor
