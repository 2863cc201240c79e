import Mathlib.Data.List.Basic
import Mathlib.Data.Int.Basic

/-!
# Kotlin values and effects

A `Char` is one UTF-16 unit and a `String` is a list of them (`Text`) : the contents of
documents and the uuids of operations. Ids and titles of documents, into which no code looks,
are Lean strings. Positions are `Int32`, which wraps as Kotlin's `Int` does. Revisions are
`ℤ`. The revision of a document that is opened with its history counts the entries of a list, and
a Kotlin list has no more entries than an `Int` can count. The revision of a posted document is
whatever was posted : there `revision + 1` is the next number, where an `Int` at its greatest
wraps.

`Effect σ α` is code that reads and writes a state `σ` and may throw. What was written
before a throw stays written (`exec_bind`).
-/

namespace OtEditor

/-- A Kotlin `Char`. -/
abbrev Symbol := UInt16

/-- A Kotlin `String` as its UTF-16 units. -/
abbrev Text := List Symbol

instance : LawfulBEq Text :=
  inferInstance

/-- `Int.MAX_VALUE`, the greatest length of a `String`. -/
def intMaxValue : ℕ :=
  2147483647

/-- The UTF-16 units of a character. -/
def utf16Units (c : Char) : Text :=
  if c.toNat < 0x10000 then [UInt16.ofNat c.toNat]
  else [UInt16.ofNat (0xD800 + (c.toNat - 0x10000) / 0x400),
    UInt16.ofNat (0xDC00 + (c.toNat - 0x10000) % 0x400)]

/-- The UTF-16 units of a string. -/
def utf16 (s : String) : Text :=
  s.toList.flatMap utf16Units

/-- A string literal as a Kotlin `String`. -/
instance : Coe String Text :=
  ⟨utf16⟩

/-- The exceptions the modelled code throws, with their messages. -/
inductive Throwable where
  | illegalStateException (message : Text)
  | illegalArgumentException (message : Text)
  | indexOutOfBoundsException (message : Text)
  | documentNotFoundException (message : Text)
  deriving DecidableEq

/-- `List<T>.drop(n)` : a negative count is rejected. -/
def kotlinDrop {α : Type} (l : List α) (n : ℤ) : Except Throwable (List α) :=
  if n < 0 then
    .error (.illegalArgumentException
      (utf16 ("Requested element count " ++ toString n ++ " is less than zero.")))
  else .ok (l.drop n.toNat)

theorem kotlinDrop_natCast {α : Type} (l : List α) (n : ℕ) :
    kotlinDrop l n = .ok (l.drop n) := by
  simp [kotlinDrop]

/-- Code on a mutable state that may throw. -/
abbrev Effect (σ α : Type) := ExceptT Throwable (StateM σ) α

namespace Effect

variable {σ τ α β : Type}

/-- Run an effect : its result or the exception, and the state it leaves. -/
def exec (m : Effect σ α) (s : σ) : Except Throwable α × σ :=
  (ExceptT.run m).run s

/-- An effect on a part of the state. -/
def onPart (read : σ → τ) (write : τ → σ → σ) (m : Effect τ α) : Effect σ α :=
  ExceptT.mk fun s => ((m.exec (read s)).1, write (m.exec (read s)).2 s)

@[simp] theorem exec_pure (a : α) (s : σ) : exec (pure a) s = (.ok a, s) :=
  rfl

@[simp] theorem exec_get (s : σ) : exec (get : Effect σ σ) s = (.ok s, s) :=
  rfl

@[simp] theorem exec_modify (f : σ → σ) (s : σ) :
    exec (modify f : Effect σ PUnit) s = (.ok ⟨⟩, f s) :=
  rfl

@[simp] theorem exec_onPart (read : σ → τ) (write : τ → σ → σ) (m : Effect τ α) (s : σ) :
    exec (onPart read write m) s = ((m.exec (read s)).1, write (m.exec (read s)).2 s) :=
  rfl

/-- A throw skips the rest and keeps what was written. -/
theorem exec_bind (m : Effect σ α) (f : α → Effect σ β) (s : σ) :
    exec (m >>= f) s = match exec m s with
      | (.ok a, s') => exec (f a) s'
      | (.error e, s') => (.error e, s') := by
  show (ExceptT.bind m f).run.run s = _
  simp only [ExceptT.bind, ExceptT.run, ExceptT.mk, exec, StateT.run, bind, StateT.bind]
  rcases h : (m s : Except Throwable α × σ) with ⟨_ | _, s'⟩ <;> rfl

theorem exec_bind_ok {m : Effect σ α} {f : α → Effect σ β} {s s' : σ} {a : α}
    (h : exec m s = (.ok a, s')) : exec (m >>= f) s = exec (f a) s' := by
  rw [exec_bind, h]

theorem exec_bind_error {m : Effect σ α} {f : α → Effect σ β} {s s' : σ} {e : Throwable}
    (h : exec m s = (.error e, s')) : exec (m >>= f) s = (.error e, s') := by
  rw [exec_bind, h]

/-- A computed value or exception. -/
def ofResult (r : Except Throwable α) : Effect σ α :=
  ExceptT.mk (pure r)

theorem exec_ofResult_ok_bind (a : α) (f : α → Effect σ β) (s : σ) :
    exec (ofResult (.ok a) >>= f) s = exec (f a) s :=
  rfl

theorem exec_ofResult_error_bind (e : Throwable) (f : α → Effect σ β) (s : σ) :
    exec (ofResult (.error e) >>= f) s = (.error e, s) :=
  rfl

/-- Code that does not throw. -/
def ofState (f : σ → α × σ) : Effect σ α :=
  ExceptT.mk fun s => (.ok (f s).1, (f s).2)

@[simp] theorem exec_ofState (f : σ → α × σ) (s : σ) :
    exec (ofState f) s = (.ok (f s).1, (f s).2) :=
  rfl

end Effect

end OtEditor
