import OtEditor.Kotlin

/-!
# Dynamic values

The values that the client gets from JavaScript : the entries of a diff and the fields of a
JSON object. A number is a whole number that an `Int` holds; other numbers are left out. Of a
value of any other kind nothing is kept but the text that it prints as.
-/

namespace OtEditor

/-- A JavaScript value. -/
inductive JsValue where
  | string (value : Text)
  | number (value : Int32)
  | null
  /-- A value of any other kind. -/
  | other (text : Text)
  deriving DecidableEq

/-- The text of a value in a string template. -/
def JsValue.template : JsValue → Text
  | .string value => value
  | .number value => utf16 (toString value)
  | .null => utf16 "null"
  | .other text => text

end OtEditor
