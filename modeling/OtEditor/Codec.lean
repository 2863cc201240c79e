import OtEditor.Dynamic
import OtEditor.PlainText

/-!
# The two codecs of operations

The server encodes and decodes operations with Jackson, the client with `json` and dynamic
field accesses. Both read and write one format, at the level of JSON objects : each encoding
consists of the fields of its kind (`Represents`), either decoder takes it back, and where the
decoders differ the server is the stricter one (`codecs_agree`).

Jackson is a parameter, with what its documentation says of strings, whole numbers and written
fields (`Jackson.Documented`). A text without characters has no first one; what `[0]` gives there
Kotlin leaves open to JavaScript, and the client's decoder takes it as a parameter.
-/

namespace OtEditor

/-- The fields of a JSON object. -/
abbrev JsonObject := String → Option JsValue

/-- The exceptions of the decoders, with the messages that the code gives them. -/
inductive DecodingException where
  | nullPointerException
  | jsonParseException (message : Text)
  | classCastException
  | typeError
  | illegalArgumentException (message : Text)
  deriving DecidableEq

/-- What the server uses of Jackson. -/
structure Jackson where
  asText : JsValue → Text
  asInt : JsValue → Int32
  writeStringField : String → Text → JsonObject → JsonObject
  writeNumberField : String → Int32 → JsonObject → JsonObject

/-- What Jackson documents of well-typed fields. -/
structure Jackson.Documented (jackson : Jackson) : Prop where
  asText : ∀ value, jackson.asText (.string value) = value
  asInt : ∀ value, jackson.asInt (.number value) = value
  writeStringField : ∀ name value object, jackson.writeStringField name value object =
    Function.update object name (some (.string value))
  writeNumberField : ∀ name value object, jackson.writeNumberField name value object =
    Function.update object name (some (.number value))

/-! ## The codec of the server -/

namespace PlainTextSingleCharacterOperationSerializer

variable (jackson : Jackson)

def serializeInsertOperation (value : InsertOperation) (jgen : JsonObject) : JsonObject :=
  jgen |> jackson.writeStringField "type" "INSERT"
    |> jackson.writeStringField "uuid" value.uuid
    |> jackson.writeNumberField "position" value.position
    |> jackson.writeStringField "symbol" [value.symbol]

def serializeDeleteOperation (value : DeleteOperation) (jgen : JsonObject) : JsonObject :=
  jgen |> jackson.writeStringField "type" "DELETE"
    |> jackson.writeStringField "uuid" value.uuid
    |> jackson.writeNumberField "position" value.position
    |> jackson.writeStringField "symbol" [value.symbol]

def serializeIdentityOperation (value : IdentityOperation) (jgen : JsonObject) : JsonObject :=
  jgen |> jackson.writeStringField "type" "IDENTITY"
    |> jackson.writeStringField "uuid" value.uuid

/-- The object that the generator has written. -/
def serialize (value : PlainTextSingleCharacterOperation) : JsonObject :=
  match value with
  | .insert value => serializeInsertOperation jackson value fun _ => none
  | .delete value => serializeDeleteOperation jackson value fun _ => none
  | .identity value => serializeIdentityOperation jackson value fun _ => none

end PlainTextSingleCharacterOperationSerializer

namespace PlainTextSingleCharacterOperationDeserializer

variable (jackson : Jackson)

/-- `node.get(name)`, on which a method is called next. -/
def get (node : JsonObject) (name : String) : Except DecodingException JsValue :=
  match node name with
  | none => .error .nullPointerException
  | some value => .ok value

def parsePositionAndSymbol (node : JsonObject) : Except DecodingException (Int32 × Symbol) := do
  let position := jackson.asInt (← get node "position")
  let text := jackson.asText (← get node "symbol")
  match text with
  | [symbol] => return (position, symbol)
  | _ => .error (.jsonParseException (utf16 "Invalid symbol: " ++ text))

def deserialize (node : JsonObject) :
    Except DecodingException PlainTextSingleCharacterOperation := do
  let type := jackson.asText (← get node "type")
  let uuid := jackson.asText (← get node "uuid")
  if type = utf16 "INSERT" then
    let (position, symbol) ← parsePositionAndSymbol jackson node
    return .insert ⟨uuid, position, symbol⟩
  else if type = utf16 "DELETE" then
    let (position, symbol) ← parsePositionAndSymbol jackson node
    return .delete ⟨uuid, position, symbol⟩
  else if type = utf16 "IDENTITY" then return .identity ⟨uuid⟩
  else .error (.jsonParseException (utf16 "Invalid operation type: " ++ type))

end PlainTextSingleCharacterOperationDeserializer

/-! ## The codec of the client -/

/-- `json(fields)`. -/
def json (fields : List (String × JsValue)) : JsonObject :=
  fields.foldl (fun object field => Function.update object field.1 (some field.2)) fun _ => none

namespace PlainTextSingleCharacterOperationJsonSerializer

def serialize : PlainTextSingleCharacterOperation → JsonObject
  | .insert operation =>
    json [("type", .string "INSERT"), ("uuid", .string operation.uuid),
      ("position", .number operation.position), ("symbol", .string [operation.symbol])]
  | .delete operation =>
    json [("type", .string "DELETE"), ("uuid", .string operation.uuid),
      ("position", .number operation.position), ("symbol", .string [operation.symbol])]
  | .identity operation =>
    json [("type", .string "IDENTITY"), ("uuid", .string operation.uuid)]

end PlainTextSingleCharacterOperationJsonSerializer

namespace PlainTextSingleCharacterOperationJsonDeserializer

/-- `as String`. A missing field is `undefined`. -/
def asString : Option JsValue → Except DecodingException Text
  | some (.string value) => .ok value
  | _ => .error .classCastException

/-- `as Int`. -/
def asInt : Option JsValue → Except DecodingException Int32
  | some (.number value) => .ok value
  | _ => .error .classCastException

/-- `toString()`. -/
def toText : Option JsValue → Except DecodingException Text
  | none | some .null => .error .typeError
  | some value => .ok value.template

/-- `text[0]`. -/
def firstSymbol (unspecified : Symbol) (text : Text) : Symbol :=
  text.headD unspecified

def deserialize (unspecified : Symbol) (rawData : JsonObject) :
    Except DecodingException PlainTextSingleCharacterOperation := do
  let type ← asString (rawData "type")
  if type = utf16 "INSERT" then
    return .insert ⟨← toText (rawData "uuid"), ← asInt (rawData "position"),
      firstSymbol unspecified (← toText (rawData "symbol"))⟩
  else if type = utf16 "DELETE" then
    return .delete ⟨← toText (rawData "uuid"), ← asInt (rawData "position"),
      firstSymbol unspecified (← toText (rawData "symbol"))⟩
  else if type = utf16 "IDENTITY" then return .identity ⟨← toText (rawData "uuid")⟩
  else .error (.illegalArgumentException (utf16 "Invalid operation type: " ++ type))

end PlainTextSingleCharacterOperationJsonDeserializer

/-- An encoder and a decoder of operations. -/
structure Codec where
  serialize : PlainTextSingleCharacterOperation → JsonObject
  deserialize : JsonObject → Except DecodingException PlainTextSingleCharacterOperation

def serverCodec (jackson : Jackson) : Codec :=
  ⟨PlainTextSingleCharacterOperationSerializer.serialize jackson,
    PlainTextSingleCharacterOperationDeserializer.deserialize jackson⟩

def clientCodec (unspecified : Symbol) : Codec :=
  ⟨PlainTextSingleCharacterOperationJsonSerializer.serialize,
    PlainTextSingleCharacterOperationJsonDeserializer.deserialize unspecified⟩

/-! ## The format -/

/-- The fields of an operation. -/
def fields : PlainTextSingleCharacterOperation → List (String × JsValue)
  | .insert operation =>
    [("type", .string "INSERT"), ("uuid", .string operation.uuid),
      ("position", .number operation.position), ("symbol", .string [operation.symbol])]
  | .delete operation =>
    [("type", .string "DELETE"), ("uuid", .string operation.uuid),
      ("position", .number operation.position), ("symbol", .string [operation.symbol])]
  | .identity operation =>
    [("type", .string "IDENTITY"), ("uuid", .string operation.uuid)]

/-- The object has the fields of the operation, and perhaps others. -/
def Represents (object : JsonObject) (operation : PlainTextSingleCharacterOperation) : Prop :=
  ∀ field ∈ fields operation, object field.1 = some field.2

/-- The object with only the fields that operations of this kind have. -/
def restrict (object : JsonObject) (operation : PlainTextSingleCharacterOperation) :
    JsonObject := fun name =>
  if name ∈ (fields operation).map Prod.fst then object name else none

/-- Where the object has the fields of operations, the position is an `Int` and the others are
strings. -/
structure WellTyped (object : JsonObject) : Prop where
  type : ∀ value, object "type" = some value → ∃ text, value = .string text
  uuid : ∀ value, object "uuid" = some value → ∃ text, value = .string text
  position : ∀ value, object "position" = some value → ∃ position, value = .number position
  symbol : ∀ value, object "symbol" = some value → ∃ text, value = .string text

theorem Represents.type {object : JsonObject} {operation : PlainTextSingleCharacterOperation}
    (h : Represents object operation) :
    ∃ type ∈ [utf16 "INSERT", utf16 "DELETE", utf16 "IDENTITY"],
      object "type" = some (.string type) := by
  unfold Represents at h
  rcases operation with a | a | a <;> simp only [fields, List.forall_mem_cons] at h
  · exact ⟨_, by simp, h.1⟩
  · exact ⟨_, by simp, h.1⟩
  · exact ⟨_, by simp, h.1⟩

theorem Represents.symbol {object : JsonObject} {operation : PlainTextSingleCharacterOperation}
    (h : Represents object operation) {type : Text}
    (htype : type ∈ [utf16 "INSERT", utf16 "DELETE"])
    (hobject : object "type" = some (.string type)) :
    ∃ symbol, object "symbol" = some (.string [symbol]) := by
  unfold Represents at h
  rcases operation with a | a | a <;> simp only [fields, List.forall_mem_cons] at h
  · exact ⟨a.symbol, h.2.2.2.1⟩
  · exact ⟨a.symbol, h.2.2.2.1⟩
  · obtain rfl : utf16 "IDENTITY" = type := by simpa [h.1] using hobject
    exact absurd htype (by decide)

theorem foldl_update {object : JsonObject} : ∀ {written : List (String × JsValue)}
    {start : JsonObject}, (∀ field ∈ written, object field.1 = some field.2) →
    written.foldl (fun (object : JsonObject) field =>
      Function.update object field.1 (some field.2)) start =
        fun name => if name ∈ written.map Prod.fst then object name else start name
  | [], _, _ => rfl
  | field :: written, start, hfields => by
    rw [List.foldl_cons, foldl_update fun f hf => hfields f (List.mem_cons_of_mem field hf)]
    ext1 name
    simp only [List.map_cons, List.mem_cons, Function.update_apply]
    by_cases hname : name = field.1
    · simp only [hname, hfields field List.mem_cons_self, true_or, if_true, ite_self]
    · simp only [hname, false_or, if_false]

/-- The client's encoder writes the fields of the operation. -/
theorem json_fields (operation : PlainTextSingleCharacterOperation) :
    PlainTextSingleCharacterOperationJsonSerializer.serialize operation =
      json (fields operation) := by
  rcases operation with a | a | a <;> rfl

/-- The encoding of an operation is what an object that represents it has of its fields. -/
theorem serialize_eq_restrict {object : JsonObject}
    {operation : PlainTextSingleCharacterOperation} (h : Represents object operation) :
    PlainTextSingleCharacterOperationJsonSerializer.serialize operation =
      restrict object operation := by
  rw [json_fields, json, foldl_update h]
  rfl

theorem represents_serialize (operation : PlainTextSingleCharacterOperation) :
    Represents (PlainTextSingleCharacterOperationJsonSerializer.serialize operation) operation := by
  rcases operation with a | a | a <;>
    simp [Represents, fields, PlainTextSingleCharacterOperationJsonSerializer.serialize, json,
      Function.update]

/-- The client's decoder reads the operation off an object that represents it. -/
theorem client_deserialize {object : JsonObject}
    {operation : PlainTextSingleCharacterOperation} (unspecified : Symbol)
    (h : Represents object operation) :
    PlainTextSingleCharacterOperationJsonDeserializer.deserialize unspecified object =
      .ok operation := by
  unfold PlainTextSingleCharacterOperationJsonDeserializer.deserialize
  unfold Represents at h
  rcases operation with a | a | a <;> simp only [fields, List.forall_mem_cons] at h
  · obtain ⟨htype, huuid, hposition, hsymbol, -⟩ := h
    rw [htype, huuid, hposition, hsymbol]
    rfl
  · obtain ⟨htype, huuid, hposition, hsymbol, -⟩ := h
    rw [htype, huuid, hposition, hsymbol]
    rfl
  · obtain ⟨htype, huuid, -⟩ := h
    rw [htype, huuid]
    rfl

section Server

variable {jackson : Jackson} (hjackson : jackson.Documented)
include hjackson

/-- Both encoders write the same object. -/
theorem server_serialize (operation : PlainTextSingleCharacterOperation) :
    PlainTextSingleCharacterOperationSerializer.serialize jackson operation =
      PlainTextSingleCharacterOperationJsonSerializer.serialize operation := by
  rcases operation with a | a | a
  · simp only [PlainTextSingleCharacterOperationSerializer.serialize,
      PlainTextSingleCharacterOperationSerializer.serializeInsertOperation,
      hjackson.writeStringField, hjackson.writeNumberField]
    rfl
  · simp only [PlainTextSingleCharacterOperationSerializer.serialize,
      PlainTextSingleCharacterOperationSerializer.serializeDeleteOperation,
      hjackson.writeStringField, hjackson.writeNumberField]
    rfl
  · simp only [PlainTextSingleCharacterOperationSerializer.serialize,
      PlainTextSingleCharacterOperationSerializer.serializeIdentityOperation,
      hjackson.writeStringField]
    rfl

end Server

namespace PlainTextSingleCharacterOperationDeserializer

variable {jackson : Jackson} (hjackson : jackson.Documented) {object : JsonObject}
  (htyped : WellTyped object)
include hjackson htyped

theorem parsePositionAndSymbol_eq_ok_iff (position : Int32) (symbol : Symbol) :
    parsePositionAndSymbol jackson object = .ok (position, symbol) ↔
      object "position" = some (.number position) ∧
        object "symbol" = some (.string [symbol]) := by
  unfold parsePositionAndSymbol get
  rcases hposition : object "position" with _ | value
  · simp [bind, Except.bind]
  obtain ⟨position', rfl⟩ := htyped.position value hposition
  rcases hsymbol : object "symbol" with _ | value
  · simp [bind, Except.bind]
  obtain ⟨text, rfl⟩ := htyped.symbol value hsymbol
  simp only [bind, Except.bind, hjackson.asText, hjackson.asInt]
  rcases text with _ | ⟨symbol', _ | ⟨symbol'', text⟩⟩ <;> simp [pure, Except.pure]

/-- The server accepts a well-typed object only as the operation that it represents. -/
theorem represents_of_deserialize {operation : PlainTextSingleCharacterOperation}
    (h : deserialize jackson object = .ok operation) : Represents object operation := by
  have hparse := fun position symbol =>
    (parsePositionAndSymbol_eq_ok_iff hjackson htyped position symbol).1
  unfold deserialize get at h
  unfold Represents
  rcases htype : object "type" with _ | value <;> rw [htype] at h
  · cases h
  obtain ⟨type, rfl⟩ := htyped.type value htype
  rcases huuid : object "uuid" with _ | value <;> rw [huuid] at h
  · cases h
  obtain ⟨uuid, rfl⟩ := htyped.uuid value huuid
  simp only [bind, Except.bind, hjackson.asText] at h
  split_ifs at h with hinsert hdelete hidentity
  · rcases hposition : parsePositionAndSymbol jackson object with _ | ⟨position, symbol⟩ <;>
      rw [hposition] at h <;> cases h
    simpa [fields, htype, huuid, hinsert] using hparse position symbol hposition
  · rcases hposition : parsePositionAndSymbol jackson object with _ | ⟨position, symbol⟩ <;>
      rw [hposition] at h <;> cases h
    simpa [fields, htype, huuid, hdelete] using hparse position symbol hposition
  · cases h
    simp [fields, htype, huuid, hidentity]

omit htyped in
theorem deserialize_of_represents {operation : PlainTextSingleCharacterOperation}
    (h : Represents object operation) : deserialize jackson object = .ok operation := by
  unfold Represents at h
  unfold deserialize parsePositionAndSymbol get
  rcases operation with a | a | a <;> simp only [fields, List.forall_mem_cons] at h
  · obtain ⟨htype, huuid, hposition, hsymbol, -⟩ := h
    simp only [htype, huuid, hposition, hsymbol, bind, Except.bind, hjackson.asText,
      hjackson.asInt]
    rfl
  · obtain ⟨htype, huuid, hposition, hsymbol, -⟩ := h
    simp only [htype, huuid, hposition, hsymbol, bind, Except.bind, hjackson.asText,
      hjackson.asInt]
    rfl
  · obtain ⟨htype, huuid, -⟩ := h
    simp only [htype, huuid, bind, Except.bind, hjackson.asText]
    rfl

end PlainTextSingleCharacterOperationDeserializer

/-- The two codecs read and write one format. -/
theorem codecs_agree {jackson : Jackson} (hjackson : jackson.Documented)
    (unspecified : Symbol) :
    (∀ operation,
      (clientCodec unspecified).serialize operation =
        (serverCodec jackson).serialize operation ∧
      (∀ encoder ∈ [clientCodec unspecified, serverCodec jackson],
        ∀ decoder ∈ [clientCodec unspecified, serverCodec jackson],
          decoder.deserialize (encoder.serialize operation) = .ok operation) ∧
      (((serverCodec jackson).deserialize ((clientCodec unspecified).serialize operation)).bind
        fun received => (clientCodec unspecified).deserialize
          ((serverCodec jackson).serialize received)) = .ok operation) ∧
    ∀ object, WellTyped object →
      (∀ operation, (serverCodec jackson).deserialize object = .ok operation →
        (clientCodec unspecified).deserialize object = .ok operation ∧
        (serverCodec jackson).serialize operation = restrict object operation ∧
        (clientCodec unspecified).serialize operation = restrict object operation) ∧
      ((¬∃ type ∈ [utf16 "INSERT", utf16 "DELETE", utf16 "IDENTITY"],
          object "type" = some (.string type)) →
        ∃ e, (serverCodec jackson).deserialize object = .error e) ∧
      (∀ type ∈ [utf16 "INSERT", utf16 "DELETE"], object "type" = some (.string type) →
        (¬∃ symbol, object "symbol" = some (.string [symbol])) →
        ∃ e, (serverCodec jackson).deserialize object = .error e) := by
  have hencoders : (serverCodec jackson).serialize = (clientCodec unspecified).serialize :=
    funext (server_serialize hjackson)
  have hdecoders : ∀ {object operation}, Represents object operation →
      (serverCodec jackson).deserialize object = .ok operation ∧
        (clientCodec unspecified).deserialize object = .ok operation := fun h =>
    ⟨PlainTextSingleCharacterOperationDeserializer.deserialize_of_represents hjackson h,
      client_deserialize unspecified h⟩
  refine ⟨fun operation => ?_, fun object htyped => ?_⟩
  · obtain ⟨hserver, hclient⟩ := hdecoders (represents_serialize operation)
    refine ⟨congrFun hencoders.symm operation, ?_, ?_⟩
    · simp only [List.forall_mem_cons, hencoders]
      exact ⟨⟨hclient, hserver, by simp⟩, ⟨hclient, hserver, by simp⟩, by simp⟩
    · rw [hencoders]
      exact (congrArg (Except.bind · _) hserver).trans hclient
  · have hrepresents : ∀ {operation}, (serverCodec jackson).deserialize object = .ok operation →
        Represents object operation :=
      PlainTextSingleCharacterOperationDeserializer.represents_of_deserialize hjackson htyped
    refine ⟨fun operation hok => ?_, fun hunknown => ?_, fun type htype hobject hsymbol => ?_⟩
    · have h := hrepresents hok
      rw [hencoders]
      exact ⟨(hdecoders h).2, serialize_eq_restrict h, serialize_eq_restrict h⟩
    · rcases hok : (serverCodec jackson).deserialize object with e | operation
      · exact ⟨e, rfl⟩
      · exact absurd (hrepresents hok).type hunknown
    · rcases hok : (serverCodec jackson).deserialize object with e | operation
      · exact ⟨e, rfl⟩
      · exact absurd ((hrepresents hok).symbol htype hobject) hsymbol

/-- Jackson on well-typed fields. -/
def wellTypedJackson : Jackson where
  asText := JsValue.template
  asInt value := match value with
    | .number value => value
    | _ => 0
  writeStringField name value object := Function.update object name (some (.string value))
  writeNumberField name value object := Function.update object name (some (.number value))

/-- The server decodes half of a surrogate pair, inserted before the start, as the client
encoded it. -/
theorem codecs_agree_surrogate :
    (serverCodec wellTypedJackson).deserialize
        ((clientCodec 0).serialize (.insert ⟨"id", -1, 0xD83D⟩)) =
      .ok (.insert ⟨"id", -1, 0xD83D⟩) := by
  have hjackson : wellTypedJackson.Documented :=
    ⟨fun _ => rfl, fun _ => rfl, fun _ _ _ => rfl, fun _ _ _ => rfl⟩
  exact ((codecs_agree hjackson 0).1 (.insert ⟨"id", -1, 0xD83D⟩)).2.1 _ List.mem_cons_self _
    (List.mem_cons_of_mem _ List.mem_cons_self)

end OtEditor
