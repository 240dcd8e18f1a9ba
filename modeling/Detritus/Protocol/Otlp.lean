import Detritus.Protocol.Json

/-! OpenTelemetry log requests, as far as the client and the receiver use them. -/
namespace Detritus.Protocol
open Files

/-- `AnyValue`, with `empty` for one without a value. A double is given by its bits. -/
inductive AnyValue where
  | empty
  | string (s : String)
  | bool (b : Bool)
  | int (n : Int64)
  | double (bits : UInt64)
  | array (values : List AnyValue)
  | kvlist (values : List (String × Option AnyValue))
  | bytes (b : Bytes)

abbrev KeyValue := String × Option AnyValue

/-- One line of a log. -/
structure LogRecord where
  timeUnixNano : UInt64
  observedTimeUnixNano : UInt64
  severityNumber : Int32
  severityText : String
  body : Option AnyValue
  attributes : List KeyValue
  droppedAttributesCount : UInt32
  flags : UInt32
  traceId : Bytes
  spanId : Bytes
  eventName : String

structure InstrumentationScope where
  name : String
  attributes : List KeyValue

structure ScopeLogs where
  scope : Option InstrumentationScope
  logRecords : List LogRecord

structure Resource where
  attributes : List KeyValue

/-- The logs of one resource, which names their source. -/
structure ResourceLogs where
  resource : Option Resource
  scopeLogs : List ScopeLogs

/-- What a client exports in one call. -/
structure ExportLogsServiceRequest where
  resourceLogs : List ResourceLogs

/-- The records of an entry, scope after scope. -/
def ResourceLogs.records (r : ResourceLogs) : List LogRecord := r.scopeLogs.flatMap (·.logRecords)

/-- gRPC status codes that are used. -/
inductive Code where
  | ok
  | invalidArgument
  | unauthenticated
  | permissionDenied
  | resourceExhausted
  | failedPrecondition
  | internal
  deriving DecidableEq

/-- A `tonic` status. -/
structure Status where
  code : Code
  message : String
  deriving DecidableEq

/-! ### As JSON -/

/-- A float that is a number; `null` otherwise. -/
def jsonDouble (bits : UInt64) : Json :=
  if h : (bits >>> 52) &&& 0x7ff ≠ 0x7ff then .float ⟨bits, h⟩ else .null

mutual

def anyValueJson : AnyValue → Json
  | .empty => .null
  | .string s => .string s
  | .bool b => .bool b
  | .int n => .int (.ofInt64 n)
  | .double bits => jsonDouble bits
  | .array values => .array (anyValuesJson values)
  | .kvlist values => Json.map (entriesJson values)
  | .bytes b => .string (hexEncode b)
termination_by structural v => v

def anyValuesJson : List AnyValue → List Json
  | [] => []
  | v :: values => anyValueJson v :: anyValuesJson values
termination_by structural values => values

/-- The entries that have a value. -/
def entriesJson : List (String × Option AnyValue) → List (String × Json)
  | [] => []
  | (key, some v) :: values => (key, anyValueJson v) :: entriesJson values
  | (_, none) :: values => entriesJson values
termination_by structural values => values

end

def attributesJson (attributes : List KeyValue) : Json := Json.map (entriesJson attributes)

/-- A record as it is stored. -/
def logRecordJson (r : LogRecord) : Json :=
  Json.map [("time_unix_nano", .nat r.timeUnixNano), ("observed_time_unix_nano", .nat r.observedTimeUnixNano),
    ("severity_number", .int (.ofInt64 r.severityNumber.toInt64)), ("severity_text", .string r.severityText),
    ("body", r.body.elim .null anyValueJson), ("attributes", attributesJson r.attributes),
    ("dropped_attributes_count", .nat r.droppedAttributesCount.toUInt64), ("flags", .nat r.flags.toUInt64),
    ("trace_id", .string (hexEncode r.traceId)), ("span_id", .string (hexEncode r.spanId)),
    ("event_name", .string r.eventName)]

/-! ### Who a request is from -/

def anyValueString : AnyValue → Option String
  | .string s => some s
  | _ => none

/-- An attribute that has to be there, as text. -/
def requiredAttr (attributes : List KeyValue) (key : String) : Except Status String :=
  match ((attributes.find? (·.1 = key)).bind (·.2)).bind anyValueString with
  | some s => .ok s
  | none => .error ⟨.invalidArgument, "missing resource attribute `" ++ key ++ "`"⟩

/-! ### Repeated keys -/

/-- What the first attribute with a key holds. -/
def firstValue (attributes : List KeyValue) (key : String) : Option AnyValue :=
  (attributes.find? (·.1 = key)).bind (·.2)

/-- What the last attribute with a key and a value holds. -/
def lastValue (attributes : List KeyValue) (key : String) : Option AnyValue :=
  attributes.reverse.findSome? fun a => if a.1 = key then a.2 else none

theorem requiredAttr_ok_iff {attributes : List KeyValue} {key s : String} :
    requiredAttr attributes key = .ok s ↔ firstValue attributes key = some (.string s) := by
  have hstring : ∀ v : Option AnyValue, v.bind anyValueString = some s ↔ v = some (.string s) := by
    intro v
    rcases v with _ | v
    · simp
    · cases v <;> simp [anyValueString]
  rw [← hstring]
  unfold requiredAttr firstValue
  split
  case h_1 t ht => rw [ht]; simp
  case h_2 hn => rw [hn]; simp

theorem entriesJson_eq (attributes : List KeyValue) :
    entriesJson attributes = attributes.filterMap fun a => a.2.map fun v => (a.1, anyValueJson v) := by
  induction attributes with
  | nil => rfl
  | cons a rest ih =>
    obtain ⟨key, _ | v⟩ := a
    · exact ih
    · exact congrArg ((key, anyValueJson v) :: ·) ih

/-- A map of attributes holds the last value of each key. -/
theorem member_attributesJson (attributes : List KeyValue) (key : String) :
    (attributesJson attributes).member key = (lastValue attributes key).map anyValueJson := by
  unfold attributesJson lastValue
  rw [Json.member_map, entriesJson_eq, ← List.filterMap_reverse]
  induction attributes.reverse with
  | nil => rfl
  | cons a rest ih =>
    obtain ⟨k, _ | v⟩ := a
    · simpa using ih
    · show List.lookup key ((k, anyValueJson v) :: List.filterMap _ rest) = _
      rw [Json.lookup_pair, ih, List.findSome?_cons]
      by_cases h : key = k
      · simp [h]
      · simp [h, Ne.symm h]

theorem lastValue_append (a b : List KeyValue) (key : String) :
    lastValue (a ++ b) key = (lastValue b key).or (lastValue a key) := by
  simp [lastValue, List.findSome?_append]

/-- Where no key is repeated, each attribute counts. -/
theorem lastValue_of_mem {attributes : List KeyValue} (hd : (attributes.map Prod.fst).Nodup) {key : String}
    {v : AnyValue} (h : (key, some v) ∈ attributes) : lastValue attributes key = some v := by
  induction attributes with
  | nil => cases h
  | cons a rest ih =>
    rw [List.map_cons, List.nodup_cons] at hd
    rw [← List.singleton_append, lastValue_append]
    rcases List.mem_cons.mp h with rfl | h
    · have hrest : lastValue rest key = none := by
        apply List.findSome?_eq_none_iff.mpr
        intro b hb
        apply if_neg
        intro hk
        exact hd.1 (List.mem_map.mpr ⟨b, List.mem_reverse.mp hb, hk⟩)
      rw [hrest]
      simp [lastValue]
    · rw [ih hd.2 h]
      rfl

/-- The document that is checked against a project's schema. -/
def resourceLogsToValidationValue (r : ResourceLogs) : Json :=
  let attributes := r.resource.elim (.object []) fun res => attributesJson res.attributes
  let scopes := r.scopeLogs.map fun sl => Json.map
    [("name", .string (sl.scope.elim "" (·.name))),
      ("attributes", sl.scope.elim (.object []) fun s => attributesJson s.attributes)]
  Json.map [("resource", attributes), ("scopes", .array scopes)]

/-- What the document says of the resource. -/
theorem member_resource {r : ResourceLogs} {resource : Resource} (h : r.resource = some resource) :
    (resourceLogsToValidationValue r).member "resource" = some (attributesJson resource.attributes) := by
  unfold resourceLogsToValidationValue
  rw [Json.member_map, h]
  rfl

/-- What a stored line says of the attributes. -/
theorem member_attributes (r : LogRecord) :
    (logRecordJson r).member "attributes" = some (attributesJson r.attributes) := by
  unfold logRecordJson
  rw [Json.member_map]
  rfl

end Detritus.Protocol
