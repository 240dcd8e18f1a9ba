import Detritus.Files.Disk
import Detritus.Protocol.Otlp

/-! From a tracing event to a log record.

A visitor renders each field of an event as text. The record has these as attributes,
followed by two of its own: where the event is from and what it is called. The receiver
makes a map of the attributes, and there the two stand over fields of the same name. -/
namespace Detritus.Client
open Files Protocol

/-- The level of an event. -/
inductive Level where
  | error
  | warn
  | info
  | debug
  | trace
  deriving DecidableEq

/-- What a visitor is given of a field. Values without a method of their own arrive as
`debug`, with the text that their `Debug` writes. -/
inductive FieldValue where
  | debug (text : String)
  | str (s : String)
  | i64 (n : Int64)
  | u64 (n : UInt64)
  | bool (b : Bool)
  deriving DecidableEq

/-- An event, with its metadata and the fields that have a value. -/
structure Event where
  name : String
  target : String
  level : Level
  fields : List (String × FieldValue)
  deriving DecidableEq

/-! ### Visiting -/

def FieldValue.render : FieldValue → String
  | debug text => text
  | str s => s
  | i64 n => toString n.toInt
  | u64 n => toString n.toNat
  | bool b => toString b

/-- What is gathered from the fields of an event: its message and the other fields. -/
structure EventVisitor where
  message : Option String
  fields : List (String × String)

namespace EventVisitor

/-- A text under the name `message` is the message, too. -/
def record (v : EventVisitor) (field : String × FieldValue) : EventVisitor where
  message := match field.2 with
    | .debug text | .str text => if field.1 = "message" then some text else v.message
    | _ => v.message
  fields := v.fields ++ [(field.1, field.2.render)]

end EventVisitor

def Event.record (e : Event) : EventVisitor := e.fields.foldl EventVisitor.record ⟨none, []⟩

theorem EventVisitor.foldl_record_fields (fields : List (String × FieldValue)) (v : EventVisitor) :
    (fields.foldl record v).fields = v.fields ++ fields.map fun f => (f.1, f.2.render) := by
  induction fields generalizing v with
  | nil => simp
  | cons f rest ih => simp [ih, record]

theorem Event.record_fields (e : Event) : e.record.fields = e.fields.map fun f => (f.1, f.2.render) :=
  EventVisitor.foldl_record_fields e.fields ⟨none, []⟩

/-! ### Records -/

/-- The time in 64 bits. Times beyond are the last one. -/
def unixNanos (time : Time) : UInt64 := (min time (2 ^ 64 - 1)).toUInt64

/-- The numbers that OTLP gives to the levels. -/
def severityNumber : Level → Int32
  | .error => 17
  | .warn => 13
  | .info => 9
  | .debug => 5
  | .trace => 1

def Level.toString : Level → String
  | error => "ERROR"
  | warn => "WARN"
  | info => "INFO"
  | debug => "DEBUG"
  | trace => "TRACE"

def stringAttr (key value : String) : KeyValue := (key, some (.string value))

/-- The record of an event. -/
def eventToLogRecord (e : Event) (now : Time) : LogRecord :=
  let visitor := e.record
  let body := (visitor.message.or ((visitor.fields.find? (·.1 = "message")).map (·.2))).getD e.name
  { timeUnixNano := unixNanos now
    observedTimeUnixNano := unixNanos now
    severityNumber := severityNumber e.level
    severityText := e.level.toString
    body := some (.string body)
    attributes := visitor.fields.map (fun f => stringAttr f.1 f.2) ++
      [stringAttr "target" e.target, stringAttr "name" e.name]
    droppedAttributesCount := 0
    flags := 0
    traceId := []
    spanId := []
    eventName := e.name }

/-! ### What becomes of a field -/

/-- What the stored line of an event has under the name of an attribute. -/
def storedAttribute (e : Event) (now : Time) (key : String) : Option Json :=
  ((logRecordJson (eventToLogRecord e now)).member "attributes").bind (Json.member key)

/-- The event's own attributes come last, so they stand. -/
theorem storedAttribute_eq (e : Event) (now : Time) (key : String) :
    storedAttribute e now key = if key = "name" then some (.string e.name)
      else if key = "target" then some (.string e.target)
      else (lastValue (e.fields.map fun f => stringAttr f.1 f.2.render) key).map anyValueJson := by
  unfold storedAttribute
  rw [member_attributes, Option.bind_some, member_attributesJson]
  simp only [eventToLogRecord, Event.record_fields, List.map_map, lastValue_append]
  by_cases hname : key = "name"
  · subst hname
    rfl
  · by_cases htarget : key = "target"
    · subst htarget
      rfl
    · have hown : lastValue [stringAttr "target" e.target, stringAttr "name" e.name] key = none := by
        simp [lastValue, stringAttr, Ne.symm hname, Ne.symm htarget]
      rw [hown, if_neg hname, if_neg htarget]
      rfl

/-- **Every field of an event with distinct field names is stored as it was rendered exactly if a
field called `target` or `name` says what the event's metadata says.** -/
theorem fields_stored_iff (e : Event) (now : Time) (hd : (e.fields.map Prod.fst).Nodup) :
    (∀ k v, (k, v) ∈ e.record.fields → storedAttribute e now k = some (.string v)) ↔
      (∀ v, ("target", v) ∈ e.fields → v.render = e.target) ∧ (∀ v, ("name", v) ∈ e.fields → v.render = e.name) := by
  have hrendered : ∀ {k v}, (k, v) ∈ e.fields → (k, v.render) ∈ e.record.fields := by
    intro k v h
    rw [e.record_fields]
    exact List.mem_map_of_mem (f := fun f => (f.1, f.2.render)) h
  constructor
  · intro h
    refine ⟨?_, ?_⟩
    · intro v hv
      have hstored := (storedAttribute_eq e now "target").symm.trans (h "target" v.render (hrendered hv))
      simpa using hstored.symm
    · intro v hv
      have hstored := (storedAttribute_eq e now "name").symm.trans (h "name" v.render (hrendered hv))
      simpa using hstored.symm
  · intro ⟨htarget, hname⟩ k v hkv
    rw [e.record_fields] at hkv
    obtain ⟨⟨k', f⟩, hf, heq⟩ := List.mem_map.mp hkv
    obtain ⟨rfl, rfl⟩ := Prod.mk.inj heq
    rw [storedAttribute_eq]
    split_ifs with h1 h2
    · subst h1
      rw [hname f hf]
    · subst h2
      rw [htarget f hf]
    · have hmem : stringAttr k' f.render ∈ e.fields.map fun f => stringAttr f.1 f.2.render :=
        List.mem_map_of_mem (f := fun f : String × FieldValue => stringAttr f.1 f.2.render) hf
      have hdist : ((e.fields.map fun f => stringAttr f.1 f.2.render).map Prod.fst).Nodup := by
        rw [List.map_map]
        exact hd
      rw [lastValue_of_mem hdist hmem]
      rfl

/-- An event as `info!(name = "alice", "signed in")` makes it. -/
def signIn : Event where
  name := "event src/main.rs:7"
  target := "app"
  level := .info
  fields := [("message", .debug "signed in"), ("name", .str "alice")]

theorem fields_stored_iff_signIn : (signIn.fields.map Prod.fst).Nodup ∧
    ((∀ k v, (k, v) ∈ signIn.record.fields → storedAttribute signIn 0 k = some (.string v)) ↔
      (∀ v, ("target", v) ∈ signIn.fields → v.render = signIn.target) ∧
        (∀ v, ("name", v) ∈ signIn.fields → v.render = signIn.name)) :=
  ⟨by decide, fields_stored_iff signIn 0 (by decide)⟩

/-- Its field `name` is lost. -/
theorem signIn_name_lost : (signIn.fields.map Prod.fst).Nodup ∧ ("name", "alice") ∈ signIn.record.fields ∧
    storedAttribute signIn 0 "name" ≠ some (.string "alice") := by
  refine ⟨by decide, by decide, ?_⟩
  rw [storedAttribute_eq, if_pos rfl]
  simp [signIn]

end Detritus.Client
