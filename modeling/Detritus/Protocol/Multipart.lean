import Detritus.Parsing.Search
import Detritus.Protocol.Text

/-! Multipart bodies.

A body is what a parser hands out: parts whose bytes come in chunks, ending well or with
an error. The parser is another crate's (`multer`). What it is trusted with is in
`Rfc7578` and `Labelling`: bodies of the plain form that is written here, which `parse`
reads. -/
namespace Detritus.Protocol
open Files Parsing

structure MultipartError where
  message : String
  deriving DecidableEq

/-- A part. `contentEncoding` is its header where that is text. `failure` is the error
its chunks end with, if they do. -/
structure Field where
  name : Option String
  contentType : Option String
  contentEncoding : Option String
  chunks : List Bytes
  failure : Option MultipartError

def Field.bytes (f : Field) : Bytes := f.chunks.flatten

structure Multipart where
  fields : List Field
  failure : Option MultipartError

/-- A request body as it arrives: its bytes, and whether the connection broke off. -/
structure Body where
  chunks : List Bytes
  broken : Bool

/-! ### The plain form

A delimiter line, header lines, an empty line, the content, and so on up to the closing
delimiter. There are no folded headers, comments or escapes. -/

def CRLF : Bytes := [0x0d, 0x0a]

/-- What starts the line of a boundary. -/
def dashes (boundary : String) : Bytes := [0x2d, 0x2d] ++ utf8 boundary

/-- What ends the content of a part. -/
def delimiter (boundary : String) : Bytes := CRLF ++ dashes boundary

def isBlank (b : UInt8) : Bool := b = 0x20 || b = 0x09

def toLower (b : UInt8) : UInt8 := if 0x41 ≤ b ∧ b ≤ 0x5a then b + 0x20 else b

/-- The name of a header, in small letters, and what it says. -/
def parseHeader (line : Bytes) : Option (Bytes × Bytes) :=
  (cut [0x3a] line).map fun r => (r.1.map toLower, trim isBlank r.2)

/-- The lines up to an empty one, and what follows that. -/
def headerLines : Nat → Bytes → Option (List Bytes × Bytes)
  | 0, _ => none
  | fuel + 1, s => do
    let (line, s) ← cut CRLF s
    if line = [] then some ([], s)
    else
      let (rest, s) ← headerLines fuel s
      some (line :: rest, s)

/-- What is between quotes, and what follows. -/
def unquoted : Bytes → Option (Bytes × Bytes)
  | [] => none
  | b :: rest =>
    if b = 0x22 then some ([], rest)
    else if b = 0x5c then none
    else (unquoted rest).map fun r => (b :: r.1, r.2)

/-- The `name` of a `Content-Disposition` that says just that. -/
def dispositionName (value : Bytes) : Option String := do
  let s ← strip (utf8 "form-data; name=\"") value
  let (name, rest) ← unquoted s
  if rest = [] then ofUtf8 name else none

/-- A part, as its headers say. -/
structure Sheet where
  name : String
  contentType : String
  contentEncoding : Option String
  content : Bytes

def parsePart (lines : List Bytes) (content : Bytes) : Option Sheet := do
  let headers ← lines.mapM parseHeader
  let name ← (headers.lookup (utf8 "content-disposition")).bind dispositionName
  let contentType ← (headers.lookup (utf8 "content-type")).bind ofUtf8
  some ⟨name, contentType, (headers.lookup (utf8 "content-encoding")).bind ofUtf8, content⟩

/-- The parts after a delimiter. -/
def parseParts (boundary : String) : Nat → Bytes → Option (List Sheet)
  | 0, _ => none
  | fuel + 1, s =>
    if [0x2d, 0x2d] <+: s then some []
    else do
      let s ← strip CRLF s
      let (lines, s) ← headerLines s.length s
      let (content, s) ← cut (delimiter boundary) s
      let part ← parsePart lines content
      let parts ← parseParts boundary fuel s
      some (part :: parts)

def parse (boundary : String) (s : Bytes) : Option (List Sheet) :=
  (strip (dashes boundary) s).bind (parseParts boundary s.length)

/-! ### Reading what was written -/

variable {boundary : String} {p : Sheet} {s : String}

/-- Lines that were written are read back, up to the blank one. -/
theorem headerLines_append (lines : List Bytes) (rest : Bytes) (h : ∀ l ∈ lines, 0x0d ∉ l ∧ l ≠ []) {fuel : Nat}
    (hf : lines.length < fuel) :
    headerLines fuel (lines.flatMap (· ++ CRLF) ++ (CRLF ++ rest)) = some (lines, rest) := by
  induction lines generalizing fuel with
  | nil =>
    obtain ⟨n, rfl⟩ := Nat.exists_eq_succ_of_ne_zero (Nat.ne_of_gt hf)
    rw [List.flatMap_nil, List.nil_append, headerLines, cut_prefix]
    rfl
  | cons l lines ih =>
    obtain ⟨n, rfl⟩ := Nat.exists_eq_succ_of_ne_zero (Nat.ne_of_gt (Nat.zero_lt_of_lt hf))
    obtain ⟨hl, hne⟩ := h l (.head _)
    have hcut : cut CRLF (l ++ (CRLF ++ (lines.flatMap (· ++ CRLF) ++ (CRLF ++ rest)))) = some (l, _) :=
      cut_append l _ (by decide) (not_infix_of_notMem hl)
    rw [List.flatMap_cons, List.append_assoc, List.append_assoc, headerLines, hcut]
    simp only [Option.bind_eq_bind, Option.bind_some, if_neg hne]
    rw [ih (fun l hl => h l (.tail _ hl)) (by rw [List.length_cons] at hf; omega)]
    rfl

theorem unquoted_append (name rest : Bytes) (h : 0x22 ∉ name ∧ 0x5c ∉ name) :
    unquoted (name ++ 0x22 :: rest) = some (name, rest) := by
  induction name with
  | nil => rfl
  | cons b name ih =>
    simp only [List.mem_cons, not_or] at h
    rw [List.cons_append, unquoted, if_neg (Ne.symm h.1.1), if_neg (Ne.symm h.2.1), ih ⟨h.1.2, h.2.2⟩]
    rfl

/-- A name that can stand in a header as it is. -/
structure PlainName (name : String) : Prop where
  quote : '"' ∉ name.toList
  backslash : '\\' ∉ name.toList
  cr : '\r' ∉ name.toList
  lf : '\n' ∉ name.toList

/-- A plain name is read back from its header. -/
theorem dispositionName_eq {name : String} (h : PlainName name) :
    dispositionName (utf8 ("form-data; name=\"" ++ name ++ "\"")) = some name := by
  have hplain : 0x22 ∉ utf8 name ∧ 0x5c ∉ utf8 name :=
    ⟨fun hm => h.quote (ascii_of_mem_utf8 (by decide) hm), fun hm => h.backslash (ascii_of_mem_utf8 (by decide) hm)⟩
  have hquote : utf8 "\"" = [0x22] := by decide
  unfold dispositionName
  rw [utf8_append, utf8_append, List.append_assoc, strip_append, hquote]
  simp only [Option.bind_eq_bind, Option.bind_some]
  rw [unquoted_append _ _ hplain]
  exact ofUtf8_utf8 name

/-- A text without line breaks. -/
structure Unbroken (s : String) : Prop where
  cr : '\r' ∉ s.toList
  lf : '\n' ∉ s.toList

/-- A text without control characters. -/
def Visible (s : String) : Prop :=
  ∀ c ∈ s.toList, ' ' ≤ c ∧ c ≠ '\x7f'

theorem visible_iff : (s.toList.all fun c => decide (' ' ≤ c ∧ c ≠ '\x7f')) = true ↔ Visible s := by
  simp [Visible]

instance (s : String) : Decidable (Visible s) := decidable_of_iff _ visible_iff

theorem Visible.unbroken (h : Visible s) : Unbroken s :=
  ⟨fun hc => absurd (h _ hc).1 (by decide), fun hc => absurd (h _ hc).1 (by decide)⟩

/-- A text that can stand in a header and is read back as it is. -/
structure PlainValue (s : String) : Prop where
  visible : Visible s
  trimmed : trim isBlank (utf8 s) = utf8 s

namespace Sheet

/-- Its header lines. -/
def lines (p : Sheet) : List Bytes :=
  utf8 ("Content-Disposition: form-data; name=\"" ++ p.name ++ "\"") :: utf8 ("Content-Type: " ++ p.contentType) ::
    (p.contentEncoding.map fun e => utf8 ("Content-Encoding: " ++ e)).toList

/-- The part as it is read back: blanks around its encoding are lost. -/
def asRead (p : Sheet) : Sheet :=
  {p with contentEncoding := p.contentEncoding.bind fun e => ofUtf8 (trim isBlank (utf8 e))}

/-- The part with the delimiter before it and the line break after it. -/
def bytes (boundary : String) (p : Sheet) : Bytes :=
  dashes boundary ++ (CRLF ++ (p.lines.flatMap (· ++ CRLF) ++ (CRLF ++ (p.content ++ CRLF))))

/-- It is read back under this boundary. -/
structure Plain (boundary : String) (p : Sheet) : Prop where
  name : PlainName p.name
  contentType : PlainValue p.contentType
  contentEncoding : ∀ e ∈ p.contentEncoding, Unbroken e
  content : ¬ delimiter boundary <:+: p.content

/-- It is read back with its label, also by a parser that takes no control characters in a header. -/
structure Clear (boundary : String) (p : Sheet) : Prop extends Plain boundary p where
  visible : Visible p.name
  label : ∀ e ∈ p.contentEncoding, PlainValue e

/-- A clear part is read as it is. -/
theorem Clear.asRead (h : p.Clear boundary) : p.asRead = p := by
  obtain ⟨name, contentType, contentEncoding, content⟩ := p
  cases contentEncoding with
  | none => rfl
  | some e => simp [Sheet.asRead, (h.label e rfl).trimmed, ofUtf8_utf8]

end Sheet

theorem not_cr_utf8 (h : '\r' ∉ s.toList) : 0x0d ∉ utf8 s :=
  fun hm => h (ascii_of_mem_utf8 (by decide) hm)

theorem parseHeader_eq {head value : String} (name : Bytes) (hh : utf8 head = name ++ [0x3a, 0x20])
    (hn : 0x3a ∉ name) :
    parseHeader (utf8 (head ++ value)) = some (name.map toLower, trim isBlank (utf8 value)) := by
  have hcut : cut [0x3a] (name ++ ([0x3a] ++ (0x20 :: utf8 value))) = some (name, 0x20 :: utf8 value) :=
    cut_append _ _ (by simp) (not_infix_of_notMem hn)
  unfold parseHeader
  rw [utf8_append, hh, List.append_assoc]
  exact congrArg (Option.map _) hcut

theorem disposition_trimmed (name : String) : trim isBlank (utf8 ("form-data; name=\"" ++ name ++ "\"")) =
    utf8 ("form-data; name=\"" ++ name ++ "\"") := by
  have hfirst : utf8 "form-data; name=\"" = 0x66 :: (utf8 "form-data; name=\"").tail := by decide
  have hlast : utf8 "\"" = [0x22] := by decide
  rw [utf8_append, utf8_append, hlast]
  apply trim_of_ends
  · rw [hfirst]
    simp
    decide
  · simp
    decide

theorem Sheet.lines_plain (h : p.Plain boundary) : ∀ l ∈ p.lines, 0x0d ∉ l ∧ l ≠ [] := by
  have hline : ∀ s t : String, 0x0d ∉ utf8 s → utf8 s ≠ [] → '\r' ∉ t.toList →
      0x0d ∉ utf8 (s ++ t) ∧ utf8 (s ++ t) ≠ [] := by
    intro s t hs hne ht
    rw [utf8_append]
    exact ⟨fun hm => (List.mem_append.mp hm).elim hs (not_cr_utf8 ht), by simp [hne]⟩
  have hname : '\r' ∉ (p.name ++ "\"").toList := by
    simp [h.name.cr]
  intro l hl
  simp only [lines, List.mem_cons, Option.mem_toList, Option.map_eq_some_iff] at hl
  rcases hl with rfl | rfl | ⟨e, he, rfl⟩
  · rw [String.append_assoc]
    exact hline _ _ (by decide) (by decide) hname
  · exact hline _ _ (by decide) (by decide) h.contentType.visible.unbroken.cr
  · exact hline _ _ (by decide) (by decide) (h.contentEncoding e he).cr

/-- A part is read back from its lines and its content. -/
theorem parsePart_lines (h : p.Plain boundary) : parsePart p.lines p.content = some p.asRead := by
  have hdisposition : parseHeader (utf8 ("Content-Disposition: form-data; name=\"" ++ p.name ++ "\"")) =
      some (utf8 "content-disposition", utf8 ("form-data; name=\"" ++ p.name ++ "\"")) := by
    have hhead : "Content-Disposition: form-data; name=\"" = "Content-Disposition: " ++ "form-data; name=\"" := by
      decide
    have hsplit : "Content-Disposition: form-data; name=\"" ++ p.name ++ "\"" =
        "Content-Disposition: " ++ ("form-data; name=\"" ++ p.name ++ "\"") := by
      rw [hhead]
      simp only [String.append_assoc]
    rw [hsplit, parseHeader_eq (utf8 "Content-Disposition") (by decide) (by decide), disposition_trimmed]
    rfl
  have htype : parseHeader (utf8 ("Content-Type: " ++ p.contentType)) =
      some (utf8 "content-type", utf8 p.contentType) := by
    rw [parseHeader_eq (utf8 "Content-Type") (by decide) (by decide), h.contentType.trimmed]
    rfl
  have hencoding : ∀ e, parseHeader (utf8 ("Content-Encoding: " ++ e)) =
      some (utf8 "content-encoding", trim isBlank (utf8 e)) := by
    intro e
    rw [parseHeader_eq (utf8 "Content-Encoding") (by decide) (by decide)]
    rfl
  have hne : (utf8 "content-type" == utf8 "content-disposition") = false := by decide
  have hne' : (utf8 "content-encoding" == utf8 "content-disposition") = false := by decide
  have hne'' : (utf8 "content-encoding" == utf8 "content-type") = false := by decide
  unfold parsePart Sheet.lines Sheet.asRead
  cases p.contentEncoding with
  | none =>
    simp [hdisposition, htype, List.lookup_cons, hne, hne', hne'', dispositionName_eq h.name, ofUtf8_utf8]
  | some e =>
    simp [hdisposition, htype, hencoding, List.lookup_cons, hne, hne', hne'', dispositionName_eq h.name, ofUtf8_utf8]

/-- One part that was written is the next one read. -/
theorem parseParts_cons (h : p.Plain boundary) (hb : '\r' ∉ boundary.toList) (fuel : Nat) (rest : Bytes) :
    parseParts boundary (fuel + 1) (CRLF ++ (p.lines.flatMap (· ++ CRLF) ++ (CRLF ++ (p.content ++ CRLF))) ++
      (dashes boundary ++ rest)) = (parseParts boundary fuel rest).map (p.asRead :: ·) := by
  have hnot : ¬ [0x2d, 0x2d] <+: CRLF ++ (p.lines.flatMap (· ++ CRLF) ++ (CRLF ++ (p.content ++ CRLF))) ++
      (dashes boundary ++ rest) := by
    rw [CRLF, List.append_assoc, List.cons_append, List.cons_prefix_cons]
    exact fun hp => absurd hp.1 (by decide)
  have hdelimiter : (0x0d : UInt8) ∉ 0x0a :: dashes boundary := by
    simp [dashes, not_cr_utf8 hb]
  have hshape : p.lines.flatMap (· ++ CRLF) ++ (CRLF ++ (p.content ++ CRLF)) ++ (dashes boundary ++ rest) =
      p.lines.flatMap (· ++ CRLF) ++ (CRLF ++ (p.content ++ (delimiter boundary ++ rest))) := by
    simp only [delimiter, List.append_assoc]
  have hfuel : p.lines.length < (p.lines.flatMap (· ++ CRLF) ++
      (CRLF ++ (p.content ++ (delimiter boundary ++ rest)))).length := by
    have hle := length_le_flatMap (f := (· ++ CRLF)) (by simp [CRLF]) p.lines
    simp only [List.length_append, CRLF, List.length_cons] at hle ⊢
    omega
  rw [parseParts, if_neg hnot, List.append_assoc, strip_append]
  simp only [Option.bind_eq_bind, Option.bind_some]
  rw [hshape, headerLines_append p.lines _ (Sheet.lines_plain h) hfuel]
  simp only [Option.bind_some]
  rw [show cut (delimiter boundary) (p.content ++ (delimiter boundary ++ rest)) = some (p.content, rest) from
    cut_append _ _ hdelimiter h.content]
  simp only [Option.bind_some, parsePart_lines h]
  cases parseParts boundary fuel rest <;> rfl

/-- A body made of parts and the closing delimiter. -/
def sheets (boundary : String) (parts : List Sheet) : Bytes :=
  parts.flatMap (Sheet.bytes boundary) ++ (dashes boundary ++ ([0x2d, 0x2d] ++ CRLF))

/-- **What was written part by part is read back part by part.** -/
theorem parse_sheets (hb : '\r' ∉ boundary.toList) (parts : List Sheet) (h : ∀ p ∈ parts, p.Plain boundary) :
    parse boundary (sheets boundary parts) = some (parts.map Sheet.asRead) := by
  -- what follows the first delimiter, with fuel for each part
  have hrest : ∀ fuel, parts.length < fuel → ∃ rest, sheets boundary parts = dashes boundary ++ rest ∧
      parseParts boundary fuel rest = some (parts.map Sheet.asRead) := by
    induction parts with
    | nil =>
      intro fuel hf
      obtain ⟨n, rfl⟩ := Nat.exists_eq_succ_of_ne_zero (Nat.ne_of_gt hf)
      exact ⟨_, rfl, by rw [parseParts, if_pos (List.prefix_append ..)]; rfl⟩
    | cons p parts ih =>
      intro fuel hf
      obtain ⟨n, rfl⟩ := Nat.exists_eq_succ_of_ne_zero (Nat.ne_of_gt (Nat.zero_lt_of_lt hf))
      obtain ⟨rest, heq, hparse⟩ := ih (fun p hp => h p (.tail _ hp)) n (by rw [List.length_cons] at hf; omega)
      refine ⟨CRLF ++ (p.lines.flatMap (· ++ CRLF) ++ (CRLF ++ (p.content ++ CRLF))) ++ (dashes boundary ++ rest), ?_, ?_⟩
      · rw [← heq]
        simp only [sheets, List.flatMap_cons, Sheet.bytes, List.append_assoc]
      · rw [parseParts_cons (h p (.head _)) hb, hparse]
        rfl
  have hlen : parts.length < (sheets boundary parts).length := by
    have hle := length_le_flatMap (f := Sheet.bytes boundary) (by simp [Sheet.bytes, dashes]) parts
    simp only [sheets, dashes, List.length_append, List.length_cons]
    omega
  obtain ⟨rest, heq, hparse⟩ := hrest _ hlen
  rw [parse]
  nth_rewrite 1 [heq]
  rw [strip_append]
  exact hparse

end Detritus.Protocol
