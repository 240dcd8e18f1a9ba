import Detritus.Protocol.Json

/-! JSON as text, the way `serde_json` writes it.

`print` is both of its forms: compact, and pretty with two spaces a level. `parse`
reads back what `print` writes and leaves what follows (`parse_print`); the text of an
array or an object tells where it ends, that of a number only that no digit follows.
The one departure is a float, which stands as the number of its bits. -/
namespace Detritus.Protocol
open Files

namespace JsonText
variable {b : UInt8} {fuel : Nat}

/-! ### Strings -/

/-- A hexadecimal digit as a byte. -/
def hexDigit (n : Nat) : UInt8 := (Nat.digitChar n).toNat.toUInt8

def hexValue (b : UInt8) : Nat := if b < 0x3a then b.toNat - 0x30 else b.toNat - 0x57

theorem hexValue_hexDigit : ∀ n < 16, hexValue (hexDigit n) = n := by decide

/-- The letter of a control character that has one. -/
def shortEscape (b : UInt8) : Option UInt8 :=
  if b = 0x08 then some 0x62
  else if b = 0x09 then some 0x74
  else if b = 0x0a then some 0x6e
  else if b = 0x0c then some 0x66
  else if b = 0x0d then some 0x72
  else none

def escape (b : UInt8) : Bytes :=
  if b = 0x22 ∨ b = 0x5c then [0x5c, b]
  else match shortEscape b with
    | some letter => [0x5c, letter]
    | none =>
      if b < 0x20 then [0x5c, 0x75, 0x30, 0x30, hexDigit (b.toNat / 16), hexDigit (b.toNat % 16)]
      else [b]

/-- What a letter after a backslash stands for. -/
def unescape (b : UInt8) : Option UInt8 :=
  if b = 0x22 ∨ b = 0x5c then some b
  else if b = 0x62 then some 0x08
  else if b = 0x74 then some 0x09
  else if b = 0x6e then some 0x0a
  else if b = 0x66 then some 0x0c
  else if b = 0x72 then some 0x0d
  else none

def quote (s : String) : Bytes := 0x22 :: (utf8 s).flatMap escape ++ [0x22]

/-- The bytes up to the closing quote, and what follows it. -/
def unquote : Bytes → Option (Bytes × Bytes)
  | [] => none
  | 0x22 :: rest => some ([], rest)
  | 0x5c :: 0x75 :: _ :: _ :: hi :: lo :: rest =>
    (unquote rest).map fun r => ((16 * hexValue hi + hexValue lo).toUInt8 :: r.1, r.2)
  | 0x5c :: letter :: rest =>
    (unescape letter).bind fun b => (unquote rest).map fun r => (b :: r.1, r.2)
  | b :: rest => (unquote rest).map fun r => (b :: r.1, r.2)

theorem unquote_escape (b : UInt8) (rest : Bytes) :
    unquote (escape b ++ rest) = (unquote rest).map fun r => (b :: r.1, r.2) := by
  unfold escape
  split
  · next h => rcases h with rfl | rfl <;> rfl
  · next hq =>
    push Not at hq
    split
    · next letter hl =>
      unfold shortEscape at hl
      repeat' split at hl
      all_goals first
        | (next hb => obtain rfl := Option.some.inj hl; subst hb; rfl)
        | exact absurd hl (by simp)
    · split
      · next hb =>
        have hlt : b.toNat < 32 := UInt8.lt_iff_toNat_lt.mp hb
        have hi := hexValue_hexDigit (b.toNat / 16) (by omega)
        have lo := hexValue_hexDigit (b.toNat % 16) (by omega)
        have hv : (16 * (b.toNat / 16) + b.toNat % 16).toUInt8 = b := by
          rw [Nat.div_add_mod]
          simp
        simp only [List.cons_append, List.nil_append]
        rw [unquote, hi, lo, hv]
      · rw [List.singleton_append, unquote.eq_def]
        split <;> simp_all

/-- A quoted text is read back, up to its quote. -/
theorem unquote_quote (s rest : Bytes) : unquote (s.flatMap escape ++ 0x22 :: rest) = some (s, rest) := by
  induction s with
  | nil => rfl
  | cons b s ih => rw [List.flatMap_cons, List.append_assoc, unquote_escape, ih]; rfl

/-! ### Numbers -/

def isDigit (b : UInt8) : Bool := 0x30 ≤ b && b ≤ 0x39

def digits (n : Nat) : Bytes := (Nat.toDigits 10 n).map fun c => c.toNat.toUInt8

def ofDigits (b : Bytes) : Nat := Nat.ofDigitChars 10 (b.map fun x => Char.ofNat x.toNat) 0

theorem digit_byte {c : Char} (h : c.isDigit = true) :
    isDigit c.toNat.toUInt8 = true ∧ Char.ofNat c.toNat.toUInt8.toNat = c := by
  have hc : 48 ≤ c.toNat ∧ c.toNat ≤ 57 := by
    simp only [Char.isDigit, Bool.and_eq_true, decide_eq_true_eq] at h
    exact ⟨UInt32.le_iff_toNat_le.mp h.1, UInt32.le_iff_toNat_le.mp h.2⟩
  have hn : c.toNat.toUInt8.toNat = c.toNat := by
    rw [UInt8.toNat_ofNat']
    omega
  refine ⟨?_, by rw [hn, Char.ofNat_toNat]⟩
  simp [isDigit, UInt8.le_iff_toNat_le, hn, hc]

theorem digits_isDigit {n : Nat} (h : b ∈ digits n) : isDigit b = true := by
  obtain ⟨c, hc, rfl⟩ := List.mem_map.mp h
  exact (digit_byte (Nat.isDigit_of_mem_toDigits (by decide) (by decide) hc)).1

/-- So are the digits of a number. -/
theorem ofDigits_digits (n : Nat) : ofDigits (digits n) = n := by
  have hmap : ((Nat.toDigits 10 n).map fun c => Char.ofNat c.toNat.toUInt8.toNat) = Nat.toDigits 10 n := by
    conv_rhs => rw [← List.map_id (Nat.toDigits 10 n)]
    exact List.map_congr_left fun c hc =>
      (digit_byte (Nat.isDigit_of_mem_toDigits (by decide) (by decide) hc)).2
  rw [ofDigits, digits, List.map_map]
  show Nat.ofDigitChars 10 ((Nat.toDigits 10 n).map fun c => Char.ofNat c.toNat.toUInt8.toNat) 0 = n
  rw [hmap, Nat.ofDigitChars_ten_toDigits]

theorem digits_cons (n : Nat) : ∃ b t, digits n = b :: t ∧ isDigit b = true := by
  cases h : digits n with
  | nil =>
    have := Nat.length_toDigits_pos (b := 10) (n := n)
    rw [digits, List.map_eq_nil_iff] at h
    rw [h] at this
    exact absurd this (by simp)
  | cons b t => exact ⟨b, t, rfl, digits_isDigit (h ▸ List.mem_cons_self ..)⟩

/-- What follows a number. -/
def Ends : Bytes → Prop
  | [] => True
  | b :: _ => isDigit b = false ∧ b ≠ 0x65

/-- Digits end where no digit follows. -/
theorem span_digits (n : Nat) {rest : Bytes} (hr : ∀ b t, rest = b :: t → isDigit b = false) :
    (digits n ++ rest).takeWhile isDigit = digits n ∧ (digits n ++ rest).dropWhile isDigit = rest := by
  have hd : ∀ b ∈ digits n, isDigit b = true := fun b hb => digits_isDigit hb
  rw [List.takeWhile_append_of_pos hd, List.dropWhile_append_of_pos hd]
  cases rest with
  | nil => simp
  | cons b t => simp [hr b t rfl]

def integer (n : Integer) : Bytes :=
  if n.value < 0 then 0x2d :: digits n.value.natAbs else digits n.value.natAbs

def float (x : Double) : Bytes := digits x.bits.toNat ++ [0x65, 0x30]

def toInteger (v : Int) : Option Integer :=
  if h : -2 ^ 63 ≤ v ∧ v < 2 ^ 64 then some ⟨v, h.1, h.2⟩ else none

def toDouble (n : Nat) : Option Double :=
  if h : (n.toUInt64 >>> 52) &&& 0x7ff ≠ 0x7ff then some ⟨n.toUInt64, h⟩ else none

theorem toInteger_value (n : Integer) : toInteger n.value = some n := by
  rw [toInteger, dif_pos ⟨n.lower, n.upper⟩]

theorem toDouble_bits (x : Double) : toDouble x.bits.toNat = some x := by
  have hb : x.bits.toNat.toUInt64 = x.bits := by simp
  rw [toDouble, dif_pos (by rw [hb]; exact x.finite)]
  congr

def parseNumber : Bytes → Option (Json × Bytes)
  | 0x2d :: rest =>
    (toInteger (-(ofDigits (rest.takeWhile isDigit) : Int))).map fun v => (.int v, rest.dropWhile isDigit)
  | s => match s.dropWhile isDigit with
    | 0x65 :: 0x30 :: rest => (toDouble (ofDigits (s.takeWhile isDigit))).map fun x => (.float x, rest)
    | rest => (toInteger (ofDigits (s.takeWhile isDigit))).map fun v => (.int v, rest)

theorem parseNumber_positive {s : Bytes} (hb : isDigit b = true) : parseNumber (b :: s) =
    match (b :: s).dropWhile isDigit with
    | 0x65 :: 0x30 :: rest => (toDouble (ofDigits ((b :: s).takeWhile isDigit))).map fun x => (.float x, rest)
    | rest => (toInteger (ofDigits ((b :: s).takeWhile isDigit))).map fun v => (.int v, rest) := by
  rw [parseNumber]
  intro rest he
  obtain ⟨rfl, -⟩ := List.cons.inj he
  exact absurd hb (by decide)

/-- An integer is read back where it ends. -/
theorem parseNumber_integer (n : Integer) {rest : Bytes} (hr : Ends rest) :
    parseNumber (integer n ++ rest) = some (.int n, rest) := by
  have hdigit : ∀ b t, rest = b :: t → isDigit b = false := by
    intro b t he
    subst he
    exact hr.1
  obtain ⟨htake, hdrop⟩ := span_digits n.value.natAbs hdigit
  by_cases hneg : n.value < 0
  · rw [integer, if_pos hneg, List.cons_append, parseNumber, htake, hdrop, ofDigits_digits,
      show -(n.value.natAbs : Int) = n.value by omega, toInteger_value]
    rfl
  · obtain ⟨b, t, hd, hb⟩ := digits_cons n.value.natAbs
    rw [integer, if_neg hneg]
    rw [hd, List.cons_append] at htake hdrop ⊢
    rw [parseNumber_positive hb, htake, hdrop, ← hd, ofDigits_digits,
      show (n.value.natAbs : Int) = n.value by omega, toInteger_value]
    split
    · exact absurd rfl hr.2
    · rfl

/-- The ending of a float tells it from an integer. -/
theorem parseNumber_float (x : Double) (rest : Bytes) :
    parseNumber (float x ++ rest) = some (.float x, rest) := by
  have hdigit : ∀ b t, (0x65 :: 0x30 :: rest : Bytes) = b :: t → isDigit b = false := by
    intro b t he
    obtain ⟨rfl, -⟩ := List.cons.inj he
    decide
  obtain ⟨htake, hdrop⟩ := span_digits x.bits.toNat hdigit
  obtain ⟨b, t, hd, hb⟩ := digits_cons x.bits.toNat
  rw [float, List.append_assoc]
  show parseNumber (digits x.bits.toNat ++ 0x65 :: 0x30 :: rest) = _
  rw [hd, List.cons_append] at htake hdrop ⊢
  rw [parseNumber_positive hb, htake, hdrop, ← hd, ofDigits_digits, toDouble_bits]
  rfl

/-! ### Documents -/

inductive Style where
  | compact
  | pretty

/-- A new line at a depth. -/
def Style.line : Style → Nat → Bytes
  | compact, _ => []
  | pretty, depth => 0x0a :: List.replicate (2 * depth) 0x20

def Style.colon : Style → Bytes
  | compact => [0x3a]
  | pretty => [0x3a, 0x20]

mutual

def print (style : Style) (depth : Nat) : Json → Bytes
  | .null => [0x6e, 0x75, 0x6c, 0x6c]
  | .bool true => [0x74, 0x72, 0x75, 0x65]
  | .bool false => [0x66, 0x61, 0x6c, 0x73, 0x65]
  | .int n => integer n
  | .float x => float x
  | .string s => quote s
  | .array [] => [0x5b, 0x5d]
  | .array (v :: items) =>
    0x5b :: style.line (depth + 1) ++ print style (depth + 1) v ++ printItems style depth items
  | .object [] => [0x7b, 0x7d]
  | .object ((k, v) :: members) =>
    0x7b :: style.line (depth + 1) ++ quote k ++ style.colon ++ print style (depth + 1) v ++
      printMembers style depth members
termination_by structural v => v

/-- The items after the first, and the end. -/
def printItems (style : Style) (depth : Nat) : List Json → Bytes
  | [] => style.line depth ++ [0x5d]
  | v :: items =>
    0x2c :: style.line (depth + 1) ++ print style (depth + 1) v ++ printItems style depth items
termination_by structural items => items

def printMembers (style : Style) (depth : Nat) : List (String × Json) → Bytes
  | [] => style.line depth ++ [0x7d]
  | (k, v) :: members =>
    0x2c :: style.line (depth + 1) ++ quote k ++ style.colon ++ print style (depth + 1) v ++
      printMembers style depth members
termination_by structural members => members

end

def isSpace (b : UInt8) : Bool := b = 0x20 || b = 0x0a || b = 0x0d || b = 0x09

def skip (s : Bytes) : Bytes := s.dropWhile isSpace

def parseString (s : Bytes) : Option (String × Bytes) :=
  (unquote s).bind fun r => (ofUtf8 r.1).map fun t => (t, r.2)

mutual

/-- A document at the start of a text, and what follows it. -/
def parse : Nat → Bytes → Option (Json × Bytes)
  | 0, _ => none
  | fuel + 1, s => match s with
    | 0x6e :: 0x75 :: 0x6c :: 0x6c :: rest => some (.null, rest)
    | 0x74 :: 0x72 :: 0x75 :: 0x65 :: rest => some (.bool true, rest)
    | 0x66 :: 0x61 :: 0x6c :: 0x73 :: 0x65 :: rest => some (.bool false, rest)
    | 0x22 :: rest => (parseString rest).map fun r => (.string r.1, r.2)
    | 0x5b :: rest => match skip rest with
      | 0x5d :: rest => some (.array [], rest)
      | rest => (parseItems fuel rest).map fun r => (.array r.1, r.2)
    | 0x7b :: rest => match skip rest with
      | 0x7d :: rest => some (.object [], rest)
      | rest => (parseMembers fuel rest).map fun r => (.object r.1, r.2)
    | s => parseNumber s

def parseItems : Nat → Bytes → Option (List Json × Bytes)
  | 0, _ => none
  | fuel + 1, s => (parse fuel s).bind fun r => match skip r.2 with
    | 0x2c :: rest => (parseItems fuel (skip rest)).map fun rs => (r.1 :: rs.1, rs.2)
    | 0x5d :: rest => some ([r.1], rest)
    | _ => none

def parseMembers : Nat → Bytes → Option (List (String × Json) × Bytes)
  | 0, _ => none
  | fuel + 1, s => match s with
    | 0x22 :: s => (parseString s).bind fun k => match skip k.2 with
      | 0x3a :: s => (parse fuel (skip s)).bind fun r => match skip r.2 with
        | 0x2c :: rest => (parseMembers fuel (skip rest)).map fun rs => ((k.1, r.1) :: rs.1, rs.2)
        | 0x7d :: rest => some ([(k.1, r.1)], rest)
        | _ => none
      | _ => none
    | _ => none

end

mutual

/-- The fuel a document needs. -/
def size : Json → Nat
  | .array items => sizeItems items + 1
  | .object members => sizeMembers members + 1
  | _ => 1
termination_by structural v => v

def sizeItems : List Json → Nat
  | [] => 0
  | v :: items => size v + sizeItems items + 1
termination_by structural items => items

def sizeMembers : List (String × Json) → Nat
  | [] => 0
  | (_, v) :: members => size v + sizeMembers members + 1
termination_by structural members => members

end

/-! ### Reading back -/

theorem skip_line (style : Style) (depth : Nat) (s : Bytes) : skip (style.line depth ++ s) = skip s := by
  cases style with
  | compact => rfl
  | pretty =>
    rw [skip, List.dropWhile_append_of_pos]
    · rfl
    · intro b hb
      rcases List.mem_cons.mp hb with rfl | hb
      · decide
      · rw [List.eq_of_mem_replicate hb]
        decide

theorem skip_cons (s : Bytes) (h : isSpace b = false) : skip (b :: s) = b :: s :=
  List.dropWhile_cons_of_neg (by simp [h])

/-- A string is read back, whatever follows. -/
theorem parseString_quote (s : String) (rest : Bytes) :
    ∃ t, quote s ++ rest = 0x22 :: t ∧ parseString t = some (s, rest) := by
  refine ⟨_, rfl, ?_⟩
  show parseString (((utf8 s).flatMap escape ++ [0x22]) ++ rest) = _
  rw [parseString, List.append_assoc, List.singleton_append, unquote_quote, Option.bind_some, ofUtf8_utf8]
  rfl

theorem digit_head (h : isDigit b = true) : isSpace b = false ∧ b ≠ 0x5d := by
  constructor
  · cases hs : isSpace b with
    | false => rfl
    | true =>
      simp only [isSpace, Bool.or_eq_true, decide_eq_true_eq] at hs
      rcases hs with ((rfl | rfl) | rfl) | rfl <;> exact absurd h (by decide)
  · intro hb
    subst hb
    exact absurd h (by decide)

/-- A document's text starts with neither a space nor the end of an array. -/
theorem print_cons (style : Style) (depth : Nat) (v : Json) :
    ∃ b t, print style depth v = b :: t ∧ isSpace b = false ∧ b ≠ 0x5d := by
  cases v with
  | null => exact ⟨_, _, rfl, by decide, by decide⟩
  | bool b => cases b <;> exact ⟨_, _, rfl, by decide, by decide⟩
  | int n =>
    obtain ⟨b, t, hd, hb⟩ := digits_cons n.value.natAbs
    rw [print, integer]
    split
    · exact ⟨_, _, rfl, by decide, by decide⟩
    · exact ⟨b, t, hd, digit_head hb⟩
  | float x =>
    obtain ⟨b, t, hd, hb⟩ := digits_cons x.bits.toNat
    exact ⟨b, t ++ [0x65, 0x30], by rw [print, float, hd]; rfl, digit_head hb⟩
  | string s => exact ⟨_, _, rfl, by decide, by decide⟩
  | array items => cases items <;> exact ⟨_, _, rfl, by decide, by decide⟩
  | object members => cases members <;> exact ⟨_, _, rfl, by decide, by decide⟩

/-- A value does not begin with a space. -/
theorem skip_print (style : Style) (depth : Nat) (v : Json) (rest : Bytes) :
    skip (print style depth v ++ rest) = print style depth v ++ rest := by
  obtain ⟨b, t, h, hb, -⟩ := print_cons style depth v
  rw [h, List.cons_append, skip_cons _ hb]

theorem ends_items (style : Style) (depth : Nat) (items : List Json) (rest : Bytes) :
    Ends (printItems style depth items ++ rest) := by
  cases items with
  | nil => cases style <;> exact ⟨by decide, by decide⟩
  | cons v items => exact ⟨by decide, by decide⟩

theorem ends_members (style : Style) (depth : Nat) (members : List (String × Json)) (rest : Bytes) :
    Ends (printMembers style depth members ++ rest) := by
  cases members with
  | nil => cases style <;> exact ⟨by decide, by decide⟩
  | cons m members => exact ⟨by decide, by decide⟩

theorem parse_digit (fuel : Nat) (s : Bytes) (hb : isDigit b = true ∨ b = 0x2d) :
    parse (fuel + 1) (b :: s) = parseNumber (b :: s) := by
  have other : ∀ c : UInt8, isDigit c = false → c ≠ 0x2d → b ≠ c := by
    rintro c hc hm rfl
    rcases hb with hb | hb
    · rw [hc] at hb
      exact absurd hb (by decide)
    · exact hm hb
  rw [parse]
  all_goals
    intros
    rename_i he
    first
      | exact other 0x6e (by decide) (by decide) (List.cons.inj he).1
      | exact other 0x74 (by decide) (by decide) (List.cons.inj he).1
      | exact other 0x66 (by decide) (by decide) (List.cons.inj he).1
      | exact other 0x22 (by decide) (by decide) (List.cons.inj he).1
      | exact other 0x5b (by decide) (by decide) (List.cons.inj he).1
      | exact other 0x7b (by decide) (by decide) (List.cons.inj he).1

/-- A document whose text tells where it ends. -/
def Closed : Json → Prop
  | .array _ | .object _ => True
  | _ => False

/-- What reading back means for a document, for the items of an array and for the
members of an object, with so much fuel. -/
structure Inverts (fuel : Nat) : Prop where
  value : ∀ style depth v rest, size v ≤ fuel → Ends rest ∨ Closed v →
    parse fuel (print style depth v ++ rest) = some (v, rest)
  items : ∀ style depth v items rest, size v + sizeItems items + 1 ≤ fuel →
    parseItems fuel (print style (depth + 1) v ++ (printItems style depth items ++ rest)) =
      some (v :: items, rest)
  members : ∀ style depth k v members rest, size v + sizeMembers members + 1 ≤ fuel →
    parseMembers fuel (quote k ++ (style.colon ++ (print style (depth + 1) v ++
      (printMembers style depth members ++ rest)))) = some ((k, v) :: members, rest)

/-- One item more. -/
theorem Inverts.items_succ (ih : Inverts fuel) (style : Style) (depth : Nat) (v : Json) (items : List Json)
    (rest : Bytes) (h : size v + sizeItems items + 1 ≤ fuel + 1) :
    parseItems (fuel + 1) (print style (depth + 1) v ++ (printItems style depth items ++ rest)) =
      some (v :: items, rest) := by
  rw [parseItems, ih.value style (depth + 1) v _ (by omega) (.inl (ends_items ..)), Option.bind_some]
  dsimp only
  cases items with
  | nil =>
    rw [printItems, List.append_assoc, skip_line]
    rfl
  | cons w items =>
    rw [sizeItems] at h
    simp only [printItems, List.cons_append, List.append_assoc]
    rw [skip_cons _ (by decide)]
    show (parseItems fuel (skip (style.line (depth + 1) ++ _))).map _ = _
    rw [skip_line, skip_print, ih.items style depth w items rest (by omega)]
    rfl

/-- One member more. -/
theorem Inverts.members_succ (ih : Inverts fuel) (style : Style) (depth : Nat) (k : String) (v : Json)
    (members : List (String × Json)) (rest : Bytes) (h : size v + sizeMembers members + 1 ≤ fuel + 1) :
    parseMembers (fuel + 1) (quote k ++ (style.colon ++ (print style (depth + 1) v ++
      (printMembers style depth members ++ rest)))) = some ((k, v) :: members, rest) := by
  have hv : skip (print style (depth + 1) v ++ (printMembers style depth members ++ rest)) =
      print style (depth + 1) v ++ (printMembers style depth members ++ rest) := skip_print ..
  obtain ⟨t, ht, hk⟩ := parseString_quote k
    (style.colon ++ (print style (depth + 1) v ++ (printMembers style depth members ++ rest)))
  have hcolon : ∃ u, skip (style.colon ++ (print style (depth + 1) v ++ (printMembers style depth members ++ rest))) =
      0x3a :: u ∧ skip u = print style (depth + 1) v ++ (printMembers style depth members ++ rest) := by
    cases style with
    | compact => exact ⟨_, rfl, hv⟩
    | pretty => exact ⟨_, rfl, hv⟩
  obtain ⟨u, hu, hskip⟩ := hcolon
  rw [ht, parseMembers, hk, Option.bind_some, hu]
  show (parse fuel (skip u)).bind _ = _
  rw [hskip, ih.value style (depth + 1) v _ (by omega) (.inl (ends_members ..)), Option.bind_some]
  dsimp only
  cases members with
  | nil =>
    rw [printMembers, List.append_assoc, skip_line]
    rfl
  | cons m members =>
    obtain ⟨k', w⟩ := m
    rw [sizeMembers] at h
    simp only [printMembers, List.cons_append, List.append_assoc]
    rw [skip_cons _ (by decide)]
    show (parseMembers fuel (skip (style.line (depth + 1) ++ _))).map _ = _
    rw [skip_line]
    have hquote : ∀ s, skip (quote k' ++ s) = quote k' ++ s := fun s => skip_cons _ (by decide)
    rw [hquote, ih.members style depth k' w members rest (by omega)]
    rfl

/-- Values with less fuel give values with more. -/
theorem Inverts.value_succ (ih : Inverts fuel) (style : Style) (depth : Nat) (v : Json) (rest : Bytes)
    (h : size v ≤ fuel + 1) (hr : Ends rest ∨ Closed v) :
    parse (fuel + 1) (print style depth v ++ rest) = some (v, rest) := by
  cases v with
  | null => rfl
  | bool b => cases b <;> rfl
  | int n =>
    have hr : Ends rest := hr.resolve_right id
    have hparse := parseNumber_integer n hr
    rw [print]
    have hcons : ∃ b t, integer n = b :: t ∧ (isDigit b = true ∨ b = 0x2d) := by
      unfold integer
      split
      · exact ⟨_, _, rfl, .inr rfl⟩
      · obtain ⟨b, t, hd, hb⟩ := digits_cons n.value.natAbs
        exact ⟨b, t, hd, .inl hb⟩
    obtain ⟨b, t, hd, hb⟩ := hcons
    rw [hd] at hparse ⊢
    rw [List.cons_append, parse_digit fuel _ hb]
    exact hparse
  | float x =>
    have hparse := parseNumber_float x rest
    obtain ⟨b, t, hd, hb⟩ := digits_cons x.bits.toNat
    rw [print]
    rw [float, hd] at hparse ⊢
    rw [List.cons_append, List.cons_append, parse_digit fuel _ (.inl hb)]
    exact hparse
  | string s =>
    obtain ⟨t, ht, hs⟩ := parseString_quote s rest
    rw [print, ht, parse, hs]
    rfl
  | array items =>
    cases items with
    | nil => rfl
    | cons w items =>
      rw [size, sizeItems] at h
      simp only [print, List.cons_append, List.append_assoc]
      obtain ⟨b, t, hw, hb, hne⟩ := print_cons style (depth + 1) w
      have hitems := ih.items style depth w items rest (by omega)
      rw [parse, skip_line, skip_print]
      split
      · next he =>
        rw [hw] at he
        exact absurd (List.cons.inj he).1 hne
      · rw [hitems]
        rfl
  | object members =>
    cases members with
    | nil => rfl
    | cons m members =>
      obtain ⟨k, w⟩ := m
      rw [size, sizeMembers] at h
      simp only [print, List.cons_append, List.append_assoc]
      have hmembers := ih.members style depth k w members rest (by omega)
      have hquote : ∀ s, skip (quote k ++ s) = quote k ++ s := fun s => skip_cons _ (by decide)
      rw [parse, skip_line, hquote]
      split
      · next he => exact absurd (List.cons.inj he).1 (by decide)
      · rw [hmembers]
        rfl

/-- By induction on the fuel. -/
theorem inverts (fuel : Nat) : Inverts fuel := by
  induction fuel with
  | zero =>
    refine ⟨fun _ _ v _ h => ?_, fun _ _ _ _ _ h => absurd h (by omega), fun _ _ _ _ _ _ h => absurd h (by omega)⟩
    cases v <;> simp [size] at h
  | succ fuel ih => exact ⟨ih.value_succ, ih.items_succ, ih.members_succ⟩

mutual

/-- A text is long enough for its own fuel. -/
theorem size_le (style : Style) (depth : Nat) : ∀ v, size v ≤ (print style depth v).length
  | .null => by simp [size, print]
  | .bool true => by simp [size, print]
  | .bool false => by simp [size, print]
  | .int n => by
    obtain ⟨b, t, h, -⟩ := print_cons style depth (.int n)
    simp [size, h]
  | .float x => by
    obtain ⟨b, t, h, -⟩ := print_cons style depth (.float x)
    simp [size, h]
  | .string s => by simp [size, print, quote]
  | .array [] => by simp [size, sizeItems, print]
  | .array (v :: items) => by
    have hv := size_le style (depth + 1) v
    have hi := sizeItems_lt style depth items
    simp only [size, sizeItems, print, List.cons_append, List.length_cons, List.length_append]
    omega
  | .object [] => by simp [size, sizeMembers, print]
  | .object ((k, v) :: members) => by
    have hv := size_le style (depth + 1) v
    have hm := sizeMembers_lt style depth members
    simp only [size, sizeMembers, print, List.cons_append, List.length_cons, List.length_append]
    omega

/-- The text is fuel enough. -/
theorem sizeItems_lt (style : Style) (depth : Nat) :
    ∀ items, sizeItems items < (printItems style depth items).length
  | [] => by simp [sizeItems, printItems]
  | v :: items => by
    have hv := size_le style (depth + 1) v
    have hi := sizeItems_lt style depth items
    simp only [sizeItems, printItems, List.cons_append, List.length_cons, List.length_append]
    omega

theorem sizeMembers_lt (style : Style) (depth : Nat) :
    ∀ members, sizeMembers members < (printMembers style depth members).length
  | [] => by simp [sizeMembers, printMembers]
  | (k, v) :: members => by
    have hv := size_le style (depth + 1) v
    have hm := sizeMembers_lt style depth members
    simp only [sizeMembers, printMembers, List.cons_append, List.length_cons, List.length_append]
    omega

end

/-- The document that a text is. -/
def read (s : Bytes) : Option Json := (parse s.length s).bind fun r => if r.2 = [] then some r.1 else none

/-- **A printed document is read back.** -/
theorem read_print (style : Style) (v : Json) : read (print style 0 v) = some v := by
  have h := (inverts (print style 0 v).length).value style 0 v [] (size_le style 0 v) (.inl trivial)
  rw [List.append_nil] at h
  rw [read, h]
  rfl

/-- The text of no object starts with the text of another. -/
theorem print_separate {style : Style} {a b : List (String × Json)}
    (h : print style 0 (.object a) <+: print style 0 (.object b)) : a = b := by
  obtain ⟨rest, hrest⟩ := h
  have hlen : size (.object a) ≤ (print style 0 (.object b)).length := by
    rw [← hrest, List.length_append]
    exact (size_le style 0 _).trans (Nat.le_add_right ..)
  have ha := (inverts (print style 0 (.object b)).length).value style 0 (.object a) rest hlen (.inr trivial)
  have hb := (inverts (print style 0 (.object b)).length).value style 0 (.object b) [] (size_le style 0 _)
    (.inl trivial)
  rw [hrest] at ha
  rw [List.append_nil, ha] at hb
  exact Json.object.inj (Prod.mk.inj (Option.some.inj hb)).1

/-! ### One line -/

/-- A text without control characters, line ends among them. -/
def OneLine (t : Bytes) : Prop := ∀ b ∈ t, 0x20 ≤ b

theorem hexDigit_oneLine : ∀ n < 16, 0x20 ≤ hexDigit n := by decide

theorem shortEscape_oneLine {b letter : UInt8} (h : shortEscape b = some letter) : 0x20 ≤ letter := by
  unfold shortEscape at h
  repeat' split at h
  all_goals first | exact Option.some.inj h ▸ (by decide) | cases h

theorem escape_oneLine (b : UInt8) : OneLine (escape b) := by
  unfold escape OneLine
  split
  · next hb => rcases hb with rfl | rfl <;> simp
  · split
    · next letter hletter => simp [shortEscape_oneLine hletter]
    · split
      · have hhi := hexDigit_oneLine (b.toNat / 16) (by have := b.toNat_lt; omega)
        have hlo := hexDigit_oneLine (b.toNat % 16) (by omega)
        simp [hhi, hlo]
      · next hb => simpa using hb

/-- Line breaks in a text are escaped. -/
theorem quote_oneLine (s : String) : OneLine (quote s) := by
  intro b hb
  rcases List.mem_append.mp hb with hb | hb
  · rcases List.mem_cons.mp hb with rfl | hb
    · decide
    · obtain ⟨c, -, hb⟩ := List.mem_flatMap.mp hb
      exact escape_oneLine c b hb
  · rw [List.mem_singleton.mp hb]
    decide

theorem digits_oneLine (n : Nat) : OneLine (digits n) := by
  intro b hb
  have hdigit := digits_isDigit hb
  rw [isDigit, Bool.and_eq_true, decide_eq_true_eq] at hdigit
  exact UInt8.le_trans (by decide) hdigit.1

mutual

/-- A document in the compact layout is written on one line. -/
theorem print_oneLine (depth : Nat) : ∀ v, OneLine (print .compact depth v)
  | .null => by simp [OneLine, print]
  | .bool true => by simp [OneLine, print]
  | .bool false => by simp [OneLine, print]
  | .int n => by
    rw [print, integer]
    split
    · exact List.forall_mem_cons.mpr ⟨by decide, digits_oneLine _⟩
    · exact digits_oneLine _
  | .float x => by
    rw [print, float]
    exact List.forall_mem_append.mpr ⟨digits_oneLine _, by simp⟩
  | .string s => quote_oneLine s
  | .array [] => by simp [OneLine, print]
  | .array (v :: items) => by
    have hv := print_oneLine (depth + 1) v
    have hi := printItems_oneLine depth items
    simp only [OneLine, print, Style.line, List.nil_append, List.cons_append, List.forall_mem_cons,
      List.forall_mem_append]
    exact ⟨by decide, hv, hi⟩
  | .object [] => by simp [OneLine, print]
  | .object ((k, v) :: members) => by
    have hv := print_oneLine (depth + 1) v
    have hm := printMembers_oneLine depth members
    simp only [OneLine, print, Style.line, Style.colon, List.nil_append, List.cons_append, List.forall_mem_cons,
      List.forall_mem_append]
    exact ⟨by decide, ⟨⟨quote_oneLine k, by simp⟩, hv⟩, hm⟩

theorem printItems_oneLine (depth : Nat) : ∀ items, OneLine (printItems .compact depth items)
  | [] => by simp [OneLine, printItems, Style.line]
  | v :: items => by
    have hv := print_oneLine (depth + 1) v
    have hi := printItems_oneLine depth items
    simp only [OneLine, printItems, Style.line, List.nil_append, List.cons_append, List.forall_mem_cons,
      List.forall_mem_append]
    exact ⟨by decide, hv, hi⟩

theorem printMembers_oneLine (depth : Nat) : ∀ members, OneLine (printMembers .compact depth members)
  | [] => by simp [OneLine, printMembers, Style.line]
  | (k, v) :: members => by
    have hv := print_oneLine (depth + 1) v
    have hm := printMembers_oneLine depth members
    simp only [OneLine, printMembers, Style.line, Style.colon, List.nil_append, List.cons_append, List.forall_mem_cons,
      List.forall_mem_append]
    exact ⟨by decide, ⟨⟨quote_oneLine k, by simp⟩, hv⟩, hm⟩

end

/-- A compact document is one line. -/
theorem print_newline (depth : Nat) (v : Json) : 0x0a ∉ print .compact depth v :=
  fun h => absurd (print_oneLine depth v _ h) (by decide)

end JsonText

end Detritus.Protocol
