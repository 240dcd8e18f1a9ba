import Mathlib.Algebra.Order.Ring.Int
import Mathlib.Data.List.Flatten
import Mathlib.Data.Prod.Lex
import Mathlib.Tactic.IntervalCases
import Detritus.Files.Disk

/-! Values as text.

Digests, identifiers and dates reach the disk as parts of file names, so two things
are asked of their text: that it holds no slash, and where files are kept apart by
it, that it determines the value. -/
namespace Detritus.Protocol
open Files
variable {c : Char}

/-! ### Strings as bytes -/

def utf8 (s : String) : Bytes := s.toUTF8.data.toList

def ofUtf8 (b : Bytes) : Option String := String.fromUTF8? ⟨b.toArray⟩

/-- A text is read back from its bytes. -/
theorem ofUtf8_utf8 (s : String) : ofUtf8 (utf8 s) = some s := by
  simpa [ofUtf8, utf8, String.fromUTF8?] using ⟨s.isValidUTF8, rfl⟩

theorem utf8_append (s t : String) : utf8 (s ++ t) = utf8 s ++ utf8 t := by
  simp [utf8, String.toByteArray_append]

theorem utf8_eq (s : String) : utf8 s = s.toList.flatMap String.utf8EncodeChar := by
  conv_lhs => rw [← String.ofList_toList (s := s)]
  unfold utf8
  rw [String.toUTF8_eq_toByteArray, String.toByteArray_ofList, List.utf8Encode]
  simp

/-- A byte below 0x80 is a character of its own. -/
theorem ascii_of_mem_utf8EncodeChar {b : UInt8} (hb : b.toNat < 0x80) (h : b ∈ String.utf8EncodeChar c) :
    c = Char.ofNat b.toNat := by
  have hofNat : ∀ n < 256, (UInt8.ofNat n).toNat = n := fun n hn => by simp [Nat.mod_eq_of_lt hn]
  unfold String.utf8EncodeChar at h
  dsimp only at h
  split_ifs at h with h1 h2 h3
  · obtain rfl : b = _ := List.mem_singleton.mp h
    rw [hofNat _ (by omega)]
    exact (Char.ofNat_toNat c).symm
  -- the bytes of longer encodings have their high bit set
  all_goals
    simp only [List.mem_cons, List.not_mem_nil, or_false] at h
    rcases h with rfl | rfl | rfl | rfl <;> (rw [hofNat _ (by omega)] at hb; omega)

/-- An ASCII byte stands for its character only. -/
theorem ascii_of_mem_utf8 {s : String} {b : UInt8} (hb : b.toNat < 0x80) (h : b ∈ utf8 s) :
    Char.ofNat b.toNat ∈ s.toList := by
  rw [utf8_eq, List.mem_flatMap] at h
  obtain ⟨c, hc, hbc⟩ := h
  rwa [← ascii_of_mem_utf8EncodeChar hb hbc]

/-! ### Hexadecimal -/

def hexChars (b : Bytes) : List Char :=
  b.flatMap fun x => [Nat.digitChar (x.toNat / 16), Nat.digitChar (x.toNat % 16)]

/-- Lower-case hexadecimal, two digits a byte. -/
def hexEncode (b : Bytes) : String := String.ofList (hexChars b)

theorem digitChar_injective {m n : Nat} (hm : m < 16) (hn : n < 16)
    (h : Nat.digitChar m = Nat.digitChar n) : m = n := by
  have all : ∀ m < 16, ∀ n < 16, Nat.digitChar m = Nat.digitChar n → m = n := by decide
  exact all m hm n hn h

theorem digitChar_ne {n : Nat} (h : n < 16) :
    Nat.digitChar n ≠ '/' ∧ Nat.digitChar n ≠ '-' ∧ Nat.digitChar n ≠ '.' := by
  interval_cases n <;> decide

theorem hexChars_cons (x : UInt8) (b : Bytes) : hexChars (x :: b) =
    Nat.digitChar (x.toNat / 16) :: Nat.digitChar (x.toNat % 16) :: hexChars b := rfl

theorem hexChars_length (b : Bytes) : (hexChars b).length = 2 * b.length := by
  induction b with
  | nil => rfl
  | cons x b ih =>
    rw [hexChars_cons, List.length_cons, List.length_cons, List.length_cons, ih]
    omega

/-- Digits tell the bytes. -/
theorem hexChars_injective {a b : Bytes} (h : hexChars a = hexChars b) : a = b := by
  induction a generalizing b with
  | nil =>
    have hl := congrArg List.length h
    rw [hexChars_length, hexChars_length, List.length_nil] at hl
    exact (List.eq_nil_of_length_eq_zero (by omega)).symm
  | cons x a ih =>
    cases b with
    | nil => exact absurd h (by simp [hexChars])
    | cons y b =>
      rw [hexChars_cons, hexChars_cons] at h
      obtain ⟨hhi, hlo, hrest⟩ := by simpa only [List.cons.injEq] using h
      have hx := x.toNat_lt
      have hy := y.toNat_lt
      have hq := digitChar_injective (by omega) (by omega) hhi
      have hr := digitChar_injective (by omega) (by omega) hlo
      have hxy : x = y := UInt8.toNat_inj.mp (by omega)
      rw [hxy, ih hrest]

/-- None of the digits has a meaning in a path or a name. -/
theorem mem_hexChars {b : Bytes} (h : c ∈ hexChars b) : c ≠ '/' ∧ c ≠ '-' ∧ c ≠ '.' := by
  obtain ⟨x, -, hc⟩ := List.mem_flatMap.mp h
  have hx := x.toNat_lt
  rcases List.mem_pair.mp hc with rfl | rfl
  · exact digitChar_ne (by omega)
  · exact digitChar_ne (by omega)

/-- A SHA-256 digest. -/
structure Sha256 where
  bytes : Bytes
  size : bytes.length = 32
  deriving DecidableEq

namespace Sha256

def hex (d : Sha256) : String := hexEncode d.bytes

theorem hex_injective {d e : Sha256} (h : d.hex = e.hex) : d = e := by
  have hc := hexChars_injective (String.ofList_inj.mp h)
  cases d
  cases e
  simpa using hc

theorem hex_slash (d : Sha256) : '/' ∉ d.hex.toList := by
  intro h
  rw [hex, hexEncode, String.toList_ofList] at h
  exact (mem_hexChars h).1 rfl

theorem hex_dot (d : Sha256) : '.' ∉ d.hex.toList := by
  intro h
  rw [hex, hexEncode, String.toList_ofList] at h
  exact (mem_hexChars h).2.2 rfl

/-- Every digest has 64 digits. -/
theorem hex_length (d : Sha256) : d.hex.toList.length = 64 := by
  rw [hex, hexEncode, String.toList_ofList, hexChars_length, d.size]

end Sha256

/-! ### Identifiers -/

/-- A 128-bit identifier. -/
structure Uuid where
  bytes : Bytes
  size : bytes.length = 16
  deriving DecidableEq

namespace Uuid

/-- The identifier of sixteen equal bytes. -/
def repeated (b : UInt8) : Uuid := ⟨List.replicate 16 b, List.length_replicate⟩

/-- Identifiers that differ in their first byte. -/
def numbered (n : Nat) : Option Uuid :=
  if n < 256 then some ⟨n.toUInt8 :: List.replicate 15 0, by simp⟩ else none

/-- No number gives the identifier of another. -/
theorem numbered_fresh {m n : Nat} {u : Uuid} (hm : numbered m = some u) (hn : numbered n = some u) : m = n := by
  unfold numbered at hm hn
  split at hm
  · split at hn
    · have h := congrArg (fun u => u.map Uuid.bytes) (hm.trans hn.symm)
      have h' := congrArg UInt8.toNat (List.cons.inj (Option.some.inj h)).1
      rw [UInt8.toNat_ofNat', UInt8.toNat_ofNat'] at h'
      omega
    · exact absurd hn (by simp)
  · exact absurd hm (by simp)

/-- Digits in groups of eight, four, four, four and twelve. -/
def groups (digits : List Char) : List Char :=
  digits.take 8 ++ '-' :: (digits.drop 8).take 4 ++ '-' :: (digits.drop 12).take 4 ++
    '-' :: (digits.drop 16).take 4 ++ '-' :: digits.drop 20

def toString (u : Uuid) : String := String.ofList (groups (hexChars u.bytes))

/-- The dashes can be told from the digits. -/
theorem groups_filter {digits : List Char} (h : ∀ c ∈ digits, c ≠ '-') :
    (groups digits).filter (· ≠ '-') = digits := by
  have keep : ∀ l : List Char, (∀ c ∈ l, c ∈ digits) → l.filter (· ≠ '-') = l := by
    intro l hl
    apply List.filter_eq_self.mpr
    intro c hc
    simpa using h c (hl c hc)
  have htake : ∀ m n, ∀ c ∈ (digits.drop m).take n, c ∈ digits :=
    fun m n c hc => List.mem_of_mem_drop (List.mem_of_mem_take hc)
  have hsplit : ∀ m n, (digits.drop m).take n ++ digits.drop (m + n) = digits.drop m := by
    intro m n
    rw [← List.drop_drop, List.take_append_drop]
  have h0 := keep (digits.take 8) fun c hc => List.mem_of_mem_take hc
  have hlast := keep (digits.drop 20) fun c hc => List.mem_of_mem_drop hc
  simp only [groups, List.append_assoc, List.filter_append, List.cons_append, List.filter_cons,
    h0, hlast, keep _ (htake _ _)]
  simp only [ne_eq, not_true_eq_false, decide_false, Bool.false_eq_true, if_false]
  rw [hsplit 16 4, hsplit 12 4, hsplit 8 4, List.take_append_drop]

theorem toString_injective {u v : Uuid} (h : u.toString = v.toString) : u = v := by
  have hg := congrArg (List.filter (· ≠ '-')) (String.ofList_inj.mp h)
  rw [groups_filter fun c hc => (mem_hexChars hc).2.1, groups_filter fun c hc => (mem_hexChars hc).2.1] at hg
  cases u
  cases v
  simpa using hexChars_injective hg

theorem mem_toString {u : Uuid} (h : c ∈ u.toString.toList) : c = '-' ∨ c ∈ hexChars u.bytes := by
  by_contra hno
  obtain ⟨hdash, hhex⟩ := not_or.mp hno
  have hpart : ∀ l : List Char, (∀ d ∈ l, d ∈ hexChars u.bytes) → c ∉ l := fun l hl hc => hhex (hl c hc)
  have htake := fun m n => hpart (((hexChars u.bytes).drop m).take n)
    fun d hd => List.mem_of_mem_drop (List.mem_of_mem_take hd)
  have h0 := hpart ((hexChars u.bytes).take 8) fun d hd => List.mem_of_mem_take hd
  have hlast := hpart ((hexChars u.bytes).drop 20) fun d hd => List.mem_of_mem_drop hd
  rw [toString, String.toList_ofList, groups] at h
  simp [h0, hlast, htake, hdash] at h

theorem dash_mem_toString (u : Uuid) : '-' ∈ u.toString.toList := by
  rw [toString, String.toList_ofList, groups]
  simp

theorem toString_slash (u : Uuid) : '/' ∉ u.toString.toList := by
  intro h
  rcases mem_toString h with h | h
  · cases h
  · exact (mem_hexChars h).1 rfl

end Uuid

/-! ### Dates and times -/

/-- A text is cut where a mark comes first. -/
theorem append_cons_inj {α : Type} {a : α} {x y z w : List α} (hx : a ∉ x) (hz : a ∉ z)
    (h : x ++ a :: y = z ++ a :: w) : x = z ∧ y = w := by
  induction x generalizing z with
  | nil =>
    cases z with
    | nil => exact ⟨rfl, (List.cons.inj h).2⟩
    | cons c z =>
      obtain ⟨rfl, -⟩ := List.cons.inj h
      exact absurd (.head _) hz
  | cons b x ih =>
    cases z with
    | nil =>
      obtain ⟨rfl, -⟩ := List.cons.inj h
      exact absurd (.head _) hx
    | cons c z =>
      obtain ⟨rfl, hrest⟩ := List.cons.inj h
      obtain ⟨rfl, rfl⟩ := ih (fun hm => hx (.tail _ hm)) (fun hm => hz (.tail _ hm)) hrest
      exact ⟨rfl, rfl⟩

/-- A decimal number with at least `width` digits. -/
def pad (width n : Nat) : List Char := (Nat.toDigits 10 n).leftpad width '0'

/-- A padded number tells the number. -/
theorem pad_injective {width m n : Nat} (h : pad width m = pad width n) : m = n := by
  have value : ∀ k, Nat.ofDigitChars 10 (pad width k) 0 = k := by
    intro k
    rw [pad, List.leftpad, Nat.ofDigitChars_append, Nat.ofDigitChars_replicate_zero, Nat.mul_zero,
      Nat.ofDigitChars_ten_toDigits]
  rw [← value m, ← value n, h]

theorem mem_pad {width n : Nat} (h : c ∈ pad width n) : c.isDigit := by
  rcases List.mem_append.mp h with hz | hd
  · rw [List.eq_of_mem_replicate hz]
    decide
  · exact Nat.isDigit_of_mem_toDigits (by decide) (by decide) hd

theorem pad_length {width n : Nat} (hw : 0 < width) (h : n < 10 ^ width) : (pad width n).length = width := by
  rw [pad, List.length_leftpad]
  exact Nat.max_eq_left ((Nat.length_toDigits_le_iff (by decide) hw).mpr h)

/-- A year as it is written: four digits, or a sign and at least four. -/
def yearChars (year : Int) : List Char :=
  if 0 ≤ year ∧ year ≤ 9999 then pad 4 year.toNat
  else (if year < 0 then '-' else '+') :: pad 4 year.natAbs

/-- So does a year with its sign. -/
theorem yearChars_injective {y z : Int} (h : yearChars y = yearChars z) : y = z := by
  -- an unsigned year starts with a digit, which tells the three forms apart
  have digit : ∀ n : Nat, ∀ c rest, pad 4 n = c :: rest → c ≠ '-' ∧ c ≠ '+' := by
    intro n c rest hp
    have hd : c.isDigit := mem_pad (hp ▸ List.mem_cons_self ..)
    constructor <;> (intro hc; subst hc; exact absurd hd (by decide))
  have sign : ∀ y z : Int, (if y < 0 then '-' else '+') = (if z < 0 then '-' else '+') → (y < 0 ↔ z < 0) := by
    intro y z hs
    by_cases hy : y < 0 <;> by_cases hz : z < 0 <;> simp [hy, hz] at hs ⊢
  have mixed : ∀ (m n : Nat) (y : Int), pad 4 m ≠ (if y < 0 then '-' else '+') :: pad 4 n := by
    intro m n y hp
    have hd := digit _ _ _ hp
    split at hd <;> simp at hd
  by_cases hy : 0 ≤ y ∧ y ≤ 9999 <;> by_cases hz : 0 ≤ z ∧ z ≤ 9999
  · rw [yearChars, yearChars, if_pos hy, if_pos hz] at h
    have := pad_injective h
    omega
  · rw [yearChars, yearChars, if_pos hy, if_neg hz] at h
    exact absurd h (mixed _ _ _)
  · rw [yearChars, yearChars, if_neg hy, if_pos hz] at h
    exact absurd h.symm (mixed _ _ _)
  · rw [yearChars, yearChars, if_neg hy, if_neg hz] at h
    obtain ⟨hs, hp⟩ := List.cons.inj h
    have hsign := sign y z hs
    have := pad_injective hp
    omega

theorem mem_yearChars {year : Int} (h : c ∈ yearChars year) : c.isDigit ∨ c = '-' ∨ c = '+' := by
  unfold yearChars at h
  split at h
  · exact .inl (mem_pad h)
  · rcases List.mem_cons.mp h with hc | hd
    · split at hc
      · exact .inr (.inl hc)
      · exact .inr (.inr hc)
    · exact .inl (mem_pad hd)

theorem yearChars_slash (year : Int) : '/' ∉ yearChars year := fun h => absurd (mem_yearChars h) (by decide)

/-- A day of the calendar. -/
structure NaiveDate where
  year : Int
  month : Nat
  day : Nat
  month_le : month ≤ 12
  day_le : day ≤ 31
  deriving DecidableEq

namespace NaiveDate

/-- A date and the one after it. -/
def newYear : NaiveDate := ⟨2026, 1, 1, by decide, by decide⟩

def afterNewYear : NaiveDate := ⟨2026, 1, 2, by decide, by decide⟩

def toString (d : NaiveDate) : String :=
  String.ofList (yearChars d.year ++ ('-' :: pad 2 d.month ++ '-' :: pad 2 d.day))

theorem toString_injective {d e : NaiveDate} (h : d.toString = e.toString) : d = e := by
  have hpad : ∀ n, n ≤ 31 → (pad 2 n).length = 2 := fun n hn => pad_length (by decide) (by omega)
  have hlen : ∀ d : NaiveDate, ('-' :: pad 2 d.month ++ '-' :: pad 2 d.day).length = 6 := by
    intro d
    have := d.month_le
    simp [hpad d.month (by omega), hpad d.day d.day_le]
  obtain ⟨hy, htail⟩ := List.append_inj' (String.ofList_inj.mp h) ((hlen d).trans (hlen e).symm)
  have hmonth := hpad d.month (by have := d.month_le; omega)
  have hmonth' := hpad e.month (by have := e.month_le; omega)
  obtain ⟨hm, hd⟩ := List.append_inj htail (by simp [hmonth, hmonth'])
  have hyear := yearChars_injective hy
  have hmo := pad_injective (List.cons.inj hm).2
  have hda := pad_injective (List.cons.inj hd).2
  cases d
  cases e
  simp_all

theorem mem_toString {d : NaiveDate} (h : c ∈ d.toString.toList) : c.isDigit ∨ c = '-' ∨ c = '+' := by
  rw [toString, String.toList_ofList] at h
  simp only [List.mem_append, List.mem_cons] at h
  rcases h with hyear | (hdash | hmonth) | hdash | hday
  · exact mem_yearChars hyear
  · exact .inr (.inl hdash)
  · exact .inl (mem_pad hmonth)
  · exact .inr (.inl hdash)
  · exact .inl (mem_pad hday)

theorem toString_slash (d : NaiveDate) : '/' ∉ d.toString.toList := fun h => absurd (mem_toString h) (by decide)

/-- Days in the order of the calendar. -/
instance : LinearOrder NaiveDate :=
  LinearOrder.lift' (fun d => toLex (d.year, toLex (d.month, d.day))) fun d e h => by
    cases d
    cases e
    simp_all

end NaiveDate

/-- A moment in UTC. A leap second is the second before it with `nanosecond` beyond
a whole second. -/
structure DateTime where
  date : NaiveDate
  hour : Nat
  minute : Nat
  second : Nat
  nanosecond : Nat
  deriving DecidableEq

namespace DateTime

/-- The fraction of a second in the fewest of no, three, six or nine digits. -/
def fraction (t : DateTime) : List Char :=
  let nano := t.nanosecond % 1000000000
  if nano = 0 then []
  else if nano % 1000000 = 0 then '.' :: pad 3 (nano / 1000000)
  else if nano % 1000 = 0 then '.' :: pad 6 (nano / 1000)
  else '.' :: pad 9 nano

/-- `%Y%m%dT%H%M%S%.fZ` -/
def format (t : DateTime) : String :=
  String.ofList (yearChars t.date.year ++ pad 2 t.date.month ++ pad 2 t.date.day ++ 'T' :: pad 2 t.hour ++
    pad 2 t.minute ++ pad 2 (t.second + t.nanosecond / 1000000000) ++ t.fraction ++ ['Z'])

/-- As a JSON string: RFC 3339 with a `Z`. -/
def rfc3339 (t : DateTime) : String :=
  String.ofList (t.date.toString.toList ++ 'T' :: pad 2 t.hour ++ ':' :: pad 2 t.minute ++ ':' ::
    pad 2 (t.second + t.nanosecond / 1000000000) ++ t.fraction ++ ['Z'])

theorem mem_fraction {t : DateTime} (h : c ∈ t.fraction) : c.isDigit ∨ c = '.' := by
  have hp : ∀ w n, c ∈ '.' :: pad w n → c.isDigit ∨ c = '.' := by
    intro w n h
    rcases List.mem_cons.mp h with hdot | hd
    · exact .inr hdot
    · exact .inl (mem_pad hd)
  unfold fraction at h
  dsimp only at h
  split_ifs at h
  · cases h
  all_goals exact hp _ _ h

/-- A moment can be part of a file name. -/
theorem format_slash (t : DateTime) : '/' ∉ t.format.toList := by
  have hp : ∀ w n, '/' ∉ pad w n := fun w n h => absurd (mem_pad h) (by decide)
  have hf : '/' ∉ t.fraction := fun h => absurd (mem_fraction h) (by decide)
  simp [format, yearChars_slash, hp, hf]

/-- In a file name a time stands without its colons. -/
theorem format_eq (t : DateTime) : t.format.toList = yearChars t.date.year ++ pad 2 t.date.month ++ pad 2 t.date.day ++
    'T' :: (pad 2 t.hour ++ ':' :: pad 2 t.minute ++ ':' :: pad 2 (t.second + t.nanosecond / 1000000000) ++
      t.fraction ++ ['Z']).filter (· ≠ ':') := by
  have keep : ∀ l : List Char, ':' ∉ l → l.filter (· ≠ ':') = l := by
    intro l hl
    apply List.filter_eq_self.mpr
    intro c hc
    have hne : c ≠ ':' := by
      rintro rfl
      exact hl hc
    simpa using hne
  have hp : ∀ n, (pad 2 n).filter (· ≠ ':') = pad 2 n := fun n => keep _ fun h => absurd (mem_pad h) (by decide)
  have hf := keep t.fraction fun h => absurd (mem_fraction h) (by decide)
  simp only [List.filter_append, List.filter_cons, hp, hf]
  simp [format]

/-- What JSON says of a time determines what a file name says of it. -/
theorem format_of_rfc3339 {t u : DateTime} (h : t.rfc3339 = u.rfc3339) : t.format = u.format := by
  have hT : ∀ d : NaiveDate, 'T' ∉ d.toString.toList := fun d h => absurd (NaiveDate.mem_toString h) (by decide)
  have hl := String.ofList_inj.mp h
  simp only [List.append_assoc, List.cons_append] at hl
  obtain ⟨hdate, htime⟩ := append_cons_inj (hT _) (hT _) hl
  apply String.toList_inj.mp
  rw [format_eq, format_eq, NaiveDate.toString_injective (String.toList_inj.mp hdate)]
  simp only [List.append_assoc, List.cons_append]
  rw [htime]

end DateTime

end Detritus.Protocol
