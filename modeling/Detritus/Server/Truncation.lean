import Detritus.Server.Logs

/-! Messages that are cut.

The errors of a validation go into one message, which is cut if it is too long: at the last
place at or before byte 1021 where no character is split. A character has at most four bytes,
all but the first of which are marked as such, so the search goes back by at most three. The
loop and the slice of the source can go wrong, which the functions here say by `none`. -/
namespace Detritus.Server
open Files Protocol
variable {n : Nat} {message : String}

/-! ### Characters -/

/-- A byte inside a character. -/
def isContinuation (b : UInt8) : Bool := b &&& 0xc0 = 0x80

theorem isContinuation_ofNat (hn : n < 256) : isContinuation (UInt8.ofNat n) = true ↔ 128 ≤ n ∧ n < 192 := by
  have all : ∀ n < 256, isContinuation (UInt8.ofNat n) = true ↔ 128 ≤ n ∧ n < 192 := by decide +kernel
  exact all n hn

/-- One byte, and up to three that continue it. -/
theorem utf8EncodeChar_bytes (c : Char) : ∃ b rest, String.utf8EncodeChar c = b :: rest ∧ rest.length ≤ 3 ∧
    ¬ isContinuation b = true ∧ ∀ x ∈ rest, isContinuation x = true := by
  have hv : c.val.toNat < 0x110000 := by
    have := c.valid
    simp only [UInt32.isValidChar, Nat.isValidChar] at this
    omega
  unfold String.utf8EncodeChar
  dsimp only
  split_ifs with h1 h2 h3
  all_goals
    refine ⟨_, _, rfl, by simp, ?_, ?_⟩
    · rw [isContinuation_ofNat (by omega)]
      omega
    · simp only [List.mem_cons, List.not_mem_nil, or_false]
      rintro x (rfl | rfl | rfl) <;> exact (isContinuation_ofNat (by omega)).mpr (by omega)

/-! ### Places to cut -/

theorem isCharBoundary_iff {bytes : Bytes} : isCharBoundary bytes n = true ↔
    n = 0 ∨ n = bytes.length ∨ ∃ b, bytes[n]? = some b ∧ ¬ isContinuation b = true := by
  simp [isCharBoundary, isContinuation, Option.any_eq_true, or_assoc]

/-- The bytes of some characters. -/
def encoded (l : List Char) : Bytes := l.flatMap String.utf8EncodeChar

theorem encoded_cons (c : Char) (l : List Char) : encoded (c :: l) = String.utf8EncodeChar c ++ encoded l := rfl

/-- No character is cut where a string can be. -/
theorem take_of_boundary {l : List Char} (h : isCharBoundary (encoded l) n = true) :
    ∃ k, (encoded l).take n = encoded (l.take k) ∧ n = (encoded (l.take k)).length := by
  induction l generalizing n with
  | nil =>
    refine ⟨0, by simp [encoded], ?_⟩
    rcases isCharBoundary_iff.mp h with h | h | ⟨b, hb, -⟩
    · exact h
    · exact h
    · cases hb
  | cons c l ih =>
    obtain ⟨b, rest, hbytes, -, -, htail⟩ := utf8EncodeChar_bytes c
    let size := (String.utf8EncodeChar c).length
    have hsize : size = rest.length + 1 := congrArg List.length hbytes
    rw [encoded_cons] at h ⊢
    by_cases hn : n < size
    · -- within a character only its start is a boundary
      refine ⟨0, ?_⟩
      suffices hzero : n = 0 by simp [hzero, encoded]
      rcases isCharBoundary_iff.mp h with h | h | ⟨x, hx, hfirst⟩
      · exact h
      · rw [List.length_append] at h
        omega
      · rw [List.getElem?_append_left hn, hbytes] at hx
        cases n with
        | zero => rfl
        | succ n => exact absurd (htail x (List.mem_of_getElem? hx)) hfirst
    · obtain ⟨m, rfl⟩ : ∃ m, n = size + m := ⟨n - size, by omega⟩
      have hm : isCharBoundary (encoded l) m = true := by
        rw [isCharBoundary_iff] at h ⊢
        rcases h with h | h | ⟨x, hx, hfirst⟩
        · omega
        · rw [List.length_append] at h
          exact .inr (.inl (by omega))
        · rw [List.getElem?_append_right (Nat.le_add_right ..), Nat.add_sub_cancel_left] at hx
          exact .inr (.inr ⟨x, hx, hfirst⟩)
      obtain ⟨k, htake, hlength⟩ := ih hm
      refine ⟨k + 1, ?_, ?_⟩
      · rw [List.take_succ_cons, encoded_cons, ← htake]
        exact List.take_length_add_append m
      · rw [List.take_succ_cons, encoded_cons, List.length_append, ← hlength]

/-- Behind any byte there is a boundary, three bytes back or nearer. -/
theorem boundary_near {l : List Char} (hn : n ≤ (encoded l).length) :
    ∃ m, m ≤ n ∧ n ≤ m + 3 ∧ isCharBoundary (encoded l) m = true := by
  induction l generalizing n with
  | nil => exact ⟨0, Nat.zero_le n, Nat.le_trans hn (Nat.zero_le _), rfl⟩
  | cons c l ih =>
    obtain ⟨b, rest, hbytes, hrest, hfirst, -⟩ := utf8EncodeChar_bytes c
    let size := (String.utf8EncodeChar c).length
    have hsize : size = rest.length + 1 := congrArg List.length hbytes
    rw [encoded_cons] at hn ⊢
    by_cases hlt : n < size
    · exact ⟨0, Nat.zero_le n, by omega, rfl⟩
    · rw [List.length_append] at hn
      obtain ⟨m, hm, hnear, hboundary⟩ := ih (n := n - size) (by omega)
      refine ⟨size + m, by omega, by omega, ?_⟩
      have hget : (String.utf8EncodeChar c ++ encoded l)[size + m]? = (encoded l)[m]? := by
        rw [List.getElem?_append_right (Nat.le_add_right ..), Nat.add_sub_cancel_left]
      rw [isCharBoundary_iff] at hboundary ⊢
      rw [hget, List.length_append]
      rcases hboundary with rfl | rfl | hbyte
      · -- the next character starts here, if there is one
        cases l with
        | nil => exact .inr (.inl rfl)
        | cons c' l =>
          obtain ⟨b', rest', hbytes', -, hfirst', -⟩ := utf8EncodeChar_bytes c'
          rw [encoded_cons, hbytes']
          exact .inr (.inr ⟨b', rfl, hfirst'⟩)
      · exact .inr (.inl rfl)
      · exact .inr (.inr hbyte)

theorem charBoundary_le (bytes : Bytes) (n : Nat) : charBoundary bytes n ≤ n := by
  induction n with
  | zero => exact Nat.le_refl 0
  | succ n ih =>
    unfold charBoundary
    split
    · exact Nat.le_refl _
    · exact Nat.le_succ_of_le ih

theorem isCharBoundary_charBoundary (bytes : Bytes) (n : Nat) :
    isCharBoundary bytes (charBoundary bytes n) = true := by
  induction n with
  | zero => rfl
  | succ n ih =>
    unfold charBoundary
    split
    · assumption
    · exact ih

theorem le_charBoundary {bytes : Bytes} {m n : Nat} (hmn : m ≤ n) (h : isCharBoundary bytes m = true) :
    m ≤ charBoundary bytes n := by
  induction n with
  | zero => exact hmn
  | succ n ih =>
    unfold charBoundary
    split
    · exact hmn
    · next hnot =>
      rcases Nat.lt_or_eq_of_le hmn with hlt | rfl
      · exact ih (Nat.le_of_lt_succ hlt)
      · exact absurd h hnot

/-! ### The loop and the slice -/

/-- The search of the source, from byte `n`; it fails where it would go below zero. -/
def seekCharBoundary (bytes : Bytes) : Nat → Option Nat
  | 0 => if isCharBoundary bytes 0 then some 0 else none
  | n + 1 => if isCharBoundary bytes (n + 1) then some (n + 1) else seekCharBoundary bytes n

/-- `&message[..n]`, which fails where `n` is no boundary, and where the bytes are no text. -/
def sliceTo (message : String) (n : Nat) : Option String :=
  if isCharBoundary (utf8 message) n then ofUtf8 ((utf8 message).take n) else none

def truncateChecked (message : String) : Option String :=
  if 1024 < (utf8 message).length then do
    let n ← seekCharBoundary (utf8 message) 1021
    let head ← sliceTo message n
    return head ++ "…"
  else some message

theorem seekCharBoundary_eq (bytes : Bytes) (n : Nat) : seekCharBoundary bytes n = some (charBoundary bytes n) := by
  induction n with
  | zero => rfl
  | succ n ih =>
    unfold seekCharBoundary charBoundary
    split
    · rfl
    · exact ih

theorem utf8_ofList (l : List Char) : utf8 (String.ofList l) = encoded l := by
  rw [utf8_eq, String.toList_ofList]
  rfl

/-- A slice up to a boundary is a part of the message. -/
theorem slice_of_boundary (h : isCharBoundary (utf8 message) n = true) :
    ∃ head rest, message = head ++ rest ∧ (utf8 head).length = n ∧ ofUtf8 ((utf8 message).take n) = some head := by
  have heq : utf8 message = encoded message.toList := utf8_eq message
  rw [heq] at h ⊢
  obtain ⟨k, htake, hlength⟩ := take_of_boundary h
  refine ⟨String.ofList (message.toList.take k), String.ofList (message.toList.drop k), ?_, ?_, ?_⟩
  · rw [← String.ofList_append, List.take_append_drop, String.ofList_toList]
  · rw [utf8_ofList, ← hlength]
  · rw [htake, ← utf8_ofList, ofUtf8_utf8]

/-- A message that is too long, cut. -/
theorem truncateMessage_long (h : 1024 < (utf8 message).length) : ∃ head rest,
    message = head ++ rest ∧ 1018 ≤ (utf8 head).length ∧ (utf8 head).length ≤ 1021 ∧
      truncateMessage message = head ++ "…" ∧ truncateChecked message = some (head ++ "…") := by
  let n := charBoundary (utf8 message) 1021
  have hboundary : isCharBoundary (utf8 message) n = true := isCharBoundary_charBoundary _ _
  obtain ⟨head, rest, hmessage, hlength, hslice⟩ := slice_of_boundary hboundary
  have hnear : 1018 ≤ n := by
    have hlong : 1021 ≤ (encoded message.toList).length := by
      rw [utf8_eq] at h
      exact Nat.le_trans (by decide) (Nat.le_of_lt h)
    obtain ⟨m, hm, hnear, hb⟩ := boundary_near hlong
    have hle : m ≤ n := le_charBoundary hm (by rw [utf8_eq]; exact hb)
    omega
  refine ⟨head, rest, hmessage, by omega, hlength ▸ charBoundary_le _ _, ?_, ?_⟩
  · unfold truncateMessage
    dsimp only
    rw [if_pos h, hslice, Option.getD_some]
  · unfold truncateChecked
    rw [if_pos h, seekCharBoundary_eq]
    show (sliceTo message n).bind _ = _
    rw [sliceTo, if_pos hboundary, hslice]
    rfl

theorem truncateMessage_short (h : (utf8 message).length ≤ 1024) :
    truncateMessage message = message ∧ truncateChecked message = some message :=
  ⟨if_neg (Nat.not_lt.mpr h), if_neg (Nat.not_lt.mpr h)⟩

/-- The errors in one message. -/
def failureText (errors : List String) : String :=
  "log attribute validation failed: " ++ ", ".intercalate (errors.take 5)

/-- **The message of a failed validation is built without a panic and has at most 1024 bytes: the
whole text, or as many of its characters as fit before the ellipsis.** -/
theorem validationMessage_fits (errors : List String) :
    truncateChecked (failureText errors) = some (validationMessage errors) ∧
      (utf8 (validationMessage errors)).length ≤ 1024 ∧
      if (utf8 (failureText errors)).length ≤ 1024 then validationMessage errors = failureText errors
      else ∃ head rest, failureText errors = head ++ rest ∧ validationMessage errors = head ++ "…" ∧
        1018 ≤ (utf8 head).length ∧ (utf8 head).length ≤ 1021 := by
  have hmessage : validationMessage errors = truncateMessage (failureText errors) := rfl
  have hellipsis : (utf8 "…").length = 3 := by decide
  rw [hmessage]
  split
  · next hshort =>
    obtain ⟨hsame, hchecked⟩ := truncateMessage_short hshort
    rw [hsame]
    exact ⟨hchecked, hshort, rfl⟩
  · next hlong =>
    obtain ⟨head, rest, htext, hlow, hhigh, hcut, hchecked⟩ := truncateMessage_long (Nat.lt_of_not_le hlong)
    rw [hcut]
    refine ⟨hchecked, ?_, head, rest, htext, rfl, hlow, hhigh⟩
    rw [utf8_append, List.length_append, hellipsis]
    omega

end Detritus.Server
