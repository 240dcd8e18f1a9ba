import Detritus.Protocol.Text

/-! JSON documents, and what is taken from `serde_json`.

A document keeps the members of an object in the order of its text. Maps that the
code builds are sorted by key and hold a key once; `Json.map` is that construction.
The text itself belongs to `serde_json` and is a parameter (`SerdeJson`). -/
namespace Detritus.Protocol
open Files

/-- A number that is held as an integer: an `i64` or a `u64`. -/
structure Integer where
  value : Int
  lower : -2 ^ 63 ≤ value
  upper : value < 2 ^ 64
  deriving DecidableEq

def Integer.ofUInt64 (n : UInt64) : Integer :=
  ⟨n.toNat, by omega, by have := n.toNat_lt; omega⟩

def Integer.ofInt64 (n : Int64) : Integer :=
  ⟨n.toInt, by have := n.le_toInt; omega, by have := n.toInt_lt; omega⟩

/-- The bits of a 64-bit float that is a number. -/
structure Double where
  bits : UInt64
  finite : (bits >>> 52) &&& 0x7ff ≠ 0x7ff
  deriving DecidableEq

inductive Json where
  | null
  | bool (b : Bool)
  | int (n : Integer)
  | float (x : Double)
  | string (s : String)
  | array (items : List Json)
  | object (members : List (String × Json))

namespace Json

/-- A key's value is replaced where it stands; a new key goes to its place. -/
def insert (key : String) (value : Json) : List (String × Json) → List (String × Json)
  | [] => [(key, value)]
  | (k, v) :: rest =>
    if key = k then (k, value) :: rest
    else if key < k then (key, value) :: (k, v) :: rest
    else (k, v) :: insert key value rest

/-- Entries collected into a map: the last value of a key stands. -/
def map (entries : List (String × Json)) : Json :=
  .object (entries.foldl (fun m e => insert e.1 e.2 m) [])

def nat (n : UInt64) : Json := .int (.ofUInt64 n)

def member (key : String) : Json → Option Json
  | .object members => members.lookup key
  | _ => none

/-! What a map holds -/

theorem lookup_pair {β : Type} (k key : String) (value : β) (members : List (String × β)) :
    ((key, value) :: members).lookup k = if k = key then some value else members.lookup k := by
  by_cases h : k = key
  · simp [h]
  · rw [List.lookup_cons, beq_false_of_ne h, if_neg h]

theorem lookup_insert (key : String) (value : Json) (members : List (String × Json)) (k : String) :
    (insert key value members).lookup k = if k = key then some value else members.lookup k := by
  induction members with
  | nil => exact lookup_pair k key value []
  | cons e rest ih =>
    obtain ⟨k', v⟩ := e
    unfold insert
    by_cases heq : key = k'
    · subst heq
      rw [if_pos rfl, lookup_pair, lookup_pair]
      split_ifs <;> rfl
    · rw [if_neg heq]
      by_cases hlt : key < k'
      · rw [if_pos hlt, lookup_pair]
      · rw [if_neg hlt, lookup_pair, ih, lookup_pair]
        by_cases hk : k = key
        · rw [if_neg (hk ▸ heq), if_pos hk, if_pos hk]
        · rw [if_neg hk, if_neg hk]

/-- The last value of a key is its value in the map. -/
theorem member_map (entries : List (String × Json)) (key : String) :
    (map entries).member key = entries.reverse.lookup key := by
  have hfold : ∀ members : List (String × Json), (entries.foldl (fun m e => insert e.1 e.2 m) members).lookup key =
      (entries.reverse ++ members).lookup key := by
    induction entries with
    | nil => exact fun _ => rfl
    | cons e rest ih =>
      intro members
      rw [List.foldl_cons, ih, List.reverse_cons, List.append_assoc, List.lookup_append, List.lookup_append,
        lookup_insert]
      congr 1
      exact (lookup_pair key e.1 e.2 members).symm
  have h := hfold []
  rw [List.append_nil] at h
  exact h

end Json

end Detritus.Protocol
