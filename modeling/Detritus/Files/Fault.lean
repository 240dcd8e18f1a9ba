import Detritus.Files.Operations

/-! File operations that fail.

A fault hits a call by its number: the call answers with an error and leaves the disk as
it was, except that a write may have got some of its bytes down first, though never all
of them. -/
namespace Detritus.Files

/-- An error, and how much of a write precedes it. -/
structure Fault where
  error : IoError
  written : Nat

/-- What a write that fails has written. -/
def Fault.torn (fault : Fault) (bytes : Bytes) : Bytes := bytes.dropLast.take fault.written

/-- A write that fails may have put down the first of its bytes. Other operations do nothing. -/
def Fault.exec (fault : Fault) (now : Time) : (op : FileOp) → Disk → op.Answer × Disk
  | .write h bytes, d => (.error fault.error, (d.write h (fault.torn bytes) now).2)
  | _, d => (.error fault.error, d)

theorem Fault.exec_answer (fault : Fault) (now : Time) (op : FileOp) (d : Disk) :
    (fault.exec now op d).1 = .error fault.error := by
  cases op <;> rfl

/-- Only a write leaves something behind. -/
theorem Fault.exec_disk (fault : Fault) (now : Time) {op : FileOp} (h : ∀ g bytes, op ≠ .write g bytes) (d : Disk) :
    (fault.exec now op d).2 = d := by
  cases op <;> first | rfl | exact absurd rfl (h _ _)

/-- Which calls are hit. -/
abbrev Faults := Nat → Option Fault

/-! ### Writes in the background

An asynchronous file copies what is written into a buffer, hands the buffer to another
thread and answers; a longer write takes several buffers, each of which waits for the one
before it. When the last of them fails the answer has been given. The error is then owed:
the next operation on the open file answers with it and does nothing else. The bytes are
taken to reach the disk with the call, though nothing but the next operation on the file
waits for them. -/

/-- The size of a buffer (`tokio::fs::File`). -/
def maxBufSize : Nat := 2 * 1024 * 1024

/-- Only the last buffer of the write is not written. -/
def Fault.late (fault : Fault) (bytes : Bytes) : Bool :=
  (fault.torn bytes).length / maxBufSize = (bytes.length - 1) / maxBufSize

/-- The open file that an operation is about. -/
def FileOp.handle : FileOp → Option Handle
  | write h _ | sync h => some h
  | _ => none

def Fault.execAsync (fault : Fault) (now : Time) : (op : FileOp) → Disk → op.Answer × Disk
  | .write h bytes, d =>
    let r := d.write h (fault.torn bytes) now
    ((if fault.late bytes then .ok r.1 else .error fault.error : Except IoError Handle), r.2)
  | op, d => fault.exec now op d

/-- An operation where open files owe errors, and which a fault may hit. -/
def FileOp.execOwing (owes : Handle → Option IoError) (fault : Option Fault) (now : Time) (order : Order)
    (op : FileOp) (d : Disk) : op.Answer × Disk :=
  match op.handle.bind owes, fault with
  | some e, _ => (.error e, d)
  | none, some fault => fault.execAsync now op d
  | none, none => op.exec now order d

namespace FileOp
variable {owes : Handle → Option IoError} {fault : Fault} {now : Time} {order : Order} {op : FileOp} {d : Disk}

theorem execOwing_owed {e : IoError} {hit : Option Fault} (h : op.handle.bind owes = some e) :
    op.execOwing owes hit now order d = (.error e, d) := by
  simp only [execOwing, h]

theorem execOwing_clear (h : op.handle.bind owes = none) : op.execOwing owes none now order d = op.exec now order d := by
  simp only [execOwing, h]

theorem execOwing_hit (h : op.handle.bind owes = none) :
    op.execOwing owes (some fault) now order d = fault.execAsync now op d := by
  simp only [execOwing, h]

theorem execAsync_of_handle (h : op.handle = none) : fault.execAsync now op d = (.error fault.error, d) := by
  cases op <;> first | rfl | cases h

end FileOp

end Detritus.Files
