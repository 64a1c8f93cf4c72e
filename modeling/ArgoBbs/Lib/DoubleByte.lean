import ArgoBbs.Lib.Characters
import ArgoBbs.Lib.CString

/-! # Characters of one and two bytes

A byte with its high bit starts a character of two bytes. -/

namespace ArgoBbs

def isHigh (c : UInt8) : Bool := c &&& 0x80 ≠ 0

/-- The state behind one element more. -/
theorem endsOpen_take_succ {text : Bytes} {i : Nat} {c : UInt8} (hc : text[i]? = some c) :
    endsOpen isHigh (text.take (i + 1)) = (isHigh c && !endsOpen isHigh (text.take i)) := by
  rw [endsOpen, openLead_take_succ hc, Bool.and_true]
  rfl

theorem endsOpen_append {front : Bytes} (h : endsOpen isHigh front = false) (behind : Bytes) :
    endsOpen isHigh (front ++ behind) = endsOpen isHigh behind := by
  rw [endsOpen, openLead, List.foldl_append]
  exact congrArg (openLead isHigh (fun _ => true) · behind) h

end ArgoBbs
