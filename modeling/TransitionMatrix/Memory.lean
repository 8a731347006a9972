import TransitionMatrix.Binary64.Text

/-!
# Amounts of memory

Memory is counted in bytes and reported in kilobytes of 1024 bytes, with one digit after the point
and in the largest unit of which there is more than one.
-/

namespace TransitionMatrix

namespace Memory

/-- The kilobytes in a number of bytes. -/
def kilobytes (bytes : Nat) : Float := Float.ofNat bytes / 1024

/-- An amount given in kilobytes, in gigabytes, megabytes or kilobytes. -/
def text (kb : Float) : String :=
  let amount (x : Float) (unit : String) : String := (Binary64.ofFloat x).fixedText 1 ++ " " ++ unit
  if kb > 1048576 then amount (kb / 1048576) "GB"
  else if kb > 1024 then amount (kb / 1024) "MB"
  else amount kb "KB"

end Memory

end TransitionMatrix
