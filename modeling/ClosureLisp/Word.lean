/-!
# Words

The ranges of words of sixty-four bits, which bound the numbers of the external formats.
-/

namespace ClosureLisp.Word

/-- The number of unsigned words of sixty-four bits. -/
def unsignedRange : Nat := 18446744073709551616

/-- The number of signed words of sixty-four bits that are not negative. -/
def signedRange : Nat := 9223372036854775808

/-- The integer with the given sign and size, if it is a signed word of sixty-four bits. -/
def signed? (negative : Bool) (size : Nat) : Option Int :=
  if negative then if size ≤ signedRange then some (-size) else none
  else if size < signedRange then some size else none

end ClosureLisp.Word
