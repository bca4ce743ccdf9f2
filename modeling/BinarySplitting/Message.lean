/-!
# Messages

Messages that quote what a caller supplied are shown up to the first zero character.
-/

namespace BinarySplitting

/-- The part of a text before its first zero character. -/
def shown (text : String) : String := String.ofList (text.toList.takeWhile (· ≠ '\x00'))

end BinarySplitting
