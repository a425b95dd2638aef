/-!
# Words

How many words of a fixed width there are. A natural below the count is a
word of the width; the lower half of the words of 64 bits is as far as
signed integers of that width reach.
-/

namespace ProgramGraph.Word

/-- The number of words of 32 bits. -/
def count32 : Nat := 0x100000000

/-- The number of words of 64 bits. -/
def count64 : Nat := 0x10000000000000000

/-- Half the number of words of 64 bits. -/
def half64 : Nat := 0x8000000000000000

end ProgramGraph.Word
