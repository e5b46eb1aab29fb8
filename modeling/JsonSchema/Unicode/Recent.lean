import JsonSchema.Unicode.Ranges

/-!
# Recent characters

The tables of letters, digits and marks are those of Unicode 17. Patterns go by Unicode 16, where
the characters that came later have no properties yet and stand in no relation of case.

* `isRecent`: whether a character came with Unicode 17.
-/

namespace JsonSchema.Unicode

/-- The letters, digits and marks added by Unicode 17. -/
def recentRanges : Ranges :=
  [(0x88f, 0x88f), (0xc5c, 0xc5c), (0xcdc, 0xcdc), (0x1acf, 0x1aeb), (0xa7ce, 0xa7cf),
   (0xa7d2, 0xa7d2), (0xa7d4, 0xa7d4), (0xa7f1, 0xa7f1), (0x10940, 0x10959), (0x10ec5, 0x10ec7),
   (0x10efa, 0x10efb), (0x11b60, 0x11b67), (0x11db0, 0x11de9), (0x16ea0, 0x16ed3),
   (0x16ff2, 0x16ff6), (0x187f8, 0x187ff), (0x18d09, 0x18df2), (0x1e6c0, 0x1e6ff),
   (0x2b73a, 0x2b73f), (0x2cea2, 0x2cead), (0x323b0, 0x33479)]

def isRecent (c : Char) : Bool := inRanges recentRanges c.toNat

end JsonSchema.Unicode
