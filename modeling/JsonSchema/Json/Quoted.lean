import JsonSchema.Text.Digits

/-!
# Quoted strings

A string is written between quotes. A quote, a backslash and the characters below U+0020 are
escaped, with a letter where there is one and with four lower-case hex digits otherwise; every
other character stands for itself.

* `Quoted.letter?`: the characters that have a letter of their own;
* `Quoted.escape`, `quote`: writing.
-/

namespace JsonSchema

namespace Quoted

/-- The letter that follows a backslash. -/
def letter? (c : Char) : Option Char :=
  if c = '"' then some '"'
  else if c = '\\' then some '\\'
  else if c.toNat = 8 then some 'b'
  else if c.toNat = 9 then some 't'
  else if c.toNat = 10 then some 'n'
  else if c.toNat = 12 then some 'f'
  else if c.toNat = 13 then some 'r'
  else none

def escape (c : Char) : List Char :=
  match letter? c with
  | some l => ['\\', l]
  | none =>
    if c.toNat < 32 then
      ['\\', 'u', '0', '0', hexDigit (c.toNat / 16), hexDigit (c.toNat % 16)]
    else [c]

def escapeAll (cs : List Char) : List Char := cs.flatMap escape

end Quoted

def quote (s : String) : String := String.ofList ('"' :: Quoted.escapeAll s.toList ++ ['"'])

end JsonSchema
