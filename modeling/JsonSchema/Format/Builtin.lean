import JsonSchema.Format.Address
import JsonSchema.Format.Email
import JsonSchema.Regex.Ends

/-!
# Built-in formats

Most formats are patterns for the whole string; `style` is searched for. Digits and blanks are
those of Unicode where the pattern says `digit` or `blank`.

* `Format.builtin?`: the test behind a format name.
-/

namespace JsonSchema.Format

open Regex

/-! ## Parts of patterns -/

def asciiDigit : Regex := one (.span '0' '9')

def asciiLetter : CharSet := .spans [('a', 'z'), ('A', 'Z')]

def asciiAlphanumeric : CharSet := .spans [('a', 'z'), ('A', 'Z'), ('0', '9')]

def digit : Regex := one .digit

def blanks : Regex := many (one .blank)

def anyOf (s : String) : Regex := oneOf (s.toList.map char)

/-! ## Dates and times -/

/-- Four digits, a month from 00 to 12 and two digits, with dashes. -/
def dateParts : List Regex :=
  [exactly 4 digit, char '-',
    alt [seq [char '0', asciiDigit], seq [char '1', one (.span '0' '2')]],
    char '-', exactly 2 asciiDigit]

def clockParts : List Regex :=
  [exactly 2 digit, char ':', exactly 2 digit, char ':', exactly 2 digit]

def date : Regex := whole (seq dateParts)

def time : Regex := whole (seq clockParts)

def dateTime : Regex :=
  whole (seq (dateParts ++ [anyOf "tT "] ++ clockParts ++
    [optional (seq [char '.', many1 digit]),
      alt [anyOf "zZ", seq [anyOf "+-", exactly 2 digit, char ':', exactly 2 digit]]]))

/-- Up to 15 digits, a point that may be missing, and up to 15 digits. -/
def milliseconds : Regex :=
  whole (seq [between 1 15 asciiDigit, optional (char '.'), between 0 15 asciiDigit])

/-! ## Names and numbers -/

def uri : Regex :=
  whole (seq [one asciiLetter,
    many (one (.union asciiAlphanumeric (.spans [('+', '+'), ('-', '-'), ('.', '.')]))),
    char ':', many (one (.complement .blank))])

/-- One to 63 letters, digits and dashes, no dash at the ends. -/
def label : Regex :=
  seq [one asciiAlphanumeric,
    optional (seq [between 0 61 (one (.union asciiAlphanumeric (.single '-'))),
      one asciiAlphanumeric])]

def labels : Regex :=
  whole (seq [label, many (seq [char '.', label]), optional (char '.')])

def isHostname (s : String) : Bool :=
  decide (1 ≤ s.utf8ByteSize ∧ s.utf8ByteSize ≤ 255) && labels.occursIn s

def alpha : Regex := whole (many1 (one asciiLetter))

def alphanumeric : Regex := whole (many1 (one asciiAlphanumeric))

def phone : Regex :=
  whole (seq [char '+', between 6 14 (seq [asciiDigit, optional (char ' ')]), asciiDigit])

/-! ## Style sheets -/

/-- A decimal number from 0 to 255 without leading zeros. -/
def byte : Regex :=
  alt [asciiDigit, seq [one (.span '1' '9'), asciiDigit],
    seq [char '1', asciiDigit, asciiDigit],
    seq [char '2', one (.span '0' '4'), asciiDigit],
    seq [literal "25", one (.span '0' '5')]]

def percentage : Regex :=
  alt [seq [optional digit, digit, char '%'], literal "100%"]

/-- Three components in parentheses. -/
def components (a : Regex) : Regex :=
  seq [literal "rgb(", blanks, a, blanks, char ',', blanks, a, blanks, char ',', blanks, a,
    blanks, char ')']

def colorNames : List String :=
  ["aqua", "black", "blue", "fuchsia", "gray", "green", "lime", "maroon", "navy", "olive",
    "orange", "purple", "red", "silver", "teal", "white", "yellow"]

def color : Regex :=
  whole (alt ([seq [optional (char '#'),
      between 3 6 (one (.spans [('0', '9'), ('A', 'F'), ('a', 'f')]))]] ++
    colorNames.map literal ++ [components byte, components percentage]))

/-- Some character, a colon, blanks, and something other than a semicolon. -/
def style : Regex :=
  seq [one (.complement (.single '\n')), char ':', blanks, one (.complement (.single ';'))]

/-! ## By name -/

/-- The test behind a format name. -/
def builtin? (name : String) : Option (String → Bool) :=
  match name with
  | "date-time" => some dateTime.occursIn
  | "date" => some date.occursIn
  | "time" => some time.occursIn
  | "email" => some isEmail
  | "ipv4" | "ip-address" => some isIpv4
  | "ipv6" => some isIpv6
  | "uri" => some uri.occursIn
  | "hostname" => some isHostname
  | "color" => some color.occursIn
  | "alpha" => some alpha.occursIn
  | "alphanumeric" => some alphanumeric.occursIn
  | "style" => some style.occursIn
  | "phone" => some phone.occursIn
  | "utc-millisec" => some milliseconds.occursIn
  | _ => none

end JsonSchema.Format
