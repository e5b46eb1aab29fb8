import JsonSchema.Regex.Basic

/-!
# Sizes of plain patterns

Bounded loops are written out when a plain pattern becomes an automaton, so its size is known
beforehand and limited. Sizes are in bytes of states that read UTF-8 byte by byte; those of the
tables and of sets built from several parts are estimates.

* `CharSet.size`, `Regex.size`: how large the states are;
* `Regex.fits`: whether a plain pattern is within the limits.
-/

namespace JsonSchema

namespace CharSet

/-- What a span, or a gap if `inverted`, adds where it ends, by the bytes of the last character. -/
def spanSize (inverted : Bool) (c : Char) : Nat :=
  match c.utf8Size with
  | 1 => if inverted then 36 else 8
  | 2 => if inverted then 172 else 68
  | 3 => if inverted then 372 else 100
  | _ => if inverted then 336 else 132

/-- What the parts of a set, or of its complement if `inverted`, add to the state that reads it. -/
def partSize (inverted : Bool) : CharSet → Nat
  | none | all => 0
  | span low high =>
    if low.utf8Size = high.utf8Size then spanSize inverted high
    else spanSize inverted low + spanSize inverted high
  | digit => if inverted then 11756 else 5052
  | blank => if inverted then 960 else 616
  | word => if inverted then 45456 else 49772
  | letter => if inverted then 41872 else 42668
  | upper => if inverted then 29108 else 26432
  | alphabetic => if inverted then 43544 else 47008
  | numeric => if inverted then 19436 else 9684
  | union s t | both s t => s.partSize inverted + t.partSize inverted
  | complement s => s.partSize (!inverted)
  | anyCase s => s.partSize inverted + 232

/-- Whether a set goes on to the largest characters, as most complements do. -/
def isWide (s : CharSet) : Bool := s.has (Char.ofNat 0x10ffff)

/-- A single character is read byte by byte, any other set by one state with its parts. -/
def size (s : CharSet) : Nat :=
  let state := 64 + (if s.isWide then 900 else 0) + s.partSize false
  match s with
  | span low high => if low = high then 32 * low.utf8Size else state
  | _ => state

end CharSet

namespace Regex

mutual
/-- The size of the states of a plain pattern. -/
def size : Regex → Nat
  | empty | anchor _ => 32
  | one s => s.size
  | seq parts => sizeOfAll parts
  | alt ways => 64 + sizeOfAll ways + 4 * ways.length
  | loop a least (some most) _ => least * a.size + (most - least) * (a.size + 40) + 32
  | loop a least Option.none _ => max least 1 * a.size + 104
  | group _ a | atomic a | look _ _ a => a.size + 64
  | again _ _ _ => 32

def sizeOfAll : List Regex → Nat
  | [] => 0
  | a :: as => a.size + sizeOfAll as
end

def largestBound : Nat := 4294967295

mutual
def wellBounded : Regex → Bool
  | seq as | alt as => allWellBounded as
  | loop a least (some most) _ =>
    a.wellBounded && decide (least ≤ most) && decide (most ≤ largestBound)
  | loop a least Option.none _ => a.wellBounded && decide (least ≤ largestBound)
  | group _ a | atomic a | look _ _ a => a.wellBounded
  | _ => true

def allWellBounded : List Regex → Bool
  | [] => true
  | a :: as => a.wellBounded && allWellBounded as
end

/-- The size that a plain pattern may have, ten mebibytes. -/
def largestSize : Nat := 10485760

def fits (a : Regex) : Bool := a.wellBounded && decide (a.size ≤ largestSize)

end Regex

end JsonSchema
