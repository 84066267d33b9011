/-!
# Whole numbers in text

A whole number is written as decimal digits, after a minus sign if it is negative.  The loose form
allows more: blanks around, a plus sign, zeros and underscores in front, single underscores
between the digits and a fraction of zeros.  `strict?` brings a loose number into the strict form
as far as it goes, and `whole?` reads the strict form.  A number of more digits than `digitLimit`
is not read; `isTooLong` tells whether a text starts with one.
-/

namespace Chronicle.Text.Numeral

def digit? (c : Char) : Option Nat :=
  if '0' ≤ c ∧ c ≤ '9' then some (c.toNat - '0'.toNat) else none

/-- The digits continue the number `n`. -/
def digitsFrom (n : Nat) : List Char → Option Nat
  | [] => some n
  | c :: cs =>
    match digit? c with
    | some d => digitsFrom (10 * n + d) cs
    | none => none

/-- One digit or more. -/
def digits? : List Char → Option Nat
  | [] => none
  | cs => digitsFrom 0 cs

/-- One digit or more, of which zero comes first only if it is alone. -/
def natural? : List Char → Option Nat
  | '0' :: _ :: _ => none
  | cs => digits? cs

def whole? : List Char → Option Int
  | '-' :: cs => (natural? cs).map fun n => -Int.ofNat n
  | cs => (natural? cs).map Int.ofNat

/-- Around a loose number blanks are ignored; a blank is what the Unicode standard calls white
space. -/
def isBlank (c : Char) : Bool :=
  (0x9 ≤ c.toNat && c.toNat ≤ 0xd) ||
    [0x20, 0x85, 0xa0, 0x1680, 0x2028, 0x2029, 0x202f, 0x205f, 0x3000].contains c.toNat ||
    (0x2000 ≤ c.toNat && c.toNat ≤ 0x200a)

def trim (cs : List Char) : List Char :=
  ((cs.dropWhile isBlank).reverse.dropWhile isBlank).reverse

/-- Passes the zeros and underscores after a character.  The number goes on with another digit or
a minus sign, or with the last character passed if a point follows; if nothing follows, that
character is all of it. -/
def afterZeros (last : Char) : List Char → Option (List Char)
  | [] => some [last]
  | c :: cs =>
    if c = '0' || c = '_' then afterZeros c cs
    else if c = '-' || (digit? c).isSome then some (c :: cs)
    else if c = '.' then some (last :: c :: cs)
    else none

/-- A number starts with a digit, and zeros in front do not count. -/
def dropZeros : List Char → Option (List Char)
  | [] => none
  | c :: cs => if c = '0' then afterZeros c cs else (digit? c).map fun _ => c :: cs

/-- Drops a point that zeros and nothing else follow. -/
def dropZeroFraction (cs : List Char) : List Char :=
  let fraction := (cs.dropWhile (· ≠ '.')).drop 1
  if !fraction.isEmpty && fraction.all (· = '0') then cs.takeWhile (· ≠ '.') else cs

/-- Every underscore stands alone between two characters; `last` is the one before the rest. -/
def separates (last : Char) : List Char → Bool
  | [] => last ≠ '_'
  | c :: cs => (c ≠ '_' || last ≠ '_') && separates c cs

/-- Drops underscores if all of them stand alone between two characters. -/
def dropUnderscores (cs : List Char) : List Char :=
  if separates '_' cs then cs.filter (· ≠ '_') else cs

/-- A number without its sign, as strict as can be. -/
def unsigned? (cs : List Char) : Option (List Char) :=
  (dropZeros cs).map fun cs => dropUnderscores (dropZeroFraction cs)

/-- The strict form of a loose number, unless it starts as no number does.  What is no number
later on stays in the text. -/
def strict? (cs : List Char) : Option (List Char) :=
  match trim cs with
  | '+' :: cs => unsigned? cs
  | '-' :: cs => (unsigned? cs).map ('-' :: ·)
  | cs => unsigned? cs

def digitLimit : Nat := 4300

def dropMinus : List Char → List Char
  | '-' :: cs => cs
  | cs => cs

/-- Reads a loose number that is within the limit in its strict form. -/
def loose? (s : String) : Option Int := do
  let cs ← strict? s.toList
  if (dropMinus cs).length ≤ digitLimit then whole? cs else none

/-- The digits with which a text starts after an optional minus sign; none if the first is zero. -/
def leadingDigits (cs : List Char) : List Char :=
  let ds := (dropMinus cs).takeWhile fun c => (digit? c).isSome
  if ds.head? = some '0' then [] else ds

/-- The text starts with a strict number beyond the limit, whatever follows. -/
def isTooLong (s : String) : Bool := digitLimit < (leadingDigits s.toList).length

end Chronicle.Text.Numeral
