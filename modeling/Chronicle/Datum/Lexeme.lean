import Chronicle.Datum

/-!
# Lexemes

The written form of a loose value is a row of lexemes: marks, words such as `null` or `-2.5`, and
texts between double quotes.  Blanks separate words and mean nothing else.  In a text a backslash
starts an escape; of two escapes by code unit the first may be the higher and the second the lower
half of one character, and half a character alone is replaced by the replacement character.
-/

namespace Chronicle.Datum

inductive Lexeme
  | mark (c : Char)
  | word (cs : List Char)
  | text (s : String)
  deriving DecidableEq, Repr

/-- What the reader is in the middle of, with what it has read of it last first.  Of a text it has
read code points, or code units where they came by an escape. -/
inductive Scan
  | gap
  | word (cs : List Char)
  | text (units : List Nat)
  | escape (units : List Nat)
  /-- Of the escape by code unit so many digits are missing. -/
  | code (units : List Nat) (missing unit : Nat)

namespace Scan

/-- Characters of which halves that belong together are joined. -/
def joined : List Nat → List Char
  | [] => []
  | high :: units =>
    if 0xd800 ≤ high ∧ high < 0xdc00 then
      match units with
      | low :: rest =>
        if 0xdc00 ≤ low ∧ low < 0xe000 then
          .ofNat (0x10000 + 0x400 * (high - 0xd800) + (low - 0xdc00)) :: joined rest
        else .ofNat 0xfffd :: joined (low :: rest)
      | [] => [.ofNat 0xfffd]
    else if 0xdc00 ≤ high ∧ high < 0xe000 then .ofNat 0xfffd :: joined units
    else .ofNat high :: joined units

/-- The characters that an escape of one letter stands for. -/
def escapes : List (Char × Char) :=
  [('"', '"'), ('\\', '\\'), ('/', '/'), ('b', '\x08'), ('f', '\x0c'), ('n', '\n'), ('r', '\r'),
    ('t', '\t')]

def isBlank (c : Char) : Bool := c = ' ' || c = '\t' || c = '\n' || c = '\r'

def isMark (c : Char) : Bool := ['[', ']', '\x7b', '\x7d', ',', ':'].contains c

def hexDigit? (c : Char) : Option Nat :=
  if '0' ≤ c ∧ c ≤ '9' then some (c.toNat - '0'.toNat)
  else if 'a' ≤ c ∧ c ≤ 'f' then some (c.toNat - 'a'.toNat + 10)
  else if 'A' ≤ c ∧ c ≤ 'F' then some (c.toNat - 'A'.toNat + 10)
  else none

/-- Reads one character; the lexemes that it ends come first. -/
def step (scan : Scan) (c : Char) : Option (List Lexeme × Scan) :=
  match scan with
  | gap =>
    if isBlank c then some ([], gap)
    else if isMark c then some ([.mark c], gap)
    else if c = '"' then some ([], text [])
    else some ([], word [c])
  | word cs =>
    if isBlank c then some ([.word cs.reverse], gap)
    else if isMark c then some ([.word cs.reverse, .mark c], gap)
    else if c = '"' then none
    else some ([], word (c :: cs))
  | text units =>
    if c = '"' then some ([.text (String.ofList (joined units.reverse))], gap)
    else if c = '\\' then some ([], escape units)
    else some ([], text (c.toNat :: units))
  | escape units =>
    if c = 'u' then some ([], code units 4 0)
    else (escapes.lookup c).map fun d => ([], text (d.toNat :: units))
  | code units missing unit =>
    (hexDigit? c).map fun d =>
      let unit := 16 * unit + d
      ([], if missing ≤ 1 then text (unit :: units) else code units (missing - 1) unit)

end Scan

/-- The lexemes of a text whose beginning is read; those of the beginning stand in reverse. -/
def lexemesFrom (done : List Lexeme) (scan : Scan) : List Char → Option (List Lexeme)
  | [] =>
    match scan with
    | .gap => some done.reverse
    | .word cs => some (.word cs.reverse :: done).reverse
    | _ => none
  | c :: cs =>
    match scan.step c with
    | some (new, scan) => lexemesFrom (new.reverse ++ done) scan cs
    | none => none

def lexemes? (s : String) : Option (List Lexeme) := lexemesFrom [] .gap s.toList

end Chronicle.Datum
