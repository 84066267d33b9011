import Chronicle.Datum.Lexeme
import Chronicle.Table

/-!
# Loose values as JSON

Reading goes through the lexemes with a stack of the lists and records that are open, and keeps a
whole number apart from one with a point or an exponent.  Where a record gives a name twice, the
first gives the place and the last the value.
-/

namespace Chronicle.Datum

open Text.Numeral (digits? natural?)

/-- A whole number, or a decimal if a point or an exponent follows. -/
def unsignedOfWord? (negative : Bool) (cs : List Char) : Option Datum := do
  let isMantissa (c : Char) : Bool := c ≠ 'e' && c ≠ 'E'
  let mantissa := cs.takeWhile isMantissa
  let whole := mantissa.takeWhile (· ≠ '.')
  let fraction := mantissa.dropWhile (· ≠ '.')
  let exponent := cs.dropWhile isMantissa
  let n ← natural? whole
  if fraction.isEmpty && exponent.isEmpty then return .integer (if negative then -n else n)
  if fraction = ['.'] then none
  let power : Int ← match exponent with
    | [] => some 0
    | _ :: '-' :: ds => (digits? ds).map fun n => -Int.ofNat n
    | _ :: '+' :: ds => (digits? ds).map Int.ofNat
    | _ :: ds => (digits? ds).map Int.ofNat
  let m ← digits? (whole ++ fraction.drop 1)
  return .decimal ⟨negative, m, power - (fraction.drop 1).length⟩

def ofWord? (cs : List Char) : Option Datum :=
  match String.ofList cs, cs with
  | "null", _ => some .null
  | "true", _ => some (.truth true)
  | "false", _ => some (.truth false)
  | _, '-' :: cs => unsignedOfWord? true cs
  | _, cs => unsignedOfWord? false cs

/-- A list or a record that is open, a list with its last item first, a record with the name of
the value to come. -/
inductive Frame
  | list (items : List Datum)
  | record (fields : List (String × Datum)) (name : String)

inductive Awaited
  | value
  /-- A value, or the end of an empty list. -/
  | firstItem
  | name
  /-- A name, or the end of an empty record. -/
  | firstName
  | colon
  /-- A comma, or the end of what is open. -/
  | next
  deriving DecidableEq, Repr

/-- The reader between two lexemes. -/
inductive Progress
  | inside (frames : List Frame) (awaited : Awaited)
  | finished (d : Datum)

namespace Progress

def supply (d : Datum) : List Frame → Progress
  | [] => finished d
  | .list items :: rest => inside (.list (d :: items) :: rest) .next
  | .record fields name :: rest => inside (.record (Table.put name d fields) name :: rest) .next

def mark (frames : List Frame) (awaited : Awaited) (c : Char) : Option Progress :=
  match c, awaited, frames with
  | '[', .value, _ | '[', .firstItem, _ => some (inside (.list [] :: frames) .firstItem)
  | '\x7b', .value, _ | '\x7b', .firstItem, _ => some (inside (.record [] "" :: frames) .firstName)
  | ']', .firstItem, .list items :: rest => some (supply (.list items.reverse) rest)
  | ']', .next, .list items :: rest => some (supply (.list items.reverse) rest)
  | '\x7d', .firstName, .record fields _ :: rest => some (supply (.record fields) rest)
  | '\x7d', .next, .record fields _ :: rest => some (supply (.record fields) rest)
  | ',', .next, .list _ :: _ => some (inside frames .value)
  | ',', .next, .record .. :: _ => some (inside frames .name)
  | ':', .colon, _ => some (inside frames .value)
  | _, _, _ => none

def step : Progress → Lexeme → Option Progress
  | finished _, _ => none
  | inside frames awaited, .mark c => mark frames awaited c
  | inside frames awaited, .word cs =>
    match awaited with
    | .value | .firstItem => (ofWord? cs).map fun d => supply d frames
    | _ => none
  | inside frames awaited, .text s =>
    match awaited, frames with
    | .value, _ | .firstItem, _ => some (supply (.text s) frames)
    | .name, .record fields _ :: rest | .firstName, .record fields _ :: rest =>
      some (inside (.record fields s :: rest) .colon)
    | _, _ => none

end Progress

def ofJson? (s : String) : Option Datum := do
  match ← (← lexemes? s).foldlM Progress.step (.inside [] .value) with
  | .finished d => return d
  | .inside .. => none

/-- A character of a text between double quotes. -/
def escape (c : Char) : List Char :=
  if c = '"' || c = '\\' then ['\\', c]
  else if c.toNat < 0x20 then '\\' :: 'u' :: Text.Quoted.hex 4 c.toNat
  else [c]

def quote (s : String) : String := String.ofList ('"' :: s.toList.flatMap escape ++ ['"'])

mutual

/-- The value on one line without blanks. -/
def toJson : Datum → String
  | null => "null"
  | truth b => if b then "true" else "false"
  | integer n => toString n
  | decimal x => x.text
  | text s => quote s
  | list items => "[" ++ ",".intercalate (itemsToJson items) ++ "]"
  | record fields => "\x7b" ++ ",".intercalate (fieldsToJson fields) ++ "\x7d"

def itemsToJson : List Datum → List String
  | [] => []
  | d :: ds => toJson d :: itemsToJson ds

def fieldsToJson : List (String × Datum) → List String
  | [] => []
  | (name, d) :: ds => (quote name ++ ":" ++ toJson d) :: fieldsToJson ds

end

end Chronicle.Datum
