import Chronicle.Datum
import Chronicle.Table
import Chronicle.Text.Numeral

/-!
# Forms

A form fills a record from loosely typed fields.  Each field has a reader, which coerces what can
be meant only one way and finds fault with the rest; a field that is not given takes its default
if it has one.  All faults are reported together, in order of the fields' names.
-/

namespace Chronicle

/-- What is wrong with the value of a field. -/
inductive Fault
  | missing
  | intType
  | intParsing
  | intParsingSize
  | intFromFloat
  | belowMinimum
  | boolType
  | boolParsing
  | stringType
  | dictType
  | listType
  | enum
  deriving DecidableEq, Repr

def Fault.word : Fault → String
  | missing => "missing"
  | intType => "int_type"
  | intParsing => "int_parsing"
  | intParsingSize => "int_parsing_size"
  | intFromFloat => "int_from_float"
  | belowMinimum => "greater_than_equal"
  | boolType => "bool_type"
  | boolParsing => "bool_parsing"
  | stringType => "string_type"
  | dictType => "dict_type"
  | listType => "list_type"
  | enum => "enum"

/-- A fault and where it is: the field, and in it the name or number of the member. -/
structure Complaint where
  path : List String
  fault : Fault
  deriving DecidableEq, Repr

namespace Complaint

def place (c : Complaint) : String := ".".intercalate c.path

def within (name : String) (c : Complaint) : Complaint := { c with path := name :: c.path }

def inOrder (a b : Complaint) : Bool :=
  a.place < b.place || (a.place == b.place && a.fault.word ≤ b.fault.word)

end Complaint

/-- Reads a loose value, or complains of it in one place or more. -/
abbrev Reader (α : Type) := Datum → Except (List Complaint) α

/-- A value, or all complaints about its parts. -/
structure Checked (α : Type) where
  result : Except (List Complaint) α

namespace Checked

variable {α β : Type}

/-- Joins two parts; the complaints about both are kept. -/
def seq (f : Checked (α → β)) (x : Checked α) : Checked β :=
  match f.result, x.result with
  | .ok f, .ok a => ⟨.ok (f a)⟩
  | .error es, .ok _ => ⟨.error es⟩
  | .ok _, .error es => ⟨.error es⟩
  | .error es, .error fs => ⟨.error (es ++ fs)⟩

instance : Functor Checked where
  map f x := ⟨x.result.map f⟩

instance : Seq Checked where
  seq f x := Checked.seq f (x ())

def run (x : Checked α) : Except (List Complaint) α :=
  x.result.mapError fun es => es.mergeSort Complaint.inOrder

end Checked

namespace Form

variable {α : Type}

def refuse (fault : Fault) : Except (List Complaint) α := .error [⟨[], fault⟩]

/-- A machine word has room for the number. -/
def fitsWord (n : Int) : Bool := -Int.pow 2 63 ≤ n && n < Int.pow 2 63

/-- A double this size is taken for a whole number. -/
def fitsDouble (n : Int) : Bool := n.natAbs < Nat.pow 2 63

/-- A whole number, also as a truth value, in a text or with a point. -/
def integer : Reader Int
  | .truth b => .ok (if b then 1 else 0)
  | .integer n => .ok n
  | .decimal x =>
    match x.whole? with
    | some n => if fitsDouble n then .ok n else refuse .intParsingSize
    | none => refuse .intFromFloat
  | .text s =>
    match Text.Numeral.loose? s with
    | some n => .ok n
    | none => refuse (if Text.Numeral.isTooLong s then .intParsingSize else .intParsing)
  | _ => refuse .intType

def positive : Reader Nat := fun d => do
  let n ← integer d
  if 1 ≤ n then return n.toNat else refuse .belowMinimum

def truthWords : List (String × Bool) :=
  [("true", true), ("t", true), ("yes", true), ("y", true), ("on", true), ("1", true),
    ("false", false), ("f", false), ("no", false), ("n", false), ("off", false), ("0", false)]

/-- Zero or one, unless the number has no room. -/
def truthOfWhole (hasRoom : Bool) (n : Int) : Except (List Complaint) Bool :=
  if n = 0 then .ok false
  else if n = 1 then .ok true
  else refuse (if hasRoom then .boolParsing else .boolType)

/-- A truth value, zero or one, or a word for it in any case. -/
def truth : Reader Bool
  | .truth b => .ok b
  | .integer n => truthOfWhole (fitsWord n) n
  | .decimal x =>
    match x.whole? with
    | some n => truthOfWhole (fitsDouble n) n
    | none => refuse .boolType
  | .text s =>
    match truthWords.lookup s.toLower with
    | some b => .ok b
    | none => refuse .boolParsing
  | _ => refuse .boolType

def optional (reader : Reader α) : Reader (Option α)
  | .null => .ok none
  | d => some <$> reader d

def text : Reader String
  | .text s => .ok s
  | _ => refuse .stringType

/-- Reads every member, each under its name; all complaints are kept. -/
def members (reader : Reader α) : List (String × Datum) → Checked (List α)
  | [] => ⟨.ok []⟩
  | (name, d) :: rest =>
    let first : Checked α := ⟨(reader d).mapError fun es => es.map (Complaint.within name)⟩
    List.cons <$> first <*> members reader rest

/-- A list, whose members go by their numbers from zero up. -/
def list (reader : Reader α) : Reader (List α)
  | .list items =>
    (members reader (items.zipIdx.map fun e => (toString e.2, e.1))).result
  | _ => refuse .listType

def table (reader : Reader α) : Reader (Table α)
  | .record fields =>
    (members reader fields).result.map fun values => .ofList ((fields.map Prod.fst).zip values)
  | _ => refuse .dictType

/-- One of the words that the function knows. -/
def choice (ofWord? : String → Option α) : Reader α
  | .text s =>
    match ofWord? s with
    | some a => .ok a
    | none => refuse .enum
  | _ => refuse .enum

/-- A field of the form, with the value it has if it is not given. -/
def field (fields : List (String × Datum)) (name : String) (reader : Reader α)
    (default? : Option α) : Checked α :=
  match fields.lookup name, default? with
  | some d, _ => ⟨(reader d).mapError fun es => es.map (Complaint.within name)⟩
  | none, some a => ⟨.ok a⟩
  | none, none => ⟨.error [⟨[name], .missing⟩]⟩

end Form

end Chronicle
