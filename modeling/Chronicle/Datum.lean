import Chronicle.Decimal
import Chronicle.Text.Quoted

/-!
# Loose values

A value of no fixed type, as it comes from outside: it can be taken for a truth value, and it can
be shown in a message.
-/

namespace Chronicle

inductive Datum
  | null
  | truth (b : Bool)
  | integer (n : Int)
  | decimal (x : Decimal)
  | text (s : String)
  | list (items : List Datum)
  /-- Values under distinct names. -/
  | record (fields : List (String × Datum))
  deriving Repr, Inhabited

namespace Datum

/-- Nothing, false, zero and whatever is empty count as false. -/
def truthy : Datum → Bool
  | null => false
  | truth b => b
  | integer n => n != 0
  | decimal x => !x.isZero
  | text s => s != ""
  | list items => !items.isEmpty
  | record fields => !fields.isEmpty

mutual

def literal : Datum → String
  | null => "None"
  | truth b => if b then "True" else "False"
  | integer n => toString n
  | decimal x => x.text
  | text s => Text.Quoted.encode s
  | list items => "[" ++ ", ".intercalate (literals items) ++ "]"
  | record fields => "\x7b" ++ ", ".intercalate (fieldLiterals fields) ++ "\x7d"

def literals : List Datum → List String
  | [] => []
  | d :: ds => literal d :: literals ds

def fieldLiterals : List (String × Datum) → List String
  | [] => []
  | (k, d) :: ds => (Text.Quoted.encode k ++ ": " ++ literal d) :: fieldLiterals ds

end

end Datum

end Chronicle
