/-!
# Symbols

A declaration gives a name to something new.  Two declarations may choose the same name, and then
the serial number of the declaration tells them apart: a graph holds one of them and refuses the
other, though both read alike.
-/

namespace Chronicle

/-- One declaration of a name. -/
structure Symbol where
  name : String
  serial : Nat
  deriving DecidableEq, Repr

/-- How a variable gets its values: by being set, by its formula, or by firing once. -/
inductive Kind
  | mutable
  | derived
  | triggered
  deriving DecidableEq, Repr

def Kind.word : Kind → String
  | mutable => "mutable"
  | derived => "derived"
  | triggered => "triggered"

end Chronicle
