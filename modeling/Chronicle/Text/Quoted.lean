import Chronicle.Text.Printable

/-!
# Quoted names

A name in a message stands between single quotes, or between double quotes if it holds a single
quote and no double one.  Inside, the backslash and the quote in use are escaped, tab, line feed
and carriage return have letters of their own, and every other character without a visible form is
written by its code point: two hexadecimal digits after `x`, four after `u` or eight after `U`.
-/

namespace Chronicle.Text.Quoted

/-- The quote that needs no escape, if there is one; else the single quote. -/
def quoteFor (cs : List Char) : Char :=
  if cs.contains '\'' && !cs.contains '"' then '"' else '\''

/-- The last `n` hexadecimal digits, most significant first. -/
def hex (n k : Nat) : List Char :=
  (List.range n).reverse.map fun i => Nat.digitChar (k / Nat.pow 16 i % 16)

/-- A code point in the shortest of the three forms that has room for it. -/
def codePoint (k : Nat) : List Char :=
  if k < 0x100 then '\\' :: 'x' :: hex 2 k
  else if k < 0x10000 then '\\' :: 'u' :: hex 4 k
  else '\\' :: 'U' :: hex 8 k

def escape (quote c : Char) : List Char :=
  if c = '\\' || c = quote then ['\\', c]
  else if c = '\t' then ['\\', 't']
  else if c = '\n' then ['\\', 'n']
  else if c = '\r' then ['\\', 'r']
  else if isPrintable c then [c]
  else codePoint c.toNat

def encode (s : String) : String :=
  let cs := s.toList
  let q := quoteFor cs
  String.ofList (q :: cs.flatMap (escape q) ++ [q])

def encodeList (names : List String) : String :=
  "[" ++ ", ".intercalate (names.map encode) ++ "]"

end Chronicle.Text.Quoted
