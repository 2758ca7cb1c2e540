/-
  File:      FormulaGraph/Json/Reader.lean
  Subject:   Reading a text as a JSON value.

  The grammar is strict: no comments, no trailing commas, no raw control characters in strings.
  Reading checks how numbers and strings are written, not what they mean.
-/
import FormulaGraph.Json.Basic
import FormulaGraph.Json.Numbers
import FormulaGraph.Json.Text

namespace FormulaGraph.Json

def isSpace (c : Char) : Bool := c == ' ' || c == '\n' || c == '\t' || c == '\r'

def skipSpace (cs : List Char) : List Char := cs.dropWhile isSpace

/-- The characters of a string up to its closing quote, and the rest. -/
def scanString? : List Char → Option (List Char × List Char)
  | [] => none
  | '"' :: rest => some ([], rest)
  | '\\' :: 'u' :: a :: b :: c :: d :: rest => do
    let _ ← hexUnit? a b c d
    let (written, rest) ← scanString? rest
    return ('\\' :: 'u' :: a :: b :: c :: d :: written, rest)
  | '\\' :: c :: rest => do
    let _ ← escaped? c
    let (written, rest) ← scanString? rest
    return ('\\' :: c :: written, rest)
  | c :: rest =>
    if c.toNat < 32 ∨ c = '\\' then none
    else do
      let (written, rest) ← scanString? rest
      return (c :: written, rest)

/-- A member's key and the colon behind it, and the rest. -/
def scanKey? (cs : List Char) : Option (List Char × List Char) :=
  match skipSpace cs with
  | '"' :: rest => do
    let (key, rest) ← scanString? rest
    match skipSpace rest with
    | ':' :: rest => return (key, rest)
    | _ => none
  | _ => none

mutual
/-- The value at the front of a text, and the rest. -/
def readValue : (steps : Nat) → List Char → Option (Json × List Char)
  | 0, _ => none
  | steps + 1, cs =>
    match skipSpace cs with
    | 'n' :: 'u' :: 'l' :: 'l' :: rest => some (null, rest)
    | 't' :: 'r' :: 'u' :: 'e' :: rest => some (bool true, rest)
    | 'f' :: 'a' :: 'l' :: 's' :: 'e' :: rest => some (bool false, rest)
    | '"' :: rest => do
      let (written, rest) ← scanString? rest
      return (string written, rest)
    | '[' :: rest =>
      match skipSpace rest with
      | ']' :: rest => some (array [], rest)
      | _ => do
        let (items, rest) ← readItems steps rest
        return (array items, rest)
    | '\x7b' :: rest =>
      match skipSpace rest with
      | '\x7d' :: rest => some (object [], rest)
      | _ => do
        let (members, rest) ← readMembers steps rest
        return (object members, rest)
    | cs => do
      let (written, rest) ← scanNumber? cs
      return (number written, rest)

/-- One or more items and the closing bracket. -/
def readItems : (steps : Nat) → List Char → Option (List Json × List Char)
  | 0, _ => none
  | steps + 1, cs => do
    let (item, rest) ← readValue steps cs
    match skipSpace rest with
    | ',' :: rest => do
      let (items, rest) ← readItems steps rest
      return (item :: items, rest)
    | ']' :: rest => return ([item], rest)
    | _ => none

/-- One or more members and the closing brace. -/
def readMembers : (steps : Nat) → List Char → Option (List (List Char × Json) × List Char)
  | 0, _ => none
  | steps + 1, cs => do
    let (key, rest) ← scanKey? cs
    let (value, rest) ← readValue steps rest
    match skipSpace rest with
    | ',' :: rest => do
      let (members, rest) ← readMembers steps rest
      return ((key, value) :: members, rest)
    | '\x7d' :: rest => return ([(key, value)], rest)
    | _ => none
end

/-- Reads a whole text. At most every other step takes no character, so twice the length
    suffices. -/
def read? (cs : List Char) : Option Json := do
  let (value, rest) ← readValue (2 * cs.length + 2) cs
  if (skipSpace rest).isEmpty then some value else none

end FormulaGraph.Json
