/-
  File:      FormulaGraph/Json/Basic.lean
  Subject:   JSON values as they are written.

  Numbers and strings keep their characters: a string is what stands between its quotes, escapes
  included. So a value is written back as it was read, and what a number or a string means is asked
  only where it matters (`Json/Text`, `Json/Numbers`).
-/

namespace FormulaGraph

/-- A JSON value. -/
inductive Json where
  | null
  | bool (value : Bool)
  | number (written : List Char)
  | string (written : List Char)
  | array (items : List Json)
  | object (members : List (List Char × Json))
  deriving Repr, Inhabited

namespace Json

/-- A line break and the indentation of a level. -/
def newLine (level : Nat) : List Char := '\n' :: List.replicate (2 * level) ' '

def quoted (written : List Char) : List Char := '"' :: (written ++ ['"'])

mutual
/-- The text of a value that stands at a level of nesting: an item or a member a line. -/
def write (level : Nat) : Json → List Char
  | null => ['n', 'u', 'l', 'l']
  | bool true => ['t', 'r', 'u', 'e']
  | bool false => ['f', 'a', 'l', 's', 'e']
  | number written => written
  | string written => quoted written
  | array [] => ['[', ']']
  | array (item :: items) =>
    '[' :: (newLine (level + 1) ++ item.write (level + 1) ++ writeItems (level + 1) items ++
      newLine level ++ [']'])
  | object [] => ['\x7b', '\x7d']
  | object ((key, value) :: members) =>
    '\x7b' :: (newLine (level + 1) ++ quoted key ++ ':' :: ' ' :: value.write (level + 1) ++
      writeMembers (level + 1) members ++ newLine level ++ ['\x7d'])

/-- The items behind the first. -/
def writeItems (level : Nat) : List Json → List Char
  | [] => []
  | item :: items => ',' :: (newLine level ++ item.write level ++ writeItems level items)

/-- The members behind the first. -/
def writeMembers (level : Nat) : List (List Char × Json) → List Char
  | [] => []
  | (key, value) :: members =>
    ',' :: (newLine level ++ quoted key ++ ':' :: ' ' :: value.write level ++
      writeMembers level members)
end

mutual
/-- How deep arrays and objects stand inside each other. -/
def nesting : Json → Nat
  | array items => nestingItems items + 1
  | object members => nestingMembers members + 1
  | _ => 0

def nestingItems : List Json → Nat
  | [] => 0
  | item :: items => max item.nesting (nestingItems items)

def nestingMembers : List (List Char × Json) → Nat
  | [] => 0
  | (_, value) :: members => max value.nesting (nestingMembers members)
end

end Json

end FormulaGraph
