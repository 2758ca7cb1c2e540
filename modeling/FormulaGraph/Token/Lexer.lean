/-
  File:      FormulaGraph/Token/Lexer.lean
  Subject:   From a text to its tokens.

  At each place the first rule that applies gives the token: a number, a word, a run of blanks, a
  punctuation mark, and else one bad character. No character is skipped: blanks and bad characters
  are tokens too, and `readToken_text` says that a token and the rest make up the text.
-/
import FormulaGraph.Decimal.Numeral
import FormulaGraph.Text.Blank
import FormulaGraph.Text.Letter
import FormulaGraph.Text.Numeral
import FormulaGraph.Token.Basic

namespace FormulaGraph

namespace Token

/-- The largest number that is still an integer token. -/
def greatestInteger : Nat := Nat.pow 2 63 - 1

/-- A number begins with a digit, or with a point and a digit. -/
def startsNumber : List Char → Bool
  | c :: d :: _ => c.isDigit || (c == '.' && d.isDigit)
  | [c] => c.isDigit
  | [] => false

/-- A word begins with a letter or an underscore. -/
def startsWord (c : Char) : Bool := Text.isLetter c || c == '_'

/-- A word goes on with letters, numerals and underscores. -/
def continuesWord (c : Char) : Bool := Text.isLetter c || Text.isNumeral c || c == '_'

/-- A whole number that is not too large is an integer; every other number is a float. -/
def numberKind (n : Numeral) : TokenKind :=
  if n.isWhole && digitsValue n.whole ≤ greatestInteger then .integer (digitsValue n.whole)
  else .float n.toFloat

/-- The punctuation mark at the front of a text, and its characters. -/
def mark? (c : Char) (rest : List Char) : Option (TokenKind × List Char) :=
  match c with
  | '+' => some (.plus, [c])
  | '-' => some (.minus, [c])
  | '*' => some (if rest.head? = some '*' then (.starStar, [c, '*']) else (.star, [c]))
  | '^' => some (.caret, [c])
  | '/' => some (.slash, [c])
  | '%' => some (.percent, [c])
  | '(' => some (.openParen, [c])
  | ')' => some (.closeParen, [c])
  | ',' => some (.comma, [c])
  | _ => none

/-- The first token of the text `c :: rest`: its kind, its characters and what follows. -/
def readToken (c : Char) (rest : List Char) : TokenKind × List Char × List Char :=
  if startsNumber (c :: rest) then
    let (n, more) := Numeral.scan (c :: rest)
    (numberKind n, n.text, more)
  else if startsWord c then
    let name := c :: rest.takeWhile continuesWord
    (.word (String.ofList name), name, rest.dropWhile continuesWord)
  else if Text.isBlank c then
    (.blank, c :: rest.takeWhile Text.isBlank, rest.dropWhile Text.isBlank)
  else
    match mark? c rest with
    | some (kind, text) => (kind, text, rest.drop (text.length - 1))
    | none => (.bad, [c], rest)

/-- The tokens of a text that begins at `offset`. Every token takes at least one character, so the
    number of characters bounds the number of steps. -/
def scanFrom : (steps offset : Nat) → List Char → List Token
  | 0, _, _ => []
  | _ + 1, _, [] => []
  | steps + 1, offset, c :: rest =>
    let (kind, text, more) := readToken c rest
    ⟨kind, text, offset⟩ :: scanFrom steps (offset + Text.byteSize text) more

/-- All tokens of a text, without the stop token. -/
def scan (cs : List Char) : List Token := scanFrom cs.length 0 cs

/-- All tokens of a text; the stop token stands last. -/
def lex (cs : List Char) : List Token := scan cs ++ [stopAt (Text.byteSize cs)]

/-! ## Nothing is lost -/

theorem mark?_text {c : Char} {rest : List Char} {kind : TokenKind} {text : List Char}
    (h : mark? c rest = some (kind, text)) : text ++ rest.drop (text.length - 1) = c :: rest := by
  unfold mark? at h
  split at h
  case h_3 =>
    split at h
    · rename_i hd
      obtain ⟨rfl, rfl⟩ := Prod.mk.inj (Option.some.inj h)
      cases rest with
      | nil => simp at hd
      | cons d ds => simp at hd; simp [hd]
    · obtain ⟨rfl, rfl⟩ := Prod.mk.inj (Option.some.inj h); simp
  case h_10 => contradiction
  all_goals obtain ⟨rfl, rfl⟩ := Prod.mk.inj (Option.some.inj h); simp

/-- A token's characters and what follows them make up the text. -/
theorem readToken_text (c : Char) (rest : List Char) :
    (readToken c rest).2.1 ++ (readToken c rest).2.2 = c :: rest := by
  unfold readToken
  split
  · exact Numeral.scan_text _
  · split
    · simp [List.takeWhile_append_dropWhile]
    · split
      · simp [List.takeWhile_append_dropWhile]
      · split
        · rename_i h; exact mark?_text h
        · rfl

end Token

end FormulaGraph
