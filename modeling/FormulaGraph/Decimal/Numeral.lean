/-
  File:      FormulaGraph/Decimal/Numeral.lean
  Subject:   Numbers as they are written: digits, a point, an exponent.

  * `Numeral.scan` -- the longest numeral at the front of a text, and the rest;
  * `Numeral.scan_text` -- nothing of the text is lost;
  * `Numeral.toFloat` -- the double nearest to the written number;
  * `readFloat?` -- a whole text as a double, with a sign and the names of the infinities and NaN.
-/

namespace FormulaGraph

/-- The value of a digit string. -/
def digitsValue (digits : List Char) : Nat :=
  digits.foldl (fun n c => 10 * n + (c.toNat - '0'.toNat)) 0

/-- The exponent of a written number: `e` or `E`, a sign, digits. -/
structure Exponent where
  mark : Char
  sign : Option Char
  digits : List Char
  deriving DecidableEq, Repr

namespace Exponent

def text (e : Exponent) : List Char := e.mark :: (e.sign.toList ++ e.digits)

def value (e : Exponent) : Int :=
  if e.sign = some '-' then -(digitsValue e.digits : Int) else digitsValue e.digits

/-- An exponent at the front of a text; without a digit there is none. -/
def scan? : List Char → Option (Exponent × List Char)
  | [] => none
  | mark :: rest =>
    if mark = 'e' ∨ mark = 'E' then
      match rest with
      | [] => none
      | c :: more =>
        if c = '+' ∨ c = '-' then
          match more with
          | [] => none
          | d :: _ =>
            if d.isDigit then
              some (⟨mark, some c, more.takeWhile Char.isDigit⟩, more.dropWhile Char.isDigit)
            else none
        else if c.isDigit then
          some (⟨mark, none, rest.takeWhile Char.isDigit⟩, rest.dropWhile Char.isDigit)
        else none
    else none

theorem scan?_text {cs rest : List Char} {e : Exponent} (h : scan? cs = some (e, rest)) :
    e.text ++ rest = cs := by
  unfold scan? at h
  repeat' split at h
  all_goals try contradiction
  all_goals
    obtain ⟨rfl, rfl⟩ := Prod.mk.inj (Option.some.inj h)
    simp [text, List.takeWhile_append_dropWhile]

end Exponent

/-- A written number. A point may stand without digits behind it, and without digits before it. -/
structure Numeral where
  whole : List Char
  /-- The digits behind the point, if there is a point. -/
  fraction : Option (List Char)
  exponent : Option Exponent
  deriving DecidableEq, Repr

namespace Numeral

def text (n : Numeral) : List Char :=
  n.whole ++ ((n.fraction.map ('.' :: ·)).getD [] ++ (n.exponent.map Exponent.text).getD [])

/-- Neither a point nor an exponent. -/
def isWhole (n : Numeral) : Bool := n.fraction.isNone && n.exponent.isNone

/-- The digits behind the point, and the rest; `none` if no point stands in front. -/
def scanFraction : List Char → Option (List Char) × List Char
  | [] => (none, [])
  | c :: cs =>
    if c = '.' then (some (cs.takeWhile Char.isDigit), cs.dropWhile Char.isDigit)
    else (none, c :: cs)

def scanExponent (cs : List Char) : Option Exponent × List Char :=
  match Exponent.scan? cs with
  | some (e, rest) => (some e, rest)
  | none => (none, cs)

/-- The longest numeral at the front of a text, and the rest. -/
def scan (cs : List Char) : Numeral × List Char :=
  let fraction := scanFraction (cs.dropWhile Char.isDigit)
  let exponent := scanExponent fraction.2
  (⟨cs.takeWhile Char.isDigit, fraction.1, exponent.1⟩, exponent.2)

/-- The double nearest to the written number; a tie goes to the even mantissa. -/
def toFloat (n : Numeral) : Float :=
  let fraction := n.fraction.getD []
  let digits := digitsValue (n.whole ++ fraction)
  let exponent : Int := (n.exponent.map Exponent.value).getD 0 - fraction.length
  Float.ofScientific digits (exponent < 0) exponent.natAbs

theorem scanFraction_text (cs : List Char) :
    ((scanFraction cs).1.map ('.' :: ·)).getD [] ++ (scanFraction cs).2 = cs := by
  unfold scanFraction
  split
  · rfl
  · split
    · rename_i h; subst h; simp [List.takeWhile_append_dropWhile]
    · rfl

theorem scanExponent_text (cs : List Char) :
    ((scanExponent cs).1.map Exponent.text).getD [] ++ (scanExponent cs).2 = cs := by
  unfold scanExponent
  split
  · rename_i h; exact Exponent.scan?_text h
  · rfl

/-- The numeral and the rest make up the text. -/
theorem scan_text (cs : List Char) : (scan cs).1.text ++ (scan cs).2 = cs := by
  simp only [scan, text, List.append_assoc]
  rw [scanExponent_text, scanFraction_text, List.takeWhile_append_dropWhile]

end Numeral

/-- Reads an unsigned number: a numeral with at least one digit, or a name of infinity or NaN in
    any case. -/
def readUnsigned? (cs : List Char) : Option Float :=
  let lower := cs.map Char.toLower
  if lower = ['i', 'n', 'f'] ∨ lower = ['i', 'n', 'f', 'i', 'n', 'i', 't', 'y'] then
    some (1.0 / 0.0)
  else if lower = ['n', 'a', 'n'] then
    some (0.0 / 0.0)
  else
    let (n, rest) := Numeral.scan cs
    if rest.isEmpty && !(n.whole ++ n.fraction.getD []).isEmpty then some n.toFloat else none

/-- Reads a whole text as a double. -/
def readFloat? (text : String) : Option Float :=
  match text.toList with
  | '-' :: cs => (readUnsigned? cs).map Float.neg
  | '+' :: cs => readUnsigned? cs
  | cs => readUnsigned? cs

end FormulaGraph
