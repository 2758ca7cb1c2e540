/-
  File:      FormulaGraph/Text/Bytes.lean
  Subject:   Offsets into a text, counted in UTF-8 bytes.

  A text is a list of characters; every offset the library reports counts bytes. This file fixes
  how the two views meet:

  * `byteSize` -- the length of a text in bytes;
  * `dropBytes?`, `takeBytes?`, `slice?` -- cutting at a byte offset, `none` where the offset lies
    past the end or inside a character;
  * `slice?_append` -- the slice between the sizes of two front parts is what stands between them.
-/

namespace FormulaGraph.Text

/-- The length of a text in UTF-8 bytes. -/
def byteSize : List Char → Nat
  | [] => 0
  | c :: cs => c.utf8Size + byteSize cs

/-- The text behind its first `n` bytes; `none` if `n` lies past the end or inside a character. -/
def dropBytes? : Nat → List Char → Option (List Char)
  | 0, cs => some cs
  | _ + 1, [] => none
  | n + 1, c :: cs =>
    if c.utf8Size ≤ n + 1 then dropBytes? (n + 1 - c.utf8Size) cs else none

/-- The first `n` bytes of a text; `none` if `n` lies past the end or inside a character. -/
def takeBytes? : Nat → List Char → Option (List Char)
  | 0, _ => some []
  | _ + 1, [] => none
  | n + 1, c :: cs =>
    if c.utf8Size ≤ n + 1 then (takeBytes? (n + 1 - c.utf8Size) cs).map (c :: ·) else none

/-- The bytes from `start` up to `stop`; `none` unless both are character boundaries of the text
    and `start ≤ stop`. -/
def slice? (start stop : Nat) (cs : List Char) : Option (List Char) :=
  if start ≤ stop then (dropBytes? start cs).bind (takeBytes? (stop - start)) else none

/-! ## Small laws -/

@[simp] theorem byteSize_nil : byteSize [] = 0 := rfl

@[simp] theorem byteSize_cons (c : Char) (cs : List Char) :
    byteSize (c :: cs) = c.utf8Size + byteSize cs := rfl

@[simp] theorem byteSize_append (a b : List Char) :
    byteSize (a ++ b) = byteSize a + byteSize b := by
  induction a with
  | nil => simp
  | cons c cs ih => simp [ih, Nat.add_assoc]

@[simp] theorem dropBytes?_zero (cs : List Char) : dropBytes? 0 cs = some cs := by
  cases cs <;> rfl

@[simp] theorem takeBytes?_zero (cs : List Char) : takeBytes? 0 cs = some [] := by
  cases cs <;> rfl

/-- A character fits into an offset that reaches behind it. -/
theorem dropBytes?_cons (c : Char) (cs : List Char) (n : Nat) :
    dropBytes? (c.utf8Size + n) (c :: cs) = dropBytes? n cs := by
  have h := c.utf8Size_pos
  obtain ⟨k, hk⟩ : ∃ k, c.utf8Size + n = k + 1 := ⟨c.utf8Size + n - 1, by omega⟩
  rw [hk]
  unfold dropBytes?
  rw [if_pos (by omega), show k + 1 - c.utf8Size = n by omega]
  cases n <;> cases cs <;> rfl

theorem takeBytes?_cons (c : Char) (cs : List Char) (n : Nat) :
    takeBytes? (c.utf8Size + n) (c :: cs) = (takeBytes? n cs).map (c :: ·) := by
  have h := c.utf8Size_pos
  obtain ⟨k, hk⟩ : ∃ k, c.utf8Size + n = k + 1 := ⟨c.utf8Size + n - 1, by omega⟩
  rw [hk]
  unfold takeBytes?
  rw [if_pos (by omega), show k + 1 - c.utf8Size = n by omega]
  cases n <;> cases cs <;> rfl

theorem dropBytes?_append (a b : List Char) : dropBytes? (byteSize a) (a ++ b) = some b := by
  induction a with
  | nil => simp
  | cons c cs ih => rw [List.cons_append, byteSize_cons, dropBytes?_cons, ih]

theorem takeBytes?_append (a b : List Char) : takeBytes? (byteSize a) (a ++ b) = some a := by
  induction a with
  | nil => simp
  | cons c cs ih => rw [List.cons_append, byteSize_cons, takeBytes?_cons, ih]; rfl

/-- Cutting where the parts of a text meet gives the middle part. -/
theorem slice?_append (a b c : List Char) :
    slice? (byteSize a) (byteSize a + byteSize b) (a ++ (b ++ c)) = some b := by
  unfold slice?
  rw [if_pos (Nat.le_add_right _ _), dropBytes?_append, Option.bind_some,
    Nat.add_sub_cancel_left, takeBytes?_append]

end FormulaGraph.Text
