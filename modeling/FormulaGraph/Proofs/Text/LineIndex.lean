/-
  File:      FormulaGraph/Proofs/Text/LineIndex.lean
  Subject:   The line index of a text, told by its bytes.

  The index is made from characters and asked for with byte offsets, also with such as lie inside a
  character or past the end. The two views meet in the lines: their sizes add up to the line starts,
  and a line has one newline, its last byte, unless it is the last line, which has none.

  * `bytes`, `count_bytes` -- the bytes of a text; the newline byte stands for a newline and for
    nothing else;
  * `lines`, `splits_lines`, `line?_eq` -- the lines of a text are what looking them up gives;
  * `lineStarts_getElem?` -- a line starts behind the bytes of the lines before it;
  * `Searched`, `locate_of_searched` -- every search of the line starts finds the line of the
    offset;
  * `locate_lines` -- the line of an offset, and the place in it.
-/
import FormulaGraph.Proofs.Text.Lines

namespace FormulaGraph.Text

variable {cs : List Char} {ls : List (List Char)} {i k : Nat}

/-! ## 1. Bytes -/

/-- The text in UTF-8. -/
def bytes (cs : List Char) : List UInt8 := cs.flatMap String.utf8EncodeChar

def newlineByte : UInt8 := 10

@[simp] theorem bytes_append (a b : List Char) : bytes (a ++ b) = bytes a ++ bytes b :=
  List.flatMap_append

theorem length_bytes (cs : List Char) : (bytes cs).length = byteSize cs := by
  induction cs with
  | nil => rfl
  | cons c cs ih =>
    rw [bytes, List.flatMap_cons, List.length_append, String.length_utf8EncodeChar, byteSize_cons]
    exact congrArg (c.utf8Size + ·) ih

theorem newlineByte_notMem_map (ns : List Nat) (h : ∀ n ∈ ns, n ≠ 10 ∧ n < 256) :
    newlineByte ∉ ns.map UInt8.ofNat := by
  intro hm
  obtain ⟨n, hn, he⟩ := List.mem_map.mp hm
  obtain ⟨hne, hlt⟩ := h n hn
  have he : n % 256 = 10 := congrArg UInt8.toNat he
  omega

/-- The bytes of a longer character are all at least 128. -/
theorem newlineByte_notMem_utf8EncodeChar {c : Char} (hc : c ≠ '\n') :
    newlineByte ∉ String.utf8EncodeChar c := by
  have hval : c.val.toNat ≠ 10 := fun h => hc (Char.ext (UInt32.toNat_inj.mp h))
  unfold String.utf8EncodeChar
  dsimp only
  generalize c.val.toNat = v at hval
  split
  · exact newlineByte_notMem_map [v] (by simp; omega)
  · split
    · exact newlineByte_notMem_map [v / 64 % 32 + 192, v % 64 + 128] (by simp; omega)
    · split
      · exact newlineByte_notMem_map [v / 4096 % 16 + 224, v / 64 % 64 + 128, v % 64 + 128]
          (by simp; omega)
      · exact newlineByte_notMem_map
          [v / 262144 % 8 + 240, v / 4096 % 64 + 128, v / 64 % 64 + 128, v % 64 + 128]
          (by simp; omega)

/-- **The newline byte stands for a newline, and for nothing else.** -/
theorem count_bytes (cs : List Char) : (bytes cs).count newlineByte = cs.count '\n' := by
  induction cs with
  | nil => rfl
  | cons c cs ih =>
    have hbytes : bytes (c :: cs) = String.utf8EncodeChar c ++ bytes cs := List.flatMap_cons
    rw [hbytes, List.count_append, ih]
    by_cases hc : c = '\n'
    · subst hc
      rw [List.count_cons_self, Nat.add_comm]
      rfl
    · rw [List.count_eq_zero.mpr (newlineByte_notMem_utf8EncodeChar hc), Nat.zero_add,
        List.count_cons_of_ne hc]

/-! ## 2. Lines -/

/-- The lines of a text, each with its newline; the last one has none. -/
def lines : List Char → List (List Char)
  | [] => [[]]
  | c :: cs =>
    if c = '\n' then [c] :: lines cs else (c :: (lines cs).headD []) :: (lines cs).tail

theorem lines_newline (cs : List Char) : lines ('\n' :: cs) = ['\n'] :: lines cs := rfl

/-- A character that is no newline goes to the first line. -/
theorem lines_cons {c : Char} (hc : c ≠ '\n') {first : List Char} {rest : List (List Char)}
    (h : lines cs = first :: rest) : lines (c :: cs) = (c :: first) :: rest := by
  rw [lines, if_neg hc, h]
  rfl

theorem exists_lines (cs : List Char) : ∃ first rest, lines cs = first :: rest := by
  cases cs with
  | nil => exact ⟨[], [], rfl⟩
  | cons c cs =>
    rw [lines]
    split
    · exact ⟨_, _, rfl⟩
    · exact ⟨_, _, rfl⟩

/-- A text is split into lines: they make it up, all but the last end with their only newline, and
    the last has none. -/
structure Splits (cs : List Char) (ls : List (List Char)) : Prop where
  joined : ls.flatten = cs
  ended : ∀ line ∈ ls.dropLast, ∃ body, line = body ++ ['\n'] ∧ '\n' ∉ body
  last : ∃ line, ls.getLast? = some line ∧ '\n' ∉ line

theorem splits_lines (cs : List Char) : Splits cs (lines cs) := by
  induction cs with
  | nil => exact ⟨rfl, fun _ h => absurd h List.not_mem_nil, [], rfl, List.not_mem_nil⟩
  | cons c cs ih =>
    obtain ⟨first, rest, h⟩ := exists_lines cs
    rw [h] at ih
    obtain ⟨hjoined, hended, last, hlast, hnot⟩ := ih
    by_cases hc : c = '\n'
    · subst hc
      rw [lines_newline, h]
      refine ⟨?_, ?_, last, ?_, hnot⟩
      · rw [List.flatten_cons, hjoined]
        rfl
      · rw [List.dropLast_cons_cons]
        exact List.forall_mem_cons.mpr ⟨⟨[], rfl, List.not_mem_nil⟩, hended⟩
      · rw [List.getLast?_cons_cons, hlast]
    · rw [lines_cons hc h]
      have hflatten : ((c :: first) :: rest).flatten = c :: cs := by
        rw [← hjoined]
        rfl
      cases rest with
      | nil =>
        refine ⟨hflatten, fun _ h => absurd h List.not_mem_nil, c :: first, rfl, ?_⟩
        cases hlast
        exact List.not_mem_cons_of_ne_of_not_mem (Ne.symm hc) hnot
      | cons second rest =>
        rw [List.dropLast_cons_cons] at hended
        obtain ⟨⟨body, rfl, hbody⟩, hrest⟩ := List.forall_mem_cons.mp hended
        refine ⟨hflatten, ?_, last, ?_, hnot⟩
        · rw [List.dropLast_cons_cons]
          exact List.forall_mem_cons.mpr
            ⟨⟨c :: body, rfl, List.not_mem_cons_of_ne_of_not_mem (Ne.symm hc) hbody⟩, hrest⟩
        · rw [List.getLast?_cons_cons] at hlast ⊢
          exact hlast

namespace Splits

variable {line : List Char}

/-- A line that another one follows has one newline, at its end. -/
theorem ended_of_next (h : Splits cs ls) (hk : ls[k]? = some line) (hnext : k + 1 < ls.length) :
    ∃ body, line = body ++ ['\n'] ∧ '\n' ∉ body := by
  refine h.ended line (List.mem_of_getElem? (i := k) ?_)
  rw [List.getElem?_dropLast, if_pos (by omega), hk]

theorem notMem_of_last (h : Splits cs ls) (hk : ls[k]? = some line) (hlast : k + 1 = ls.length) :
    '\n' ∉ line := by
  obtain ⟨last, he, hnot⟩ := h.last
  rw [List.getLast?_eq_getElem?, ← hlast, Nat.add_sub_cancel, hk] at he
  cases he
  exact hnot

/-- **As many newlines as lines lie before a line.** -/
theorem count_take (h : Splits cs ls) (hk : k < ls.length) :
    (ls.take k).flatten.count '\n' = k := by
  have hone : ∀ n ∈ (ls.take k).map (List.count '\n'), n = 1 := by
    intro n hn
    obtain ⟨line, hline, rfl⟩ := List.mem_map.mp hn
    obtain ⟨j, hj, hget⟩ := List.mem_take_iff_getElem.mp hline
    obtain ⟨body, rfl, hbody⟩ :=
      h.ended_of_next (List.getElem?_eq_some_iff.mpr ⟨by omega, hget⟩) (by omega)
    rw [List.count_append, List.count_eq_zero.mpr hbody]
    rfl
  rw [List.count_flatten, List.eq_replicate_of_mem hone, List.sum_replicate_nat, List.length_map,
    List.length_take, Nat.min_eq_left (Nat.le_of_lt hk), Nat.mul_one]

theorem length_eq (h : Splits cs ls) : ls.length = cs.count '\n' + 1 := by
  obtain ⟨last, he, hnot⟩ := h.last
  obtain ⟨init, rfl⟩ := List.getLast?_eq_some_iff.mp he
  have hcount := h.count_take (k := init.length) (by simp)
  rw [List.take_left] at hcount
  rw [← h.joined, List.flatten_append, List.count_append, hcount, List.flatten_singleton,
    List.count_eq_zero.mpr hnot, List.length_append]
  rfl

/-- The text around a line. -/
theorem around (h : Splits cs ls) (hk : ls[k]? = some line) :
    cs = (ls.take k).flatten ++ (line ++ (ls.drop (k + 1)).flatten) := by
  obtain ⟨hlt, hget⟩ := List.getElem?_eq_some_iff.mp hk
  rw [← List.flatten_cons, ← hget, List.getElem_cons_drop, ← List.flatten_append,
    List.take_append_drop, h.joined]

theorem bytes_around (h : Splits cs ls) (hk : ls[k]? = some line) :
    bytes cs = bytes (ls.take k).flatten ++ bytes (line ++ (ls.drop (k + 1)).flatten) := by
  rw [← bytes_append, ← h.around hk]

theorem byteSize_take_succ (hk : ls[k]? = some line) :
    byteSize (ls.take (k + 1)).flatten = byteSize (ls.take k).flatten + byteSize line := by
  rw [List.take_add_one, hk, List.flatten_append, byteSize_append]
  simp

end Splits

/-! ## 3. Line starts -/

/-- Where lines begin that stand one behind the other from an offset on. -/
def startsOf (offset : Nat) : List (List Char) → List Nat
  | [] => []
  | line :: rest => offset :: startsOf (offset + byteSize line) rest

theorem startsOf_getElem? (offset : Nat) (ls : List (List Char)) (k : Nat) :
    (startsOf offset ls)[k]? = ls[k]?.map fun _ => offset + byteSize (ls.take k).flatten := by
  induction ls generalizing offset k with
  | nil => rfl
  | cons line rest ih =>
    cases k with
    | zero => rfl
    | succ k =>
      rw [startsOf, List.getElem?_cons_succ, ih, List.getElem?_cons_succ, List.take_succ_cons,
        List.flatten_cons, byteSize_append, Nat.add_assoc]

/-- Scanning the characters finds the starts of the lines. -/
theorem startsBehindNewlines_eq (offset : Nat) (cs : List Char) :
    offset :: startsBehindNewlines offset cs = startsOf offset (lines cs) := by
  induction cs generalizing offset with
  | nil => rfl
  | cons c cs ih =>
    have ih := ih (offset + c.utf8Size)
    by_cases hc : c = '\n'
    · subst hc
      rw [lines_newline, startsOf]
      exact congrArg (offset :: ·) ih
    · obtain ⟨first, rest, h⟩ := exists_lines cs
      rw [h, startsOf] at ih
      rw [lines_cons hc h, startsOf, startsBehindNewlines, if_neg hc, (List.cons.inj ih).2,
        byteSize_cons, Nat.add_assoc]

/-- **A line starts behind the bytes of the lines before it.** -/
theorem lineStarts_getElem? (cs : List Char) (k : Nat) :
    (lineStarts cs)[k]? =
      (lines cs)[k]?.map fun _ => byteSize ((lines cs).take k).flatten := by
  rw [lineStarts, startsBehindNewlines_eq, startsOf_getElem?]
  simp only [Nat.zero_add]

/-- **Looking a line up gives the line.** -/
theorem line?_eq (cs : List Char) (k : Nat) : line? cs k = (lines cs)[k]? := by
  have hsplits := splits_lines cs
  unfold line?
  dsimp only
  rw [lineStarts_getElem?, lineStarts_getElem?]
  cases hk : (lines cs)[k]? with
  | none => rfl
  | some line =>
    have hstop : ((lines cs)[k + 1]?.map fun _ => byteSize ((lines cs).take (k + 1)).flatten).getD
        (byteSize cs) = byteSize ((lines cs).take k).flatten + byteSize line := by
      rw [← Splits.byteSize_take_succ hk]
      cases hnext : (lines cs)[k + 1]? with
      | none =>
        rw [List.take_of_length_le (List.getElem?_eq_none_iff.mp hnext), hsplits.joined]
        rfl
      | some next => rfl
    have hslice := slice?_append ((lines cs).take k).flatten line ((lines cs).drop (k + 1)).flatten
    rw [← hsplits.around hk] at hslice
    rw [hstop]
    exact hslice

/-! ## 4. Searching -/

/-- What searching an ordered list for a number answers: a place where it stands, or the place
    before which it would have to be put. -/
inductive Searched (starts : List Nat) (i : Nat) : Except Nat Nat → Prop where
  | found {k : Nat} (h : starts[k]? = some i) : Searched starts i (.ok k)
  | missing {k : Nat} (hk : k ≤ starts.length)
      (below : ∀ j start, j < k → starts[j]? = some start → start < i)
      (above : ∀ j start, k ≤ j → starts[j]? = some start → i < start) :
      Searched starts i (.error k)

/-- Later lines start at greater offsets. -/
theorem lineStarts_lt {j start stop : Nat} (hj : (lineStarts cs)[j]? = some start)
    (hk : (lineStarts cs)[k]? = some stop) (hlt : j < k) : start < stop := by
  rw [lineStarts_getElem?] at hj hk
  obtain ⟨line, hline, rfl⟩ := Option.map_eq_some_iff.mp hj
  obtain ⟨later, hlater, rfl⟩ := Option.map_eq_some_iff.mp hk
  have hlen : k < (lines cs).length := (List.getElem?_eq_some_iff.mp hlater).1
  -- the earlier line holds its newline at least
  obtain ⟨body, rfl, -⟩ := (splits_lines cs).ended_of_next hline (by omega)
  have hfront : (lines cs).take k =
      (lines cs).take (j + 1) ++ ((lines cs).drop (j + 1)).take (k - (j + 1)) := by
    rw [← List.take_add, Nat.add_sub_cancel' hlt]
  rw [hfront, List.flatten_append, byteSize_append, Splits.byteSize_take_succ hline,
    byteSize_append]
  have hpos : 0 < byteSize ['\n'] := by decide
  omega

/-- The line that a search of the line starts stands for. -/
def lineOf : Except Nat Nat → Nat
  | .ok k => k
  | .error k => k - 1

/-- **Every search of the line starts finds the line of the offset**: the one that starts there, or
    the one before the place of the offset. -/
theorem locate_of_searched {answer : Except Nat Nat} (h : Searched (lineStarts cs) i answer) :
    (locate cs i).1 = lineOf answer := by
  obtain ⟨start, hstart, hplace, hnext⟩ := locate_spec cs i
  have hlen : (locate cs i).1 < (lineStarts cs).length := (List.getElem?_eq_some_iff.mp hstart).1
  cases h with
  | @found k hk =>
    rcases Nat.lt_trichotomy (locate cs i).1 k with hlt | heq | hgt
    · obtain ⟨next, hget⟩ : ∃ next, (lineStarts cs)[(locate cs i).1 + 1]? = some next := by
        have := (List.getElem?_eq_some_iff.mp hk).1
        exact ⟨_, List.getElem?_eq_getElem (by omega)⟩
      have hlater := hnext next hget
      rcases Nat.eq_or_lt_of_le (Nat.succ_le_of_lt hlt) with rfl | hlt
      · cases hget.symm.trans hk
        exact absurd hlater (Nat.lt_irrefl _)
      · have := lineStarts_lt hget hk hlt
        omega
    · exact heq
    · have := lineStarts_lt hk hstart hgt
      omega
  | @missing k hk below above =>
    show (locate cs i).1 = k - 1
    rcases Nat.lt_trichotomy (locate cs i).1 (k - 1) with hlt | heq | hgt
    · obtain ⟨next, hget⟩ : ∃ next, (lineStarts cs)[(locate cs i).1 + 1]? = some next :=
        ⟨_, List.getElem?_eq_getElem (by omega)⟩
      have := below _ _ (by omega) hget
      have := hnext next hget
      omega
    · exact heq
    · have := above _ _ (by omega) hstart
      omega

/-! ## 5. Offsets -/

/-- The offset just behind the newline number `l`, or the start of the text for the first line. -/
def StartsLine (cs : List Char) : (l start : Nat) → Prop
  | 0, start => start = 0
  | l + 1, start => ∃ before after, bytes cs = before ++ newlineByte :: after ∧
      before.count newlineByte = l ∧ start = before.length + 1

theorem Splits.startsLine (h : Splits cs ls) (hk : k < ls.length) :
    StartsLine cs k (byteSize (ls.take k).flatten) := by
  cases k with
  | zero => rfl
  | succ k =>
    obtain ⟨line, hline⟩ : ∃ line, ls[k]? = some line := ⟨_, List.getElem?_eq_getElem (by omega)⟩
    obtain ⟨body, rfl, hbody⟩ := h.ended_of_next hline hk
    refine ⟨bytes ((ls.take k).flatten ++ body), bytes (ls.drop (k + 1)).flatten, ?_, ?_, ?_⟩
    · rw [h.bytes_around hline]
      simp only [bytes_append, List.append_assoc]
      rfl
    · rw [count_bytes, List.count_append, h.count_take (by omega), List.count_eq_zero.mpr hbody]
      rfl
    · rw [Splits.byteSize_take_succ hline, length_bytes, byteSize_append, byteSize_append,
        Nat.add_assoc]
      rfl

/-- No newline lies between the start of a line and an offset before its end. -/
theorem Splits.count_front (h : Splits cs ls) {line : List Char} (hk : ls[k]? = some line) {p : Nat}
    (hp : k + 1 < ls.length → p < byteSize line) :
    ((bytes (line ++ (ls.drop (k + 1)).flatten)).take p).count newlineByte = 0 := by
  have hlen : k < ls.length := (List.getElem?_eq_some_iff.mp hk).1
  -- what is cut off is a front part of a text without newlines
  obtain ⟨body, hbody, hfront⟩ : ∃ body, '\n' ∉ body ∧
      ∃ q, (bytes (line ++ (ls.drop (k + 1)).flatten)).take p = (bytes body).take q := by
    by_cases hnext : k + 1 < ls.length
    · obtain ⟨body, rfl, hbody⟩ := h.ended_of_next hk hnext
      have hp := hp hnext
      rw [byteSize_append] at hp
      have hone : byteSize ['\n'] = 1 := by decide
      refine ⟨body, hbody, p, ?_⟩
      rw [List.append_assoc, bytes_append, List.take_append_of_le_length]
      rw [length_bytes]
      omega
    · refine ⟨line, h.notMem_of_last hk (by omega), p, ?_⟩
      rw [List.drop_of_length_le (by omega), List.flatten_nil, List.append_nil]
  obtain ⟨q, hfront⟩ := hfront
  rw [hfront]
  have hle := (List.take_sublist q (bytes body)).count_le newlineByte
  rw [count_bytes, List.count_eq_zero.mpr hbody] at hle
  omega

/-- An offset, its line and the place in the line, all told by bytes. -/
structure Located (cs : List Char) (i l p : Nat) : Prop where
  /-- The line counts the newlines before the offset. -/
  line : l = ((bytes cs).take i).count newlineByte
  /-- The place counts from the start of the line. -/
  place : ∃ start, StartsLine cs l start ∧ start + p = i
  /-- A search of the line starts finds the line. -/
  searched : ∀ answer, Searched (lineStarts cs) i answer → l = lineOf answer
  /-- What lies before an offset of the text is the lines before and the front of its line. -/
  front : i ≤ (bytes cs).length → ∃ line, line? cs l = some line ∧ p ≤ (bytes line).length ∧
    (bytes cs).take i = bytes ((lines cs).take l).flatten ++ (bytes line).take p

theorem located (cs : List Char) (i : Nat) : Located cs i (locate cs i).1 (locate cs i).2 := by
  have hsplits := splits_lines cs
  obtain ⟨start, hstart, hplace, hnext⟩ := locate_spec cs i
  rw [lineStarts_getElem?] at hstart
  obtain ⟨line, hline, rfl⟩ := Option.map_eq_some_iff.mp hstart
  have hlen : (locate cs i).1 < (lines cs).length := (List.getElem?_eq_some_iff.mp hline).1
  have hstop : (locate cs i).1 + 1 < (lines cs).length → (locate cs i).2 < byteSize line := by
    intro hlt
    have hstop : (lineStarts cs)[(locate cs i).1 + 1]? =
        some (byteSize ((lines cs).take (locate cs i).1).flatten + byteSize line) := by
      rw [lineStarts_getElem?, List.getElem?_eq_getElem hlt, Splits.byteSize_take_succ hline]
      rfl
    have := hnext _ hstop
    omega
  have htake : (bytes cs).take i = bytes ((lines cs).take (locate cs i).1).flatten ++
      (bytes (line ++ ((lines cs).drop ((locate cs i).1 + 1)).flatten)).take (locate cs i).2 := by
    rw [hsplits.bytes_around hline, ← List.take_length_add_append, length_bytes, hplace]
  refine ⟨?_, ⟨_, hsplits.startsLine hlen, hplace⟩, fun answer => locate_of_searched, fun hi => ?_⟩
  · rw [htake, List.count_append, hsplits.count_front hline hstop, count_bytes,
      hsplits.count_take hlen, Nat.add_zero]
  · have hp : (locate cs i).2 ≤ byteSize line := by
      by_cases hlt : (locate cs i).1 + 1 < (lines cs).length
      · exact Nat.le_of_lt (hstop hlt)
      · rw [length_bytes, hsplits.around hline, List.drop_of_length_le (by omega)] at hi
        simp only [List.flatten_nil, List.append_nil, byteSize_append] at hi
        omega
    refine ⟨line, (line?_eq cs _).trans hline, by rwa [length_bytes], ?_⟩
    rw [htake, bytes_append, List.take_append_of_le_length (by rwa [length_bytes])]

/-- **The line index.** A text is split into lines, one more than it has newlines, and looking up a
    line gives it; every byte offset, also one past the end, has a line and a place in it. -/
theorem locate_lines (cs : List Char) :
    Splits cs (lines cs) ∧ (∀ k, line? cs k = (lines cs)[k]?) ∧
      (∀ k, (line? cs k).isSome = true ↔ k ≤ (bytes cs).count newlineByte) ∧
      ∀ i, Located cs i (locate cs i).1 (locate cs i).2 := by
  refine ⟨splits_lines cs, line?_eq cs, fun k => ?_, located cs⟩
  rw [line?_eq, isSome_getElem?, (splits_lines cs).length_eq, count_bytes]
  exact Nat.lt_succ_iff

-- Byte 2 lies inside the second letter, byte 4 behind the newline, byte 9 past the end.
example : [2, 4, 9].map (locate "aé\n".toList) = [(0, 2), (1, 0), (1, 5)] := by decide

end FormulaGraph.Text
