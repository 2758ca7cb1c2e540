/-
  File:      FormulaGraph/Proofs/Grammar/Names.lean
  Subject:   The names in a formula are words.

  The parser takes the names of symbols and functions from word tokens, and the scanner begins and
  continues a word as `startsWord` and `continuesWord` say. So a name has no blank, no quote and no
  punctuation in it.

  * `Token.IsWord` -- a name that the scanner reads as a word; `isWord_of_mem_scan`;
  * `Shape.names` -- the names of symbols and functions in a formula;
  * `Grammar.Sum.names_words` -- in a derived tree they come from word tokens;
  * `Formula.isWord_of_parse` -- what a text is read as has no other names.
-/
import FormulaGraph.Proofs.Grammar.Recognition
import FormulaGraph.Proofs.Token.Tiling

namespace FormulaGraph

/-! ## 1. Words -/

namespace Token

/-- A name that begins and goes on as words do. -/
def IsWord (name : String) : Prop :=
  ∃ c rest, name.toList = c :: rest ∧ startsWord c = true ∧ ∀ d ∈ rest, continuesWord d = true

instance (name : String) : Decidable (IsWord name) :=
  match h : name.toList with
  | [] => isFalse fun ⟨_, _, hname, _⟩ => absurd (h.symm.trans hname) (List.cons_ne_nil _ _).symm
  | c :: rest =>
    decidable_of_iff (startsWord c = true ∧ rest.all continuesWord = true)
      ⟨fun hc => ⟨c, rest, h, hc.1, List.all_eq_true.mp hc.2⟩,
        fun ⟨_, _, hname, hstarts, hrest⟩ => by
          cases h.symm.trans hname
          exact ⟨hstarts, List.all_eq_true.mpr hrest⟩⟩

theorem continuesWord_of_startsWord {c : Char} (h : startsWord c = true) :
    continuesWord c = true := by
  rcases Bool.or_eq_true_iff.mp h with hletter | hmark
  · simp [continuesWord, hletter]
  · simp [continuesWord, hmark]

/-- All characters of a word may continue a word. -/
theorem IsWord.continues {name : String} (h : IsWord name) :
    ∀ c ∈ name.toList, continuesWord c = true := by
  obtain ⟨c, rest, hname, hstarts, hrest⟩ := h
  rw [hname]
  exact List.forall_mem_cons.mpr ⟨continuesWord_of_startsWord hstarts, hrest⟩

/-- A character that no word goes on with is in no word. -/
theorem IsWord.notMem {name : String} (h : IsWord name) {c : Char} (hc : continuesWord c = false) :
    c ∉ name.toList := by
  intro hm
  have hcontinues := h.continues c hm
  rw [hc] at hcontinues
  cases hcontinues

/-- The rule for words gives words, and no other rule gives a word token. -/
theorem Rule.isWord {c : Char} {rest text more : List Char} {kind : TokenKind} {name : String}
    (h : Rule c rest kind text more) (hkind : kind = .word name) : IsWord name := by
  cases h with
  | number => exact absurd hkind ((numberKind_kind _).1 name)
  | word _ starts =>
    cases hkind
    exact ⟨c, _, String.toList_ofList, starts, List.all_eq_true.mp List.all_takeWhile⟩
  | blank => cases hkind
  | mark _ _ _ found => exact absurd hkind ((mark?_kind found).1 name)
  | bad => cases hkind

theorem Scans.isWord {offset : Nat} {cs : List Char} {ts : List Token} (h : Scans offset cs ts) :
    ∀ t ∈ ts, ∀ name, t.kind = .word name → IsWord name := by
  induction h with
  | nil => exact fun t ht => absurd ht List.not_mem_nil
  | cons first _ ih => exact List.forall_mem_cons.mpr ⟨fun name hkind => first.isWord hkind, ih⟩

theorem isWord_of_mem_scan {cs : List Char} {t : Token} {name : String} (ht : t ∈ scan cs)
    (hkind : t.kind = .word name) : IsWord name := (scans_scan cs).isWord t ht name hkind

end Token

/-! ## 2. Names -/

namespace Shape

mutual
/-- The names of symbols and functions, from left to right. -/
def names : Shape → List String
  | integer _ => []
  | float _ => []
  | symbol name => [name]
  | binary _ left right => left.names ++ right.names
  | negative operand => operand.names
  | call name arguments => name :: namesAll arguments
  | group inner => inner.names

def namesAll : List Shape → List String
  | [] => []
  | s :: ss => s.names ++ namesAll ss
end

end Shape

namespace Grammar

/-- All names are those of word tokens. -/
def Words (ts : List Token) (names : List String) : Prop :=
  ∀ name ∈ names, ∃ t ∈ ts, t.kind = .word name

theorem Words.mono {ts us : List Token} {names : List String} (h : Words ts names) (hs : ts ⊆ us) :
    Words us names := by
  intro name hn
  obtain ⟨t, ht, hkind⟩ := h name hn
  exact ⟨t, hs ht, hkind⟩

theorem Words.append {ts us : List Token} {names more : List String} (h : Words ts names)
    (h' : Words us more) (t : Token) : Words (ts ++ t :: us) (names ++ more) := by
  intro name hn
  rcases List.mem_append.mp hn with hn | hn
  · exact h.mono (List.subset_append_left _ _) name hn
  · exact h'.mono
      (List.Subset.trans (List.subset_cons_self t us) (List.subset_append_right _ _)) name hn

/-- A name in front of a parenthesis, and the names inside. -/
theorem Words.call {t o c : Token} {ts : List Token} {name : String} {names : List String}
    (ht : t.kind = .word name) (h : Words ts names) :
    Words (t :: o :: (ts ++ [c])) (name :: names) := by
  refine List.forall_mem_cons.mpr ⟨⟨t, List.mem_cons_self, ht⟩, h.mono ?_⟩
  exact fun u hu => List.mem_cons_of_mem _ (List.mem_cons_of_mem _ (List.mem_append_left _ hu))

theorem words_nil (ts : List Token) : Words ts [] := fun _ hn => absurd hn List.not_mem_nil

mutual
/-- **The names in a derived tree come from word tokens.** -/
theorem Sum.names_words : ∀ {ts : List Token} {s : Shape}, Sum ts s → Words ts s.names
  | _, _, .term h => h.names_words
  | _, _, .step h _ hr => h.names_words.append hr.names_words _

theorem Term.names_words : ∀ {ts : List Token} {s : Shape}, Term ts s → Words ts s.names
  | _, _, .factor h => h.names_words
  | _, _, .step h _ hr => h.names_words.append hr.names_words _

theorem Factor.names_words : ∀ {ts : List Token} {s : Shape}, Factor ts s → Words ts s.names
  | _, _, .minus _ h => h.names_words.mono (List.subset_cons_self _ _)
  | _, _, .plus _ h => h.names_words.mono (List.subset_cons_self _ _)
  | _, _, .power h => h.names_words

theorem Power.names_words : ∀ {ts : List Token} {s : Shape}, Power ts s → Words ts s.names
  | _, _, .primary h => h.names_words
  | _, _, .step h _ hr => h.names_words.append hr.names_words _

theorem Primary.names_words : ∀ {ts : List Token} {s : Shape}, Primary ts s → Words ts s.names
  | _, _, .integer _ => words_nil _
  | _, _, .float _ => words_nil _
  | _, _, .symbol ht => List.forall_mem_singleton.mpr ⟨_, List.mem_singleton_self _, ht⟩
  | _, _, .emptyCall ht _ _ => Words.call ht (words_nil [])
  | _, _, .call ht _ h _ => Words.call ht h.names_words
  | _, _, .group _ h _ => h.names_words.mono
      (List.Subset.trans (List.subset_append_left _ _) (List.subset_cons_self _ _))

theorem Arguments.names_words : ∀ {ts : List Token} {args : List Shape}, Arguments ts args →
    Words ts (Shape.namesAll args)
  | _, _, .one h => by
      rw [Shape.namesAll, Shape.namesAll, List.append_nil]
      exact h.names_words
  | _, _, .more h _ hr => h.names_words.append hr.names_words _
end

end Grammar

/-- **The names of a formula that was read are words.** -/
theorem Formula.isWord_of_parse {cs : List Char} {f : Formula} (h : parse cs = .ok f) :
    ∀ name ∈ f.shape.names, Token.IsWord name := by
  intro name hn
  have hsum : Grammar.Sum (Grammar.tokens cs) f.shape := ofTokens_sound rfl h
  obtain ⟨t, ht, hkind⟩ := hsum.names_words name hn
  exact Token.isWord_of_mem_scan (List.mem_of_mem_filter ht) hkind

end FormulaGraph
