/-
  File:      FormulaGraph/Proofs/Json/Record.lean
  Subject:   Records that are written are taken apart again.

  A record is written with field names that need no escaping and differ from each other. All that
  the readers check of an object follows from these two facts, so it is proved here once for every
  record, with a tag and without.

  * `IsHeader` -- names that may head the fields of a record;
  * `fields?_record` -- the fields of a record;
  * `tagged?_record` -- its tag and the rest, if everything in it has a meaning;
  * `text?_ofText`, `id?_ofNat`, `doubleOf?_ofDouble` -- the values of fields.
-/
import Mathlib.Data.List.Nodup
import FormulaGraph.Assoc
import FormulaGraph.Plan.Script
import FormulaGraph.Proofs.Json.Reader

namespace FormulaGraph.Json

variable {fields : List (String × Json)}

/-- A character that stands for itself in a string. -/
def isPlain (c : Char) : Bool := 32 ≤ c.toNat && c != '"' && c != '\\'

/-- Names that differ and need no escaping. -/
def IsHeader (names : List String) : Prop :=
  names.Nodup ∧ (names.all fun name => name.toList.all isPlain) = true

instance (names : List String) : Decidable (IsHeader names) := inferInstanceAs (Decidable (_ ∧ _))

theorem IsHeader.plain {names : List String} (h : IsHeader names) {name : String}
    (hn : name ∈ names) : ∀ c ∈ name.toList, 32 ≤ c.toNat ∧ c ≠ '"' ∧ c ≠ '\\' := by
  intro c hc
  have hplain := List.all_eq_true.mp (List.all_eq_true.mp h.2 name hn) c hc
  simp only [isPlain, Bool.and_eq_true, decide_eq_true_eq, bne_iff_ne] at hplain
  exact ⟨hplain.1.1, hplain.1.2, hplain.2⟩

theorem IsHeader.unescape?_eq {names : List String} (h : IsHeader names) {name : String}
    (hn : name ∈ names) : unescape? name.toList = some name.toList :=
  unescape?_of_plain fun hc => (h.plain hn '\\' hc).2.2 rfl

theorem IsHeader.sublist {names names' : List String} (h : IsHeader names)
    (hs : names'.Sublist names) : IsHeader names' :=
  ⟨h.1.sublist hs, List.all_eq_true.mpr fun name hn => List.all_eq_true.mp h.2 name (hs.subset hn)⟩

theorem IsHeader.tail {name : String} {names : List String} (h : IsHeader (name :: names)) :
    IsHeader names :=
  h.sublist (List.sublist_cons_self name names)

/-! ## 1. Values of fields -/

@[simp] theorem nesting_ofText (text : String) : (ofText text).nesting = 0 := rfl

@[simp] theorem nesting_ofNat (n : Nat) : (ofNat n).nesting = 0 := rfl

@[simp] theorem nesting_bool (value : Bool) : (bool value).nesting = 0 := rfl

@[simp] theorem nesting_ofDouble (x : Float) : (ofDouble x).nesting = 0 := by
  unfold ofDouble
  split <;> rfl

@[simp] theorem text?_ofText (text : String) : (ofText text).text? = some text := by
  show (unescape? (escape text.toList)).map String.ofList = some text
  rw [unescape?_escape, Option.map_some, String.ofList_toList]

@[simp] theorem name?_ofText (withinTagged : Bool) (text : String) :
    (ofText text).name? withinTagged = some text := by
  have hchoice : (ofText text).choice? = some (text, none) := by
    show ((ofText text).text?).map (·, none) = _
    rw [text?_ofText, Option.map_some]
  unfold name?
  rw [hchoice]
  rfl

@[simp] theorem isSound_ofText (text : String) : (ofText text).isSound = true := by
  show (unescape? (escape text.toList)).isSome = true
  rw [unescape?_escape]
  rfl

@[simp] theorem isSound_bool (value : Bool) : (bool value).isSound = true := rfl

theorem id?_ofNat {n : Nat} (h : n ≤ greatestId) : (ofNat n).id? = some n := natural?_toDigits h

theorem isSound_ofNat {n : Nat} (h : n ≤ greatestId) : (ofNat n).isSound = true := by
  have hlt : n < 2 ^ 64 := Nat.lt_of_le_of_lt h (by decide)
  exact double?_toDigits hlt

/-- What a double is after it was written and read. -/
def reread? (x : Float) : Option Float :=
  if (Double.ofFloat x).isFinite then double? (Layout.script.render x).toList else none

@[simp] theorem doubleOf?_ofDouble (x : Float) : (ofDouble x).doubleOf? = reread? x := by
  unfold ofDouble reread?
  split <;> rfl

/-- What has no meaning is not read; `null` has one, but is no double. -/
theorem reread?_eq_none {x : Float} (h : (ofDouble x).isSound = false) : reread? x = none := by
  unfold ofDouble at h
  unfold reread?
  split at h
  · rename_i hfinite
    rw [if_pos hfinite]
    exact Option.isNone_iff_eq_none.mp (Option.isSome_eq_false_iff.mp h)
  · cases h

theorem legible_ofText (text : String) : (ofText text).Legible := scans_escape text.toList

theorem legible_ofNat (n : Nat) : (ofNat n).Legible := isNumber_toDigits n

theorem legible_ofDouble (x : Float) : (ofDouble x).Legible := by
  unfold ofDouble
  split
  · rename_i hfinite
    exact isNumber_render Layout.script hfinite
  · trivial

theorem legible_array {items : List Json} (h : ∀ item ∈ items, item.Legible) :
    (array items).Legible := by
  show LegibleItems items
  induction items with
  | nil => trivial
  | cons item items ih =>
    obtain ⟨hitem, hitems⟩ := List.forall_mem_cons.mp h
    exact ⟨hitem, ih hitems⟩

/-! ## 2. Fields -/

theorem members?_record (fields : List (String × Json)) (h : IsHeader (fields.map Prod.fst)) :
    members? (fields.map fun f => (f.1.toList, f.2)) = some fields := by
  induction fields with
  | nil => rfl
  | cons f fields ih =>
    have hkey : unescape? f.1.toList = some f.1.toList := h.unescape?_eq List.mem_cons_self
    have hrest := ih h.tail
    unfold members? at hrest ⊢
    rw [List.map_cons, List.mapM_cons, hrest, hkey]
    simp

/-- A name heads one field at most. -/
theorem countP_header_le (fields : List (String × Json)) (h : IsHeader (fields.map Prod.fst))
    (name : String) :
    fields.countP (·.1 == name) ≤ 1 := by
  have hcount := List.nodup_iff_count_le_one.mp h.1 name
  rw [List.count, List.countP_map] at hcount
  exact hcount

/-- **The fields of a record.** -/
theorem fields?_record (names : List String) (h : IsHeader (fields.map Prod.fst)) :
    fields? names (record fields) = some fields := by
  unfold record fields?
  dsimp only
  rw [members?_record fields h]
  show (if _ then some fields else none) = _
  rw [if_pos (List.all_eq_true.mpr fun name _ => decide_eq_true (countP_header_le fields h name))]

/-- The field of a name. -/
theorem lookup_field {name : String} {value : Json} (h : IsHeader (fields.map Prod.fst))
    (hm : (name, value) ∈ fields) : fields.lookup name = some value :=
  Assoc.lookup_of_mem h.1 hm

theorem isSound_record (fields : List (String × Json)) (h : IsHeader (fields.map Prod.fst)) :
    (record fields).isSound = fields.all (·.2.isSound) := by
  show membersSound _ = _
  induction fields with
  | nil => rfl
  | cons f fields ih =>
    have hkey : unescape? f.1.toList = some f.1.toList := h.unescape?_eq List.mem_cons_self
    rw [List.map_cons, membersSound, hkey, ih h.tail, List.all_cons]
    rfl

theorem nesting_record_le {k : Nat} (h : ∀ f ∈ fields, f.2.nesting ≤ k) :
    (record fields).nesting ≤ k + 1 := by
  have hmembers : nestingMembers (fields.map fun f => (f.1.toList, f.2)) ≤ k := by
    induction fields with
    | nil => exact Nat.zero_le k
    | cons f fields ih =>
      obtain ⟨hf, hfields⟩ := List.forall_mem_cons.mp h
      exact Nat.max_le.mpr ⟨hf, ih hfields⟩
  exact Nat.add_le_add_right hmembers 1

theorem legible_record (h : IsHeader (fields.map Prod.fst)) (hf : ∀ f ∈ fields, f.2.Legible) :
    (record fields).Legible := by
  show LegibleMembers _
  induction fields with
  | nil => trivial
  | cons f fields ih =>
    obtain ⟨hvalue, hfields⟩ := List.forall_mem_cons.mp hf
    exact ⟨scans_of_plain (h.plain List.mem_cons_self), hvalue, ih h.tail hfields⟩

/-- Looking for another name drops no member. -/
theorem filter_record {tag : String} (h : IsHeader (tag :: fields.map Prod.fst)) :
    (fields.map fun f => (f.1.toList, f.2)).filter (fun m => unescape? m.1 != some tag.toList) =
      fields.map fun f => (f.1.toList, f.2) := by
  refine List.filter_eq_self.mpr fun m hm => ?_
  obtain ⟨f, hf, rfl⟩ := List.mem_map.mp hm
  have hname : f.1 ∈ fields.map Prod.fst := List.mem_map_of_mem hf
  have hkey : unescape? f.1.toList = some f.1.toList := h.tail.unescape?_eq hname
  have hne : f.1 ≠ tag := fun he => (List.nodup_cons.mp h.1).1 (he ▸ hname)
  rw [hkey, bne_iff_ne]
  exact fun he => hne (String.toList_inj.mp (Option.some.inj he))

/-- **The tag of a record and the rest.** A record in which something has no meaning is refused. -/
theorem tagged?_record {tag name : String} (h : IsHeader (tag :: fields.map Prod.fst))
    (hnesting : ∀ f ∈ fields, f.2.nesting ≤ 1) :
    tagged? tag (record ((tag, ofText name) :: fields)) =
      if fields.all (·.2.isSound) then some (name, record fields) else none := by
  have hdeep : (record ((tag, ofText name) :: fields)).nesting ≤ 2 :=
    nesting_record_le (List.forall_mem_cons.mpr ⟨Nat.zero_le 1, hnesting⟩)
  have hlimit : (record ((tag, ofText name) :: fields)).nesting + 2 ≤ nestingLimit :=
    Nat.le_trans (Nat.add_le_add_right hdeep 2) (by decide)
  have hsound : (record ((tag, ofText name) :: fields)).isSound = fields.all (·.2.isSound) := by
    rw [isSound_record ((tag, ofText name) :: fields) h, List.all_cons, isSound_ofText,
      Bool.true_and]
  have hcount : ((tag, ofText name) :: fields).countP (·.1 == tag) = 1 := by
    have hle := countP_header_le ((tag, ofText name) :: fields) h tag
    rw [List.countP_cons, if_pos (beq_self_eq_true tag)] at hle ⊢
    omega
  have hlookup : ((tag, ofText name) :: fields).lookup tag = some (ofText name) :=
    List.lookup_cons_self
  have hfilter : (((tag, ofText name) :: fields).map fun f => (f.1.toList, f.2)).filter
      (fun m => unescape? m.1 != some tag.toList) = fields.map fun f => (f.1.toList, f.2) := by
    rw [List.map_cons, List.filter_cons_of_neg, filter_record h]
    rw [h.unescape?_eq List.mem_cons_self, bne_self_eq_false]
    exact Bool.false_ne_true
  unfold tagged?
  rw [hsound, decide_eq_true hlimit, Bool.and_true]
  split
  · show (members? (((tag, ofText name) :: fields).map fun f => (f.1.toList, f.2)) >>= fun keys =>
      if keys.countP (·.1 == tag) = 1 then
        (keys.lookup tag).bind text? >>= fun name => pure (name, object _)
      else none) = _
    rw [members?_record ((tag, ofText name) :: fields) h, hfilter]
    show (if _ then _ else _) = _
    rw [if_pos hcount, hlookup, Option.bind_some, text?_ofText]
    rfl
  · rfl

theorem tagged?_of_sound {tag name : String} (h : IsHeader (tag :: fields.map Prod.fst))
    (hnesting : ∀ f ∈ fields, f.2.nesting ≤ 1) (hsound : ∀ f ∈ fields, f.2.isSound = true) :
    tagged? tag (record ((tag, ofText name) :: fields)) = some (name, record fields) :=
  (tagged?_record h hnesting).trans (if_pos (List.all_eq_true.mpr hsound))

theorem legible_tagged {tag name : String} (h : IsHeader (tag :: fields.map Prod.fst))
    (hf : ∀ f ∈ fields, f.2.Legible) : (record ((tag, ofText name) :: fields)).Legible :=
  legible_record h (List.forall_mem_cons.mpr ⟨legible_ofText name, hf⟩)

end FormulaGraph.Json
