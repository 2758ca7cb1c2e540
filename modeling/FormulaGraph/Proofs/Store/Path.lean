/-
  File:      FormulaGraph/Proofs/Store/Path.lean
  Subject:   What the text of a path tells about the node it names.

  The store compares paths as texts: a node lies below another if its path begins with the other's
  path and a slash, a port belongs to a node if it begins with the node's path and a point. That
  this is the relation of containers and contents depends on the names.

  * `IsSegment`, `IsPlain` -- names without a slash, and without a slash or a point;
  * `covers_childPath` -- among segments, what a node covers is itself and what is put below it;
  * `isWithin_portPath`, `isPortOf_portPath` -- among plain names, a port lies where its node lies,
    and belongs to no other node.
-/
import Mathlib.Data.List.Basic
import FormulaGraph.Store.Calls

namespace FormulaGraph

open Store (addedInput covers inputName outputName)

/-! ## 1. Names -/

/-- A name that can stand between two slashes. -/
def IsSegment (name : String) : Prop := name ≠ "" ∧ '/' ∉ name.toList

/-- A segment without a point, so that the point in front of a port's name is the first one. -/
def IsPlain (name : String) : Prop := IsSegment name ∧ '.' ∉ name.toList

instance (name : String) : Decidable (IsSegment name) := inferInstanceAs (Decidable (_ ∧ _))

instance (name : String) : Decidable (IsPlain name) := inferInstanceAs (Decidable (_ ∧ _))

theorem IsPlain.isSegment {name : String} (h : IsPlain name) : IsSegment name := h.1

@[simp] theorem toList_numberedName (base : String) (k : Nat) :
    (numberedName base k).toList = base.toList ++ '_' :: Nat.toDigits 10 k := by
  have h : numberedName base k = base ++ "_" ++ k.repr := rfl
  simp [h]

/-- A number brings only digits into a name. -/
theorem notMem_numberedName {base : String} {k : Nat} {c : Char} (h : c ∉ base.toList)
    (hc : c ≠ '_') (hd : c.isDigit = false) : c ∉ (numberedName base k).toList := by
  rw [toList_numberedName, List.mem_append, List.mem_cons]
  rintro (hb | rfl | hk)
  · exact h hb
  · exact hc rfl
  · have := Nat.isDigit_of_mem_toDigits (by decide) (by decide) hk
    rw [hd] at this
    cases this

theorem IsSegment.numberedName {base : String} (h : IsSegment base) (k : Nat) :
    IsSegment (numberedName base k) := by
  refine ⟨fun he => ?_, notMem_numberedName h.2 (by decide) (by decide)⟩
  have := congrArg String.toList he
  simp at this

theorem IsPlain.numberedName {base : String} (h : IsPlain base) (k : Nat) :
    IsPlain (numberedName base k) :=
  ⟨h.1.numberedName k, notMem_numberedName h.2 (by decide) (by decide)⟩

/-- Different numbers make different names. -/
theorem numberedName_injective (base : String) : Function.Injective (numberedName base) := by
  intro j k h
  have h := congrArg String.toList h
  simp only [toList_numberedName, List.append_cancel_left_eq, List.cons.injEq, true_and] at h
  rw [← Nat.ofDigitChars_ten_toDigits (n := j), h, Nat.ofDigitChars_ten_toDigits]

/-- The inputs that a node gets one after the other have different names. -/
theorem addedInput_injective : Function.Injective addedInput := by
  have hne : ∀ j : Nat, inputName ≠ numberedName inputName (j + 1) := by
    intro j h
    have h := congrArg (fun name => name.toList.length) h
    simp only [toList_numberedName, List.length_append, List.length_cons] at h
    omega
  intro i j h
  cases i with
  | zero =>
    cases j with
    | zero => rfl
    | succ j => exact absurd h (hne j)
  | succ i =>
    cases j with
    | zero => exact absurd h.symm (hne i)
    | succ j => exact numberedName_injective inputName h

theorem notMem_point_addedInput (number : Nat) : '.' ∉ (addedInput number).toList := by
  unfold addedInput
  split
  · decide
  · exact notMem_numberedName (by decide) (by decide) (by decide)

theorem addedInput_ne_outputName (number : Nat) : addedInput number ≠ outputName := by
  intro h
  have h := congrArg (fun name => name.toList.head?) h
  unfold addedInput at h
  split at h
  · exact absurd h (by decide)
  · simp [inputName, outputName] at h

/-! ## 2. Cutting a list at a mark -/

/-- What ends in a mark and begins a text with that mark ends there at the text's last mark or
    before it. -/
theorem append_singleton_prefix_iff {α : Type} {m : α} {tail : List α} (h : m ∉ tail) :
    ∀ xs ys : List α, xs ++ [m] <+: ys ++ m :: tail ↔ xs = ys ∨ xs ++ [m] <+: ys
  | [], [] => by simp
  | [], y :: ys => by simp
  | x :: xs, [] => by
      simp only [List.cons_append, List.nil_append, List.cons_prefix_cons, reduceCtorEq,
        List.prefix_nil, or_self, iff_false, not_and]
      intro _ hp
      exact h (hp.subset (by simp))
  | x :: xs, y :: ys => by
      simp only [List.cons_append, List.cons_prefix_cons, List.cons.injEq]
      rw [append_singleton_prefix_iff h xs ys]
      exact and_or_left

/-- A text without a mark that begins a marked text begins what stands in front of the mark. -/
theorem prefix_of_notMem {α : Type} {m : α} {tail : List α} :
    ∀ {xs ys : List α}, m ∉ xs → (xs <+: ys ++ m :: tail ↔ xs <+: ys)
  | [], ys, _ => by simp
  | x :: xs, [], h => by
      simp only [List.nil_append, List.cons_prefix_cons, List.prefix_nil, reduceCtorEq, iff_false,
        not_and]
      intro hx
      exact absurd (hx ▸ List.mem_cons_self) h
  | x :: xs, y :: ys, h => by
      simp only [List.cons_append, List.cons_prefix_cons]
      rw [prefix_of_notMem fun hm => h (List.mem_cons_of_mem _ hm)]

/-- Two texts that are cut at their first mark agree in both parts. -/
theorem append_cons_inj_first {α : Type} {m : α} {xs ys : List α} {s t : List α} (hx : m ∉ xs)
    (hy : m ∉ ys) (h : xs ++ m :: s = ys ++ m :: t) : xs = ys ∧ s = t := by
  have h₁ : xs <+: ys := (prefix_of_notMem hx).mp (h ▸ List.prefix_append xs (m :: s))
  have h₂ : ys <+: xs := (prefix_of_notMem hy).mp (h ▸ List.prefix_append ys (m :: t))
  obtain rfl := h₁.eq_of_length_le h₂.length_le
  exact ⟨rfl, by simpa using h⟩

/-- Two texts that are cut at their last mark agree in both parts. -/
theorem append_cons_inj_last {α : Type} {m : α} {xs ys : List α} {s t : List α} (hs : m ∉ s)
    (ht : m ∉ t) (h : xs ++ m :: s = ys ++ m :: t) : xs = ys ∧ s = t := by
  have h' := congrArg List.reverse h
  simp only [List.reverse_append, List.reverse_cons, List.append_assoc, List.singleton_append] at h'
  obtain ⟨h₁, h₂⟩ := append_cons_inj_first (by simpa using hs) (by simpa using ht) h'
  exact ⟨List.reverse_injective h₂, List.reverse_injective h₁⟩

/-! ## 3. Containers and contents -/

/-- The text in front of the slash that a container puts before its contents' names. -/
def stem (container : String) : String := if container = rootPath then "" else container

theorem toList_childPath (container name : String) :
    (childPath container name).toList = (stem container).toList ++ '/' :: name.toList := by
  unfold childPath stem
  split <;> simp

theorem childPath_ne_empty (container name : String) : childPath container name ≠ "" := by
  intro h
  have := congrArg String.toList h
  simp [toList_childPath] at this

/-- The root is no node's path. -/
theorem childPath_ne_root {container name : String} (h : IsSegment name) :
    childPath container name ≠ rootPath := by
  intro he
  have he := congrArg String.toList he
  rw [toList_childPath, show rootPath.toList = [] ++ '/' :: [] from rfl] at he
  have := (append_cons_inj_last h.2 (by simp) he).2
  exact h.1 (String.toList_inj.mp (by simpa using this))

theorem childPath_injective (k : String) : Function.Injective (childPath k) := by
  intro a b h
  have h := congrArg String.toList h
  rw [toList_childPath, toList_childPath, List.append_cancel_left_eq] at h
  exact String.toList_inj.mp (List.cons.inj h).2

theorem childPath_ne_self {k : String} (hk : k ≠ rootPath) (name : String) :
    childPath k name ≠ k := by
  intro h
  have h := congrArg (fun path => path.toList.length) h
  simp only [toList_childPath, stem, hk, if_false, List.length_append, List.length_cons] at h
  omega

/-- A path tells its container and its last name. -/
theorem childPath_inj {c d name other : String} (hc : c ≠ "") (hd : d ≠ "")
    (hn : '/' ∉ name.toList) (ho : '/' ∉ other.toList) :
    childPath c name = childPath d other ↔ c = d ∧ name = other := by
  refine ⟨fun h => ?_, fun ⟨h₁, h₂⟩ => by rw [h₁, h₂]⟩
  have h := congrArg String.toList h
  rw [toList_childPath, toList_childPath] at h
  obtain ⟨h₁, h₂⟩ := append_cons_inj_last hn ho h
  refine ⟨?_, String.toList_inj.mp h₂⟩
  have h₁ := String.toList_inj.mp h₁
  unfold stem at h₁
  split at h₁ <;> split at h₁
  · rename_i hcr hdr
    exact hcr.trans hdr.symm
  · exact absurd h₁.symm hd
  · exact absurd h₁ hc
  · exact h₁

theorem isWithin_iff {node path : String} :
    isWithin node path = true ↔ node.toList ++ ['/'] <+: path.toList := by
  simp [isWithin]

theorem isPortOf_iff {node path : String} :
    isPortOf node path = true ↔ node.toList ++ ['.'] <+: path.toList := by
  simp [isPortOf]

theorem not_isWithin_root {node : String} (h : node ≠ "") : isWithin node rootPath = false := by
  rw [Bool.eq_false_iff, ne_eq, isWithin_iff,
    show rootPath.toList = [] ++ '/' :: [] from rfl, append_singleton_prefix_iff (by simp)]
  rintro (h' | h')
  · exact h (String.toList_inj.mp (by simpa using h'))
  · simp at h'

/-- What lies below a node is put into the node or into something below it. -/
theorem isWithin_childPath {node container name : String} (hn : node ≠ "") (hr : node ≠ rootPath)
    (h : '/' ∉ name.toList) :
    isWithin node (childPath container name) = covers node container := by
  rw [Bool.eq_iff_iff, isWithin_iff, toList_childPath, append_singleton_prefix_iff h]
  unfold covers stem
  split
  · rename_i hc
    subst hc
    have : node.toList ≠ [] := fun h => hn (String.toList_inj.mp (by simpa using h))
    simp [this, not_isWithin_root hn, Ne.symm hr]
  · rw [Bool.or_eq_true, beq_iff_eq, isWithin_iff, String.toList_inj, eq_comm]

/-- What a node covers is itself and what is put into something it covers. -/
theorem covers_childPath {node container name : String} (hn : node ≠ "") (hr : node ≠ rootPath)
    (h : '/' ∉ name.toList) :
    covers node (childPath container name) =
      (childPath container name == node || covers node container) := by
  conv_lhs => rw [covers, isWithin_childPath hn hr h]

@[simp] theorem covers_self (node : String) : covers node node = true := by simp [covers]

/-- A container covers what is put into it. -/
theorem covers_childPath_self {container name : String} (hn : container ≠ "")
    (hr : container ≠ rootPath) (h : '/' ∉ name.toList) :
    covers container (childPath container name) = true := by
  simp [covers_childPath hn hr h]

/-! ## 4. Ports -/

theorem toList_portPath (node port : String) :
    (portPath node port).toList = node.toList ++ '.' :: port.toList := by
  simp [portPath]

/-- A port's path begins with its node's. -/
theorem isPortOf_portPath_self (node port : String) :
    isPortOf node (portPath node port) = true := by
  rw [isPortOf_iff, toList_portPath]
  exact ⟨port.toList, by simp⟩

/-- What is below a node has its ports below it. -/
theorem isWithin_portPath_of {node path port : String} (h : isWithin node path = true) :
    isWithin node (portPath path port) = true := by
  rw [isWithin_iff] at h ⊢
  rw [toList_portPath]
  exact h.trans (List.prefix_append _ _)

/-- Paths without points: a port is below a node if its own node is. -/
theorem isWithin_portPath {node path port : String} (hn : '.' ∉ node.toList) :
    isWithin node (portPath path port) = isWithin node path := by
  rw [Bool.eq_iff_iff, isWithin_iff, isWithin_iff, toList_portPath, prefix_of_notMem (by simpa)]

/-- Paths without points: a port belongs to its own node only. -/
theorem isPortOf_portPath {node path port : String} (hn : '.' ∉ node.toList)
    (hp : '.' ∉ path.toList) : isPortOf node (portPath path port) = (path == node) := by
  rw [Bool.eq_iff_iff, isPortOf_iff, toList_portPath, beq_iff_eq]
  constructor
  · rintro ⟨tail, h⟩
    rw [List.append_assoc, List.singleton_append] at h
    exact String.toList_inj.mp (append_cons_inj_first hn hp h).1.symm
  · rintro rfl
    exact ⟨port.toList, by simp⟩

/-- Paths without points: a port tells its node and its name. -/
theorem portPath_inj {node other port port' : String} (hn : '.' ∉ node.toList)
    (ho : '.' ∉ other.toList) :
    portPath node port = portPath other port' ↔ node = other ∧ port = port' := by
  refine ⟨fun h => ?_, fun ⟨h₁, h₂⟩ => by rw [h₁, h₂]⟩
  have h := congrArg String.toList h
  rw [toList_portPath, toList_portPath] at h
  obtain ⟨h₁, h₂⟩ := append_cons_inj_first hn ho h
  exact ⟨String.toList_inj.mp h₁, String.toList_inj.mp h₂⟩

theorem portPath_injective (k : String) : Function.Injective (portPath k) := by
  intro a b h
  have h := congrArg String.toList h
  rw [toList_portPath, toList_portPath, List.append_cancel_left_eq] at h
  exact String.toList_inj.mp (List.cons.inj h).2

/-- Ports of nodes whose own names have no point are told apart, whatever the names of the nodes. -/
theorem portPath_inj_last {node other port port' : String} (hp : '.' ∉ port.toList)
    (hp' : '.' ∉ port'.toList) (h : portPath node port = portPath other port') :
    node = other ∧ port = port' := by
  have h := congrArg String.toList h
  rw [toList_portPath, toList_portPath] at h
  obtain ⟨h₁, h₂⟩ := append_cons_inj_last hp hp' h
  exact ⟨String.toList_inj.mp h₁, String.toList_inj.mp h₂⟩

/-- A port of a node is no port of the compound: the texts differ behind the compound's path. -/
theorem portPath_childPath_ne {k : String} (hk : k ≠ rootPath) (name port other : String) :
    portPath (childPath k name) port ≠ portPath k other := by
  intro h
  have h := congrArg String.toList h
  rw [toList_portPath, toList_portPath, toList_childPath, stem, if_neg hk, List.append_assoc,
    List.append_cancel_left_eq] at h
  exact absurd (List.cons.inj h).1 (by decide)

end FormulaGraph
