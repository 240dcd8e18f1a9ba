import Mathlib.Data.List.Infix

/-! Unix paths.

A path is the list of its components. A string is read as a path the way the
standard library reads one: split at slashes, with empty components and `.` left
out, and a leading slash kept as the root component `/`. Joining an absolute string
replaces what came before it; joining any other appends its components. -/
namespace Detritus.Files

/-- A path by its components. -/
abbrev Path := List String

/-- The components of a string. -/
def components (s : String) : Path :=
  (if s.toList.head? = some '/' then ["/"] else []) ++
    ((s.toList.splitOn '/').map String.ofList).filter fun c => c ≠ "" && c ≠ "."

namespace Path

/-- `Path::join`: an absolute path replaces the one it is joined to. -/
def join (p : Path) (s : String) : Path :=
  if s.toList.head? = some '/' then components s else p ++ components s

def parent (p : Path) : Path := p.dropLast

def fileName (p : Path) : Option String := p.getLast?

/-- The part of a path below `base`. -/
def stripPrefix (base p : Path) : Option Path :=
  if base <+: p then some (p.drop base.length) else none

/-- A relative path as a string. -/
def display (p : Path) : String := String.ofList (['/'].intercalate (p.map String.toList))

/-- What follows the last dot of a file name, where something stands before it. -/
def extension (name : String) : Option String :=
  match name.toList.reverse.dropWhile (· ≠ '.') with
  | _ :: _ :: _ => some (String.ofList (name.toList.reverse.takeWhile (· ≠ '.')).reverse)
  | _ => none

end Path

/-- A string that is one component: it names an entry of a directory and nothing
above or below it. -/
structure Component (s : String) : Prop where
  nonempty : s ≠ ""
  dot : s ≠ "."
  slash : '/' ∉ s.toList

theorem head_ne_slash {l : List Char} (h : '/' ∉ l) : l.head? ≠ some '/' := by
  intro hh
  exact h (List.mem_of_mem_head? hh)

theorem Component.components {s : String} (h : Component s) : components s = [s] := by
  have hsplit : s.toList.splitOn '/' = [s.toList] := List.splitOn_eq_singleton h.slash
  simp [Files.components, hsplit, head_ne_slash h.slash, h.nonempty, h.dot]

theorem Component.join {s : String} (h : Component s) (p : Path) : p.join s = p ++ [s] := by
  rw [Path.join, if_neg (head_ne_slash h.slash), h.components]

theorem notMem_of_mem_splitOn {s l : List Char} (h : l ∈ s.splitOn '/') : '/' ∉ l := by
  induction s generalizing l with
  | nil =>
    rw [List.splitOn_nil, List.mem_singleton] at h
    rw [h]
    exact List.not_mem_nil
  | cons c s ih =>
    rw [List.splitOn_cons_eq_if_modifyHead] at h
    split at h
    · rcases List.mem_cons.mp h with rfl | h
      · exact List.not_mem_nil
      · exact ih h
    · next hc =>
      have hne : s.splitOn '/' ≠ [] := List.splitOn_ne_nil _ _
      obtain ⟨a, rest, hs⟩ := List.exists_cons_of_ne_nil hne
      rw [hs] at h ih
      rcases List.mem_cons.mp h with rfl | h
      · rw [List.mem_cons, not_or]
        exact ⟨fun hslash => hc (beq_iff_eq.mpr hslash.symm), ih (.head _)⟩
      · exact ih (.tail _ h)

/-- What a path is made of: the root, and components. -/
theorem mem_components {s c : String} (h : c ∈ components s) : c = "/" ∨ Component c := by
  rcases List.mem_append.mp h with h | h
  · split at h
    · exact .inl (List.mem_singleton.mp h)
    · exact absurd h List.not_mem_nil
  · obtain ⟨hmem, hc⟩ := List.mem_filter.mp h
    obtain ⟨l, hl, rfl⟩ := List.mem_map.mp hmem
    rw [Bool.and_eq_true, decide_eq_true_eq, decide_eq_true_eq] at hc
    refine .inr ⟨hc.1, hc.2, ?_⟩
    rw [String.toList_ofList]
    exact notMem_of_mem_splitOn hl

/-- A name with a slash-free end is a component when its start is slash-free and it
does not spell `.`. -/
theorem Component.of_append {s t : String} (hs : '/' ∉ s.toList) (ht : '/' ∉ t.toList)
    (hlen : 2 ≤ t.toList.length) : Component (s ++ t) where
  nonempty := by
    intro h
    have hl : (s ++ t).toList.length = 0 := by rw [h]; rfl
    rw [String.toList_append, List.length_append] at hl
    omega
  dot := by
    intro h
    have hl : (s ++ t).toList.length = 1 := by rw [h]; rfl
    rw [String.toList_append, List.length_append] at hl
    omega
  slash := by
    simp [hs, ht]

/-- Components joined with slashes are read back as they were. -/
theorem components_display {p : Path} (hne : p ≠ []) (h : ∀ c ∈ p, Component c) :
    components (Path.display p) = p := by
  have hsplit : (['/'].intercalate (p.map String.toList)).splitOn '/' = p.map String.toList := by
    apply List.splitOn_intercalate
    · intro l hl
      obtain ⟨c, hc, rfl⟩ := List.mem_map.mp hl
      exact (h c hc).slash
    · simpa using hne
  have hhead : (['/'].intercalate (p.map String.toList)).head? ≠ some '/' := by
    obtain ⟨c, rest, rfl⟩ := List.exists_cons_of_ne_nil hne
    have hc := h c (.head _)
    have hcne : c.toList ≠ [] := by simpa using hc.nonempty
    obtain ⟨x, xs, hx⟩ := List.exists_cons_of_ne_nil hcne
    have hx' : x ≠ '/' := by
      intro he
      apply hc.slash
      rw [hx, he]
      exact List.mem_cons_self ..
    cases rest <;> simp [hx, hx', List.intercalate]
  have hall : (p.map String.toList).map String.ofList = p := by
    simp [Function.comp_def]
  rw [components, Path.display, String.toList_ofList, hsplit, if_neg hhead, hall, List.nil_append]
  apply List.filter_eq_self.mpr
  intro c hc
  simp [(h c hc).nonempty, (h c hc).dot]

theorem display_join {p : Path} (base : Path) (hne : p ≠ []) (h : ∀ c ∈ p, Component c) :
    base.join (Path.display p) = base ++ p := by
  have hc := components_display hne h
  have hhead : (Path.display p).toList.head? ≠ some '/' := by
    intro hh
    have : "/" ∈ components (Path.display p) := by simp [components, hh]
    rw [hc] at this
    exact (h _ this).slash (by decide)
  rw [Path.join, if_neg hhead, hc]

theorem stripPrefix_append (base p : Path) : Path.stripPrefix base (base ++ p) = some p := by
  rw [Path.stripPrefix, if_pos (List.prefix_append base p), List.drop_left]

theorem extension_append {s ext : String} (hs : s ≠ "") (he : '.' ∉ ext.toList) :
    Path.extension (s ++ "." ++ ext) = some ext := by
  have hrev : (s ++ "." ++ ext).toList.reverse = ext.toList.reverse ++ '.' :: s.toList.reverse := by simp
  have hall : ∀ c ∈ ext.toList.reverse, (decide (c ≠ '.')) = true := by
    intro c hc
    simp only [ne_eq, decide_eq_true_eq]
    rintro rfl
    exact he (List.mem_reverse.mp hc)
  have hne : s.toList.reverse ≠ [] := by simpa using hs
  obtain ⟨c, rest, hc⟩ := List.exists_cons_of_ne_nil hne
  rw [Path.extension, hrev, List.dropWhile_append_of_pos hall, List.takeWhile_append_of_pos hall, hc]
  simp

end Detritus.Files
