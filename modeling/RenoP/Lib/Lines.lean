import Mathlib.Data.List.DropRight

/-!
# Lines of a byte stream

The lines that a scanner finds in a stream, and the stream of a list of lines.
-/

namespace Lines

abbrev Bytes := List UInt8

def newline : UInt8 := 10
def carriageReturn : UInt8 := 13

/-- The pieces between newlines; `line` is what is read of the current one. -/
def splitFrom (line : Bytes) : Bytes → List Bytes
  | [] => if line.isEmpty then [] else [line]
  | b :: data => if b = newline then line :: splitFrom [] data else splitFrom (line ++ [b]) data

def split (data : Bytes) : List Bytes := splitFrom [] data

def dropCR (line : Bytes) : Bytes :=
  if line.getLast? = some carriageReturn then line.dropLast else line

def join (lines : List Bytes) : Bytes := lines.flatMap fun line => line ++ [newline]

@[simp] theorem join_nil : join [] = [] := rfl

theorem join_cons (line : Bytes) (lines : List Bytes) :
    join (line :: lines) = line ++ [newline] ++ join lines := List.flatMap_cons

theorem join_append (lines lines' : List Bytes) :
    join (lines ++ lines') = join lines ++ join lines' := List.flatMap_append

theorem splitFrom_append (line rest data : Bytes) (h : newline ∉ rest) :
    splitFrom line (rest ++ newline :: data) = (line ++ rest) :: split data := by
  induction rest generalizing line with
  | nil =>
    rw [List.nil_append, List.append_nil, splitFrom, if_pos rfl]
    rfl
  | cons b rest ih =>
    rw [List.mem_cons, not_or] at h
    rw [List.cons_append, splitFrom, if_neg (Ne.symm h.1), ih (line ++ [b]) h.2,
      List.append_assoc]
    rfl

theorem split_join (lines : List Bytes) (h : ∀ line ∈ lines, newline ∉ line) :
    split (join lines) = lines := by
  induction lines with
  | nil => rfl
  | cons line lines ih =>
    have hline := h line (List.mem_cons_self ..)
    have hlines := ih fun line' hmem => h line' (List.mem_cons_of_mem line hmem)
    rw [join_cons, List.append_assoc, List.singleton_append]
    unfold split at hlines ⊢
    rw [splitFrom_append [] line (join lines) hline, List.nil_append]
    exact congrArg (line :: ·) hlines

theorem join_eq_intercalate {lines : List Bytes} (h : lines ≠ []) :
    join lines = [newline].intercalate lines ++ [newline] := by
  induction lines with
  | nil => exact absurd rfl h
  | cons line lines ih =>
    cases lines with
    | nil => simp [join]
    | cons line' lines =>
      rw [join_cons, ih (List.cons_ne_nil _ _), List.intercalate_cons_cons]
      simp

theorem join_splitOn (data : Bytes) : join (data.splitOn newline) = data ++ [newline] := by
  rw [join_eq_intercalate (List.splitOn_ne_nil _ _), List.intercalate_splitOn]

theorem splitOn_join {lines : List Bytes} (h : ∀ line ∈ lines, newline ∉ line) :
    (join lines).splitOn newline = lines ++ [[]] := by
  induction lines with
  | nil => rfl
  | cons line lines ih =>
    rw [join_cons, List.append_assoc, List.singleton_append,
      List.splitOn_append_cons_self_of_not_mem (h line (List.mem_cons_self ..)),
      ih fun l hl => h l (List.mem_cons_of_mem line hl)]
    rfl

theorem rdropWhile_intercalate {lines : List Bytes} (h : ∀ line ∈ lines, newline ∉ line)
    (hne : ∀ line ∈ lines, line ≠ []) :
    ([newline].intercalate lines).rdropWhile (· == newline) = [newline].intercalate lines := by
  rw [List.rdropWhile_eq_self_iff]
  intro hnil hlast
  have hlines : lines ≠ [] := by
    rintro rfl
    exact hnil rfl
  have hsplit := List.splitOn_intercalate newline h hlines
  have hend := List.dropLast_append_getLast hnil
  rw [beq_iff_eq.mp hlast] at hend
  rw [← hend, List.splitOn_append_cons_self] at hsplit
  apply hne [] _ rfl
  rw [← hsplit]
  exact List.mem_append_right _ (List.mem_cons_self ..)

theorem dropCR_eq_self {line : Bytes} (h : carriageReturn ∉ line) : dropCR line = line := by
  apply if_neg
  intro hlast
  exact h (List.mem_of_getLast? hlast)

end Lines
