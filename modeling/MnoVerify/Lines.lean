import MnoVerify.Coerce
import MnoVerify.Utf8
import Mathlib.Data.List.DropRight

/-!
# Texts in lines

A text of complete lines, split again (`splitOn_text`), and `trim` on a line that is cut (`trim_prefix`).
-/

namespace Lines

/-- The lines, each with its line break. -/
def text (ls : List (List Char)) : List Char := ls.flatMap fun l => l ++ ['\n']

@[simp] theorem text_nil : text [] = [] := rfl

@[simp] theorem text_append (ls ls' : List (List Char)) : text (ls ++ ls') = text ls ++ text ls' := List.flatMap_append

@[simp] theorem text_singleton (l : List Char) : text [l] = l ++ ['\n'] := by simp [text]

theorem splitOn_text {ls : List (List Char)} {t : List Char} (h : ∀ l ∈ ls, '\n' ∉ l) (ht : '\n' ∉ t) :
    (text ls ++ t).splitOn '\n' = ls ++ [t] := by
  induction ls with
  | nil => exact List.splitOn_eq_singleton ht
  | cons l ls ih =>
    have hl := h l List.mem_cons_self
    rw [text, List.flatMap_cons, ← text, List.append_assoc, List.append_assoc, List.singleton_append,
      List.splitOn_append_cons_self_of_not_mem hl, ih fun l' hl' => h l' (List.mem_cons_of_mem _ hl'), List.cons_append]

/-- Joining lines leaves out the last line break. -/
theorem intercalate_append {ls : List (List Char)} (h : ls ≠ []) : ['\n'].intercalate ls ++ ['\n'] = text ls := by
  induction ls with
  | nil => exact absurd rfl h
  | cons l ls ih =>
    cases ls with
    | nil => simp [text]
    | cons l' ls =>
      rw [List.intercalate_cons_cons, List.append_assoc, ih (List.cons_ne_nil _ _)]
      simp [text]

theorem text_eq_nil {ls : List (List Char)} : text ls = [] ↔ ls = [] := by
  cases ls with
  | nil => simp
  | cons l ls => simp [text]

theorem getLast?_text {ls : List (List Char)} (h : ls ≠ []) : (text ls).getLast? = some '\n' := by
  rw [← intercalate_append h, List.getLast?_concat]

/-! ## White space at the ends -/

open Js (isSpace trim)

theorem trim_eq (s : List Char) : trim s = (s.dropWhile isSpace).rdropWhile isSpace := rfl

theorem trim_eq_nil {s : List Char} : trim s = [] ↔ ∀ c ∈ s, isSpace c = true := by
  rw [trim_eq, List.rdropWhile_eq_nil_iff]
  constructor
  · intro h c hc
    by_contra hs
    have hne : s.dropWhile isSpace ≠ [] := fun h0 => hs (List.dropWhile_eq_nil_iff.1 h0 c hc)
    have hd := List.head_dropWhile_not isSpace hne
    rw [h _ (List.head_mem hne)] at hd
    cases hd
  · intro h c hc
    exact h c ((List.dropWhile_sublist isSpace).subset hc)

theorem dropWhile_append_of_ne_nil {u : List Char} (h : u.dropWhile isSpace ≠ []) (v : List Char) :
    (u ++ v).dropWhile isSpace = u.dropWhile isSpace ++ v := by
  rw [List.dropWhile_append, if_neg (by simpa using h)]

/-- What a line is cut to begins as the line does. -/
theorem trim_prefix (u v : List Char) : trim u <+: trim (u ++ v) := by
  by_cases hu : u.dropWhile isSpace = []
  · rw [trim_eq u, hu]
    exact List.nil_prefix
  rw [trim_eq, trim_eq, dropWhile_append_of_ne_nil hu]
  induction v using List.reverseRecOn with
  | nil => simp
  | append_singleton v c ih =>
    rw [← List.append_assoc, List.rdropWhile_concat]
    split
    · exact ih
    · rw [List.append_assoc]
      exact (List.rdropWhile_prefix isSpace _).trans (List.prefix_append _ _)

theorem trim_concat (u : List Char) {c : Char} (hc : isSpace c = false) : trim (u ++ [c]) = u.dropWhile isSpace ++ [c] := by
  have hc' : ¬ isSpace c = true := by rw [hc]; exact Bool.false_ne_true
  rw [trim_eq, List.dropWhile_append]
  split
  · rename_i h
    rw [List.isEmpty_iff.1 h, List.dropWhile_cons_of_neg hc']
    exact List.rdropWhile_concat_neg isSpace [] c hc'
  · exact List.rdropWhile_concat_neg isSpace _ c hc'

theorem last_trim {s t : List Char} {c : Char} (h : trim s = t ++ [c]) : isSpace c = false := by
  rw [trim_eq] at h
  have hne : (s.dropWhile isSpace).rdropWhile isSpace ≠ [] := by
    rw [h]
    exact List.concat_ne_nil _ _
  have hl := List.rdropWhile_last_not isSpace (s.dropWhile isSpace) hne
  simp only [h, List.getLast_append_singleton] at hl
  exact Bool.eq_false_iff.2 hl

theorem head_trim {s t : List Char} {c : Char} (h : trim s = c :: t) : ∃ r, s.dropWhile isSpace = c :: r := by
  obtain ⟨r, hr⟩ : trim s <+: s.dropWhile isSpace := List.rdropWhile_prefix isSpace _
  exact ⟨t ++ r, by rw [← hr, h, List.cons_append]⟩

/-- A text between two characters that are no white space is as it is. -/
theorem trim_between {a b : Char} (t : List Char) (ha : isSpace a = false) (hb : isSpace b = false) :
    trim (a :: (t ++ [b])) = a :: (t ++ [b]) := by
  rw [← List.cons_append, trim_concat _ hb, List.dropWhile_cons_of_neg (by rw [ha]; exact Bool.false_ne_true)]

end Lines
