import LetLang.Text.Lines

/-!
# Lines that are written back

A line of a text has no newline in it (`not_mem_of_mem_lines`). Lines without a newline in them and
without a carriage return at their end can be written one after the other, each with a newline after
it, and are then the lines of that text (`lines_flatMap`).
-/

namespace LetLang.Text

theorem not_mem_of_mem_lines {cs l : List Char} (h : l ∈ lines cs) : '\n' ∉ l := by
  fun_induction lines cs generalizing l with
  | case1 => cases h
  | case2 cs ih | case3 cs ih =>
    rcases List.mem_cons.mp h with rfl | h
    · exact List.not_mem_nil
    · exact ih h
  | case4 c cs hnewline _ hlines ih =>
    obtain rfl := List.mem_singleton.mp h
    intro hmem
    exact hnewline (List.mem_singleton.mp hmem).symm
  | case5 c cs hnewline _ l' ls hlines ih =>
    rw [hlines] at ih
    rcases List.mem_cons.mp h with rfl | h
    · intro hmem
      rcases List.mem_cons.mp hmem with hc | hmem
      · exact hnewline hc.symm
      · exact ih List.mem_cons_self hmem
    · exact ih (List.mem_cons_of_mem _ h)

/-- A line that is followed by a newline ends there. -/
theorem lines_append_newline {l : List Char} (hnewline : '\n' ∉ l)
    (hreturn : l.getLast? ≠ some '\r') (cs : List Char) :
    lines (l ++ '\n' :: cs) = l :: lines cs := by
  induction l with
  | nil => rw [List.nil_append, lines]
  | cons c l ih =>
    rw [List.mem_cons, not_or] at hnewline
    have hlast : l.getLast? ≠ some '\r' := by
      cases l with
      | nil => exact nofun
      | cons d l => rwa [List.getLast?_cons_cons] at hreturn
    rw [List.cons_append, lines, ih hnewline.2 hlast]
    · exact fun hc => hnewline.1 hc.symm
    · -- a carriage return is not directly before the newline, nor before one inside the line
      intro cs' hc hcs
      cases l with
      | nil => exact hreturn (congrArg some hc)
      | cons d l => exact hnewline.2 ((List.cons.inj hcs).1 ▸ List.mem_cons_self)

theorem lines_flatMap {ls : List (List Char)} (hnewline : ∀ l ∈ ls, '\n' ∉ l)
    (hreturn : ∀ l ∈ ls, l.getLast? ≠ some '\r') : lines (ls.flatMap (· ++ ['\n'])) = ls := by
  induction ls with
  | nil => rfl
  | cons l ls ih =>
    obtain ⟨hl, hnewline⟩ := List.forall_mem_cons.mp hnewline
    obtain ⟨hl', hreturn⟩ := List.forall_mem_cons.mp hreturn
    rw [List.flatMap_cons, List.append_assoc, List.singleton_append, lines_append_newline hl hl',
      ih hnewline hreturn]

/-- A numbered line is a line of the text, and its number is not less than that of the first. -/
theorem of_mem_numberedLines {n : Nat} {ls : List (List Char)} {p : Nat × String}
    (h : p ∈ numberedLines n ls) : n ≤ p.1 ∧ p.2.toList ∈ ls := by
  induction ls generalizing n with
  | nil => cases h
  | cons l ls ih =>
    have hrest : p ∈ numberedLines (n + 1) ls → n ≤ p.1 ∧ p.2.toList ∈ l :: ls := by
      intro hp
      obtain ⟨hle, hmem⟩ := ih hp
      exact ⟨by omega, List.mem_cons_of_mem l hmem⟩
    rw [numberedLines] at h
    by_cases hblank : isBlankLine l = true
    · rw [if_pos hblank] at h
      exact hrest h
    · rw [if_neg hblank] at h
      rcases List.mem_cons.mp h with rfl | h
      · refine ⟨Nat.le_refl n, ?_⟩
        rw [String.toList_ofList]
        exact List.mem_cons_self
      · exact hrest h

end LetLang.Text
