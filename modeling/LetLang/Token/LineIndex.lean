import LetLang.Position

/-!
# Positions by byte offsets

The scanner knows where a piece of source starts by its offset in bytes. A `LineIndex` turns such
offsets into positions: it keeps the offsets at which the lines of the text start, finds the last
one that is not beyond the offset by halving, and counts the characters from there on.

A search that finds no line and a slice that cuts a character in two or ends before it starts have
no result. The theory at the end says that neither occurs where a character starts or the text ends
(`LineIndex.locate?_append`).
-/

namespace LetLang

/-! ### Searching -/

/-- The number of entries that satisfy `p`, in an array where these come before all the others. The
range in which the first of the others lies is halved until it is empty. -/
def partitionPoint (xs : Array α) (p : α → Bool) : Nat := search 0 xs.size (Nat.le_refl _)
where
  /-- Searches from `low` up to `high`. -/
  search (low high : Nat) (hhigh : high ≤ xs.size) : Nat :=
    if hlow : low < high then
      if p xs[(low + high) / 2] then search ((low + high) / 2 + 1) high hhigh
      else search low ((low + high) / 2) (by omega)
    else low
  termination_by high - low

/-! ### The index -/

/-- The number of bytes of a text. -/
def byteSize (cs : List Char) : Nat := (String.ofList cs).utf8ByteSize

/-- What is needed to turn offsets in a text into positions. -/
structure LineIndex where
  source : String
  /-- The offsets at which the lines of the text start. -/
  starts : Array Nat
  /-- The number of the first line. -/
  firstLine : Nat

namespace LineIndex

/-- The offsets of the newlines of a text that starts at `offset`. -/
def newlines (offset : Nat) : List Char → List Nat
  | [] => []
  | c :: cs =>
    let more := newlines (offset + c.utf8Size) cs
    if c = '\n' then offset :: more else more

/-- The index of a text whose first line has the number `firstLine`. -/
def ofSource (source : String) (firstLine : Nat) : LineIndex where
  source
  starts := (0 :: (newlines 0 source.toList).map (· + 1)).toArray
  firstLine

/-- The text from offset `start` up to offset `stop`. There is none if one of them is inside a
character or beyond the end, or if they are in the wrong order. -/
def slice? (source : String) (start stop : Nat) : Option String := do
  let p ← source.pos? ⟨start⟩
  let q ← source.pos? ⟨stop⟩
  let slice ← source.slice? p q
  return slice.copy

/-- The position at an offset. Its line is the last one that starts at the offset or before it. -/
def locate? (index : LineIndex) (offset : Nat) : Option Position :=
  match partitionPoint index.starts (· ≤ offset) with
  | 0 => none
  | row + 1 => do
    let start ← index.starts[row]?
    let text ← slice? index.source start offset
    return ⟨index.firstLine + row, text.length + 1⟩

end LineIndex

/-! ### What the search finds -/

theorem search_eq {xs : Array α} {p : α → Bool} {n : Nat}
    (hp : ∀ i (hi : i < xs.size), p xs[i] = true ↔ i < n) (low high : Nat) (hhigh : high ≤ xs.size)
    (hlow : low ≤ n) (hn : n ≤ high) : partitionPoint.search xs p low high hhigh = n := by
  fun_induction partitionPoint.search xs p low high hhigh with
  | case1 low high hhigh hlt hmiddle ih => exact ih ((hp _ (by omega)).mp hmiddle) hn
  | case2 low high hhigh hlt hmiddle ih =>
    exact ih hlow (Nat.le_of_not_lt fun h => hmiddle ((hp _ (by omega)).mpr h))
  | case3 low high hhigh hlt => omega

/-- If the entries that satisfy `p` come first, the search finds out how many they are. -/
theorem partitionPoint_append {p : α → Bool} {as bs : List α} (has : ∀ a ∈ as, p a = true)
    (hbs : ∀ b ∈ bs, p b = false) : partitionPoint (as ++ bs).toArray p = as.length := by
  refine search_eq (fun i hi => ?_) 0 _ _ (Nat.zero_le _) (by simp)
  have hi' : i < (as ++ bs).length := hi
  rw [List.getElem_toArray]
  by_cases h : i < as.length
  · rw [List.getElem_append_left h]
    exact iff_of_true (has _ (List.getElem_mem h)) h
  · rw [List.getElem_append_right (Nat.le_of_not_lt h), hbs _ (List.getElem_mem _)]
    exact iff_of_false Bool.false_ne_true h

/-! ### Bytes -/

@[simp]
theorem byteSize_nil : byteSize [] = 0 := rfl

@[simp]
theorem byteSize_append (as bs : List Char) : byteSize (as ++ bs) = byteSize as + byteSize bs := by
  unfold byteSize
  rw [String.ofList_append, String.utf8ByteSize_append]

@[simp]
theorem byteSize_cons (c : Char) (cs : List Char) :
    byteSize (c :: cs) = c.utf8Size + byteSize cs := by
  unfold byteSize
  rw [String.ofList_cons, String.utf8ByteSize_append, String.utf8ByteSize_singleton]

theorem byteSize_toList (s : String) : byteSize s.toList = s.utf8ByteSize := by
  rw [byteSize, String.ofList_toList]

namespace LineIndex

theorem newlines_append (offset : Nat) (as bs : List Char) :
    newlines offset (as ++ bs) = newlines offset as ++ newlines (offset + byteSize as) bs := by
  induction as generalizing offset with
  | nil => rfl
  | cons c as ih =>
    rw [List.cons_append, newlines, newlines, ih, byteSize_cons, Nat.add_assoc]
    split <;> rfl

theorem newlines_eq_nil (offset : Nat) {cs : List Char} (h : '\n' ∉ cs) :
    newlines offset cs = [] := by
  induction cs generalizing offset with
  | nil => rfl
  | cons c cs ih =>
    rw [List.mem_cons, not_or] at h
    rw [newlines, if_neg (Ne.symm h.1), ih _ h.2]

theorem length_newlines (offset : Nat) (cs : List Char) :
    (newlines offset cs).length = cs.count '\n' := by
  induction cs generalizing offset with
  | nil => rfl
  | cons c cs ih =>
    rw [newlines, List.count_cons]
    by_cases hc : c = '\n'
    · simp [hc, ih]
    · simp [hc, ih]

/-- A newline lies in the text, and takes one byte. -/
theorem bounds_of_mem_newlines {offset i : Nat} {cs : List Char} (h : i ∈ newlines offset cs) :
    offset ≤ i ∧ i + 1 ≤ offset + byteSize cs := by
  induction cs generalizing offset with
  | nil => cases h
  | cons c cs ih =>
    rw [byteSize_cons]
    have hc : 0 < c.utf8Size := c.utf8Size_pos
    rw [newlines] at h
    by_cases hnewline : c = '\n'
    · rw [if_pos hnewline] at h
      obtain rfl | h := List.mem_cons.mp h
      · omega
      · have := ih h
        omega
    · rw [if_neg hnewline] at h
      have := ih h
      omega

theorem pos?_eq_some {s : String} {off : String.Pos.Raw} (h : off.IsValid s) :
    s.pos? off = some (s.pos off h) := by
  unfold String.pos? String.Slice.pos? String.pos
  rw [dif_pos (String.Pos.Raw.isValidForSlice_eq_true_iff.mpr h.toSlice)]
  rfl

theorem slice?_append (a b c : String) :
    slice? (a ++ b ++ c) a.utf8ByteSize (a.utf8ByteSize + b.utf8ByteSize) = some b := by
  have hstart : String.Pos.Raw.IsValid (a ++ b ++ c) ⟨a.utf8ByteSize⟩ :=
    String.Pos.Raw.isValid_iff_exists_append.mpr ⟨a, b ++ c, String.append_assoc .., rfl⟩
  have hstop : String.Pos.Raw.IsValid (a ++ b ++ c) ⟨a.utf8ByteSize + b.utf8ByteSize⟩ :=
    String.Pos.Raw.isValid_iff_exists_append.mpr
      ⟨a ++ b, c, rfl, by rw [String.Pos.Raw.ext_iff]; simp⟩
  have hle : (a ++ b ++ c).pos _ hstart ≤ (a ++ b ++ c).pos _ hstop := by
    simp [String.Pos.le_iff, String.Pos.Raw.le_iff]
  have hcopy : ((a ++ b ++ c).slice _ _ hle).copy = b := by
    rw [← String.toByteArray_inj, String.toByteArray_copy_slice, String.offset_pos,
      String.offset_pos]
    simp only [String.append_assoc, String.toByteArray_append, ← String.size_toByteArray]
    have hskip := ByteArray.extract_append_size_add (a := a.toByteArray)
      (b := b.toByteArray ++ c.toByteArray) (i := 0) (j := b.toByteArray.size)
    rw [Nat.add_zero] at hskip
    rw [hskip, ByteArray.extract_append_eq_left rfl]
  unfold slice? String.slice?
  rw [pos?_eq_some hstart, pos?_eq_some hstop]
  show (if h : _ then some _ else none).bind _ = _
  rw [dif_pos hle]
  exact congrArg some hcopy

/-! ### Lines -/

/-- A text that a line starts after: it is empty or ends with a newline. -/
def EndsLine (cs : List Char) : Prop := cs = [] ∨ ∃ before, cs = before ++ ['\n']

/-- The last line of a text starts after all its newlines. -/
theorem exists_lastLine (cs : List Char) :
    ∃ before line, cs = before ++ line ∧ EndsLine before ∧ '\n' ∉ line := by
  induction cs with
  | nil => exact ⟨[], [], rfl, .inl rfl, List.not_mem_nil⟩
  | cons c cs ih =>
    obtain ⟨before, line, rfl, rfl | ⟨more, rfl⟩, hline⟩ := ih
    · by_cases hc : c = '\n'
      · exact ⟨[c], line, rfl, .inr ⟨[], by rw [hc]; rfl⟩, hline⟩
      · refine ⟨[], c :: line, rfl, .inl rfl, fun hmem => ?_⟩
        obtain h | h := List.mem_cons.mp hmem
        · exact hc h.symm
        · exact hline h
    · exact ⟨c :: (more ++ ['\n']), line, rfl, .inr ⟨c :: more, rfl⟩, hline⟩

/-- After a text that ends a line, the last line starts where the text ends. -/
theorem getElem?_starts {before : List Char} (h : EndsLine before) (more : List Nat) :
    (0 :: (newlines 0 before).map (· + 1) ++ more)[before.count '\n']? =
      some (byteSize before) := by
  obtain rfl | ⟨cs, rfl⟩ := h
  · rfl
  · have hcount : (cs ++ ['\n']).count '\n' = (0 :: (newlines 0 cs).map (· + 1)).length := by
      rw [List.length_cons, List.length_map, length_newlines, List.count_append]
      rfl
    have hlast : newlines 0 (cs ++ ['\n']) = newlines 0 cs ++ [byteSize cs] := by
      rw [newlines_append, Nat.zero_add]
      rfl
    have hsize : byteSize (cs ++ ['\n']) = byteSize cs + 1 := by
      rw [byteSize_append]
      rfl
    rw [hcount, hlast, hsize, List.map_append, ← List.cons_append, List.append_assoc,
      List.getElem?_append_right (Nat.le_refl _), Nat.sub_self]
    rfl

/-- The line at an offset is the one after all newlines before it, and the column is one more than
the number of characters from the start of the line. Neither the search nor the slice fails. -/
theorem locate?_append {source : String} {before line after : List Char}
    (hsource : source.toList = before ++ line ++ after) (hbefore : EndsLine before)
    (hline : '\n' ∉ line) (n : Nat) :
    (ofSource source n).locate? (byteSize before + byteSize line) =
      some ⟨n + before.count '\n', line.length + 1⟩ := by
  let offset := byteSize before + byteSize line
  let passed := 0 :: (newlines 0 before).map (· + 1)
  let ahead := (newlines offset after).map (· + 1)
  have hstarts : (ofSource source n).starts = (passed ++ ahead).toArray := by
    show (0 :: (newlines 0 source.toList).map (· + 1)).toArray = _
    rw [hsource, newlines_append, newlines_append, newlines_eq_nil _ hline, List.append_nil,
      byteSize_append, Nat.zero_add, List.map_append]
    rfl
  have hpassed : ∀ start ∈ passed, decide (start ≤ offset) = true := by
    intro start hstart
    apply decide_eq_true
    obtain rfl | hstart := List.mem_cons.mp hstart
    · exact Nat.zero_le _
    · obtain ⟨i, hi, rfl⟩ := List.mem_map.mp hstart
      have hbounds := bounds_of_mem_newlines hi
      show i + 1 ≤ byteSize before + byteSize line
      omega
  have hahead : ∀ start ∈ ahead, decide (start ≤ offset) = false := by
    intro start hstart
    obtain ⟨i, hi, rfl⟩ := List.mem_map.mp hstart
    have hbounds := bounds_of_mem_newlines hi
    exact decide_eq_false (by omega)
  have hrow : partitionPoint (ofSource source n).starts (· ≤ offset) = before.count '\n' + 1 := by
    rw [hstarts, partitionPoint_append hpassed hahead, List.length_cons, List.length_map,
      length_newlines]
  have hslice : slice? source (byteSize before) offset = some (String.ofList line) := by
    have happend : source = String.ofList before ++ String.ofList line ++ String.ofList after := by
      rw [← String.ofList_append, ← String.ofList_append, ← hsource, String.ofList_toList]
    rw [happend]
    exact slice?_append _ _ _
  unfold locate?
  rw [hrow]
  show ((ofSource source n).starts[before.count '\n']?).bind _ = _
  rw [hstarts, List.getElem?_toArray, getElem?_starts hbefore ahead, Option.bind_some]
  show (slice? source (byteSize before) offset).bind _ = _
  rw [hslice, Option.bind_some, String.length_ofList]
  rfl

/-- Where a character starts or the text ends there is a position. -/
theorem isSome_locate? {source : String} {before after : List Char}
    (hsource : source.toList = before ++ after) (n : Nat) :
    ((ofSource source n).locate? (byteSize before)).isSome = true := by
  obtain ⟨head, line, rfl, hhead, hline⟩ := exists_lastLine before
  rw [byteSize_append, locate?_append hsource hhead hline]
  rfl

end LineIndex

end LetLang
