import Sumscript.Proofs.TextLines

/-! # What an excerpt quotes

An excerpt around a position is a listing with one row for each line that it shows. Exactly one row
is marked, the one of the line that the position names, and what the line has from the column on
is what the text has from the offset on, up to the next line end. The other rows are those of the
lines near it.
-/

namespace Sumscript

/-- The line of a given number, counted from one. -/
def numbered? (lines : List (List Char)) : Nat → Option (List Char)
  | 0 => none
  | k + 1 => lines[k]?

namespace Excerpt

/-- A row of an excerpt. -/
structure Row where
  marked : Bool
  number : Nat
  text : List Char

namespace Row

/-- The written form of a row, in an excerpt of a text with so many lines. Nothing stands behind
the bar for a last line without text. -/
def written (total : Nat) (r : Row) : String :=
  (if r.marked then ">>" else "  ") ++ " " ++ lineNumber r.number ++
    if r.number = total ∧ r.text = [] then " |" else " | " ++ String.ofList r.text

end Row

/-- An excerpt of a text around an offset consists of these rows for these lines of the text. -/
structure Quotes (chars : List Char) (offset : Nat) (output : String) (lines : List (List Char))
    (rows : List Row) : Prop where
  /-- The lines are those of the text. -/
  divided : ∀ lines', Lined chars lines' ↔ lines' = lines
  /-- The excerpt is a listing of the rows. -/
  listed : output = String.join (rows.map fun r => r.written lines.length ++ "\n")
  /-- Every row is one line of the excerpt. -/
  rowByRow : Lined output.toList (rows.map (fun r => (r.written lines.length).toList) ++ [[]])
  /-- The marked row is that of the line of the offset. The line goes on from the column as the
  text does from the offset. -/
  marked : ∃ text, numbered? lines ((LineTable.ofChars chars).position offset).line = some text ∧
    rows.filter Row.marked = [⟨true, ((LineTable.ofChars chars).position offset).line, text⟩] ∧
    text.drop (((LineTable.ofChars chars).position offset).column - 1) =
      (chars.drop offset).takeWhile (!isLineEnd ·)
  /-- The other rows are those of the lines at a distance of one or two. An empty last line is
  not among them. -/
  others : ∀ number text, ⟨false, number, text⟩ ∈ rows ↔
    (number ≠ ((LineTable.ofChars chars).position offset).line ∧
      ((LineTable.ofChars chars).position offset).line ≤ number + 2 ∧
      number ≤ ((LineTable.ofChars chars).position offset).line + 2) ∧
    numbered? lines number = some text ∧ ¬ (number = lines.length ∧ text = [])
  /-- The rows stand in the order of their numbers. -/
  ordered : rows.Pairwise fun r r' => r.number < r'.number

section Rows

/-- The lines near the one at an index, with their indices. -/
def near (all : List (List Char)) (marked : Nat) : List (List Char × Nat) :=
  ((all.take (marked + margin + 1)).drop (marked - margin)).zipIdx (marked - margin)

/-- The rows of an excerpt of several lines around the line at an index. -/
def rows (all : List (List Char)) (marked : Nat) : List Row :=
  (near all marked).map (fun (line, index) => ⟨index == marked, index + 1, line⟩) ++
    if all.length ≤ marked then [⟨true, marked + 1, []⟩] else []

variable {chars : List Char} {all lines : List (List Char)} {k m number : Nat} {text : List Char}
  {r : Row}

theorem mem_near_iff :
    (text, k) ∈ near all m ↔ m ≤ k + margin ∧ k ≤ m + margin ∧ all[k]? = some text := by
  unfold near
  rw [List.mk_mem_zipIdx_iff_le_and_getElem?_sub, List.getElem?_drop, List.getElem?_take]
  constructor
  · rintro ⟨hfirst, hline⟩
    rw [Nat.add_sub_cancel' hfirst] at hline
    split at hline
    · exact ⟨by omega, by omega, hline⟩
    · cases hline
  · rintro ⟨hfirst, hlast, hline⟩
    have hfirst' : m - margin ≤ k := Nat.sub_le_iff_le_add.mpr hfirst
    rw [Nat.add_sub_cancel' hfirst', if_pos (by omega)]
    exact ⟨hfirst', hline⟩

theorem mem_rows_iff : r ∈ rows all m ↔
    (∃ k, (m ≤ k + margin ∧ k ≤ m + margin ∧ all[k]? = some r.text) ∧
        r = ⟨k == m, k + 1, r.text⟩) ∨
      all.length ≤ m ∧ r = ⟨true, m + 1, []⟩ := by
  unfold rows
  rw [List.mem_append]
  refine or_congr ⟨fun hr => ?_, ?_⟩ ?_
  · obtain ⟨⟨line, k⟩, hline, rfl⟩ := List.mem_map.mp hr
    exact ⟨k, mem_near_iff.mp hline, rfl⟩
  · rintro ⟨k, hline, hr⟩
    rw [hr]
    exact List.mem_map_of_mem (f := fun x : List Char × Nat => Row.mk (x.2 == m) (x.2 + 1) x.1)
      (mem_near_iff.mpr hline)
  · split
    next hend => simp [hend]
    next hend => simp [hend]

theorem rows_ordered (all : List (List Char)) (m : Nat) :
    (rows all m).Pairwise fun r r' => r.number < r'.number := by
  unfold rows
  refine List.pairwise_append.mpr ⟨?_, ?_, ?_⟩
  · have hindices : (near all m).Pairwise fun x y => x.2 < y.2 := by
      unfold near
      rw [← List.pairwise_map, List.zipIdx_map_snd]
      exact List.pairwise_lt_range'
    exact List.pairwise_map.mpr (hindices.imp Nat.succ_lt_succ)
  · split
    · exact List.pairwise_singleton _ _
    · exact .nil
  · intro r hr r' hr'
    obtain ⟨⟨line, k⟩, hline, rfl⟩ := List.mem_map.mp hr
    have hk : k < all.length :=
      (List.getElem?_eq_some_iff.mp (mem_near_iff.mp hline).2.2).1
    split at hr'
    next hend =>
      obtain rfl := List.mem_singleton.mp hr'
      exact Nat.succ_lt_succ (Nat.lt_of_lt_of_le hk hend)
    next => cases hr'

theorem rows_nodup (all : List (List Char)) (m : Nat) : (rows all m).Nodup :=
  (rows_ordered all m).imp fun hlt heq => Nat.ne_of_lt hlt (congrArg Row.number heq)

/-- An excerpt is a listing of its rows, for only a marked row is that of an empty last line. -/
theorem around_eq (h : Lined chars lines) (hm : lines[m]? = some text) :
    around chars m = String.join
      ((rows (Excerpt.lines chars) m).map fun r => r.written lines.length ++ "\n") := by
  have hbody : ∀ x ∈ near (Excerpt.lines chars) m,
      (if x.2 == m then ">>" else "  ") ++ " " ++ lineNumber (x.2 + 1) ++ " | " ++
        String.ofList x.1 ++ "\n" =
      (Row.mk (x.2 == m) (x.2 + 1) x.1).written lines.length ++ "\n" := by
    rintro ⟨line, k⟩ hline
    have hget := (mem_near_iff.mp hline).2.2
    rw [Row.written, if_neg (h.getElem?_lines.mp hget).2, ← String.append_assoc]
  have hrest : (if (Excerpt.lines chars).length ≤ m then ">> " ++ lineNumber (m + 1) ++ " |\n"
      else "") = String.join ((if (Excerpt.lines chars).length ≤ m then [Row.mk true (m + 1) []]
        else []).map fun r => r.written lines.length ++ "\n") := by
    split
    next hend =>
      obtain ⟨hnumber, -⟩ := h.last_of_le hm hend
      have hmark : ">> " = ">>" ++ " " := by decide
      have hbar : " |\n" = " |" ++ "\n" := by decide
      rw [List.map_singleton, String.join_cons, String.join_nil, String.append_empty, Row.written,
        if_pos rfl, if_pos ⟨hnumber, rfl⟩, hmark, hbar, ← String.append_assoc]
    next => rfl
  unfold rows
  rw [List.map_append, String.join_append, List.map_map, ← hrest]
  exact congrArg (String.join · ++ _) (List.map_congr_left hbody)

/-- The marked row is that of the line at the index. -/
theorem filter_rows (h : Lined chars lines) (hm : lines[m]? = some text) :
    (rows (Excerpt.lines chars) m).filter Row.marked = [⟨true, m + 1, text⟩] := by
  have hnodup := (rows_nodup (Excerpt.lines chars) m).filter Row.marked
  refine List.perm_singleton.mp
    ((List.perm_ext_iff_of_nodup hnodup (List.pairwise_singleton _ _)).mpr fun r => ?_)
  rw [List.mem_filter, List.mem_singleton, mem_rows_iff]
  constructor
  · rintro ⟨⟨k, ⟨-, -, hget⟩, hr⟩ | ⟨hend, rfl⟩, hmarked⟩
    · rw [hr] at hmarked
      obtain rfl : k = m := beq_iff_eq.mp hmarked
      rw [hr, beq_self_eq_true, Option.some.inj ((h.getElem?_lines.mp hget).1.symm.trans hm)]
    · rw [(h.last_of_le hm hend).2]
  · rintro rfl
    refine ⟨?_, rfl⟩
    by_cases hend : (Excerpt.lines chars).length ≤ m
    · exact .inr ⟨hend, by rw [(h.last_of_le hm hend).2]⟩
    · have hget := List.getElem?_eq_getElem (Nat.lt_of_not_le hend)
      obtain ⟨hget', -⟩ := h.getElem?_lines.mp hget
      refine .inl ⟨m, ⟨Nat.le_add_right _ _, Nat.le_add_right _ _, ?_⟩, by rw [beq_self_eq_true]⟩
      exact hget.trans (hget'.symm.trans hm)

/-- The other rows are those of the lines near the one at the index. -/
theorem mem_rows_other (h : Lined chars lines) :
    ⟨false, number, text⟩ ∈ rows (Excerpt.lines chars) m ↔
      (number ≠ m + 1 ∧ m + 1 ≤ number + 2 ∧ number ≤ m + 1 + 2) ∧
        numbered? lines number = some text ∧ ¬ (number = lines.length ∧ text = []) := by
  rw [mem_rows_iff, margin]
  constructor
  · rintro (⟨k, ⟨hfirst, hlast, hget⟩, hr⟩ | ⟨-, hr⟩)
    · obtain ⟨hmarked, rfl, -⟩ := Row.mk.inj hr
      have hk : k ≠ m := beq_eq_false_iff_ne.mp hmarked.symm
      exact ⟨⟨by omega, by omega, by omega⟩, h.getElem?_lines.mp hget⟩
    · cases (Row.mk.inj hr).1
  · rintro ⟨⟨hne, hfirst, hlast⟩, hline⟩
    cases number with
    | zero => cases hline.1
    | succ k =>
        have hk : (k == m) = false := beq_eq_false_iff_ne.mpr fun hk => hne (congrArg (· + 1) hk)
        refine .inl ⟨k, ⟨by omega, by omega, h.getElem?_lines.mpr hline⟩, ?_⟩
        rw [hk]

end Rows

section Listing

variable {chars : List Char} {lines : List (List Char)} {m : Nat} {r : Row}

theorem lineNumber_no_lineEnd (n : Nat) : ∀ c ∈ (lineNumber n).toList, isLineEnd c = false := by
  unfold lineNumber
  rw [String.toList_append, String.toList_ofList, List.forall_mem_append]
  refine ⟨fun c hc => ?_, fun c hc => ?_⟩
  · rw [List.eq_of_mem_replicate hc]
    rfl
  · rw [Nat.toString_eq_repr, Nat.toList_repr] at hc
    have hdigit := Nat.isDigit_of_mem_toDigits (by decide) (by decide) hc
    refine Bool.eq_false_iff.mpr fun hend => ?_
    rcases isLineEnd_iff.mp hend with rfl | rfl <;> cases hdigit

theorem Row.written_no_lineEnd (htext : ∀ c ∈ r.text, isLineEnd c = false) (total : Nat) :
    ∀ c ∈ (r.written total).toList, isLineEnd c = false := by
  unfold Row.written
  simp only [String.toList_append, List.forall_mem_append]
  refine ⟨⟨⟨?_, by simp [isLineEnd]⟩, lineNumber_no_lineEnd _⟩, ?_⟩
  · split <;> simp [isLineEnd]
  · split
    · simp [isLineEnd]
    · rw [String.toList_append, List.forall_mem_append]
      exact ⟨by simp [isLineEnd], by rwa [String.toList_ofList]⟩

/-- A listing has one line for each of its entries, and an empty last one. -/
theorem lined_join {entries : List String}
    (h : ∀ entry ∈ entries, ∀ c ∈ entry.toList, isLineEnd c = false) :
    Lined (String.join (entries.map (· ++ "\n"))).toList (entries.map String.toList ++ [[]]) := by
  induction entries with
  | nil => exact .last (List.forall_mem_nil _)
  | cons entry entries ih =>
      obtain ⟨hentry, hentries⟩ := List.forall_mem_cons.mp h
      rw [List.map_cons, String.join_cons, String.toList_append, String.toList_append,
        List.append_assoc]
      exact .more hentry .feed (by simp) (ih hentries)

theorem text_no_lineEnd (h : Lined chars lines) (hr : r ∈ rows (Excerpt.lines chars) m) :
    ∀ c ∈ r.text, isLineEnd c = false := by
  rcases mem_rows_iff.mp hr with ⟨k, ⟨-, -, hget⟩, -⟩ | ⟨-, rfl⟩
  · exact h.no_lineEnd _ (List.mem_of_getElem? (h.getElem?_lines.mp hget).1)
  · exact List.forall_mem_nil _

/-- Each row of an excerpt is a line of it. -/
theorem lined_rows (h : Lined chars lines) (total m : Nat) :
    Lined (String.join ((rows (Excerpt.lines chars) m).map fun r => r.written total ++ "\n")).toList
      ((rows (Excerpt.lines chars) m).map (fun r => (r.written total).toList) ++ [[]]) := by
  have hrows : ∀ entry ∈ (rows (Excerpt.lines chars) m).map (Row.written total),
      ∀ c ∈ entry.toList, isLineEnd c = false := by
    intro entry hentry
    obtain ⟨r, hr, rfl⟩ := List.mem_map.mp hentry
    exact r.written_no_lineEnd (text_no_lineEnd h hr) total
  have hlined := lined_join hrows
  rwa [List.map_map, List.map_map] at hlined

end Listing

/-- The position of an offset is a place in a line. What the line has from there on is what the
text has from the offset on, up to the next line end. -/
theorem exists_numbered {chars : List Char} {lines : List (List Char)} (h : Lined chars lines)
    {o : Nat} (ho : o ≤ chars.length) : ∃ m text,
      ((LineTable.ofChars chars).position o).line = m + 1 ∧ lines[m]? = some text ∧
        text.drop (((LineTable.ofChars chars).position o).column - 1) =
          (chars.drop o).takeWhile (!isLineEnd ·) := by
  obtain ⟨text, hget, hdrop⟩ := h.exists_line (Nat.zero_le o) (by rwa [Nat.zero_add])
  rw [Nat.sub_zero] at hdrop
  rw [position_eq ho]
  exact ⟨_, text, rfl, hget, hdrop⟩

/-- The excerpt around the range of a span that starts at an offset of a text has a row for each of
the lines near that of the offset, which is marked. -/
theorem ofRange_quotes (chars : List Char) (span : Span) (h : span.start ≤ chars.length) :
    ∃ lines rows, Quotes chars span.start
      (ofRange chars ((LineTable.ofChars chars).range span)) lines rows := by
  obtain ⟨lines, hlines⟩ := exists_lined chars
  obtain ⟨m, text, hline, hget, hdrop⟩ := exists_numbered hlines h
  have houtput : ofRange chars ((LineTable.ofChars chars).range span) = around chars m := by
    unfold ofRange LineTable.range
    rw [hline, Nat.add_sub_cancel]
  rw [houtput]
  refine ⟨lines, rows (Excerpt.lines chars) m, ?_⟩
  exact {
    divided := fun lines' => ⟨fun hlines' => hlines'.unique hlines, fun heq => heq ▸ hlines⟩
    listed := around_eq hlines hget
    rowByRow := by
      rw [around_eq hlines hget]
      exact lined_rows hlines _ _
    marked := by
      rw [hline]
      exact ⟨text, hget, filter_rows hlines hget, hdrop⟩
    others := fun number text => by
      rw [hline]
      exact mem_rows_other hlines
    ordered := rows_ordered _ _ }

/-- Behind the line end at the end of a text there is an empty line, which is shown if marked. -/
theorem ofRange_quotes_lastLine :
    8 ≤ "a=1\r\nb=\n".toList.length ∧
      ofRange "a=1\r\nb=\n".toList
        ((LineTable.ofChars "a=1\r\nb=\n".toList).range ⟨8, 8⟩) =
          "     1 | a=1\n     2 | b=\n>>   3 |\n" ∧
      ∃ lines rows, Quotes "a=1\r\nb=\n".toList 8
        "     1 | a=1\n     2 | b=\n>>   3 |\n" lines rows := by
  have hlength : 8 ≤ "a=1\r\nb=\n".toList.length := by decide
  have houtput : ofRange "a=1\r\nb=\n".toList
      ((LineTable.ofChars "a=1\r\nb=\n".toList).range ⟨8, 8⟩) =
        "     1 | a=1\n     2 | b=\n>>   3 |\n" := by
    decide
  have hquotes := ofRange_quotes "a=1\r\nb=\n".toList ⟨8, 8⟩ hlength
  rw [houtput] at hquotes
  exact ⟨hlength, houtput, hquotes⟩

end Excerpt

end Sumscript
