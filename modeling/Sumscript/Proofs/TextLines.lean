import Sumscript.Proofs.WrittenForm
import Sumscript.Source.Location

/-! # The lines of a text

A text is divided into lines by its line ends, in one way only. The table of line starts and the
splitting for excerpts both follow this division: there is one start for each line, and the lines
of an excerpt are those of the text but for an empty last one.
-/

namespace Sumscript

/-- The division of a text into lines, without the line ends between them. A return ends a line
alone only if no line feed follows it. -/
inductive Lined : List Char → List (List Char) → Prop where
  | last {w} (hline : ∀ c ∈ w, isLineEnd c = false) : Lined w [w]
  | more {w n rest lines} (hline : ∀ c ∈ w, isLineEnd c = false) (hnewline : Newline n)
      (halone : n = ['\r'] → rest.head? ≠ some '\n') (hrest : Lined rest lines) :
      Lined (w ++ (n ++ rest)) (w :: lines)

section LineEnds

variable {n : List Char} {c : Char}

theorem ne_of_not_isLineEnd (hc : isLineEnd c = false) : c ≠ '\n' ∧ c ≠ '\r' := by
  constructor
  · rintro rfl
    cases hc
  · rintro rfl
    cases hc

theorem Newline.exists_head (h : Newline n) : ∃ c r, n = c :: r ∧ isLineEnd c = true := by
  cases h with
  | returnFeed => exact ⟨_, _, rfl, rfl⟩
  | feed => exact ⟨_, _, rfl, rfl⟩
  | returnAlone => exact ⟨_, _, rfl, rfl⟩

end LineEnds

/-! ## The table of line starts -/

section Starts

variable {n w rest : List Char} {lines : List (List Char)} {c : Char} {b o s : Nat}

theorem endsLine_other (hfeed : c ≠ '\n') (hreturn : c ≠ '\r') (rest : List Char) :
    LineTable.endsLine c rest = false := by
  simp [LineTable.endsLine, hfeed, hreturn]

theorem startsFrom_other (hfeed : c ≠ '\n') (hreturn : c ≠ '\r') (offset : Nat)
    (rest : List Char) :
    LineTable.startsFrom offset (c :: rest) = LineTable.startsFrom (offset + 1) rest := by
  simp [LineTable.startsFrom, endsLine_other hfeed hreturn]

theorem startsFrom_feed (offset : Nat) (rest : List Char) :
    LineTable.startsFrom offset ('\n' :: rest) =
      (offset + 1) :: LineTable.startsFrom (offset + 1) rest := by
  simp [LineTable.startsFrom, LineTable.endsLine]

/-- A line end of any form ends one line. -/
theorem startsFrom_lineEnd (hn : Newline n) (halone : n = ['\r'] → rest.head? ≠ some '\n')
    (offset : Nat) : LineTable.startsFrom offset (n ++ rest) =
      (offset + n.length) :: LineTable.startsFrom (offset + n.length) rest := by
  cases hn with
  | returnFeed => simp [LineTable.startsFrom, LineTable.endsLine]
  | feed => exact startsFrom_feed offset _
  | returnAlone => simp [LineTable.startsFrom, LineTable.endsLine, halone rfl]

/-- No line starts inside a line. -/
theorem startsFrom_line (hw : ∀ c ∈ w, isLineEnd c = false) (offset : Nat) (rest : List Char) :
    LineTable.startsFrom offset (w ++ rest) = LineTable.startsFrom (offset + w.length) rest := by
  induction w generalizing offset with
  | nil => rfl
  | cons c w ih =>
      obtain ⟨hc, hw⟩ := List.forall_mem_cons.mp hw
      obtain ⟨hfeed, hreturn⟩ := ne_of_not_isLineEnd hc
      rw [List.cons_append, startsFrom_other hfeed hreturn, ih hw, List.length_cons,
        Nat.add_assoc, Nat.add_comm 1]

theorem lt_of_mem_startsFrom (hs : s ∈ LineTable.startsFrom o w) : o < s := by
  induction w generalizing o with
  | nil => cases hs
  | cons c w ih =>
      rw [LineTable.startsFrom] at hs
      split at hs
      · rcases List.mem_cons.mp hs with rfl | hs
        · exact Nat.lt_succ_self o
        · exact Nat.lt_of_succ_lt (ih hs)
      · exact Nat.lt_of_succ_lt (ih hs)

theorem takeWhile_startsFrom (o : Nat) (w : List Char) :
    (LineTable.startsFrom o w).takeWhile (· ≤ o) = [] := by
  cases hstarts : LineTable.startsFrom o w with
  | nil => rfl
  | cons first later =>
      have hfirst : o < first := lt_of_mem_startsFrom (by rw [hstarts]; exact List.mem_cons_self)
      simp [Nat.not_le.mpr hfirst]

/-- Lines are counted by the starts that are not behind an offset, columns from the last of
them. -/
theorem position_eq {chars : List Char} (ho : o ≤ chars.length) :
    (LineTable.ofChars chars).position o =
      ⟨((LineTable.startsFrom 0 chars).takeWhile (· ≤ o)).length + 1,
        o - ((LineTable.startsFrom 0 chars).takeWhile (· ≤ o)).getLastD 0 + 1⟩ := by
  unfold LineTable.position LineTable.ofChars
  dsimp only
  rw [Nat.min_eq_left ho, List.takeWhile_cons_of_pos (by simp), List.getLastD_cons,
    List.length_cons]

/-- There is one start for each line behind the first. -/
theorem Lined.length_startsFrom (h : Lined w lines) (offset : Nat) :
    (LineTable.startsFrom offset w).length + 1 = lines.length := by
  induction h generalizing offset with
  | @last w hline =>
      have hstarts := startsFrom_line hline offset []
      rw [List.append_nil] at hstarts
      rw [hstarts]
      rfl
  | more hline hn halone _ ih =>
      rw [startsFrom_line hline, startsFrom_lineEnd hn halone, List.length_cons, ih,
        List.length_cons]

theorem takeWhile_line (hw : ∀ c ∈ w, isLineEnd c = false) (rest : List Char) :
    (w ++ rest).takeWhile (!isLineEnd ·) = w ++ rest.takeWhile (!isLineEnd ·) := by
  refine List.takeWhile_append_of_pos fun c hc => ?_
  rw [hw c hc]
  rfl

/-- What follows a place in a line, up to the next line end. -/
theorem takeWhile_drop_line (hw : ∀ c ∈ w, isLineEnd c = false) (hn : Newline n) {i : Nat}
    (hi : i < (w ++ n).length) :
    ((w ++ (n ++ rest)).drop i).takeWhile (!isLineEnd ·) = w.drop i := by
  by_cases hle : i ≤ w.length
  · obtain ⟨c, r, hhead, hc⟩ := hn.exists_head
    rw [List.drop_append_of_le_length hle,
      takeWhile_line fun d hd => hw d (List.mem_of_mem_drop hd), hhead, List.cons_append,
      List.takeWhile_cons_of_neg (by simp [hc]), List.append_nil]
  · -- Behind the line and before its end there is a place only in a return and a line feed.
    cases hn with
    | returnFeed =>
        obtain rfl : i = w.length + 1 := by
          simp only [List.length_append, List.length_cons, List.length_nil] at hi
          omega
        rw [List.drop_append, List.drop_eq_nil_of_le (Nat.le_succ _), Nat.add_sub_cancel_left]
        rfl
    | feed | returnAlone =>
        simp only [List.length_append, List.length_cons, List.length_nil] at hi
        omega

/-- The last start that is not behind an offset is the start of the line that holds the offset,
and what the line has behind the offset goes up to the next line end. -/
theorem Lined.exists_line (h : Lined w lines) {offset : Nat} (hb : b ≤ offset)
    (hoffset : offset ≤ b + w.length) :
    ∃ text, lines[((LineTable.startsFrom b w).takeWhile (· ≤ offset)).length]? = some text ∧
      text.drop (offset - ((LineTable.startsFrom b w).takeWhile (· ≤ offset)).getLastD b) =
        (w.drop (offset - b)).takeWhile (!isLineEnd ·) := by
  induction h generalizing b with
  | @last w hline =>
      have hstarts := startsFrom_line hline b []
      rw [List.append_nil] at hstarts
      rw [hstarts]
      have hrest := takeWhile_line (w := w.drop (offset - b))
        (fun c hc => hline c (List.mem_of_mem_drop hc)) []
      rw [List.append_nil] at hrest
      exact ⟨w, rfl, (hrest.trans (List.append_nil _)).symm⟩
  | @more w n rest lines hline hn halone _ ih =>
      rw [startsFrom_line hline, startsFrom_lineEnd hn halone]
      by_cases hlt : offset < b + w.length + n.length
      · rw [List.takeWhile_cons_of_neg (by simpa using hlt)]
        have hplace : offset - b < (w ++ n).length := by
          rw [List.length_append]
          omega
        exact ⟨w, rfl, (takeWhile_drop_line hline hn hplace).symm⟩
      · rw [List.length_append, List.length_append] at hoffset
        obtain ⟨text, hget, hdrop⟩ :=
          ih (b := b + w.length + n.length) (Nat.le_of_not_lt hlt) (by omega)
        rw [List.takeWhile_cons_of_pos (by simpa using hlt), List.getLastD_cons]
        have hsplit : offset - b = (w ++ n).length + (offset - (b + w.length + n.length)) := by
          rw [List.length_append]
          omega
        rw [← List.append_assoc, hsplit, ← List.drop_drop, List.drop_left]
        exact ⟨text, hget, hdrop⟩

end Starts

/-! ## The lines of excerpts -/

section Lines

variable {n w rest : List Char} {lines lines' : List (List Char)} {c : Char}

theorem Lined.no_lineEnd (h : Lined w lines) : ∀ line ∈ lines, ∀ c ∈ line, isLineEnd c = false := by
  induction h with
  | last hline => exact List.forall_mem_singleton.mpr hline
  | more hline _ _ _ ih => exact List.forall_mem_cons.mpr ⟨hline, ih⟩

/-- A character that ends no line goes on the first line. -/
theorem Lined.cons (hc : isLineEnd c = false) (h : Lined w lines) :
    ∃ line later, lines = line :: later ∧ Lined (c :: w) ((c :: line) :: later) := by
  cases h with
  | last hline => exact ⟨w, [], rfl, .last (List.forall_mem_cons.mpr ⟨hc, hline⟩)⟩
  | more hline hn halone hrest =>
      exact ⟨_, _, rfl, .more (List.forall_mem_cons.mpr ⟨hc, hline⟩) hn halone hrest⟩

/-- Every text has a division into lines. -/
theorem exists_lined (w : List Char) : ∃ lines, Lined w lines := by
  -- The cases are those of the splitting for excerpts, of which the last two go on with a line.
  induction w using Excerpt.lines.induct with
  | case1 => exact ⟨[[]], .last (List.forall_mem_nil _)⟩
  | case2 rest ih =>
      obtain ⟨lines, hlines⟩ := ih
      exact ⟨_, .more (List.forall_mem_nil _) .returnFeed (by simp) hlines⟩
  | case3 c rest hpair hc ih =>
      obtain ⟨lines, hlines⟩ := ih
      rcases isLineEnd_iff.mp hc with rfl | rfl
      · exact ⟨_, .more (List.forall_mem_nil _) .feed (by simp) hlines⟩
      · refine ⟨_, .more (List.forall_mem_nil _) .returnAlone (fun _ hhead => ?_) hlines⟩
        obtain ⟨rest', rfl⟩ := List.head?_eq_some_iff.mp hhead
        exact hpair rest' rfl rfl
  | case4 c rest _ hc _ ih | case5 c rest _ hc _ _ _ ih =>
      obtain ⟨lines, hlines⟩ := ih
      obtain ⟨line, later, -, hcons⟩ := hlines.cons (Bool.eq_false_iff.mpr hc)
      exact ⟨_, hcons⟩

/-- A character goes on the first line unless it ends it, or stands before a line feed that
does. -/
theorem lines_cons (hpair : ∀ r, c = '\r' → rest = '\n' :: r → False) :
    Excerpt.lines (c :: rest) = if isLineEnd c then [] :: Excerpt.lines rest
      else match Excerpt.lines rest with
        | [] => [[c]]
        | line :: later => (c :: line) :: later := by
  rw [Excerpt.lines]
  · rfl
  · exact hpair

theorem lines_other (hc : isLineEnd c = false) (rest : List Char) :
    Excerpt.lines (c :: rest) = match Excerpt.lines rest with
      | [] => [[c]]
      | line :: later => (c :: line) :: later := by
  rw [lines_cons fun _ hreturn _ => (ne_of_not_isLineEnd hc).2 hreturn, hc]
  rfl

/-- A line and its end are split off together. -/
theorem lines_lineEnd (hw : ∀ c ∈ w, isLineEnd c = false) (hn : Newline n)
    (halone : n = ['\r'] → rest.head? ≠ some '\n') :
    Excerpt.lines (w ++ (n ++ rest)) = w :: Excerpt.lines rest := by
  induction w with
  | nil =>
      cases hn with
      | returnFeed => rfl
      | feed => rfl
      | returnAlone =>
          cases rest with
          | nil => rfl
          | cons d rest =>
              have hd : d ≠ '\n' := fun hd => halone rfl (congrArg some hd)
              change Excerpt.lines ('\r' :: d :: rest) = _
              rw [lines_cons fun r _ hr => hd (List.cons.inj hr).1]
              rfl
  | cons c w ih =>
      obtain ⟨hc, hw⟩ := List.forall_mem_cons.mp hw
      rw [List.cons_append, lines_other hc, ih hw]

theorem lines_line (hw : ∀ c ∈ w, isLineEnd c = false) (hne : w ≠ []) :
    Excerpt.lines w = [w] := by
  induction w with
  | nil => exact absurd rfl hne
  | cons c w ih =>
      obtain ⟨hc, hw⟩ := List.forall_mem_cons.mp hw
      rw [lines_other hc]
      cases w with
      | nil => rfl
      | cons d w => rw [ih hw (List.cons_ne_nil _ _)]

/-- The lines of a text for excerpts are all its lines but for an empty last one. -/
theorem Lined.lines_eq (h : Lined w lines) :
    lines = Excerpt.lines w ∧ lines.getLast? ≠ some [] ∨ lines = Excerpt.lines w ++ [[]] := by
  induction h with
  | @last w hline =>
      by_cases hw : w = []
      · subst hw
        exact .inr rfl
      · rw [lines_line hline hw]
        exact .inl ⟨rfl, fun hlast => hw (Option.some.inj hlast)⟩
  | more hline hn halone hrest ih =>
      rw [lines_lineEnd hline hn halone]
      rcases ih with ⟨hlines, hlast⟩ | hlines
      · refine .inl ⟨congrArg _ hlines, ?_⟩
        cases hrest with
        | last => exact hlast
        | more => exact hlast
      · exact .inr (congrArg _ hlines)

/-- A line of a text is one for excerpts unless it is an empty last one. -/
theorem Lined.getElem?_lines (h : Lined w lines) {k : Nat} {text : List Char} :
    (Excerpt.lines w)[k]? = some text ↔
      lines[k]? = some text ∧ ¬ (k + 1 = lines.length ∧ text = []) := by
  rcases h.lines_eq with ⟨hlines, hlast⟩ | hlines
  · rw [← hlines]
    refine ⟨fun hget => ⟨hget, ?_⟩, And.left⟩
    rintro ⟨hk, rfl⟩
    rw [List.getLast?_eq_getElem?, ← hk] at hlast
    exact hlast hget
  · rw [hlines, List.length_append, List.length_singleton]
    by_cases hk : k < (Excerpt.lines w).length
    · rw [List.getElem?_append_left hk]
      exact ⟨fun hget => ⟨hget, fun hempty => by omega⟩, And.left⟩
    · rw [List.getElem?_append_right (Nat.le_of_not_lt hk),
        List.getElem?_eq_none (Nat.le_of_not_lt hk)]
      refine ⟨nofun, ?_⟩
      rintro ⟨hget, hempty⟩
      obtain ⟨hindex, htext⟩ := List.getElem?_eq_some_iff.mp hget
      rw [List.length_singleton] at hindex
      rw [List.getElem_singleton] at htext
      exact absurd ⟨by omega, htext.symm⟩ hempty

/-- Past the lines for excerpts there is only an empty last line. -/
theorem Lined.last_of_le (h : Lined w lines) {k : Nat} {text : List Char}
    (hget : lines[k]? = some text) (hend : (Excerpt.lines w).length ≤ k) :
    k + 1 = lines.length ∧ text = [] := by
  refine Decidable.byContradiction fun hlast => ?_
  have hget' := h.getElem?_lines.mpr ⟨hget, hlast⟩
  exact absurd (List.getElem?_eq_some_iff.mp hget').1 (Nat.not_lt.mpr hend)

/-- A text has one division into lines. -/
theorem Lined.unique (h : Lined w lines) (h' : Lined w lines') : lines = lines' := by
  -- The table of line starts fixes their number, the splitting all but an empty last one.
  have hlength : lines.length = lines'.length :=
    (h.length_startsFrom 0).symm.trans (h'.length_startsFrom 0)
  rcases h.lines_eq with ⟨hlines, -⟩ | hlines <;> rcases h'.lines_eq with ⟨hlines', -⟩ | hlines'
  · exact hlines.trans hlines'.symm
  · rw [hlines, hlines', List.length_append] at hlength
    exact absurd hlength (by simp)
  · rw [hlines, hlines', List.length_append] at hlength
    exact absurd hlength (by simp)
  · exact hlines.trans hlines'.symm

end Lines

end Sumscript
