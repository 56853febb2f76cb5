import Mathlib.Data.List.Basic
import Sumscript.Proofs.TextLines

/-! # Offsets and positions

The line of an offset counts the line ends that stop at the offset or before it, and the column
counts the characters from where the last of them stops. A return and a line feed right behind it
are one line end. So the offsets of a text and their positions stand in the same order. Whatever
a search of the table of line starts answers leads to the position, with an index that is in the
table and a start that is not behind the offset.
-/

namespace Sumscript

/-- A line end of a text takes up a span: a return with the line feed right behind it, or one of
the two without the other. -/
inductive LineEndAt (chars : List Char) : Span → Prop where
  | returnFeed {i} (hreturn : chars[i]? = some '\r') (hfeed : chars[i + 1]? = some '\n') :
      LineEndAt chars ⟨i, i + 2⟩
  | feed {i} (hfeed : chars[i]? = some '\n') (hbehind : ∀ k, k + 1 = i → chars[k]? ≠ some '\r') :
      LineEndAt chars ⟨i, i + 1⟩
  | returnAlone {i} (hreturn : chars[i]? = some '\r') (hbefore : chars[i + 1]? ≠ some '\n') :
      LineEndAt chars ⟨i, i + 1⟩

/-- The line ends of a text whose first character has the given offset, in order. -/
def lineEndsFrom : Nat → List Char → List Span
  | _, [] => []
  | offset, '\r' :: '\n' :: rest => ⟨offset, offset + 2⟩ :: lineEndsFrom (offset + 2) rest
  | offset, c :: rest =>
    if isLineEnd c then ⟨offset, offset + 1⟩ :: lineEndsFrom (offset + 1) rest
    else lineEndsFrom (offset + 1) rest

/-- The line ends that stop at an offset or before it. -/
def lineEndsUpTo (ends : List Span) (offset : Nat) : List Span :=
  ends.filter fun e => e.stop ≤ offset

/-- Where the line of an offset starts: where the last line end before it stops, or else at the
start of the text. -/
def lineStart (ends : List Span) (offset : Nat) : Nat :=
  ((lineEndsUpTo ends offset).getLast?.map Span.stop).getD 0

/-- What a search for an offset in an ordered list of offsets may answer: an index at which it
stands, or else the index at which it would have to be inserted. -/
inductive Search (starts : List Nat) (offset : Nat) : Except Nat Nat → Prop where
  | found {i} (hget : starts[i]? = some offset) : Search starts offset (.ok i)
  | missing {i} (hlength : i ≤ starts.length) (hbefore : ∀ s ∈ starts.take i, s < offset)
      (hbehind : ∀ s ∈ starts.drop i, offset < s) : Search starts offset (.error i)

/-- The index of the line that a search leads to. An offset that would have to be inserted is on
the line before, of which there is none before the first. -/
def searchedLine? : Except Nat Nat → Option Nat
  | .ok i => some i
  | .error 0 => none
  | .error (i + 1) => some i

/-- The offsets of a text and their positions correspond, by the line ends of the text. -/
structure Corresponds (chars : List Char) (ends : List Span) : Prop where
  /-- The line ends are those of the text. -/
  listed : ∀ e, e ∈ ends ↔ LineEndAt chars e
  /-- They stand in order and apart. -/
  ordered : ends.Pairwise fun e e' => e.stop ≤ e'.start
  line : ∀ o, ((LineTable.ofChars chars).position o).line =
    1 + (lineEndsUpTo ends (min o chars.length)).length
  column : ∀ o, ((LineTable.ofChars chars).position o).column =
    1 + (min o chars.length - lineStart ends (min o chars.length))
  /-- A search of the table has an answer. -/
  searched : ∀ o, ∃ answer,
    Search (LineTable.ofChars chars).starts (min o chars.length) answer
  /-- Every answer leads to the position. The index is never one before the first, it is in the
  table, and the line does not start behind the offset. -/
  indexed : ∀ o answer, Search (LineTable.ofChars chars).starts (min o chars.length) answer →
    ∃ line start, searchedLine? answer = some line ∧
      (LineTable.ofChars chars).starts[line]? = some start ∧ start ≤ min o chars.length ∧
        (LineTable.ofChars chars).position o = ⟨line + 1, min o chars.length - start + 1⟩
  /-- A later offset of the text has a later position. -/
  increasing : ∀ o o', o < o' → o' ≤ chars.length →
    ((LineTable.ofChars chars).position o).line < ((LineTable.ofChars chars).position o').line ∨
      ((LineTable.ofChars chars).position o).line =
          ((LineTable.ofChars chars).position o').line ∧
        ((LineTable.ofChars chars).position o).column <
          ((LineTable.ofChars chars).position o').column
  injective : ∀ o o', o ≤ chars.length → o' ≤ chars.length →
    (LineTable.ofChars chars).position o = (LineTable.ofChars chars).position o' → o = o'
  /-- Offsets past the end have the position of the end. -/
  clamped : ∀ o, chars.length ≤ o →
    (LineTable.ofChars chars).position o = (LineTable.ofChars chars).position chars.length
  lineCount : (LineTable.ofChars chars).lineCount =
    ((LineTable.ofChars chars).position chars.length).line

/-! ## The line ends of a text -/

section Ends

variable {chars w : List Char} {c : Char} {o : Nat} {e : Span}

/-- Where the text goes on with the given characters. -/
theorem getElem?_of_drop (h : chars.drop o = c :: w) :
    chars[o]? = some c ∧ chars.drop (o + 1) = w := by
  constructor
  · rw [← List.head?_drop, h]
    rfl
  · rw [← List.drop_drop, h]
    rfl

theorem LineEndAt.start_lt (h : LineEndAt chars e) : e.start < e.stop := by
  cases h with
  | returnFeed => exact Nat.lt_add_of_pos_right (by decide)
  | feed | returnAlone => exact Nat.lt_succ_self _

/-- A line end starts at a return or a line feed. -/
theorem LineEndAt.exists_char (h : LineEndAt chars e) :
    ∃ c, chars[e.start]? = some c ∧ isLineEnd c = true := by
  cases h with
  | returnFeed hreturn => exact ⟨_, hreturn, rfl⟩
  | feed hfeed => exact ⟨_, hfeed, rfl⟩
  | returnAlone hreturn => exact ⟨_, hreturn, rfl⟩

theorem LineEndAt.start_ne (hget : chars[o]? = some c) (hc : isLineEnd c = false)
    (h : LineEndAt chars e) : e.start ≠ o := by
  rintro rfl
  obtain ⟨c', hget', hc'⟩ := h.exists_char
  cases hget.symm.trans hget'
  exact Bool.noConfusion (hc.symm.trans hc')

/-- Only one line end starts at an offset. -/
theorem LineEndAt.unique {e' : Span} (h : LineEndAt chars e) (h' : LineEndAt chars e')
    (hstart : e.start = e'.start) : e = e' := by
  cases h <;> cases h' <;> simp_all

/-- No line end starts at a line feed right behind a return. -/
theorem LineEndAt.start_ne_feed (hreturn : chars[o]? = some '\r')
    (hfeed : chars[o + 1]? = some '\n') (h : LineEndAt chars e) : e.start ≠ o + 1 := by
  rintro hstart
  cases h with
  | returnFeed hreturn' | returnAlone hreturn' =>
      dsimp only at hstart
      subst hstart
      cases hfeed.symm.trans hreturn'
  | feed _ hbehind => exact hbehind o hstart.symm hreturn

/-- A line end that does not start before an offset is the one there or starts behind it. -/
theorem lineEndAt_from_iff {first later : Nat} (hfirst : LineEndAt chars ⟨o, first⟩)
    (hlater : ∀ e, LineEndAt chars e → o < e.start → later ≤ e.start) (hlt : o < later) :
    LineEndAt chars e ∧ o ≤ e.start ↔
      e = ⟨o, first⟩ ∨ LineEndAt chars e ∧ later ≤ e.start := by
  constructor
  · rintro ⟨he, hle⟩
    rcases Nat.eq_or_lt_of_le hle with heq | hlt
    · exact .inl (he.unique hfirst heq.symm)
    · exact .inr ⟨he, hlater e he hlt⟩
  · rintro (rfl | ⟨he, hle⟩)
    · exact ⟨hfirst, Nat.le_refl _⟩
    · exact ⟨he, Nat.le_trans (Nat.le_of_lt hlt) hle⟩

/-- The list holds the line ends that start at the offset or behind it, unless the offset is
between a return and its line feed. -/
theorem mem_lineEndsFrom (hw : chars.drop o = w)
    (hapart : ∀ k, k + 1 = o → chars[k]? = some '\r' → chars[o]? ≠ some '\n') :
    e ∈ lineEndsFrom o w ↔ LineEndAt chars e ∧ o ≤ e.start := by
  induction o, w using lineEndsFrom.induct with
  | case1 o =>
      refine ⟨fun h => (nomatch h), fun ⟨he, hle⟩ => ?_⟩
      obtain ⟨c, hget, -⟩ := he.exists_char
      have hlt := (List.getElem?_eq_some_iff.mp hget).1
      have hend := List.drop_eq_nil_iff.mp hw
      omega
  | case2 o rest ih =>
      obtain ⟨hreturn, hw'⟩ := getElem?_of_drop hw
      obtain ⟨hfeed, hrest⟩ := getElem?_of_drop hw'
      have hnext : ∀ k, k + 1 = o + 2 → chars[k]? = some '\r' → chars[o + 2]? ≠ some '\n' := by
        rintro k hk hreturn'
        obtain rfl : k = o + 1 := by omega
        cases hfeed.symm.trans hreturn'
      have hlater : ∀ e, LineEndAt chars e → o < e.start → o + 2 ≤ e.start := by
        intro e he hlt
        have := he.start_ne_feed hreturn hfeed
        omega
      rw [lineEndsFrom, List.mem_cons, lineEndAt_from_iff (.returnFeed hreturn hfeed) hlater
        (by omega)]
      exact or_congr_right (ih hrest hnext)
  | case3 o c rest hpair hc ih =>
      obtain ⟨hget, hrest⟩ := getElem?_of_drop hw
      have halone : c = '\r' → chars[o + 1]? ≠ some '\n' := by
        rintro rfl hfeed
        rw [← List.head?_drop, hrest] at hfeed
        obtain ⟨rest', hrest'⟩ := List.head?_eq_some_iff.mp hfeed
        exact hpair rest' rfl hrest'
      have hnext : ∀ k, k + 1 = o + 1 → chars[k]? = some '\r' → chars[o + 1]? ≠ some '\n' := by
        rintro k hk hreturn
        obtain rfl : k = o := Nat.succ.inj hk
        cases hget.symm.trans hreturn
        exact halone rfl
      have hfirst : LineEndAt chars ⟨o, o + 1⟩ := by
        rcases isLineEnd_iff.mp hc with rfl | rfl
        · exact .feed hget fun k hk hreturn => hapart k hk hreturn hget
        · exact .returnAlone hget (halone rfl)
      rw [lineEndsFrom, if_pos hc, List.mem_cons,
        lineEndAt_from_iff hfirst (fun e _ hlt => hlt) (Nat.lt_succ_self _)]
      · exact or_congr_right (ih hrest hnext)
      · exact hpair
  | case4 o c rest hpair hc ih =>
      obtain ⟨hget, hrest⟩ := getElem?_of_drop hw
      have hc' := Bool.eq_false_iff.mpr hc
      have hnext : ∀ k, k + 1 = o + 1 → chars[k]? = some '\r' → chars[o + 1]? ≠ some '\n' := by
        rintro k hk hreturn
        obtain rfl : k = o := Nat.succ.inj hk
        cases hget.symm.trans hreturn
        cases hc'
      rw [lineEndsFrom, if_neg hc]
      · refine (ih hrest hnext).trans (and_congr_right fun he => ?_)
        have := he.start_ne hget hc'
        omega
      · exact hpair

theorem mem_lineEnds_iff : e ∈ lineEndsFrom 0 chars ↔ LineEndAt chars e := by
  rw [mem_lineEndsFrom List.drop_zero fun k hk => absurd hk (Nat.succ_ne_zero k)]
  exact and_iff_left (Nat.zero_le _)

theorem le_start_of_mem_lineEndsFrom (h : e ∈ lineEndsFrom o w) : o ≤ e.start := by
  induction o, w using lineEndsFrom.induct <;> grind [lineEndsFrom]

/-- Every line end stops before the next one starts. -/
theorem lineEndsFrom_ordered (o : Nat) (w : List Char) :
    (lineEndsFrom o w).Pairwise fun e e' => e.stop ≤ e'.start := by
  induction o, w using lineEndsFrom.induct with
  | case1 => exact .nil
  | case2 o rest ih =>
      rw [lineEndsFrom]
      exact .cons (fun e he => le_start_of_mem_lineEndsFrom he) ih
  | case3 o c rest hpair hc ih =>
      rw [lineEndsFrom, if_pos hc]
      · exact .cons (fun e he => le_start_of_mem_lineEndsFrom he) ih
      · exact hpair
  | case4 o c rest hpair hc ih =>
      rw [lineEndsFrom, if_neg hc]
      · exact ih
      · exact hpair

/-- A line starts where each line end stops. -/
theorem map_stop_lineEndsFrom (o : Nat) (w : List Char) :
    (lineEndsFrom o w).map Span.stop = LineTable.startsFrom o w := by
  induction o, w using lineEndsFrom.induct with
  | case1 => rfl
  | case2 o rest ih =>
      rw [lineEndsFrom, List.map_cons, ih]
      exact (startsFrom_lineEnd .returnFeed (by simp) o).symm
  | case3 o c rest hpair hc ih =>
      have halone : [c] = ['\r'] → rest.head? ≠ some '\n' := by
        rintro hreturn hfeed
        obtain ⟨rest', hrest'⟩ := List.head?_eq_some_iff.mp hfeed
        exact hpair rest' (List.cons.inj hreturn).1 hrest'
      have hnewline : Newline [c] := by
        rcases isLineEnd_iff.mp hc with rfl | rfl
        · exact .feed
        · exact .returnAlone
      rw [lineEndsFrom, if_pos hc, List.map_cons, ih]
      · exact (startsFrom_lineEnd hnewline halone o).symm
      · exact hpair
  | case4 o c rest hpair hc ih =>
      obtain ⟨hfeed, hreturn⟩ := ne_of_not_isLineEnd (Bool.eq_false_iff.mpr hc)
      rw [lineEndsFrom, if_neg hc, ih, startsFrom_other hfeed hreturn]
      exact hpair

end Ends

/-! ## The table and its search -/

section Table

variable {chars : List Char} {ends : List Span} {starts : List Nat} {i m o o' s : Nat}

theorem starts_eq (chars : List Char) : (LineTable.ofChars chars).starts =
    0 :: (lineEndsFrom 0 chars).map Span.stop := by
  rw [map_stop_lineEndsFrom]
  rfl

/-- The table is strictly ordered. -/
theorem starts_ordered (chars : List Char) :
    (LineTable.ofChars chars).starts.Pairwise (· < ·) := by
  rw [starts_eq, List.pairwise_cons, List.pairwise_map]
  constructor
  · intro s hs
    obtain ⟨e, he, rfl⟩ := List.mem_map.mp hs
    exact Nat.zero_lt_of_lt (mem_lineEnds_iff.mp he).start_lt
  · refine (lineEndsFrom_ordered 0 chars).imp_of_mem fun _ he' hle => ?_
    exact Nat.lt_of_le_of_lt hle (mem_lineEnds_iff.mp he').start_lt

/-- In an ordered list the entries up to an offset stand before all others. -/
theorem takeWhile_eq_take (hordered : starts.Pairwise (· < ·)) (hget : starts[i]? = some s)
    (hs : s ≤ m) (hlater : ∀ s' ∈ starts.drop (i + 1), m < s') :
    starts.takeWhile (· ≤ m) = starts.take (i + 1) := by
  have hupTo : ∀ s' ∈ starts.take (i + 1), decide (s' ≤ m) = true := by
    intro s' hs'
    rw [List.take_add_one, hget, List.mem_append] at hs'
    rw [decide_eq_true_iff]
    rcases hs' with hs' | hs'
    · rw [← List.take_append_drop i starts] at hordered
      have hdrop : s ∈ starts.drop i := by
        rw [List.drop_eq_getElem?_toList_append, hget]
        exact List.mem_cons_self
      exact Nat.le_of_lt (Nat.lt_of_lt_of_le
        ((List.pairwise_append.mp hordered).2.2 s' hs' s hdrop) hs)
    · rw [List.mem_singleton.mp hs']
      exact hs
  have hrest : (starts.drop (i + 1)).takeWhile (· ≤ m) = [] := by
    cases hdrop : starts.drop (i + 1) with
    | nil => rfl
    | cons s' rest =>
        have hlt := hlater s' (by rw [hdrop]; exact List.mem_cons_self)
        exact List.takeWhile_cons_of_neg (by simpa using hlt)
  have htake : (starts.take (i + 1) ++ starts.drop (i + 1)).takeWhile (· ≤ m) =
      starts.take (i + 1) ++ (starts.drop (i + 1)).takeWhile (· ≤ m) :=
    List.takeWhile_append_of_pos hupTo
  rwa [List.take_append_drop, hrest, List.append_nil] at htake

theorem position_min (chars : List Char) (o : Nat) : (LineTable.ofChars chars).position o =
    (LineTable.ofChars chars).position (min o chars.length) := by
  unfold LineTable.position LineTable.ofChars
  simp only [Nat.min_assoc, Nat.min_self]

/-- The position of an offset by the start that a line has in the table, if the next line starts
behind the offset. -/
theorem position_of_start (hget : (LineTable.ofChars chars).starts[i]? = some s)
    (hs : s ≤ min o chars.length)
    (hlater : ∀ s' ∈ (LineTable.ofChars chars).starts.drop (i + 1), min o chars.length < s') :
    (LineTable.ofChars chars).position o = ⟨i + 1, min o chars.length - s + 1⟩ := by
  have hpassed := takeWhile_eq_take (starts_ordered chars) hget hs hlater
  have hlength : i < (LineTable.ofChars chars).starts.length :=
    (List.getElem?_eq_some_iff.mp hget).1
  have hlast : ((LineTable.ofChars chars).starts.take (i + 1)).getLastD 0 = s := by
    rw [List.getLastD_eq_getLast?, List.take_add_one, hget, Option.toList_some,
      List.getLast?_concat]
    rfl
  unfold LineTable.position
  dsimp only
  rw [show (LineTable.ofChars chars).length = chars.length from rfl, hpassed, hlast,
    List.length_take_of_le hlength]

/-- A search of an ordered list has an answer. -/
theorem exists_search (hordered : starts.Pairwise (· < ·)) (m : Nat) :
    ∃ answer, Search starts m answer := by
  induction starts with
  | nil => exact ⟨_, .missing (Nat.zero_le _) (List.forall_mem_nil _) (List.forall_mem_nil _)⟩
  | cons first rest ih =>
      obtain ⟨hfirst, hrest⟩ := List.pairwise_cons.mp hordered
      rcases Nat.lt_trichotomy first m with hlt | rfl | hlt
      · obtain ⟨answer, hanswer⟩ := ih hrest
        cases hanswer with
        | found hget => exact ⟨_, .found (i := _ + 1) hget⟩
        | missing hlength hbefore hbehind =>
            exact ⟨_, .missing (i := _ + 1) (Nat.succ_le_succ hlength)
              (List.forall_mem_cons.mpr ⟨hlt, hbefore⟩) hbehind⟩
      · exact ⟨_, .found (i := 0) rfl⟩
      · exact ⟨_, .missing (i := 0) (Nat.zero_le _) (List.forall_mem_nil _)
          (List.forall_mem_cons.mpr ⟨hlt, fun s hs => Nat.lt_trans hlt (hfirst s hs)⟩)⟩

/-- Whatever a search answers leads to the position. -/
theorem position_of_search {answer : Except Nat Nat}
    (h : Search (LineTable.ofChars chars).starts (min o chars.length) answer) :
    ∃ line start, searchedLine? answer = some line ∧
      (LineTable.ofChars chars).starts[line]? = some start ∧ start ≤ min o chars.length ∧
        (LineTable.ofChars chars).position o = ⟨line + 1, min o chars.length - start + 1⟩ := by
  have hordered := starts_ordered chars
  cases h with
  | @found i hget =>
      refine ⟨i, _, rfl, hget, Nat.le_refl _, position_of_start hget (Nat.le_refl _) ?_⟩
      rw [← List.take_append_drop (i + 1) (LineTable.ofChars chars).starts] at hordered
      refine (List.pairwise_append.mp hordered).2.2 _ ?_
      rw [List.take_add_one, hget]
      exact List.mem_concat_self
  | @missing i hlength hbefore hbehind =>
      cases i with
      | zero =>
          -- The first line starts at 0, and no offset is less.
          exact absurd (hbehind 0 (by rw [starts_eq]; exact List.mem_cons_self)) (Nat.not_lt_zero _)
      | succ i =>
          have hget := List.getElem?_eq_getElem hlength
          have hs := hbefore (LineTable.ofChars chars).starts[i] (by
            rw [List.take_add_one, hget]
            exact List.mem_concat_self)
          have hle := Nat.le_of_lt hs
          exact ⟨i, _, rfl, hget, hle, position_of_start hget hle hbehind⟩

end Table

/-! ## The line ends up to an offset -/

section UpTo

variable {chars : List Char} {ends : List Span} {o o' : Nat}

theorem lineStart_le (ends : List Span) (o : Nat) : lineStart ends o ≤ o := by
  unfold lineStart
  cases hlast : (lineEndsUpTo ends o).getLast? with
  | none => exact Nat.zero_le o
  | some e => exact of_decide_eq_true (List.mem_filter.mp (List.mem_of_getLast? hlast)).2

theorem lineEndsUpTo_sublist (hle : o ≤ o') :
    (lineEndsUpTo ends o).Sublist (lineEndsUpTo ends o') := by
  refine List.monotone_filter_right ends fun e he => ?_
  rw [decide_eq_true_iff] at he ⊢
  exact Nat.le_trans he hle

/-- Of line ends in order those up to an offset come first. -/
theorem takeWhile_map_stop (hordered : ends.Pairwise fun e e' => e.stop < e'.stop) :
    (ends.map Span.stop).takeWhile (· ≤ o) = (lineEndsUpTo ends o).map Span.stop := by
  unfold lineEndsUpTo
  induction ends with
  | nil => rfl
  | cons e rest ih =>
      obtain ⟨hlater, hrest⟩ := List.pairwise_cons.mp hordered
      rw [List.map_cons]
      by_cases he : e.stop ≤ o
      · rw [List.takeWhile_cons_of_pos (by simpa using he),
          List.filter_cons_of_pos (by simpa using he), List.map_cons, ih hrest]
      · rw [List.takeWhile_cons_of_neg (by simpa using he),
          List.filter_cons_of_neg (by simpa using he)]
        have hnone : rest.filter (fun e => e.stop ≤ o) = [] := by
          refine List.filter_eq_nil_iff.mpr fun e' he' => ?_
          have := hlater e' he'
          simp
          omega
        rw [hnone]
        rfl

/-- Lines are counted by the line ends up to an offset, and columns from the last of them. -/
theorem position_eq_upTo (chars : List Char) (o : Nat) : (LineTable.ofChars chars).position o =
    ⟨(lineEndsUpTo (lineEndsFrom 0 chars) (min o chars.length)).length + 1,
      min o chars.length - lineStart (lineEndsFrom 0 chars) (min o chars.length) + 1⟩ := by
  have hordered : (lineEndsFrom 0 chars).Pairwise fun e e' => e.stop < e'.stop :=
    (lineEndsFrom_ordered 0 chars).imp_of_mem fun _ he' hle =>
      Nat.lt_of_le_of_lt hle (mem_lineEnds_iff.mp he').start_lt
  rw [position_min, position_eq (Nat.min_le_right _ _), ← map_stop_lineEndsFrom,
    takeWhile_map_stop hordered, List.length_map, List.getLastD_eq_getLast?, List.getLast?_map]
  rfl

/-- A later offset of a text is on a later line, or on the same line and further right. -/
theorem position_increasing (hlt : o < o') (ho' : o' ≤ chars.length) :
    ((LineTable.ofChars chars).position o).line < ((LineTable.ofChars chars).position o').line ∨
      ((LineTable.ofChars chars).position o).line =
          ((LineTable.ofChars chars).position o').line ∧
        ((LineTable.ofChars chars).position o).column <
          ((LineTable.ofChars chars).position o').column := by
  have hsublist : (lineEndsUpTo (lineEndsFrom 0 chars) o).Sublist
      (lineEndsUpTo (lineEndsFrom 0 chars) o') := lineEndsUpTo_sublist (Nat.le_of_lt hlt)
  have hmin : min o chars.length = o := by omega
  rw [position_eq_upTo, position_eq_upTo, hmin, Nat.min_eq_left ho']
  rcases Nat.lt_or_eq_of_le hsublist.length_le with hless | hsame
  · exact .inl (Nat.succ_lt_succ hless)
  · -- No line end lies between the two, so both columns are counted from the same one.
    have hstart : lineStart (lineEndsFrom 0 chars) o = lineStart (lineEndsFrom 0 chars) o' := by
      unfold lineStart
      rw [hsublist.eq_of_length hsame]
    have hle := lineStart_le (lineEndsFrom 0 chars) o
    refine .inr ⟨congrArg (· + 1) hsame, ?_⟩
    dsimp only
    omega

theorem LineEndAt.stop_le {e : Span} (h : LineEndAt chars e) : e.stop ≤ chars.length := by
  cases h with
  | returnFeed _ hfeed => exact (List.getElem?_eq_some_iff.mp hfeed).1
  | feed hfeed => exact (List.getElem?_eq_some_iff.mp hfeed).1
  | returnAlone hreturn => exact (List.getElem?_eq_some_iff.mp hreturn).1

theorem lineCount_eq (chars : List Char) : (LineTable.ofChars chars).lineCount =
    ((LineTable.ofChars chars).position chars.length).line := by
  have hall : lineEndsUpTo (lineEndsFrom 0 chars) chars.length = lineEndsFrom 0 chars :=
    List.filter_eq_self.mpr fun e he => decide_eq_true (mem_lineEnds_iff.mp he).stop_le
  rw [position_eq_upTo, Nat.min_self, hall, LineTable.lineCount, starts_eq, List.length_cons,
    List.length_map]

end UpTo

/-- Offsets and positions correspond one to one up to the end of a text. -/
theorem position_corresponds (chars : List Char) : ∃ ends, Corresponds chars ends := by
  refine ⟨lineEndsFrom 0 chars, ?_⟩
  exact {
    listed := fun e => mem_lineEnds_iff
    ordered := lineEndsFrom_ordered 0 chars
    line := fun o => by rw [position_eq_upTo, Nat.add_comm 1]
    column := fun o => by rw [position_eq_upTo, Nat.add_comm 1]
    searched := fun o => exists_search (starts_ordered chars) _
    indexed := fun o answer => position_of_search
    increasing := fun o o' => position_increasing
    injective := fun o o' ho ho' heq => by
      rcases Nat.lt_trichotomy o o' with hlt | rfl | hlt
      · have := position_increasing hlt ho'
        rw [heq] at this
        omega
      · rfl
      · have := position_increasing hlt ho
        rw [heq] at this
        omega
    clamped := fun o ho => by rw [position_min, Nat.min_eq_right ho]
    lineCount := lineCount_eq chars }

/-- Between a return and its line feed the line has not ended. -/
example : (LineTable.ofChars "a\r\nb".toList).position 2 = ⟨1, 3⟩ := by decide

end Sumscript
