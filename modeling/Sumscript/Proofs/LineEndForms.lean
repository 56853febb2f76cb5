import Mathlib.Order.MinMax
import Sumscript.Proofs.RenderedText
import Sumscript.Proofs.TextLines

/-! # Writing line ends in another form

A text whose line ends are line feeds may have each of them written as a return and a line feed,
or as a return alone. Every offset then has its counterpart, and lines and columns are counted
as before. A rendering of a tree stays a rendering of the same tree.
-/

namespace Sumscript

/-- A text with `n` in the place of every line feed. -/
def respell (n w : List Char) : List Char :=
  w.flatMap fun c => if c = '\n' then n else [c]

/-- The counterpart of an offset of a text in the text with `n` in the place of line feeds. -/
def respelledOffset (n w : List Char) (i : Nat) : Nat :=
  (respell n (w.take i)).length + (i - w.length)

section Text

variable {n w : List Char} {c : Char}

@[simp] theorem respell_nil : respell n [] = [] :=
  rfl

@[simp] theorem respell_append (w w' : List Char) :
    respell n (w ++ w') = respell n w ++ respell n w' := by
  simp [respell]

@[simp] theorem respell_feed : respell n ('\n' :: w) = n ++ respell n w := by
  simp [respell]

theorem respell_cons (hc : c ≠ '\n') : respell n (c :: w) = c :: respell n w := by
  simp [respell, hc]

theorem respell_eq_self (hw : '\n' ∉ w) : respell n w = w := by
  induction w with
  | nil => rfl
  | cons c w ih =>
      rw [List.mem_cons, not_or] at hw
      rw [respell_cons (Ne.symm hw.1), ih hw.2]

theorem not_mem_respell_feed (hn : '\n' ∉ n) : '\n' ∉ respell n w := by
  induction w with
  | nil => exact List.not_mem_nil
  | cons c w ih =>
      by_cases hc : c = '\n'
      · subst hc
        simp [hn, ih]
      · simp [respell_cons hc, Ne.symm hc, ih]

theorem Newline.length_pos (hn : Newline n) : 0 < n.length := by
  cases hn <;> decide

end Text

section Offsets

variable {n w : List Char} {c : Char} {i : Nat}

theorem respelledOffset_zero : respelledOffset n w 0 = 0 := by
  simp [respelledOffset]

theorem respelledOffset_length : respelledOffset n w w.length = (respell n w).length := by
  simp [respelledOffset]

/-- Behind the counterpart of an offset stands what stood behind the offset. -/
theorem drop_respelledOffset (n w : List Char) (i : Nat) :
    (respell n w).drop (respelledOffset n w i) = respell n (w.drop i) := by
  by_cases hi : i ≤ w.length
  · have hoffset : respelledOffset n w i = (respell n (w.take i)).length := by
      simp [respelledOffset, Nat.sub_eq_zero_of_le hi]
    conv_lhs => rw [← List.take_append_drop i w, respell_append, List.take_append_drop, hoffset]
    exact List.drop_left
  · have hi' := Nat.le_of_not_le hi
    rw [List.drop_eq_nil_of_le hi', respell_nil]
    apply List.drop_eq_nil_of_le
    simp [respelledOffset, List.take_of_length_le hi']

theorem respelledOffset_succ (hchar : w[i]? = some c) :
    respelledOffset n w (i + 1) = respelledOffset n w i + (respell n [c]).length := by
  have hi : i < w.length := (List.getElem?_eq_some_iff.mp hchar).1
  unfold respelledOffset
  rw [List.take_add_one, hchar, Option.toList_some, respell_append, List.length_append,
    Nat.sub_eq_zero_of_le hi, Nat.sub_eq_zero_of_le (Nat.le_of_lt hi)]
  omega

theorem respelledOffset_other (hchar : w[i]? = some c) (hc : c ≠ '\n') :
    respelledOffset n w (i + 1) = respelledOffset n w i + 1 := by
  rw [respelledOffset_succ hchar, respell_cons hc]
  rfl

theorem respelledOffset_feed (hchar : w[i]? = some '\n') :
    respelledOffset n w (i + 1) = respelledOffset n w i + n.length := by
  simp [respelledOffset_succ hchar]

theorem respelledOffset_strictMono (hn : Newline n) : StrictMono (respelledOffset n w) := by
  apply strictMono_nat_of_lt_succ
  intro i
  cases hchar : w[i]? with
  | none =>
      have hi := List.getElem?_eq_none_iff.mp hchar
      have hi' : w.length ≤ i + 1 := by omega
      simp only [respelledOffset, List.take_of_length_le hi, List.take_of_length_le hi']
      omega
  | some c =>
      by_cases hc : c = '\n'
      · subst hc
        simp [respelledOffset_feed hchar, hn.length_pos]
      · simp [respelledOffset_other hchar hc]

end Offsets

section Lines

variable {n w rest : List Char} {c : Char} {i o s : Nat}

/-- A line end of any form ends one line. A return that stands alone has no line feed behind it,
because it stands in the place of line feeds. -/
theorem startsFrom_newline (hn : Newline n) (offset : Nat) (rest : List Char) :
    LineTable.startsFrom offset (n ++ respell n rest) =
      (offset + n.length) :: LineTable.startsFrom (offset + n.length) (respell n rest) := by
  refine startsFrom_lineEnd hn (fun halone hhead => ?_) offset
  have hfeed : '\n' ∉ respell n rest := not_mem_respell_feed (by rw [halone]; decide)
  exact hfeed (List.mem_of_head? hhead)

/-- The lines start at the counterparts of where they started. -/
theorem startsFrom_respell (hn : Newline n) (hreturn : '\r' ∉ rest) (h : w.drop i = rest) :
    LineTable.startsFrom (respelledOffset n w i) (respell n rest) =
      (LineTable.startsFrom i rest).map (respelledOffset n w) := by
  induction rest generalizing i with
  | nil => rfl
  | cons c rest ih =>
      obtain ⟨hchar, hrest⟩ := drop_cons h
      rw [List.mem_cons, not_or] at hreturn
      have hlater := ih hreturn.2 hrest
      by_cases hc : c = '\n'
      · subst hc
        rw [respell_feed, startsFrom_newline hn, startsFrom_feed, List.map_cons, ← hlater,
          respelledOffset_feed hchar]
      · have hc' : c ≠ '\r' := Ne.symm hreturn.1
        rw [respell_cons hc, startsFrom_other hc hc', startsFrom_other hc hc', ← hlater,
          respelledOffset_other hchar hc]

/-- The counterparts of an offset and of the start of its line are as far apart as these two,
because there is no line end between them. -/
theorem distance_respell (hreturn : '\r' ∉ rest) (h : w.drop i = rest) (hle : i ≤ o)
    (hend : o ≤ w.length) (hstart : respelledOffset n w i + s = i + respelledOffset n w s) :
    respelledOffset n w o + ((LineTable.startsFrom i rest).takeWhile (· ≤ o)).getLastD s =
      o + respelledOffset n w
        (((LineTable.startsFrom i rest).takeWhile (· ≤ o)).getLastD s) := by
  induction rest generalizing i s with
  | nil =>
      have hi : i = o := by
        have hlength := List.drop_eq_nil_iff.mp h
        omega
      subst hi
      exact hstart
  | cons c rest ih =>
      by_cases hi : i = o
      · subst hi
        rw [takeWhile_startsFrom]
        exact hstart
      · obtain ⟨hchar, hrest⟩ := drop_cons h
        have hlt : i + 1 ≤ o := by omega
        rw [List.mem_cons, not_or] at hreturn
        by_cases hc : c = '\n'
        · subst hc
          have hlater := ih hreturn.2 hrest hlt (s := i + 1) (Nat.add_comm _ _)
          rw [startsFrom_feed, List.takeWhile_cons_of_pos (by simpa using hlt), List.getLastD_cons]
          exact hlater
        · have hc' : c ≠ '\r' := Ne.symm hreturn.1
          rw [startsFrom_other hc hc']
          apply ih hreturn.2 hrest hlt
          rw [respelledOffset_other hchar hc]
          omega

/-- Lines and columns are counted as before. -/
theorem position_respell (hn : Newline n) (hreturn : '\r' ∉ w) (o : Nat) :
    (LineTable.ofChars (respell n w)).position (respelledOffset n w o) =
      (LineTable.ofChars w).position o := by
  have hmono : StrictMono (respelledOffset n w) := respelledOffset_strictMono hn
  have hclamp : min (respelledOffset n w o) (respell n w).length =
      respelledOffset n w (min o w.length) := by
    rw [← respelledOffset_length, hmono.monotone.map_min]
  have hstarts := startsFrom_respell hn hreturn (i := 0) rfl
  rw [respelledOffset_zero] at hstarts
  have hall : 0 :: LineTable.startsFrom 0 (respell n w) =
      (0 :: LineTable.startsFrom 0 w).map (respelledOffset n w) := by
    rw [hstarts, List.map_cons, respelledOffset_zero]
  unfold LineTable.position LineTable.ofChars
  dsimp only
  rw [hclamp, hall, List.takeWhile_map]
  generalize hoffset : min o w.length = offset
  have hpassed : (fun start => decide (start ≤ respelledOffset n w offset)) ∘
      respelledOffset n w = fun start => decide (start ≤ offset) := by
    funext start
    simp [hmono.le_iff_le]
  have hdistance : respelledOffset n w offset +
      ((LineTable.startsFrom 0 w).takeWhile (· ≤ offset)).getLastD 0 =
        offset + respelledOffset n w
          (((LineTable.startsFrom 0 w).takeWhile (· ≤ offset)).getLastD 0) := by
    apply distance_respell hreturn rfl (Nat.zero_le offset)
    · rw [← hoffset]
      exact Nat.min_le_right _ _
    · rw [respelledOffset_zero]
  have hlast : ∀ starts : List Nat, (starts.map (respelledOffset n w)).getLastD 0 =
      respelledOffset n w (starts.getLastD 0) := by
    intro starts
    cases hsome : starts.getLast? <;>
      simp [List.getLastD_eq_getLast?, List.getLast?_map, hsome, respelledOffset_zero]
  rw [hpassed, hlast, List.length_map, List.takeWhile_cons_of_pos (by simp), List.getLastD_cons]
  congr 1
  omega

end Lines

section Renderings

variable {n w : List Char}

theorem Newline.respell {m : List Char} (hn : Newline n) (hm : Newline m) (hreturn : '\r' ∉ m) :
    Newline (respell n m) := by
  cases hm with
  | feed => simpa using hn
  | returnFeed => simp at hreturn
  | returnAlone => simp at hreturn

theorem Blanks.respell_eq (h : Blanks w) : respell n w = w := by
  apply respell_eq_self
  intro hfeed
  cases h _ hfeed

theorem CommentBody.respell_eq (h : CommentBody w) : respell n w = w := by
  apply respell_eq_self
  intro hfeed
  cases h _ hfeed

theorem respell_isNumber {name : String} (h : isNumber name = true) :
    respell n name.toList = name.toList := by
  apply respell_eq_self
  intro hfeed
  have hall := List.all_eq_true.mp ((Bool.and_eq_true _ _).mp h).2
  cases hall _ hfeed

theorem respell_isValid {name : String} (h : Identifier.isValid name = true) :
    respell n name.toList = name.toList := by
  apply respell_eq_self
  intro hfeed
  unfold Identifier.isValid at h
  cases hchars : name.toList with
  | nil =>
      rw [hchars] at hfeed
      cases hfeed
  | cons c r =>
      rw [hchars] at h hfeed
      obtain ⟨hstarts, hall⟩ := (Bool.and_eq_true _ _).mp h
      rcases List.mem_cons.mp hfeed with rfl | hfeed
      · cases hstarts
      · cases List.all_eq_true.mp hall _ hfeed

theorem Layout.respell {atEnd : Bool} (hn : Newline n) (h : Layout atEnd w) (hreturn : '\r' ∉ w) :
    Layout atEnd (respell n w) := by
  induction h with
  | nil => exact .nil
  | @blank c w hc _ ih =>
      have hfeed : c ≠ '\n' := by
        rintro rfl
        cases hc
      rw [List.mem_cons, not_or] at hreturn
      rw [respell_cons hfeed]
      exact .blank hc (ih hreturn.2)
  | newline hm _ ih =>
      rw [List.mem_append, not_or] at hreturn
      rw [respell_append]
      exact .newline (hn.respell hm hreturn.1) (ih hreturn.2)
  | comment hbody hm _ ih =>
      simp only [List.mem_cons, List.mem_append, not_or] at hreturn
      rw [respell_cons (by decide), respell_append, respell_append, hbody.respell_eq]
      exact .comment hbody (hn.respell hm hreturn.2.2.1) (ih hreturn.2.2.2)
  | lastComment hend hbody =>
      rw [respell_cons (by decide), hbody.respell_eq]
      exact .lastComment hend hbody

theorem Mark.respell (hn : Newline n) (h : Mark w) (hreturn : '\r' ∉ w) : Mark (respell n w) := by
  cases h with
  | semicolon => exact .semicolon
  | newline hm => exact .newline (hn.respell hm hreturn)
  | comment hbody hm =>
      simp only [List.mem_cons, List.mem_append, not_or] at hreturn
      rw [respell_cons (by decide), respell_append, hbody.respell_eq]
      exact .comment hbody (hn.respell hm hreturn.2.2)

theorem Separator.respell (hn : Newline n) (h : Separator w) (hreturn : '\r' ∉ w) :
    Separator (respell n w) := by
  induction h with
  | last ha hm hb =>
      simp only [List.mem_append, not_or] at hreturn
      rw [respell_append, respell_append, ha.respell_eq]
      exact .last ha (hm.respell hn hreturn.2.1) (hb.respell hn hreturn.2.2)
  | more ha hm _ ih =>
      simp only [List.mem_append, not_or] at hreturn
      rw [respell_append, respell_append, ha.respell_eq]
      exact .more ha (hm.respell hn hreturn.2.1) (ih hreturn.2.2)

theorem ProgramEnd.respell (hn : Newline n) (h : ProgramEnd w) (hreturn : '\r' ∉ w) :
    ProgramEnd (respell n w) := by
  cases h with
  | layout hw => exact .layout (hw.respell hn hreturn)
  | separator ha hw =>
      simp only [List.mem_append, not_or] at hreturn
      rw [respell_append]
      exact .separator (ha.respell hn hreturn.1) (hw.respell hn hreturn.2)

/-- A written form of a phrase stays one of the same phrase. -/
theorem Written.respell {phrase : Phrase} (hn : Newline n) (h : Written phrase w)
    (hreturn : '\r' ∉ w) : Written phrase (respell n w) := by
  induction h with
  | literal hname =>
      rw [respell_isNumber hname]
      exact .literal hname
  | «variable» hname =>
      rw [respell_isValid hname]
      exact .variable hname
  | callOperand _ ih => exact .callOperand (ih hreturn)
  | parentheses hopen _ hclose ih =>
      simp only [List.mem_cons, List.mem_append, not_or] at hreturn
      obtain ⟨-, ha, hw, hb, -⟩ := hreturn
      rw [respell_cons (by decide), respell_append, respell_append, respell_append]
      exact .parentheses (hopen.respell hn ha) (ih hw) (hclose.respell hn hb)
  | operand _ ih => exact .operand (ih hreturn)
  | unop hgap _ ih =>
      simp only [List.mem_cons, List.mem_append, not_or] at hreturn
      rw [respell_cons (by decide), respell_append]
      exact .unop (hgap.respell hn hreturn.2.1) (ih hreturn.2.2)
  | binop _ hbefore hbehind _ ihleft ihright =>
      simp only [List.mem_cons, List.mem_append, not_or] at hreturn
      obtain ⟨hw, ha, -, hb, hw'⟩ := hreturn
      rw [respell_append, respell_append, respell_cons (by decide), respell_append]
      exact .binop (ihleft hw) (hbefore.respell hn ha) (hbehind.respell hn hb) (ihright hw')
  | call hname hblanks hopen _ hclose ih =>
      simp only [List.mem_cons, List.mem_append, not_or] at hreturn
      obtain ⟨-, -, -, hb, hw, hc, -⟩ := hreturn
      rw [respell_append, respell_isValid hname, respell_append, hblanks.respell_eq,
        respell_cons (by decide), respell_append, respell_append, respell_append]
      exact .call hname hblanks (hopen.respell hn hb) (ih hw) (hclose.respell hn hc)
  | noArguments => exact .noArguments
  | lastArgument _ ih => exact .lastArgument (ih hreturn)
  | moreArguments _ hbefore hbehind _ ihfirst ihrest =>
      simp only [List.mem_cons, List.mem_append, not_or] at hreturn
      obtain ⟨hw, ha, -, hb, hw'⟩ := hreturn
      rw [respell_append, respell_append, respell_cons (by decide), respell_append]
      exact .moreArguments (ihfirst hw) (hbefore.respell hn ha) (hbehind.respell hn hb) (ihrest hw')
  | assign hname hblanks hgap _ ih =>
      simp only [List.mem_cons, List.mem_append, not_or] at hreturn
      obtain ⟨-, -, -, hb, hw⟩ := hreturn
      rw [respell_append, respell_isValid hname, respell_append, hblanks.respell_eq,
        respell_cons (by decide), respell_append]
      exact .assign hname hblanks (hgap.respell hn hb) (ih hw)
  | callStatement _ ih => exact .callStatement (ih hreturn)

theorem WrittenStatements.respell {ts : List Node} (hn : Newline n) (h : WrittenStatements ts w)
    (hreturn : '\r' ∉ w) : WrittenStatements ts (respell n w) := by
  induction h with
  | last hlast => exact .last (hlast.respell hn hreturn)
  | more hfirst ha _ ih =>
      simp only [List.mem_append, not_or] at hreturn
      rw [respell_append, respell_append]
      exact .more (hfirst.respell hn hreturn.1) (ha.respell hn hreturn.2.1) (ih hreturn.2.2)

/-- A rendering of a tree stays one of the same tree. -/
theorem Rendering.respell {t : Node} (hn : Newline n) (h : Rendering t w) (hreturn : '\r' ∉ w) :
    Rendering t (respell n w) := by
  cases h with
  | program hlead hstatements hend =>
      simp only [List.mem_append, not_or] at hreturn
      rw [respell_append, respell_append]
      exact .program (hlead.respell hn hreturn.1) (hstatements.respell hn hreturn.2.1)
        (hend.respell hn hreturn.2.2)

end Renderings

end Sumscript
