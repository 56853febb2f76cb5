import Sumscript.Proofs.RenderedText
import Sumscript.Tree.Notation

/-! # The words of a text are the names of its tree

Read from left to right, the names, numbers and plus signs of a program outside its comments are
the names in its tree in the order of the text. So a tree determines everything about its text
except layout, parentheses and commas, and a text has one tree at most.
-/

namespace Sumscript

namespace Node

mutual

/-- The names, numbers and operators of a tree in the order in which they are written. -/
def lexemes : Node → List String
  | ⟨.binop, op, [left, right]⟩ => left.lexemes ++ op :: right.lexemes
  | ⟨.root, _, children⟩ | ⟨.assign, _, children⟩ => allLexemes children
  | ⟨_, name, children⟩ => name :: allLexemes children

/-- The lexemes of several trees, one tree after the other. -/
def allLexemes : List Node → List String
  | [] => []
  | t :: rest => t.lexemes ++ allLexemes rest

end

end Node

/-- Where a scanner stands: between lexemes, in a comment, or behind the characters of a name or
a number that may go on. -/
inductive Scan where
  | between
  | comment
  | name (read : List Char)
  | number (read : List Char)

namespace Scan

/-- The lexeme that a scanner finishes at the end of a text. -/
def pending : Scan → List String
  | .between | .comment => []
  | .name read | .number read => [String.ofList read]

/-- What a character between lexemes is, or begins. -/
def start (c : Char) : List String × Scan :=
  if c == '#' then ([], .comment)
  else if c == '+' then (["+"], .between)
  else if Identifier.starts c then ([], .name [c])
  else if c.isDigit then ([], .number [c])
  else ([], .between)

/-- The lexemes that a character finishes, and the scanner behind it. Names and numbers go on
as long as they can, a comment up to the line end. -/
def next : Scan → Char → List String × Scan
  | .between, c => start c
  | .comment, c => ([], if isLineEnd c then .between else .comment)
  | .name read, c =>
    if Identifier.continues c then ([], .name (read ++ [c]))
    else (String.ofList read :: (start c).1, (start c).2)
  | .number read, c =>
    if c.isDigit then ([], .number (read ++ [c]))
    else (String.ofList read :: (start c).1, (start c).2)

/-- The lexemes of a text for a scanner that stands before it. -/
def run : Scan → List Char → List String
  | s, [] => s.pending
  | s, c :: rest => (s.next c).1 ++ run (s.next c).2 rest

end Scan

/-- The names, numbers and operators of a text outside comments. -/
def lexemes (w : List Char) : List String :=
  Scan.between.run w

/-- A text does not begin with a character that goes on with a name or a number. -/
def NoWordAhead (w : List Char) : Prop :=
  ∀ c ∈ w.head?, Identifier.continues c = false

section Scanning

variable {w rest : List Char}

theorem run_cons_of_blank {c : Char} (h : isBlankOrTab c = true ∨ isLineEnd c = true) :
    lexemes (c :: rest) = lexemes rest := by
  have hc : c = ' ' ∨ c = '\t' ∨ c = '\n' ∨ c = '\r' := by
    simpa [isBlankOrTab, isLineEnd, or_assoc] using h
  rcases hc with rfl | rfl | rfl | rfl <;> rfl

theorem lexemes_newline {n : List Char} (hn : Newline n) :
    lexemes (n ++ rest) = lexemes rest := by
  cases hn with
  | returnFeed | feed | returnAlone => rfl

theorem run_comment {body : List Char} (hbody : CommentBody body) :
    Scan.comment.run (body ++ rest) = Scan.comment.run rest := by
  induction body with
  | nil => rfl
  | cons c body ih =>
      obtain ⟨hc, hbody⟩ := List.forall_mem_cons.mp hbody
      change (Scan.comment.next c).1 ++ (Scan.comment.next c).2.run (body ++ rest) = _
      simp only [Scan.next, hc, List.nil_append]
      exact ih hbody

theorem run_comment_newline {n : List Char} (hn : Newline n) :
    Scan.comment.run (n ++ rest) = lexemes rest := by
  cases hn with
  | returnFeed | feed | returnAlone => rfl

/-- Layout has no lexemes. -/
theorem lexemes_layout {atEnd : Bool} (hw : Layout atEnd w) (hend : atEnd = true → rest = []) :
    lexemes (w ++ rest) = lexemes rest := by
  induction hw with
  | nil => rfl
  | blank hc _ ih =>
      rw [List.cons_append, run_cons_of_blank (.inl hc), ih]
  | newline hn _ ih =>
      rw [List.append_assoc, lexemes_newline hn, ih]
  | @comment body n w hbody hn _ ih =>
      rw [List.cons_append, List.append_assoc, List.append_assoc]
      change Scan.comment.run (body ++ (n ++ (w ++ rest))) = _
      rw [run_comment hbody, run_comment_newline hn, ih]
  | @lastComment body hatEnd hbody =>
      rw [hend hatEnd, List.append_nil]
      change Scan.comment.run body = _
      have hrun : Scan.comment.run (body ++ []) = Scan.comment.run [] := run_comment hbody
      rw [List.append_nil] at hrun
      exact hrun

/-- A word goes on as long as it can, whichever kind of word it is. -/
theorem run_word {word : List Char → Scan} {goesOn : Char → Bool}
    (hpending : ∀ read, (word read).pending = [String.ofList read])
    (hnext : ∀ read c, (word read).next c = if goesOn c then ([], word (read ++ [c]))
      else (String.ofList read :: (Scan.start c).1, (Scan.start c).2))
    (read : List Char) (hw : ∀ c ∈ w, goesOn c = true)
    (hrest : ∀ c ∈ rest.head?, goesOn c = false) :
    (word read).run (w ++ rest) = String.ofList (read ++ w) :: lexemes rest := by
  induction w generalizing read with
  | nil =>
      rw [List.nil_append, List.append_nil]
      cases rest with
      | nil => exact hpending read
      | cons c rest =>
          rw [Scan.run, hnext, hrest c rfl]
          rfl
  | cons c w ih =>
      obtain ⟨hc, hw⟩ := List.forall_mem_cons.mp hw
      rw [List.cons_append, Scan.run, hnext, hc]
      change [] ++ (word (read ++ [c])).run (w ++ rest) = _
      rw [List.nil_append, ih _ hw, List.append_assoc, List.singleton_append]

theorem run_name (read : List Char) (hw : ∀ c ∈ w, Identifier.continues c = true)
    (hrest : NoWordAhead rest) :
    (Scan.name read).run (w ++ rest) = String.ofList (read ++ w) :: lexemes rest :=
  run_word (fun _ => rfl) (fun _ _ => rfl) read hw hrest

theorem run_number (read : List Char) (hw : ∀ c ∈ w, c.isDigit = true)
    (hrest : NoWordAhead rest) :
    (Scan.number read).run (w ++ rest) = String.ofList (read ++ w) :: lexemes rest :=
  run_word (fun _ => rfl) (fun _ _ => rfl) read hw fun c hc =>
    (Bool.or_eq_false_iff.mp (hrest c hc)).2

theorem start_of_continues {c : Char} (h : Identifier.continues c = true) :
    Scan.start c = ([], if Identifier.starts c then .name [c] else .number [c]) := by
  have hsign : (c == '#') = false ∧ (c == '+') = false := by
    constructor
    all_goals
      refine beq_eq_false_iff_ne.mpr ?_
      rintro rfl
      cases h
  unfold Scan.start
  rw [hsign.1, hsign.2]
  cases hstarts : Identifier.starts c with
  | true => rfl
  | false =>
      have hdigit : c.isDigit = true := by simpa [Identifier.continues, hstarts] using h
      simp [hdigit]

theorem lexemes_name {name : String} (hname : Identifier.isValid name = true)
    (hrest : NoWordAhead rest) : lexemes (name.toList ++ rest) = name :: lexemes rest := by
  have htext : String.ofList name.toList = name := String.ofList_toList
  unfold Identifier.isValid at hname
  cases hchars : name.toList with
  | nil =>
      rw [hchars] at hname
      cases hname
  | cons c w =>
      rw [hchars] at hname htext
      obtain ⟨hstarts, hw⟩ := (Bool.and_eq_true _ _).mp hname
      change (Scan.start c).1 ++ (Scan.start c).2.run (w ++ rest) = _
      rw [start_of_continues (continues_of_starts hstarts), hstarts]
      have hrun : (Scan.name [c]).run (w ++ rest) = String.ofList ([c] ++ w) :: lexemes rest :=
        run_name [c] (List.all_eq_true.mp hw) hrest
      rw [List.singleton_append, htext] at hrun
      exact hrun

theorem lexemes_number {name : String} (hname : isNumber name = true)
    (hrest : NoWordAhead rest) : lexemes (name.toList ++ rest) = name :: lexemes rest := by
  have htext : String.ofList name.toList = name := String.ofList_toList
  unfold isNumber at hname
  cases hchars : name.toList with
  | nil =>
      rw [hchars] at hname
      cases hname
  | cons c w =>
      rw [hchars] at hname htext
      have hall := List.all_eq_true.mp ((Bool.and_eq_true _ _).mp hname).2
      obtain ⟨hdigit, hw⟩ := List.forall_mem_cons.mp hall
      have hstarts : Identifier.starts c = false := by
        cases hstarts : Identifier.starts c with
        | false => rfl
        | true =>
            rw [isDigit_of_starts hstarts] at hdigit
            cases hdigit
      change (Scan.start c).1 ++ (Scan.start c).2.run (w ++ rest) = _
      rw [start_of_continues (continues_of_isDigit hdigit), hstarts]
      have hrun : (Scan.number [c]).run (w ++ rest) = String.ofList ([c] ++ w) :: lexemes rest :=
        run_number [c] hw hrest
      rw [List.singleton_append, htext] at hrun
      exact hrun

/-- Layout never begins with a character that goes on with a name. -/
theorem Layout.noWordAhead {atEnd : Bool} (hw : Layout atEnd w) (hrest : NoWordAhead rest) :
    NoWordAhead (w ++ rest) := by
  cases hw with
  | nil => exact hrest
  | blank hc _ =>
      intro c' hc'
      cases hc'
      exact continues_of_blank hc
  | newline hn _ =>
      intro c hc
      cases hn with
      | returnFeed | feed | returnAlone =>
          cases hc
          rfl
  | comment | lastComment =>
      intro c hc
      cases hc
      rfl

theorem noWordAhead_cons {c : Char} (hc : Identifier.continues c = false) :
    NoWordAhead (c :: rest) := by
  intro c' hc'
  cases hc'
  exact hc

end Scanning

section Phrases

/-- The lexemes of the trees of a phrase. -/
def Phrase.lexemes : Phrase → List String
  | .operand t | .expression t | .call t | .statement t => t.lexemes
  | .arguments ts => Node.allLexemes ts

variable {w rest : List Char}

theorem Written.lexemes_eq {phrase : Phrase} (h : Written phrase w) (hrest : NoWordAhead rest) :
    lexemes (w ++ rest) = phrase.lexemes ++ lexemes rest := by
  have hclosed : ∀ {w : List Char}, false = true → w = [] := fun h => nomatch h
  induction h generalizing rest with
  | literal hname => exact lexemes_number hname hrest
  | «variable» hname => exact lexemes_name hname hrest
  | callOperand _ ih | operand _ ih | callStatement _ ih => exact ih hrest
  | @parentheses t a w b hopen _ hclose ih =>
      simp only [List.cons_append, List.append_assoc, List.nil_append]
      change lexemes (a ++ (w ++ (b ++ ')' :: rest))) = _
      have hahead : NoWordAhead (b ++ ')' :: rest) := hclose.noWordAhead (noWordAhead_cons rfl)
      rw [lexemes_layout hopen hclosed, ih hahead, lexemes_layout hclose hclosed]
      rfl
  | @unop t a w hgap _ ih =>
      simp only [List.cons_append, List.append_assoc]
      change "+" :: lexemes (a ++ (w ++ rest)) = _
      rw [lexemes_layout hgap hclosed, ih hrest]
      simp [Phrase.lexemes, Node.lexemes, Node.allLexemes]
  | @binop l r w a b w' _ hbefore hbehind _ ihleft ihright =>
      simp only [List.cons_append, List.append_assoc]
      -- Every word ends before layout or a sign, so no two of them run together.
      have hahead : NoWordAhead (a ++ '+' :: (b ++ (w' ++ rest))) :=
        hbefore.noWordAhead (noWordAhead_cons rfl)
      rw [ihleft hahead, lexemes_layout hbefore hclosed]
      change _ ++ "+" :: lexemes (b ++ (w' ++ rest)) = _
      rw [lexemes_layout hbehind hclosed, ihright hrest]
      simp [Phrase.lexemes, Node.lexemes]
  | @call name ts a b w c hname hblanks hopen _ hclose ih =>
      have ha : Layout false a := hblanks.layout
      have hahead : NoWordAhead (a ++ '(' :: (b ++ (w ++ (c ++ ')' :: rest)))) :=
        ha.noWordAhead (noWordAhead_cons rfl)
      have hahead' : NoWordAhead (c ++ ')' :: rest) := hclose.noWordAhead (noWordAhead_cons rfl)
      simp only [List.cons_append, List.append_assoc, List.nil_append]
      rw [lexemes_name hname hahead, lexemes_layout ha hclosed]
      change name :: lexemes (b ++ (w ++ (c ++ ')' :: rest))) = _
      rw [lexemes_layout hopen hclosed, ih hahead', lexemes_layout hclose hclosed]
      simp [Phrase.lexemes, Node.lexemes]
      rfl
  | noArguments => rfl
  | lastArgument _ ih =>
      rw [ih hrest]
      simp [Phrase.lexemes, Node.allLexemes]
  | @moreArguments t ts w a b w' _ hbefore hbehind _ ihfirst ihrest =>
      have hahead : NoWordAhead (a ++ ',' :: (b ++ (w' ++ rest))) :=
        hbefore.noWordAhead (noWordAhead_cons rfl)
      simp only [List.cons_append, List.append_assoc]
      rw [ihfirst hahead, lexemes_layout hbefore hclosed]
      change _ ++ lexemes (b ++ (w' ++ rest)) = _
      rw [lexemes_layout hbehind hclosed, ihrest hrest]
      simp [Phrase.lexemes, Node.allLexemes]
  | @assign name t a b w hname hblanks hgap _ ih =>
      have ha : Layout false a := hblanks.layout
      have hahead : NoWordAhead (a ++ '=' :: (b ++ (w ++ rest))) :=
        ha.noWordAhead (noWordAhead_cons rfl)
      simp only [List.cons_append, List.append_assoc]
      rw [lexemes_name hname hahead, lexemes_layout ha hclosed]
      change name :: lexemes (b ++ (w ++ rest)) = _
      rw [lexemes_layout hgap hclosed, ih hrest]
      simp [Phrase.lexemes, Node.lexemes, Node.allLexemes, Node.leaf]

end Phrases

section Program

variable {w rest : List Char}

theorem Blanks.lexemes_eq (h : Blanks w) : lexemes (w ++ rest) = lexemes rest := by
  have hlayout : Layout false w := h.layout
  exact lexemes_layout hlayout fun h => nomatch h

theorem Mark.lexemes_eq (h : Mark w) : lexemes (w ++ rest) = lexemes rest := by
  rcases h.eq_semicolon_or_layout with rfl | hlayout
  · rfl
  · exact lexemes_layout hlayout fun h => nomatch h

/-- Separators have no lexemes. -/
theorem Separator.lexemes_eq (h : Separator w) : lexemes (w ++ rest) = lexemes rest := by
  induction h with
  | last ha hm hb =>
      rw [List.append_assoc, List.append_assoc, ha.lexemes_eq, hm.lexemes_eq,
        lexemes_layout hb fun h => nomatch h]
  | more ha hm _ ih =>
      rw [List.append_assoc, List.append_assoc, ha.lexemes_eq, hm.lexemes_eq, ih]

theorem Separator.noWordAhead (h : Separator w) : NoWordAhead (w ++ rest) := by
  obtain ⟨a, m, r, rfl, ha, hm⟩ := h.exists_mark
  obtain ⟨c, r', rfl, hc, -⟩ := hm.exists_head
  have hlayout : Layout false a := ha.layout
  rw [List.append_assoc, List.append_assoc]
  exact hlayout.noWordAhead (noWordAhead_cons hc)

theorem ProgramEnd.lexemes_eq (h : ProgramEnd w) : lexemes w = [] ∧ NoWordAhead w := by
  have hempty : NoWordAhead [] := fun c hc => nomatch hc
  have hlayout : ∀ {w}, Layout true w → lexemes w = [] := by
    intro w hw
    have hrun : lexemes (w ++ []) = lexemes [] := lexemes_layout hw fun _ => rfl
    rw [List.append_nil] at hrun
    exact hrun
  cases h with
  | layout hw =>
      have hahead := hw.noWordAhead hempty
      rw [List.append_nil] at hahead
      exact ⟨hlayout hw, hahead⟩
  | separator hseparator hw =>
      exact ⟨hseparator.lexemes_eq.trans (hlayout hw), hseparator.noWordAhead⟩

theorem WrittenStatements.lexemes_eq {ts : List Node} (h : WrittenStatements ts w)
    (hrest : NoWordAhead rest) : lexemes (w ++ rest) = Node.allLexemes ts ++ lexemes rest := by
  induction h with
  | last hlast =>
      rw [hlast.lexemes_eq hrest]
      simp [Phrase.lexemes, Node.allLexemes]
  | more hfirst hseparator _ ih =>
      rw [List.append_assoc, List.append_assoc, hfirst.lexemes_eq hseparator.noWordAhead,
        hseparator.lexemes_eq, ih]
      simp [Phrase.lexemes, Node.allLexemes]

/-- The lexemes of a rendering are those of the tree. -/
theorem Rendering.lexemes_eq {t : Node} (h : Rendering t w) : lexemes w = t.lexemes := by
  cases h with
  | program hlead hstatements hend =>
      obtain ⟨hlexemes, hahead⟩ := hend.lexemes_eq
      have hclosed : ∀ {w : List Char}, false = true → w = [] := fun h => nomatch h
      rw [lexemes_layout hlead hclosed, hstatements.lexemes_eq hahead, hlexemes, List.append_nil]
      simp [Node.lexemes]

/-- A text is a rendering of one tree at most. -/
theorem Rendering.unique {t t' : Node} (h : Rendering t w) (h' : Rendering t' w) : t' = t := by
  have hparse := h.parse_eq (Nat.le_refl w.length)
  rw [h'.parse_eq (Nat.le_refl w.length)] at hparse
  injection hparse

/-- Nothing outside the grammar is parsed, and the tree is faithful to the text. Under whatever
nesting limit a text is parsed, the tree is a program tree and the whole text is a rendering of
it and of no other tree; its words outside comments are the names in the tree in order. -/
theorem parse_faithful (maxDepth : Nat) (w : List Char) (t : Node)
    (hparse : parse maxDepth w.toArray = .ok t) :
    t.IsProgram ∧ Rendering t w ∧ lexemes w = t.lexemes ∧ ∀ t', Rendering t' w → t' = t := by
  obtain ⟨-, hrendering⟩ := parse_sound hparse
  rw [List.toList_toArray] at hrendering
  exact ⟨hrendering.isProgram, hrendering, hrendering.lexemes_eq, fun _ h' => hrendering.unique h'⟩

theorem parse_faithful_call : ∃ t, parse 8 "f(a, 1)#".toList.toArray = .ok t ∧
    t.term = "root(call(f, var(a), lit(1)))" ∧ t.IsProgram ∧ t.lexemes = ["f", "a", "1"] := by
  have hterm : (parse 8 "f(a, 1)#".toList.toArray).toOption.map Node.term =
      some "root(call(f, var(a), lit(1)))" := by decide +kernel
  cases hparse : parse 8 "f(a, 1)#".toList.toArray with
  | error e =>
      rw [hparse] at hterm
      cases hterm
  | ok t =>
      rw [hparse] at hterm
      obtain ⟨hprogram, -, hlexemes, -⟩ := parse_faithful 8 _ t hparse
      exact ⟨t, rfl, Option.some.inj hterm, hprogram, hlexemes.symm.trans (by decide)⟩

end Program

end Sumscript
