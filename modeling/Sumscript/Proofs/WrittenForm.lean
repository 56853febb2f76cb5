import Sumscript.Text.Characters
import Sumscript.Tree.Node

/-! # Program trees and their written forms

A program tree is a tree that a program can have. The grammar read as a set of rules says which
texts are its renderings: layout may stand in every gap and an expression may stand in
parentheses. The operand to the left of a plus sign never starts with a bare plus sign, so a
unary or binary operation extends as far to the right as it can.
-/

namespace Sumscript

/-- Whether a text is a number: digits, and at least one. -/
def isNumber (name : String) : Bool :=
  !name.toList.isEmpty && name.toList.all Char.isDigit

namespace Node

/-- The expressions of program trees. -/
inductive IsExpression : Node → Prop where
  | literal {name} (hname : isNumber name = true) : IsExpression (.leaf .literal name)
  | variable {name} (hname : Identifier.isValid name = true) : IsExpression (.leaf .variable name)
  | call {name arguments} (hname : Identifier.isValid name = true)
      (harguments : ∀ argument ∈ arguments, IsExpression argument) :
      IsExpression ⟨.call, name, arguments⟩
  | unop {operand} (hoperand : IsExpression operand) : IsExpression ⟨.unop, "+", [operand]⟩
  | binop {left right} (hleft : IsExpression left) (hright : IsExpression right) :
      IsExpression ⟨.binop, "+", [left, right]⟩

/-- The statements of program trees: assignments to a variable, and calls. -/
inductive IsStatement : Node → Prop where
  | assign {name value} (hname : Identifier.isValid name = true) (hvalue : IsExpression value) :
      IsStatement ⟨.assign, "", [.leaf .variable name, value]⟩
  | call {name arguments} (hcall : IsExpression ⟨.call, name, arguments⟩) :
      IsStatement ⟨.call, name, arguments⟩

/-- A tree that a program can have: a root with at least one statement. -/
structure IsProgram (t : Node) : Prop where
  kind : t.kind = .root
  name : t.name = ""
  nonempty : t.children ≠ []
  statements : ∀ statement ∈ t.children, statement.IsStatement

end Node

/-- Whether a character ends a line. -/
def isLineEnd (c : Char) : Bool :=
  c == '\n' || c == '\r'

theorem isLineEnd_iff {c : Char} : isLineEnd c = true ↔ c = '\n' ∨ c = '\r' := by
  simp [isLineEnd]

/-- The three ways to end a line. -/
inductive Newline : List Char → Prop where
  | returnFeed : Newline ['\r', '\n']
  | feed : Newline ['\n']
  | returnAlone : Newline ['\r']

/-- Blanks and tabs. -/
def Blanks (w : List Char) : Prop :=
  ∀ c ∈ w, isBlankOrTab c = true

/-- The text of a comment behind its sign: it never contains a line end. -/
def CommentBody (w : List Char) : Prop :=
  ∀ c ∈ w, isLineEnd c = false

instance (w : List Char) : Decidable (Blanks w) :=
  List.decidableBAll (fun c => isBlankOrTab c = true) w

instance (w : List Char) : Decidable (CommentBody w) :=
  List.decidableBAll (fun c => isLineEnd c = false) w

/-- Blanks, line ends and comments. A comment runs to the next line end; only at the end of a
text may the last one go without. -/
inductive Layout (atEnd : Bool) : List Char → Prop where
  | nil : Layout atEnd []
  | blank {c w} (hblank : isBlankOrTab c = true) (hrest : Layout atEnd w) : Layout atEnd (c :: w)
  | newline {n w} (hnewline : Newline n) (hrest : Layout atEnd w) : Layout atEnd (n ++ w)
  | comment {body n w} (hbody : CommentBody body) (hnewline : Newline n)
      (hrest : Layout atEnd w) : Layout atEnd ('#' :: (body ++ (n ++ w)))
  | lastComment {body} (hend : atEnd = true) (hbody : CommentBody body) :
      Layout atEnd ('#' :: body)

/-- What ends a statement: a semicolon, a line end, or a comment with its line end. -/
inductive Mark : List Char → Prop where
  | semicolon : Mark [';']
  | newline {n} (hnewline : Newline n) : Mark n
  | comment {body n} (hbody : CommentBody body) (hnewline : Newline n) :
      Mark ('#' :: (body ++ n))

/-- What stands between two statements: one or more marks with blanks before each, and then
layout. -/
inductive Separator : List Char → Prop where
  | last {a mark b} (hblanks : Blanks a) (hmark : Mark mark) (hlayout : Layout false b) :
      Separator (a ++ (mark ++ b))
  | more {a mark w} (hblanks : Blanks a) (hmark : Mark mark) (hrest : Separator w) :
      Separator (a ++ (mark ++ w))

/-- What the written form of a phrase describes. An operand is an expression that may stand to
the left of a plus sign. -/
inductive Phrase where
  | operand (t : Node)
  | expression (t : Node)
  | arguments (ts : List Node)
  | call (t : Node)
  | statement (t : Node)

/-- The written forms of phrases, one rule for each production of the grammar. -/
inductive Written : Phrase → List Char → Prop where
  | literal {name : String} (hname : isNumber name = true) :
      Written (.operand (.leaf .literal name)) name.toList
  | variable {name : String} (hname : Identifier.isValid name = true) :
      Written (.operand (.leaf .variable name)) name.toList
  | callOperand {t w} (hcall : Written (.call t) w) : Written (.operand t) w
  | parentheses {t a w b} (hopen : Layout false a) (hinner : Written (.expression t) w)
      (hclose : Layout false b) : Written (.operand t) ('(' :: (a ++ (w ++ (b ++ [')']))))
  | operand {t w} (hoperand : Written (.operand t) w) : Written (.expression t) w
  | unop {t a w} (hgap : Layout false a) (hoperand : Written (.expression t) w) :
      Written (.expression ⟨.unop, "+", [t]⟩) ('+' :: (a ++ w))
  | binop {l r w a b w'} (hleft : Written (.operand l) w) (hbefore : Layout false a)
      (hbehind : Layout false b) (hright : Written (.expression r) w') :
      Written (.expression ⟨.binop, "+", [l, r]⟩) (w ++ (a ++ '+' :: (b ++ w')))
  | call {name : String} {ts a b w c} (hname : Identifier.isValid name = true)
      (hblanks : Blanks a) (hopen : Layout false b) (harguments : Written (.arguments ts) w)
      (hclose : Layout false c) : Written (.call ⟨.call, name, ts⟩)
        (name.toList ++ (a ++ '(' :: (b ++ (w ++ (c ++ [')'])))))
  | noArguments : Written (.arguments []) []
  | lastArgument {t w} (hlast : Written (.expression t) w) : Written (.arguments [t]) w
  | moreArguments {t ts w a b w'} (hfirst : Written (.expression t) w) (hbefore : Layout false a)
      (hbehind : Layout false b) (hrest : Written (.arguments ts) w') :
      Written (.arguments (t :: ts)) (w ++ (a ++ ',' :: (b ++ w')))
  | assign {name : String} {t a b w} (hname : Identifier.isValid name = true)
      (hblanks : Blanks a) (hgap : Layout false b) (hvalue : Written (.expression t) w) :
      Written (.statement ⟨.assign, "", [.leaf .variable name, t]⟩)
        (name.toList ++ (a ++ '=' :: (b ++ w)))
  | callStatement {t w} (hcall : Written (.call t) w) : Written (.statement t) w

/-- The written forms of statements in order, with separators between them. -/
inductive WrittenStatements : List Node → List Char → Prop where
  | last {t w} (hlast : Written (.statement t) w) : WrittenStatements [t] w
  | more {t ts w a w'} (hfirst : Written (.statement t) w) (hseparator : Separator a)
      (hrest : WrittenStatements ts w') : WrittenStatements (t :: ts) (w ++ (a ++ w'))

/-- What may stand behind the last statement of a program. -/
inductive ProgramEnd : List Char → Prop where
  | layout {w} (hlayout : Layout true w) : ProgramEnd w
  | separator {a w} (hseparator : Separator a) (hlayout : Layout true w) : ProgramEnd (a ++ w)

/-- The texts that are a rendering of a program tree. -/
inductive Rendering : Node → List Char → Prop where
  | program {statements a w b} (hlead : Layout false a)
      (hstatements : WrittenStatements statements w) (hend : ProgramEnd b) :
      Rendering ⟨.root, "", statements⟩ (a ++ (w ++ b))

namespace Phrase

/-- The trees of a phrase are what a program tree may hold in the place of the phrase. -/
def WellFormed : Phrase → Prop
  | .operand t | .expression t => t.IsExpression
  | .arguments ts => ∀ t ∈ ts, t.IsExpression
  | .call t => t.IsExpression ∧ t.IsStatement
  | .statement t => t.IsStatement

end Phrase

theorem Written.wellFormed {phrase : Phrase} {w : List Char} (h : Written phrase w) :
    phrase.WellFormed := by
  induction h with
  | literal hname => exact .literal hname
  | «variable» hname => exact .variable hname
  | callOperand _ ih => exact ih.1
  | parentheses _ _ _ ih => exact ih
  | operand _ ih => exact ih
  | unop _ _ ih => exact .unop ih
  | binop _ _ _ _ ihleft ihright => exact .binop ihleft ihright
  | call hname _ _ _ _ ih =>
      have hcall := Node.IsExpression.call hname ih
      exact ⟨hcall, .call hcall⟩
  | noArguments => exact fun t ht => nomatch ht
  | lastArgument _ ih =>
      intro t ht
      rw [List.mem_singleton.mp ht]
      exact ih
  | moreArguments _ _ _ _ ihfirst ihrest =>
      intro t ht
      rcases List.mem_cons.mp ht with rfl | ht
      · exact ihfirst
      · exact ihrest t ht
  | assign hname _ _ _ ih => exact .assign hname ih
  | callStatement _ ih => exact ih.2

theorem WrittenStatements.wellFormed {ts : List Node} {w : List Char}
    (h : WrittenStatements ts w) : ts ≠ [] ∧ ∀ t ∈ ts, t.IsStatement := by
  induction h with
  | last hlast =>
      refine ⟨List.cons_ne_nil _ _, fun t ht => ?_⟩
      rw [List.mem_singleton.mp ht]
      exact hlast.wellFormed
  | more hfirst _ _ ih =>
      refine ⟨List.cons_ne_nil _ _, fun t ht => ?_⟩
      rcases List.mem_cons.mp ht with rfl | ht
      · exact hfirst.wellFormed
      · exact ih.2 t ht

/-- Only program trees have renderings. -/
theorem Rendering.isProgram {t : Node} {w : List Char} (h : Rendering t w) : t.IsProgram := by
  cases h with
  | program _ hstatements _ => exact ⟨rfl, rfl, hstatements.wellFormed.1, hstatements.wellFormed.2⟩

theorem Blanks.nil : Blanks [] :=
  fun _ hc => nomatch hc

theorem Written.exists_arguments {ts : List Node}
    (h : ∀ t ∈ ts, ∃ w, Written (.operand t) w) : ∃ w, Written (.arguments ts) w := by
  induction ts with
  | nil => exact ⟨_, .noArguments⟩
  | cons t ts ih =>
      obtain ⟨w, hfirst⟩ := h t List.mem_cons_self
      obtain ⟨w', hrest⟩ := ih fun t' ht' => h t' (List.mem_cons_of_mem _ ht')
      exact ⟨_, .moreArguments (.operand hfirst) .nil .nil hrest⟩

theorem Written.exists_operand {t : Node} (h : t.IsExpression) : ∃ w, Written (.operand t) w := by
  induction h with
  | literal hname => exact ⟨_, .literal hname⟩
  | «variable» hname => exact ⟨_, .variable hname⟩
  | call hname _ ih =>
      obtain ⟨w, harguments⟩ := exists_arguments ih
      exact ⟨_, .callOperand (.call hname .nil .nil harguments .nil)⟩
  | unop _ ih =>
      obtain ⟨w, hoperand⟩ := ih
      exact ⟨_, .parentheses .nil (.unop .nil (.operand hoperand)) .nil⟩
  | binop _ _ ihleft ihright =>
      obtain ⟨w, hleft⟩ := ihleft
      obtain ⟨w', hright⟩ := ihright
      exact ⟨_, .parentheses .nil (.binop hleft .nil .nil (.operand hright)) .nil⟩

theorem Written.exists_statement {t : Node} (h : t.IsStatement) :
    ∃ w, Written (.statement t) w := by
  cases h with
  | assign hname hvalue =>
      obtain ⟨w, hvalue⟩ := exists_operand hvalue
      exact ⟨_, .assign hname .nil .nil (.operand hvalue)⟩
  | call hcall =>
      cases hcall with
      | call hname harguments =>
          obtain ⟨w, harguments⟩ := exists_arguments fun t ht => exists_operand (harguments t ht)
          exact ⟨_, .callStatement (.call hname .nil .nil harguments .nil)⟩

theorem WrittenStatements.exists_text {ts : List Node} (hne : ts ≠ [])
    (h : ∀ t ∈ ts, t.IsStatement) : ∃ w, WrittenStatements ts w := by
  induction ts with
  | nil => exact absurd rfl hne
  | cons t ts ih =>
      obtain ⟨w, hfirst⟩ := Written.exists_statement (h t List.mem_cons_self)
      cases ts with
      | nil => exact ⟨_, .last hfirst⟩
      | cons t' ts' =>
          obtain ⟨w', hrest⟩ :=
            ih (List.cons_ne_nil _ _) fun u hu => h u (List.mem_cons_of_mem _ hu)
          have hseparator := Separator.last .nil .semicolon .nil
          exact ⟨_, .more hfirst hseparator hrest⟩

/-- Every program tree has a rendering. -/
theorem Rendering.exists_text {t : Node} (h : t.IsProgram) : ∃ w, Rendering t w := by
  obtain ⟨kind, name, children⟩ := t
  obtain ⟨hkind, hname, hne, hstatements⟩ := h
  obtain ⟨w, hwritten⟩ := WrittenStatements.exists_text hne hstatements
  cases hkind
  cases hname
  exact ⟨_, .program .nil hwritten (.layout .nil)⟩

end Sumscript
