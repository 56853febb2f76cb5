import Mathlib.Data.List.Basic
import Sumscript.Proofs.CompilableTrees
import Sumscript.Proofs.ParsedText
import Sumscript.Tree.Notation

/-! # Trees are told apart by how they are written

Two trees with the same term are one tree if no name holds a parenthesis or a comma, and so are
two trees with the same outline if no name holds a line feed. A term ends at its own closing
parenthesis, whatever follows it. The lines below a node end where a line does not start with
their margin. So every part of a tree can be read off the text, and the trees of programs have
only names that allow it.
-/

namespace Sumscript

/-- Texts without stops that are followed by a stop, or by nothing, end where the first stop
stands. -/
theorem append_inj_of_stop {p : Char → Bool} {u u' w w' : List Char}
    (hu : ∀ c ∈ u, p c = false) (hu' : ∀ c ∈ u', p c = false) (hw : ∀ c ∈ w.head?, p c = true)
    (hw' : ∀ c ∈ w'.head?, p c = true) (h : u ++ w = u' ++ w') : u = u' ∧ w = w' := by
  have hread : ∀ {u w : List Char}, (∀ c ∈ u, p c = false) → (∀ c ∈ w.head?, p c = true) →
      (u ++ w).takeWhile (!p ·) = u := by
    intro u w hu hw
    rw [List.takeWhile_append_of_pos fun c hc => by rw [hu c hc]; rfl]
    cases w with
    | nil => exact List.append_nil u
    | cons c w => rw [List.takeWhile_cons_of_neg (by simp [hw c rfl]), List.append_nil]
  obtain rfl : u = u' := by rw [← hread hu hw, h, hread hu' hw']
  exact ⟨rfl, List.append_cancel_left h⟩

namespace Kind

theorem tag_inj {k k' : Kind} (h : k.tag = k'.tag) : k = k' := by
  cases k <;> cases k' <;> first | rfl | exact absurd h (by decide)

/-- A tag is not empty and holds nothing that stands around the parts of a term. -/
theorem tag_chars (k : Kind) : k.tag.toList ≠ [] ∧ ∀ c ∈ k.tag.toList, c ∉ ['(', ')', ','] := by
  refine ⟨?_, List.forall_iff_forall_mem.mp ?_⟩ <;> cases k <;> decide

end Kind

namespace Node

theorem symbol_inj {k k' : Kind} (h : symbol k = symbol k') : k = k' := by
  cases k <;> cases k' <;> first | rfl | exact absurd h (by decide)

theorem symbol_chars (k : Kind) : ∀ c ∈ (symbol k).toList, c ≠ ' ' ∧ c ≠ '\n' := by
  refine List.forall_iff_forall_mem.mp ?_
  cases k <;> decide

/-- No name in a tree holds one of some characters, and nodes of nameless kinds have no name. -/
def NamesWithout (excluded : List Char) (t : Node) : Prop :=
  ∀ u, Subtree t u → (u.kind.hasName = false → u.name = "") ∧ ∀ c ∈ u.name.toList, c ∉ excluded

section Names

variable {excluded excluded' : List Char} {t : Node} {kind : Kind} {name : String}
  {children : List Node}

theorem namesWithout_iff : NamesWithout excluded ⟨kind, name, children⟩ ↔
    ((kind.hasName = false → name = "") ∧ ∀ c ∈ name.toList, c ∉ excluded) ∧
      ∀ child ∈ children, NamesWithout excluded child := by
  constructor
  · exact fun h => ⟨h _ .self, fun child hchild u hu => h u (.child hchild hu)⟩
  · rintro ⟨hown, hchildren⟩ u hu
    cases hu with
    | self => exact hown
    | child hchild hrest => exact hchildren _ hchild u hrest

theorem NamesWithout.mono (h : NamesWithout excluded t) (hsub : excluded' ⊆ excluded) :
    NamesWithout excluded' t :=
  fun u hu => ⟨(h u hu).1, fun c hc hexcluded => (h u hu).2 c hc (hsub hexcluded)⟩

end Names

/-! ## Terms -/

/-- Whether a character stands around the parts of a term. -/
def isTermMark (c : Char) : Bool :=
  c ∈ ['(', ')', ',']

/-- The text behind a part of a term: the other parts and the closing parenthesis. -/
def partsBehind : List Node → List Char
  | [] => [')']
  | t :: ts => ',' :: ' ' :: (t.term.toList ++ partsBehind ts)

/-- The text of the parts of a term that has no name, with the closing parenthesis. -/
def partsAlone : List Node → List Char
  | [] => [')']
  | t :: ts => t.term.toList ++ partsBehind ts

section Terms

variable {kind : Kind} {name first : String} {children ts : List Node}

theorem toList_intercalate_terms (first : String) (ts : List Node) :
    (String.intercalate ", " (first :: terms ts)).toList ++ [')'] =
      first.toList ++ partsBehind ts := by
  induction ts generalizing first with
  | nil => rw [terms, String.intercalate_singleton, partsBehind]
  | cons t ts ih =>
      rw [terms, String.intercalate_cons_cons, String.toList_append, List.append_assoc, ih,
        String.toList_append, List.append_assoc, partsBehind]
      rfl

theorem toList_term : (term ⟨kind, name, children⟩).toList = kind.tag.toList ++ '(' ::
    if kind.hasName then name.toList ++ partsBehind children else partsAlone children := by
  have hopen : ∀ parts : List String, (applied kind.tag parts).toList =
      kind.tag.toList ++ '(' :: ((String.intercalate ", " parts).toList ++ [')']) := by
    intro parts
    rw [applied, String.toList_append, String.toList_append, String.toList_append]
    simp
  rw [term, hopen]
  cases kind.hasName with
  | true => exact congrArg (kind.tag.toList ++ '(' :: ·) (toList_intercalate_terms name children)
  | false =>
      cases children with
      | nil => rfl
      | cons t ts =>
          exact congrArg (kind.tag.toList ++ '(' :: ·) (toList_intercalate_terms t.term ts)

/-- Behind a part stands a comma or a parenthesis. -/
theorem head_partsBehind (ts : List Node) (w : List Char) :
    ∀ c ∈ (partsBehind ts ++ w).head?, isTermMark c = true := by
  cases ts with
  | nil => rintro c ⟨⟩; rfl
  | cons t ts => rintro c ⟨⟩; rfl

/-- A term does not start with a closing parenthesis. -/
theorem ne_of_head_term (t : Node) {ts : List Node} {w w' : List Char} :
    partsAlone [] ++ w ≠ partsAlone (t :: ts) ++ w' := by
  obtain ⟨kind, name, children⟩ := t
  rw [partsAlone, partsAlone, toList_term]
  obtain ⟨hne, hchars⟩ := kind.tag_chars
  obtain ⟨c, rest, htag⟩ := List.exists_cons_of_ne_nil hne
  rw [htag] at hchars ⊢
  intro h
  have hc := (List.cons.inj h).1
  subst hc
  exact hchars _ List.mem_cons_self (by decide)

mutual

/-- The term of a tree ends where it ends, whatever follows it. -/
theorem term_append_inj (t : Node) {t' : Node} {w w' : List Char}
    (ht : NamesWithout ['(', ')', ','] t) (ht' : NamesWithout ['(', ')', ','] t')
    (h : t.term.toList ++ w = t'.term.toList ++ w') : t = t' ∧ w = w' := by
  obtain ⟨kind, name, children⟩ := t
  obtain ⟨kind', name', children'⟩ := t'
  obtain ⟨⟨hnameless, hname⟩, hchildren⟩ := namesWithout_iff.mp ht
  obtain ⟨⟨hnameless', hname'⟩, hchildren'⟩ := namesWithout_iff.mp ht'
  rw [toList_term, toList_term, List.append_assoc, List.append_assoc, List.cons_append,
    List.cons_append] at h
  obtain ⟨htag, hparts⟩ := append_inj_of_stop (p := isTermMark)
    (fun c hc => decide_eq_false (kind.tag_chars.2 c hc))
    (fun c hc => decide_eq_false (kind'.tag_chars.2 c hc)) (by rintro c ⟨⟩; rfl)
    (by rintro c ⟨⟩; rfl) h
  obtain rfl := Kind.tag_inj (String.ext htag)
  replace hparts := (List.cons.inj hparts).2
  cases hkind : kind.hasName with
  | true =>
      rw [hkind, if_pos rfl, if_pos rfl, List.append_assoc, List.append_assoc] at hparts
      obtain ⟨hsame, hbehind⟩ := append_inj_of_stop (p := isTermMark)
        (fun c hc => decide_eq_false (hname c hc)) (fun c hc => decide_eq_false (hname' c hc))
        (head_partsBehind children w) (head_partsBehind children' w') hparts
      obtain ⟨rfl, rfl⟩ := partsBehind_append_inj children hchildren hchildren' hbehind
      obtain rfl := String.ext hsame
      exact ⟨rfl, rfl⟩
  | false =>
      rw [hkind, if_neg Bool.false_ne_true, if_neg Bool.false_ne_true] at hparts
      obtain ⟨rfl, rfl⟩ := partsAlone_append_inj children hchildren hchildren' hparts
      rw [hnameless hkind, hnameless' hkind]
      exact ⟨rfl, rfl⟩

theorem partsBehind_append_inj (ts : List Node) {ts' : List Node} {w w' : List Char}
    (hts : ∀ t ∈ ts, NamesWithout ['(', ')', ','] t)
    (hts' : ∀ t ∈ ts', NamesWithout ['(', ')', ','] t)
    (h : partsBehind ts ++ w = partsBehind ts' ++ w') : ts = ts' ∧ w = w' := by
  cases ts with
  | nil =>
      cases ts' with
      | nil => exact ⟨rfl, (List.cons.inj h).2⟩
      | cons => cases (List.cons.inj h).1
  | cons t ts =>
      cases ts' with
      | nil => cases (List.cons.inj h).1
      | cons t' ts' =>
          obtain ⟨hfirst, hlater⟩ := List.forall_mem_cons.mp hts
          obtain ⟨hfirst', hlater'⟩ := List.forall_mem_cons.mp hts'
          rw [partsBehind, partsBehind, List.cons_append, List.cons_append, List.cons_append,
            List.cons_append, List.append_assoc, List.append_assoc] at h
          have hparts := (List.cons.inj (List.cons.inj h).2).2
          obtain ⟨rfl, hbehind⟩ := term_append_inj t hfirst hfirst' hparts
          obtain ⟨rfl, rfl⟩ := partsBehind_append_inj ts hlater hlater' hbehind
          exact ⟨rfl, rfl⟩

theorem partsAlone_append_inj (ts : List Node) {ts' : List Node} {w w' : List Char}
    (hts : ∀ t ∈ ts, NamesWithout ['(', ')', ','] t)
    (hts' : ∀ t ∈ ts', NamesWithout ['(', ')', ','] t)
    (h : partsAlone ts ++ w = partsAlone ts' ++ w') : ts = ts' ∧ w = w' := by
  cases ts with
  | nil =>
      cases ts' with
      | nil => exact ⟨rfl, (List.cons.inj h).2⟩
      | cons t' ts' => exact absurd h (ne_of_head_term t')
  | cons t ts =>
      cases ts' with
      | nil => exact absurd h.symm (ne_of_head_term t)
      | cons t' ts' =>
          obtain ⟨hfirst, hlater⟩ := List.forall_mem_cons.mp hts
          obtain ⟨hfirst', hlater'⟩ := List.forall_mem_cons.mp hts'
          rw [partsAlone, partsAlone, List.append_assoc, List.append_assoc] at h
          obtain ⟨rfl, hbehind⟩ := term_append_inj t hfirst hfirst' h
          obtain ⟨rfl, rfl⟩ := partsBehind_append_inj ts hlater hlater' hbehind
          exact ⟨rfl, rfl⟩

end

end Terms

/-! ## Outlines -/

section Outlines

variable {t t' : Node} {margin : String} {rest rest' : List String}

/-- The headline of a node shows its kind and its label. -/
theorem headline_inj (h : t.headline = t'.headline) : t.kind = t'.kind ∧ t.label = t'.label := by
  have hchars := congrArg String.toList h
  rw [headline, headline] at hchars
  simp only [String.toList_append, List.append_assoc] at hchars
  obtain ⟨hsymbol, hlabel⟩ := append_inj_of_stop (p := (· == ' '))
    (fun c hc => beq_false_of_ne (symbol_chars t.kind c hc).1)
    (fun c hc => beq_false_of_ne (symbol_chars t'.kind c hc).1) (by rintro c ⟨⟩; rfl)
    (by rintro c ⟨⟩; rfl) hchars
  exact ⟨symbol_inj (String.ext hsymbol), String.ext (List.append_cancel_left hlabel)⟩

/-- With its children given, a node can be told from its headline. -/
theorem eq_of_headline (h : t.headline = t'.headline) (hchildren : t.children = t'.children)
    (ht : t.kind.hasName = false → t.name = "") (ht' : t'.kind.hasName = false → t'.name = "") :
    t = t' := by
  obtain ⟨hkind, hlabel⟩ := headline_inj h
  obtain ⟨kind, name, children⟩ := t
  obtain ⟨kind', name', children'⟩ := t'
  dsimp only at hkind hchildren ht ht'
  subst hkind hchildren
  have hname : name = name' := by
    cases hnamed : kind.hasName with
    | false => rw [ht hnamed, ht' hnamed]
    | true =>
        cases kind with
        | root | assign => cases hnamed
        | call =>
            -- Both labels end with the number of the same children.
            have hchars := congrArg String.toList hlabel
            simp only [label, String.toList_append] at hchars
            exact String.ext (List.append_cancel_right (List.append_cancel_right hchars))
        | literal | «variable» | unop | binop => exact hlabel
  rw [hname]

theorem connector_ne_rail (last last' : Bool) (w w' : List Char) :
    (connector last).toList ++ w ≠ (rail last').toList ++ w' := by
  cases last <;> cases last' <;> exact fun h => absurd (List.cons.inj h).1 (by decide)

theorem connector_append_inj {last last' : Bool} {w w' : List Char}
    (h : (connector last).toList ++ w = (connector last').toList ++ w') :
    last = last' ∧ w = w' := by
  cases last <;> cases last'
  · exact ⟨rfl, List.append_cancel_left h⟩
  · exact absurd (List.cons.inj h).1 (by decide)
  · exact absurd (List.cons.inj h).1 (by decide)
  · exact ⟨rfl, List.append_cancel_left h⟩

/-- The first of some lines does not start with a margin. -/
def LeavesMargin (margin : String) (lines : List String) : Prop :=
  ∀ line ∈ lines.head?, ¬ margin.toList <+: line.toList

/-- The lines of the descendants of a node end where its next sibling follows, or where the lines
of the family end. -/
theorem LeavesMargin.rail (h : LeavesMargin margin rest) (last : Bool) (ts : List Node) :
    LeavesMargin (margin ++ rail last) (siblingLines margin ts ++ rest) := by
  cases ts with
  | nil =>
      intro line hline hmargin
      rw [String.toList_append] at hmargin
      exact h line hline ((List.prefix_append _ _).trans hmargin)
  | cons t ts =>
      rintro line ⟨⟩ ⟨w, hw⟩
      simp only [String.toList_append, List.append_assoc] at hw
      exact connector_ne_rail _ _ _ _ (List.append_cancel_left hw).symm

/-- A line of a family starts with the margin. -/
theorem not_leavesMargin (margin : String) (t : Node) (ts : List Node) (rest : List String) :
    ¬ LeavesMargin margin (siblingLines margin (t :: ts) ++ rest) := by
  refine fun h => h _ rfl ?_
  rw [String.toList_append, String.toList_append, List.append_assoc]
  exact List.prefix_append _ _

mutual

/-- The lines below a node end where it ends. -/
theorem linesBelow_append_inj (t : Node) {t' : Node} {margin : String} {rest rest' : List String}
    (ht : NamesWithout [] t) (ht' : NamesWithout [] t') (hrest : LeavesMargin margin rest)
    (hrest' : LeavesMargin margin rest')
    (h : t.linesBelow margin ++ rest = t'.linesBelow margin ++ rest') :
    t.children = t'.children ∧ rest = rest' := by
  obtain ⟨kind, name, children⟩ := t
  obtain ⟨kind', name', children'⟩ := t'
  exact siblingLines_append_inj children (namesWithout_iff.mp ht).2 (namesWithout_iff.mp ht').2
    hrest hrest' h

theorem siblingLines_append_inj (ts : List Node) {ts' : List Node} {margin : String}
    {rest rest' : List String} (hts : ∀ t ∈ ts, NamesWithout [] t)
    (hts' : ∀ t ∈ ts', NamesWithout [] t) (hrest : LeavesMargin margin rest)
    (hrest' : LeavesMargin margin rest')
    (h : siblingLines margin ts ++ rest = siblingLines margin ts' ++ rest') :
    ts = ts' ∧ rest = rest' := by
  cases ts with
  | nil =>
      cases ts' with
      | nil => exact ⟨rfl, h⟩
      | cons t' ts' =>
          refine absurd ?_ (not_leavesMargin margin t' ts' rest')
          rw [← h]
          exact hrest
  | cons t ts =>
      cases ts' with
      | nil =>
          refine absurd ?_ (not_leavesMargin margin t ts rest)
          rw [h]
          exact hrest'
      | cons t' ts' =>
          obtain ⟨hfirst, hlater⟩ := List.forall_mem_cons.mp hts
          obtain ⟨hfirst', hlater'⟩ := List.forall_mem_cons.mp hts'
          rw [siblingLines, siblingLines, List.cons_append, List.cons_append] at h
          obtain ⟨hline, hlines⟩ := List.cons.inj h
          replace hline := congrArg String.toList hline
          simp only [String.toList_append, List.append_assoc] at hline
          obtain ⟨hlast, hheadline⟩ := connector_append_inj (List.append_cancel_left hline)
          rw [hlast, List.append_assoc, List.append_assoc] at hlines
          obtain ⟨hchildren, hbehind⟩ := linesBelow_append_inj t hfirst hfirst'
            (hrest.rail _ ts) (hrest'.rail _ ts') hlines
          obtain rfl := eq_of_headline (String.ext hheadline) hchildren (hfirst t .self).1
            (hfirst' t' .self).1
          obtain ⟨rfl, rfl⟩ := siblingLines_append_inj ts hlater hlater' hrest hrest' hbehind
          exact ⟨rfl, rfl⟩

end

/-- A listing of entries without line feeds can be read back. -/
theorem join_lines_inj {lines lines' : List String}
    (h : ∀ line ∈ lines, ∀ c ∈ line.toList, c ≠ '\n')
    (h' : ∀ line ∈ lines', ∀ c ∈ line.toList, c ≠ '\n')
    (hjoin : String.join (lines.map (· ++ "\n")) = String.join (lines'.map (· ++ "\n"))) :
    lines = lines' := by
  induction lines generalizing lines' with
  | nil =>
      cases lines' with
      | nil => rfl
      | cons line' lines' =>
          have hchars := congrArg String.toList hjoin
          simp [String.join_cons] at hchars
  | cons line lines ih =>
      cases lines' with
      | nil =>
          have hchars := congrArg String.toList hjoin
          simp [String.join_cons] at hchars
      | cons line' lines' =>
          obtain ⟨hfirst, hlater⟩ := List.forall_mem_cons.mp h
          obtain ⟨hfirst', hlater'⟩ := List.forall_mem_cons.mp h'
          have hchars := congrArg String.toList hjoin
          rw [List.map_cons, List.map_cons, String.join_cons, String.join_cons] at hchars
          simp only [String.toList_append, List.append_assoc] at hchars
          obtain ⟨hline, hrest⟩ := append_inj_of_stop (p := (· == '\n'))
            (fun c hc => beq_false_of_ne (hfirst c hc)) (fun c hc => beq_false_of_ne (hfirst' c hc))
            (by rintro c ⟨⟩; rfl) (by rintro c ⟨⟩; rfl) hchars
          rw [String.ext hline, ih hlater hlater' (String.ext (List.append_cancel_left hrest))]

theorem label_no_feed (ht : NamesWithout ['\n'] t) : ∀ c ∈ t.label.toList, c ≠ '\n' := by
  have hname : ∀ c ∈ t.name.toList, c ≠ '\n' := fun c hc heq =>
    (ht t .self).2 c hc (heq ▸ List.mem_cons_self)
  obtain ⟨kind, name, children⟩ := t
  cases kind with
  | root | assign => simp [label, Kind.hasName, Kind.tag]
  | call =>
      simp only [label, String.toList_append, List.forall_mem_append]
      refine ⟨⟨hname, List.forall_iff_forall_mem.mp (by decide)⟩, fun c hc => ?_⟩
      rw [Nat.toString_eq_repr, Nat.toList_repr] at hc
      rintro rfl
      cases Nat.isDigit_of_mem_toDigits (by decide) (by decide) hc
  | literal | «variable» | unop | binop => exact hname

theorem headline_no_feed (ht : NamesWithout ['\n'] t) : ∀ c ∈ t.headline.toList, c ≠ '\n' := by
  rw [headline]
  simp only [String.toList_append, List.forall_mem_append]
  have hblank : ∀ c ∈ " ".toList, c ≠ '\n' := List.forall_iff_forall_mem.mp (by decide)
  exact ⟨⟨fun c hc => (symbol_chars _ c hc).2, hblank⟩, label_no_feed ht⟩

theorem connector_no_feed (last : Bool) : ∀ c ∈ (connector last).toList, c ≠ '\n' := by
  refine List.forall_iff_forall_mem.mp ?_
  cases last <;> decide

theorem rail_no_feed (last : Bool) : ∀ c ∈ (rail last).toList, c ≠ '\n' := by
  refine List.forall_iff_forall_mem.mp ?_
  cases last <;> decide

mutual

theorem linesBelow_no_feed (t : Node) {margin : String} (ht : NamesWithout ['\n'] t)
    (hmargin : ∀ c ∈ margin.toList, c ≠ '\n') :
    ∀ line ∈ t.linesBelow margin, ∀ c ∈ line.toList, c ≠ '\n' := by
  obtain ⟨kind, name, children⟩ := t
  exact siblingLines_no_feed children (namesWithout_iff.mp ht).2 hmargin

theorem siblingLines_no_feed (ts : List Node) {margin : String}
    (hts : ∀ t ∈ ts, NamesWithout ['\n'] t) (hmargin : ∀ c ∈ margin.toList, c ≠ '\n') :
    ∀ line ∈ siblingLines margin ts, ∀ c ∈ line.toList, c ≠ '\n' := by
  cases ts with
  | nil => exact List.forall_mem_nil _
  | cons t ts =>
      obtain ⟨hfirst, hlater⟩ := List.forall_mem_cons.mp hts
      rw [siblingLines]
      refine List.forall_mem_cons.mpr ⟨?_, List.forall_mem_append.mpr
        ⟨linesBelow_no_feed t hfirst ?_, siblingLines_no_feed ts hlater hmargin⟩⟩
      · simp only [String.toList_append, List.forall_mem_append]
        exact ⟨⟨hmargin, connector_no_feed _⟩, headline_no_feed hfirst⟩
      · rw [String.toList_append]
        exact List.forall_mem_append.mpr ⟨hmargin, rail_no_feed _⟩

end

theorem outline_inj (ht : NamesWithout ['\n'] t) (ht' : NamesWithout ['\n'] t')
    (h : t.outline = t'.outline) : t = t' := by
  have hfree : ∀ {t : Node}, NamesWithout ['\n'] t →
      ∀ line ∈ t.headline :: t.linesBelow "", ∀ c ∈ line.toList, c ≠ '\n' := fun ht =>
    List.forall_mem_cons.mpr
      ⟨headline_no_feed ht, linesBelow_no_feed _ ht (List.forall_mem_nil _)⟩
  obtain ⟨hheadline, hlines⟩ := List.cons.inj (join_lines_inj (hfree ht) (hfree ht') h)
  have hend : LeavesMargin "" [] := fun line hline => nomatch hline
  have hchildren := linesBelow_append_inj t (ht.mono (List.nil_subset _))
    (ht'.mono (List.nil_subset _)) hend hend (congrArg (· ++ []) hlines)
  exact eq_of_headline hheadline hchildren.1 (ht t .self).1 (ht' t' .self).1

end Outlines

theorem term_inj {t t' : Node} (ht : NamesWithout ['(', ')', ','] t)
    (ht' : NamesWithout ['(', ')', ','] t') (h : t.term = t'.term) : t = t' :=
  (term_append_inj t ht ht' (congrArg (·.toList ++ []) h)).1

/-! ## The trees of programs -/

section Programs

variable {t : Node} {name : String} {c : Char}

/-- The characters that a term or an outline cannot do without around names. -/
def notationMarks : List Char :=
  ['(', ')', ',', '\n']

theorem not_mark_of_isDigit (h : c.isDigit = true) : c ∉ notationMarks := by
  rintro hc
  simp only [notationMarks, List.mem_cons, List.not_mem_nil, or_false] at hc
  rcases hc with rfl | rfl | rfl | rfl <;> cases h

theorem not_mark_of_continues (h : Identifier.continues c = true) : c ∉ notationMarks := by
  rintro hc
  simp only [notationMarks, List.mem_cons, List.not_mem_nil, or_false] at hc
  rcases hc with rfl | rfl | rfl | rfl <;> cases h

theorem not_mark_of_isNumber (h : isNumber name = true) :
    ∀ c ∈ name.toList, c ∉ notationMarks := by
  rw [isNumber, Bool.and_eq_true, List.all_eq_true] at h
  exact fun c hc => not_mark_of_isDigit (h.2 c hc)

theorem not_mark_of_isValid (h : Identifier.isValid name = true) :
    ∀ c ∈ name.toList, c ∉ notationMarks := by
  unfold Identifier.isValid at h
  split at h
  next => cases h
  next c rest hname =>
    rw [Bool.and_eq_true, List.all_eq_true] at h
    rw [hname]
    refine List.forall_mem_cons.mpr ⟨not_mark_of_continues ?_, fun c hc =>
      not_mark_of_continues (h.2 c hc)⟩
    rw [Identifier.continues, h.1, Bool.true_or]

theorem sign_no_mark : ∀ c ∈ "+".toList, c ∉ notationMarks :=
  List.forall_iff_forall_mem.mp (by decide)

theorem IsExpression.namesWithout (h : t.IsExpression) : NamesWithout notationMarks t := by
  induction h with
  | literal hname =>
      exact namesWithout_iff.mpr
        ⟨⟨nofun, not_mark_of_isNumber hname⟩, List.forall_mem_nil _⟩
  | «variable» hname =>
      exact namesWithout_iff.mpr
        ⟨⟨nofun, not_mark_of_isValid hname⟩, List.forall_mem_nil _⟩
  | call hname _ ih =>
      exact namesWithout_iff.mpr ⟨⟨nofun, not_mark_of_isValid hname⟩, ih⟩
  | unop _ ih =>
      exact namesWithout_iff.mpr ⟨⟨nofun, sign_no_mark⟩, List.forall_mem_singleton.mpr ih⟩
  | binop _ _ ihleft ihright =>
      exact namesWithout_iff.mpr ⟨⟨nofun, sign_no_mark⟩,
        List.forall_mem_cons.mpr ⟨ihleft, List.forall_mem_singleton.mpr ihright⟩⟩

theorem IsStatement.namesWithout (h : t.IsStatement) : NamesWithout notationMarks t := by
  cases h with
  | assign hname hvalue =>
      have htarget := (IsExpression.variable hname).namesWithout
      exact namesWithout_iff.mpr ⟨⟨fun _ => rfl, List.forall_mem_nil _⟩,
        List.forall_mem_cons.mpr ⟨htarget, List.forall_mem_singleton.mpr hvalue.namesWithout⟩⟩
  | call hcall => exact hcall.namesWithout

theorem IsProgram.namesWithout (h : t.IsProgram) : NamesWithout notationMarks t := by
  obtain ⟨kind, name, children⟩ := t
  obtain ⟨hkind, hname, -, hstatements⟩ := h
  dsimp only at hkind hname hstatements
  subst hkind hname
  exact namesWithout_iff.mpr ⟨⟨fun _ => rfl, List.forall_mem_nil _⟩, fun statement hstatement =>
    (hstatements statement hstatement).namesWithout⟩

end Programs

/-- A tree can be told from its term if no name holds a parenthesis or a comma, and from its
outline if no name holds a line feed. The trees of programs can be told from both. -/
theorem notations_determine (t t' : Node) :
    (NamesWithout ['(', ')', ','] t → NamesWithout ['(', ')', ','] t' →
      (t.term = t'.term ↔ t = t')) ∧
    (NamesWithout ['\n'] t → NamesWithout ['\n'] t' → (t.outline = t'.outline ↔ t = t')) ∧
    ∀ maxDepth maxDepth' chars chars', parse maxDepth chars = .ok t →
      parse maxDepth' chars' = .ok t' →
        (t.term = t'.term ↔ t = t') ∧ (t.outline = t'.outline ↔ t = t') := by
  refine ⟨fun ht ht' => ⟨term_inj ht ht', congrArg term⟩,
    fun ht ht' => ⟨outline_inj ht ht', congrArg outline⟩, ?_⟩
  intro maxDepth maxDepth' chars chars' hparse hparse'
  have ht := (parse_sound hparse).2.isProgram.namesWithout
  have ht' := (parse_sound hparse').2.isProgram.namesWithout
  have hterm : ['(', ')', ','] ⊆ notationMarks := by decide
  have houtline : ['\n'] ⊆ notationMarks := by decide
  exact ⟨⟨term_inj (ht.mono hterm) (ht'.mono hterm), congrArg term⟩,
    ⟨outline_inj (ht.mono houtline) (ht'.mono houtline), congrArg outline⟩⟩

/-- A call of a function without a name. -/
def namelessCall (arguments : List Node) : Node :=
  ⟨.call, "", arguments⟩

theorem namelessCall_namesWithout {arguments : List Node}
    (h : ∀ t ∈ arguments, NamesWithout notationMarks t) :
    NamesWithout notationMarks (namelessCall arguments) :=
  namesWithout_iff.mpr ⟨⟨fun _ => rfl, List.forall_mem_nil _⟩, h⟩

/-- Names may be empty, and one tree may come from several programs. -/
theorem notations_determine_emptyNames :
    (NamesWithout notationMarks (namelessCall []) ∧
      NamesWithout notationMarks (namelessCall [namelessCall []]) ∧
      namelessCall [] ≠ namelessCall [namelessCall []]) ∧
    ((namelessCall []).term ≠ (namelessCall [namelessCall []]).term ∧
      (namelessCall []).outline ≠ (namelessCall [namelessCall []]).outline) ∧
    ∃ t t', parse 3 "a=b".toList.toArray = .ok t ∧
      parse 4 "a = ( b ) # same".toList.toArray = .ok t' ∧ t.term = t'.term ∧ t = t' := by
  have hbare : NamesWithout notationMarks (namelessCall []) :=
    namelessCall_namesWithout (List.forall_mem_nil _)
  have hnested : NamesWithout notationMarks (namelessCall [namelessCall []]) :=
    namelessCall_namesWithout (List.forall_mem_singleton.mpr hbare)
  have hne : namelessCall [] ≠ namelessCall [namelessCall []] := fun h =>
    List.cons_ne_nil _ _ (congrArg children h).symm
  obtain ⟨hterm, houtline, -⟩ := notations_determine (namelessCall [])
    (namelessCall [namelessCall []])
  replace hterm := hterm (hbare.mono (by decide)) (hnested.mono (by decide))
  replace houtline := houtline (hbare.mono (by decide)) (hnested.mono (by decide))
  refine ⟨⟨hbare, hnested, hne⟩, ⟨fun h => hne (hterm.mp h), fun h => hne (houtline.mp h)⟩, ?_⟩
  have hfirst : (parse 3 "a=b".toList.toArray).toOption.map term =
      some "root(assign(var(a), var(b)))" := by decide +kernel
  have hsecond : (parse 4 "a = ( b ) # same".toList.toArray).toOption.map term =
      some "root(assign(var(a), var(b)))" := by decide +kernel
  cases hparse : parse 3 "a=b".toList.toArray with
  | error e =>
      rw [hparse] at hfirst
      cases hfirst
  | ok t =>
      cases hparse' : parse 4 "a = ( b ) # same".toList.toArray with
      | error e =>
          rw [hparse'] at hsecond
          cases hsecond
      | ok t' =>
          rw [hparse] at hfirst
          rw [hparse'] at hsecond
          have hsame : t.term = t'.term := Option.some.inj (hfirst.trans hsecond.symm)
          have hboth := (notations_determine t t').2.2 _ _ _ _ hparse hparse'
          exact ⟨t, t', rfl, rfl, hsame, hboth.1.mp hsame⟩

end Node

end Sumscript
