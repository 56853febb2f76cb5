import Sumscript.Proofs.Nesting
import Sumscript.Tree.Notation

/-! # Programs one after the other

A line end between two programs makes one program of them. Whatever stands behind the statements
of the first one and before those of the second one is a separator then, an open comment included.
Every statement is attempted as before, so the limits that both programs keep are kept.
-/

namespace Sumscript

section Separators

variable {a w w' : List Char}

theorem Separator.blank {c : Char} (hc : isBlankOrTab c = true) (h : Separator w) :
    Separator (c :: w) := by
  cases h with
  | last ha hm hb => exact .last (List.forall_mem_cons.mpr ⟨hc, ha⟩) hm hb
  | more ha hm hrest => exact .more (List.forall_mem_cons.mpr ⟨hc, ha⟩) hm hrest

/-- Layout is a separator once a line end stands behind it, which also ends an open comment. -/
theorem Layout.separator {atEnd : Bool} (hw : Layout atEnd w) (ha : Layout false a) :
    Separator (w ++ '\n' :: a) := by
  induction hw with
  | nil => exact .last .nil (.newline .feed) ha
  | blank hc _ ih => exact ih.blank hc
  | newline hn _ ih =>
      have hmore := Separator.more .nil (.newline hn) ih
      simpa using hmore
  | @comment body n w hbody hn _ ih =>
      have hmore := Separator.more .nil (.comment hbody hn) ih
      simpa using hmore
  | @lastComment body _ hbody =>
      have hlast := Separator.last .nil (.comment hbody .feed) ha
      simpa using hlast

/-- So is whatever ends a program. -/
theorem ProgramEnd.separator_of_newline (hw : ProgramEnd w) (ha : Layout false a) :
    Separator (w ++ '\n' :: a) := by
  cases hw with
  | layout hlayout => exact hlayout.separator ha
  | @separator s b hseparator hlayout =>
      induction hseparator with
      | last hblanks hm hb =>
          have hmore := Separator.more hblanks hm ((hb.append hlayout).separator ha)
          simpa using hmore
      | more hblanks hm _ ih =>
          have hmore := Separator.more hblanks hm ih
          simpa using hmore

theorem WrittenStatements.append {ts ts' : List Node} (h : WrittenStatements ts w)
    (ha : Separator a) (h' : WrittenStatements ts' w') :
    WrittenStatements (ts ++ ts') (w ++ (a ++ w')) := by
  induction h with
  | last hlast => exact .more hlast ha h'
  | more hfirst hseparator _ ih =>
      have hmore := WrittenStatements.more hfirst hseparator ih
      simpa using hmore

end Separators

/-- Wherever written statements stand, they are attempted with the same nesting, besides that of
what is attempted behind them. -/
def NestsStatements (w : List Char) (n : Nat) : Prop :=
  ∀ chars i j l m, Spells chars i w j → ExpressionEnds chars j →
    Nests chars (.star .statementRound) j (some l) m →
      Nests chars (.seq (.call .statement) (.star .statementRound)) i (some l) (max n m)

/-- Where statements and the separators between them stand in a text, and how many expressions
are attempted inside each other in them. -/
inductive PlacedStatements (chars : Array Char) : List Node → Nat → Nat → Nat → Prop where
  | last {t i j n} (hlast : Placed chars (.statement t) i j n) : PlacedStatements chars [t] i j n
  | more {t ts i j k l n n'} (hfirst : Placed chars (.statement t) i k n)
      (hseparator : Accepts chars (.call .statementSep) k l)
      (hrest : PlacedStatements chars ts l j n') : PlacedStatements chars (t :: ts) i j (max n n')

section Statements

variable {chars : Array Char} {i j k l n n' : Nat} {a w w' : List Char} {ts : List Node}

theorem Nests.statementRound_star (hseparator : Accepts chars (.call .statementSep) i k)
    (h : Nests chars (.seq (.call .statement) (.star .statementRound)) k (some l) n) :
    Nests chars (.star .statementRound) i (some l) n := by
  obtain ⟨m, n₁, n₂, rfl, hstatement, hstar⟩ := h.seq_cases
  have hround : Nests chars .statementRound i (some m) n₁ :=
    (Nests.plain rfl hseparator).behind hstatement
  exact hround.starMore (hround.accepts.lt rfl) hstar

/-- Before a statement a separator is read to its end, and it ends what stands before it. -/
theorem WrittenStatements.ends_before (h : WrittenStatements ts w) (ha : Separator a)
    (hspells : Spells chars i a j) (hspells' : Spells chars j w k) :
    Accepts chars (.call .statementSep) i j ∧ ExpressionEnds chars i := by
  obtain ⟨c, r, rfl, hstarts⟩ := h.exists_head
  have hnext : ∀ c', chars[j]? = some c' → startsSeparator c' = false ∧ c' ≠ '+' := by
    intro c' hchar
    cases hspells'.1.symm.trans hchar
    exact not_separator_of_starts hstarts
  refine ⟨accepts_statementSep ha hspells fun c' hchar => (hnext c' hchar).1, ?_⟩
  refine expressionEnds_of_separation (.between ha) hspells (fun h => nomatch h) fun c' hchar => ?_
  exact ⟨(Bool.or_eq_false_iff.mp (hnext c' hchar).1).1, (hnext c' hchar).2⟩

theorem NestsStatements.append (h : NestsStatements w n) (ha : Separator a)
    (hwritten : WrittenStatements ts w') (h' : NestsStatements w' n') :
    NestsStatements (w ++ (a ++ w')) (max n n') := by
  intro chars i j l m hspells hends hstar
  obtain ⟨k, hspellsw, hspells⟩ := spells_append_iff.mp hspells
  obtain ⟨o, hspellsa, hspellsw'⟩ := spells_append_iff.mp hspells
  obtain ⟨hseparator, hends'⟩ := hwritten.ends_before ha hspellsa hspellsw'
  rw [Nat.max_assoc]
  have hrest := h' chars o j l m hspellsw' hends hstar
  exact h chars i k l _ hspellsw hends' (.statementRound_star hseparator hrest)

theorem PlacedStatements.nests {m : Nat} (h : PlacedStatements chars ts i j n)
    (hstar : Nests chars (.star .statementRound) j (some l) m) :
    Nests chars (.seq (.call .statement) (.star .statementRound)) i (some l) (max n m) := by
  induction h with
  | last hlast => exact hlast.nests.seq hstar
  | more hfirst hseparator _ ih =>
      rw [Nat.max_assoc]
      exact hfirst.nests.seq (.statementRound_star hseparator (ih hstar))

/-- The nesting of written statements depends on nothing that stands around them. -/
theorem WrittenStatements.exists_placing (h : WrittenStatements ts w) :
    ∃ n, ∀ chars i j, Spells chars i w j → ExpressionEnds chars j →
      PlacedStatements chars ts i j n := by
  induction h with
  | last hlast =>
      obtain ⟨n, hn⟩ := hlast.exists_placing
      exact ⟨n, fun chars i j hspells hends => .last (hn chars i j hspells hends)⟩
  | more hfirst hseparator hrest ih =>
      obtain ⟨n, hn⟩ := hfirst.exists_placing
      obtain ⟨n', hn'⟩ := ih
      refine ⟨max n n', fun chars i j hspells hends => ?_⟩
      obtain ⟨k, hspellsw, hspells⟩ := spells_append_iff.mp hspells
      obtain ⟨l, hspellsa, hspells⟩ := spells_append_iff.mp hspells
      obtain ⟨hbetween, hends'⟩ := hrest.ends_before hseparator hspellsa hspells
      exact .more (hn chars i k hspellsw hends') hbetween (hn' chars l j hspells hends)

theorem WrittenStatements.exists_nesting (h : WrittenStatements ts w) :
    ∃ n, NestsStatements w n := by
  obtain ⟨n, hn⟩ := h.exists_placing
  exact ⟨n, fun chars i j l m hspells hends => (hn chars i j hspells hends).nests⟩

theorem nests_statement_of_end (hend : chars[i]? = none) :
    Nests chars (.call .statement) i none 0 := by
  have hstarts : ∀ c, chars[i]? = some c → Identifier.starts c = false := by
    intro c hchar
    rw [hend] at hchar
    cases hchar
  have hassign : Nests chars (.call .assign) i none 0 :=
    .call rfl (Nests.plainFail rfl (fails_variable hstarts)).seqFail
  exact .call rfl (hassign.otherwise (nests_funcCall_of_start hstarts)).seqFail

/-- Behind the last statement another one is looked for in vain. -/
theorem nests_statementRound_of_end (hw : ProgramEnd w) (hspells : Spells chars i w j)
    (hend : chars[j]? = none) : Nests chars .statementRound i none 0 := by
  rcases accepts_programEnd hw hspells hend with ⟨hfails, -⟩ | hseparator
  · exact (Nests.plainFail rfl hfails).seqFail
  · exact (Nests.plain rfl hseparator).behind (nests_statement_of_end hend)

/-- Where the statements of a program stand between its layout. -/
theorem WrittenStatements.exists_place {b : List Char} (h : WrittenStatements ts w)
    (hlead : Layout false a) (hb : ProgramEnd b)
    (hspells : Spells chars 0 (a ++ (w ++ b)) chars.size) :
    ∃ i j, Accepts chars (.call .spaces) 0 i ∧ Spells chars i w j ∧ ExpressionEnds chars j ∧
      Spells chars j b chars.size := by
  obtain ⟨i, hspellsa, hspells⟩ := spells_append_iff.mp hspells
  obtain ⟨j, hspellsw, hspellsb⟩ := spells_append_iff.mp hspells
  refine ⟨i, j, ?_, hspellsw, ?_, hspellsb⟩
  · obtain ⟨c, r, rfl, hstarts⟩ := h.exists_head
    exact accepts_spaces_to hlead hspellsa hspellsw.1
      (startsLayout_of_continues (continues_of_starts hstarts))
  · have hend : chars[chars.size]? = none := Array.getElem?_eq_none (Nat.le_refl _)
    refine expressionEnds_of_separation (.behind hb) hspellsb (fun _ => hend) fun c hchar => ?_
    rw [hend] at hchar
    cases hchar

/-- Statements are all that the attempts of a program nest in. -/
theorem NestsStatements.program {b : List Char} (h : NestsStatements w n)
    (hlead : Layout false a) (hwritten : WrittenStatements ts w) (hb : ProgramEnd b)
    (hspells : Spells chars 0 (a ++ (w ++ b)) chars.size) :
    Nests chars (.call .program) 0 (some chars.size) n := by
  have hend : chars[chars.size]? = none := Array.getElem?_eq_none (Nat.le_refl _)
  have hnothing : ∀ c, chars[chars.size]? ≠ some c := by
    rw [hend]
    exact fun c hchar => nomatch hchar
  obtain ⟨i, j, hbefore, hspellsw, hends, hspellsb⟩ := hwritten.exists_place hlead hb hspells
  have hround := nests_statementRound_of_end hb hspellsb hend
  have hstatements : Nests chars (.call .statements) i (some j) n := by
    have hbody := h chars i j j 0 hspellsw hends hround.starDone
    rw [Nat.max_zero] at hbody
    exact .call rfl hbody
  have hstop : Nests chars (.call .endOfInput) chars.size (some chars.size) 0 :=
    .plain rfl (accepts_call_iff.mpr (accepts_stop_iff.mpr ⟨Nat.le_refl _, rfl⟩))
  apply Nests.call rfl
  apply (Nests.spaces hbefore).behind
  apply hstatements.before
  rcases accepts_programEnd hb hspellsb hend with ⟨hfails, hspaces⟩ | hseparator
  · apply (Nests.plainFail rfl hfails).optNone.behind
    exact (Nests.spaces hspaces).behind hstop
  · have hspaces : Accepts chars (.call .spaces) chars.size chars.size :=
      accepts_spaces (.nil : Layout true []) rfl (fun _ => hend)
        fun c hchar => absurd hchar (hnothing c)
    apply (Nests.plain rfl hseparator).optSome.behind
    exact (Nests.spaces hspaces).behind hstop

/-- A limit that has room for the nesting of a text changes nothing, and any other limit is all
that a text gives. -/
theorem Nests.tokenize_eq {result : Option Nat} (h : Nests chars (.call .program) 0 result n)
    (limit : Nat) : (n ≤ limit → tokenize limit chars = tokenize chars.size chars) ∧
      (limit < n → ∃ offset, tokenize limit chars =
        .error (.ofToken (.nestingLimit limit) ⟨.rule .expression, offset, offset⟩ chars)) := by
  obtain ⟨r, c, htries, rfl⟩ := h
  have hlimit := tokenize_eq_of_tries htries limit
  have hroom := c.pastLimit_eq_none_iff limit 0
  cases hpath : c.pastLimit limit 0 with
  | none =>
      rw [hpath, Option.elim_none] at hlimit
      have hn := hroom.mp hpath
      exact ⟨fun _ => hlimit, fun hlt => by omega⟩
  | some first =>
      rw [hpath, Option.elim_some] at hlimit
      refine ⟨fun hle => ?_, fun _ => ⟨first.offset, hlimit⟩⟩
      rw [hpath] at hroom
      cases hroom.mpr (.inr (by omega))

/-- A rendering is parsed under the limits that have room for its nesting. -/
theorem Rendering.parse_eq_iff {t : Node} {maxDepth : Nat} (h : Rendering t w)
    (hnests : Nests w.toArray (.call .program) 0 (some j) n) :
    parse maxDepth w.toArray = .ok t ↔ n ≤ maxDepth := by
  obtain ⟨hroom, hpast⟩ := hnests.tokenize_eq maxDepth
  constructor
  · intro hok
    refine Nat.not_lt.mp fun hlt => ?_
    obtain ⟨offset, herror⟩ := hpast hlt
    rw [parse_of_error herror] at hok
    cases hok
  · intro hle
    rw [parse_congr_tokenize (hroom hle)]
    exact h.parse_eq (Nat.le_refl _)

/-- Where the statements of a rendering stand, and how its attempts nest. -/
theorem Rendering.exists_placed {t : Node} (h : Rendering t w) :
    ∃ i j n, Accepts w.toArray (.call .spaces) 0 i ∧
      PlacedStatements w.toArray t.children i j n ∧ Fails w.toArray .statementRound j ∧
      Nests w.toArray (.call .program) 0 (some w.toArray.size) n := by
  cases h with
  | @program ts a u b hlead hstatements hend =>
      obtain ⟨n, hn⟩ := hstatements.exists_placing
      have hspells := spells_toList (a ++ (u ++ b))
      obtain ⟨i, j, hbefore, hspellsu, hends, hspellsb⟩ :=
        hstatements.exists_place hlead hend hspells
      have hstop : (a ++ (u ++ b)).toArray[(a ++ (u ++ b)).toArray.size]? = none :=
        Array.getElem?_eq_none (Nat.le_refl _)
      have hnests : NestsStatements u n :=
        fun chars i j l m hspells hends => (hn chars i j hspells hends).nests
      exact ⟨i, j, n, hbefore, hn _ i j hspellsu hends,
        fails_statementRound_of_end hend hspellsb hstop,
        hnests.program hlead hstatements hend hspells⟩

end Statements

/-- The program whose statements are those of one program and then those of another. -/
def Node.andThen (first second : Node) : Node :=
  ⟨.root, "", first.children ++ second.children⟩

/-- Two programs that are parsed under a limit are parsed under the same limit with a line end
between them, whatever the first one ends with and the second one begins with, and the
statements of the second one stand behind those of the first one. -/
theorem parse_joined (maxDepth : Nat) (w w' : List Char) (t t' : Node)
    (hparse : parse maxDepth w.toArray = .ok t) (hparse' : parse maxDepth w'.toArray = .ok t') :
    parse maxDepth (w ++ '\n' :: w').toArray = .ok (t.andThen t') := by
  obtain ⟨-, hrendering⟩ := parse_sound hparse
  obtain ⟨-, hrendering'⟩ := parse_sound hparse'
  rw [List.toList_toArray] at hrendering hrendering'
  have hspells : ∀ w : List Char, Spells w.toArray 0 w w.toArray.size := spells_toList
  cases hrendering with
  | @program ts a u b hlead hstatements hend =>
      cases hrendering' with
      | @program ts' a' u' b' hlead' hstatements' hend' =>
          obtain ⟨n, hn⟩ := hstatements.exists_nesting
          obtain ⟨n', hn'⟩ := hstatements'.exists_nesting
          have hnests := hn.program hlead hstatements hend (hspells _)
          have hnests' := hn'.program hlead' hstatements' hend' (hspells _)
          have hdepth := ((Rendering.program hlead hstatements hend).parse_eq_iff hnests).mp hparse
          have hdepth' :=
            ((Rendering.program hlead' hstatements' hend').parse_eq_iff hnests').mp hparse'
          -- What stands between the statements of the two programs separates them.
          have hgap := hend.separator_of_newline hlead'
          have hboth := hstatements.append hgap hstatements'
          have htext : (a ++ (u ++ b)) ++ '\n' :: (a' ++ (u' ++ b')) =
              a ++ ((u ++ ((b ++ '\n' :: a') ++ u')) ++ b') := by simp
          have hjoined := (hn.append hgap hstatements' hn').program hlead hboth hend' (hspells _)
          rw [htext]
          apply ((Rendering.program hlead hboth hend').parse_eq_iff hjoined).mpr
          exact Nat.max_le.mpr ⟨hdepth, hdepth'⟩

/-- The line end closes the comment with which the first program ends. -/
theorem parse_joined_openComment : ∃ t t', parse 1 "a=1;# b".toList.toArray = .ok t ∧
    parse 1 "\tprint(a)".toList.toArray = .ok t' ∧
    parse 1 ("a=1;# b".toList ++ '\n' :: "\tprint(a)".toList).toArray = .ok (t.andThen t') ∧
    (t.andThen t').term = "root(assign(var(a), lit(1)), call(print, var(a)))" := by
  have hterm : (parse 1 "a=1;# b".toList.toArray).toOption.bind (fun t =>
      (parse 1 "\tprint(a)".toList.toArray).toOption.map fun t' => (t.andThen t').term) =
        some "root(assign(var(a), lit(1)), call(print, var(a)))" := by decide +kernel
  cases hparse : parse 1 "a=1;# b".toList.toArray with
  | error e =>
      rw [hparse] at hterm
      cases hterm
  | ok t =>
      cases hparse' : parse 1 "\tprint(a)".toList.toArray with
      | error e =>
          rw [hparse, hparse'] at hterm
          cases hterm
      | ok t' =>
          rw [hparse, hparse'] at hterm
          exact ⟨t, t', rfl, rfl, parse_joined 1 _ _ t t' hparse hparse', Option.some.inj hterm⟩

end Sumscript
