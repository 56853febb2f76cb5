import Sumscript.Proofs.RenderedText

/-! # The texts that rules describe

Read as a set of rules, the grammar describes texts: a sequence describes a text of either part, a
choice what one of its alternatives does, whichever was tried first. What the rules describe in
this sense are the written forms of phrases, and every rule describes some text.
-/

namespace Sumscript

/-- A sign may stand between any two expressions. The operand to its left may have to give up what
it ends in. -/
theorem Written.exists_sum {l r : Node} {a b w w' : List Char} (hleft : Written (.expression l) w)
    (hbefore : Layout false a) (hbehind : Layout false b) (hright : Written (.expression r) w') :
    ∃ t, Written (.expression t) (w ++ (a ++ '+' :: (b ++ w'))) := by
  generalize hphrase : Phrase.expression l = phrase at hleft
  induction hleft generalizing l with
  | operand hoperand => exact ⟨_, .binop hoperand hbefore hbehind hright⟩
  | unop hgap _ ih =>
      obtain ⟨t, hsum⟩ := ih rfl
      refine ⟨⟨.unop, "+", [t]⟩, ?_⟩
      rw [List.cons_append, List.append_assoc]
      exact .unop hgap hsum
  | @binop l' _ _ _ _ _ hfirst hbefore' hbehind' _ _ ih =>
      obtain ⟨t, hsum⟩ := ih rfl
      refine ⟨⟨.binop, "+", [l', t]⟩, ?_⟩
      rw [List.append_assoc, List.append_assoc, List.cons_append, List.append_assoc]
      exact .binop hfirst hbefore' hbehind' hsum
  | _ => cases hphrase

/-- The texts that a rule describes. A comment has its line end, so that anything may follow it. -/
def Rule.Describes : Rule → List Char → Prop
  | .program, w => ∃ t, Rendering t w
  | .statements, w => ∃ ts, WrittenStatements ts w
  | .statementSep, w => Separator w
  | .statement, w | .assign, w => ∃ t, Written (.statement t) w
  | .funcCall, w => ∃ t, Written (.call t) w
  | .funcArgs, w => ∃ ts, Written (.arguments ts) w
  | .funcArg, w | .expression, w | .noBinopExpression, w | .binop, w | .unop, w =>
    ∃ t, Written (.expression t) w
  | .literal, w | .number, w => ∃ name : String, isNumber name = true ∧ w = name.toList
  | .variable, w | .name, w => ∃ name : String, Identifier.isValid name = true ∧ w = name.toList
  | .op, w => w = ['+']
  | .alphaChar, w => ∃ c, w = [c] ∧ Identifier.starts c = true
  | .digit, w => ∃ c, w = [c] ∧ c.isDigit = true
  | .alphaNumericChar, w => ∃ c, w = [c] ∧ Identifier.continues c = true
  | .comment, w => ∃ body n, CommentBody body ∧ Newline n ∧ w = '#' :: (body ++ n)
  | .spaces, w | .space, w => Layout false w
  | .simpleSpaces, w | .simpleSpace, w => Blanks w
  | .newline, w => Newline w
  | .endOfInput, w => w = []

namespace Pattern

/-- The texts that a pattern describes. -/
def Describes : Pattern → List Char → Prop
  | .char c, w => w = [c]
  | .range low high, w => ∃ c, w = [c] ∧ low ≤ c ∧ c ≤ high
  | .any, w => ∃ c, w = [c]
  | .stop, w | .act _, w | .notAhead _, w => w = []
  | .call rule, w => rule.Describes w
  | .seq p q, w => ∃ u v, w = u ++ v ∧ p.Describes u ∧ q.Describes v
  | .alt p q, w => p.Describes w ∨ q.Describes w
  | .group p, w => p.Describes w
  | .star p, w => ∃ parts : List (List Char), w = parts.flatten ∧ ∀ u ∈ parts, p.Describes u
  | .opt p, w => w = [] ∨ p.Describes w

/-- Whether a pattern has no lookahead and no empty range in it. -/
def isPositive : Pattern → Bool
  | .notAhead _ => false
  | .range low high => low ≤ high
  | .seq p q | .alt p q => p.isPositive && q.isPositive
  | .group p | .star p | .opt p => p.isPositive
  | _ => true

end Pattern

variable {rule : Rule} {p q : Pattern} {w : List Char}

theorem isPositive_production (h : rule ≠ .comment) : rule.production.isPositive = true := by
  revert h
  cases rule <;> decide

/-- Every rule describes some text. -/
theorem Rule.exists_describes (rule : Rule) : ∃ w, rule.Describes w := by
  have hname : Identifier.isValid "f" = true := rfl
  have hnumber : isNumber "0" = true := rfl
  have hexpression : ∃ w, ∃ t, Written (.expression t) w := ⟨_, _, .operand (.literal hnumber)⟩
  have hcall : Written (.call ⟨.call, "f", []⟩) _ := .call hname .nil .nil .noArguments .nil
  have hstatement : Written (.statement ⟨.call, "f", []⟩) _ := .callStatement hcall
  cases rule with
  | program => exact ⟨_, _, .program .nil (.last hstatement) (.layout .nil)⟩
  | statements => exact ⟨_, _, .last hstatement⟩
  | statementSep => exact ⟨_, .last .nil .semicolon .nil⟩
  | statement | assign => exact ⟨_, _, hstatement⟩
  | funcCall => exact ⟨_, _, hcall⟩
  | funcArgs => exact ⟨_, _, .noArguments⟩
  | funcArg | expression | noBinopExpression | binop | unop => exact hexpression
  | literal | number => exact ⟨_, _, hnumber, rfl⟩
  | «variable» | name => exact ⟨_, _, hname, rfl⟩
  | op => exact ⟨_, rfl⟩
  | alphaChar | alphaNumericChar => exact ⟨_, 'f', rfl, rfl⟩
  | digit => exact ⟨_, '0', rfl, rfl⟩
  | comment => exact ⟨_, [], _, by decide, .feed, rfl⟩
  | spaces | space => exact ⟨[], .nil⟩
  | simpleSpaces | simpleSpace => exact ⟨[], .nil⟩
  | newline => exact ⟨_, .feed⟩
  | endOfInput => exact ⟨_, rfl⟩

theorem Pattern.exists_describes (h : p.isPositive = true) : ∃ w, p.Describes w := by
  induction p with
  | char c => exact ⟨_, rfl⟩
  | range low high => exact ⟨_, low, rfl, Nat.le_refl _, of_decide_eq_true h⟩
  | any => exact ⟨_, ' ', rfl⟩
  | stop | act | notAhead => exact ⟨_, rfl⟩
  | call rule => exact rule.exists_describes
  | seq p q ihp ihq =>
      obtain ⟨hp, hq⟩ := (Bool.and_eq_true _ _).mp h
      obtain ⟨u, hu⟩ := ihp hp
      obtain ⟨v, hv⟩ := ihq hq
      exact ⟨_, u, v, rfl, hu, hv⟩
  | alt p q ihp ihq =>
      obtain ⟨u, hu⟩ := ihp ((Bool.and_eq_true _ _).mp h).1
      exact ⟨u, .inl hu⟩
  | group p ih => exact ih h
  | star p => exact ⟨_, [], rfl, List.forall_mem_nil _⟩
  | opt p => exact ⟨_, .inl rfl⟩

/-! What the patterns of rules describe, by the kind of the rule. -/

section Closure

theorem describes_flatten {P : List Char → Prop} {parts : List (List Char)} (hnil : P [])
    (happend : ∀ {u v}, p.Describes u → P v → P (u ++ v)) (h : ∀ u ∈ parts, p.Describes u) :
    P parts.flatten := by
  induction parts with
  | nil => exact hnil
  | cons u parts ih =>
      obtain ⟨hu, hparts⟩ := List.forall_mem_cons.mp h
      exact happend hu (ih hparts)

theorem describes_alphaChar (h : Pattern.Describes (Rule.production .alphaChar) w) :
    Rule.Describes .alphaChar w := by
  rcases h with ⟨c, rfl, hlow, hhigh⟩ | ⟨c, rfl, hlow, hhigh⟩ | rfl
  · refine ⟨c, rfl, ?_⟩
    rw [Identifier.starts_eq]
    simp [hlow, hhigh]
  · refine ⟨c, rfl, ?_⟩
    rw [Identifier.starts_eq]
    simp [hlow, hhigh]
  · exact ⟨'_', rfl, rfl⟩

theorem describes_alphaNumericChar (h : Pattern.Describes (Rule.production .alphaNumericChar) w) :
    Rule.Describes .alphaNumericChar w := by
  rcases h with ⟨c, rfl, hc⟩ | ⟨c, rfl, hc⟩
  · exact ⟨c, rfl, (Bool.or_eq_true _ _).mpr (.inl hc)⟩
  · exact ⟨c, rfl, (Bool.or_eq_true _ _).mpr (.inr hc)⟩

theorem describes_name (h : Pattern.Describes (Rule.production .name) w) :
    Rule.Describes .name w := by
  obtain ⟨_, _, rfl, ⟨c, rfl, hc⟩, parts, rfl, hparts⟩ := h
  have hrest : parts.flatten.all Identifier.continues = true := by
    refine describes_flatten (P := fun w => w.all Identifier.continues = true) rfl ?_ hparts
    rintro _ v ⟨c, rfl, hc⟩ hv
    exact (Bool.and_eq_true _ _).mpr ⟨hc, hv⟩
  refine ⟨String.ofList (c :: parts.flatten), ?_, (String.toList_ofList).symm⟩
  simpa [Identifier.isValid, hc] using hrest

theorem describes_number (h : Pattern.Describes (Rule.production .number) w) :
    Rule.Describes .number w := by
  obtain ⟨_, _, rfl, ⟨c, rfl, hc⟩, parts, rfl, hparts⟩ := h
  have hrest : parts.flatten.all Char.isDigit = true := by
    refine describes_flatten (P := fun w => w.all Char.isDigit = true) rfl ?_ hparts
    rintro _ v ⟨c, rfl, hc⟩ hv
    exact (Bool.and_eq_true _ _).mpr ⟨hc, hv⟩
  refine ⟨String.ofList (c :: parts.flatten), ?_, (String.toList_ofList).symm⟩
  simpa [isNumber, hc] using hrest

theorem describes_layout (h : Pattern.Describes (Rule.production .spaces) w) : Layout false w := by
  obtain ⟨parts, rfl, hparts⟩ := h
  exact describes_flatten (p := .call .space) (P := Layout false) .nil
    (fun hu hv => Layout.append hu hv) hparts

theorem describes_space (h : Pattern.Describes (Rule.production .space) w) : Layout false w := by
  rcases h with rfl | rfl | hnewline | ⟨body, n, hbody, hn, rfl⟩
  · exact .blank rfl .nil
  · exact .blank rfl .nil
  · have hlayout := Layout.newline hnewline (Layout.nil : Layout false [])
    rwa [List.append_nil] at hlayout
  · have hlayout := Layout.comment hbody hn (Layout.nil : Layout false [])
    rwa [List.append_nil] at hlayout

theorem describes_blanks (h : Pattern.Describes (Rule.production .simpleSpaces) w) : Blanks w := by
  obtain ⟨parts, rfl, hparts⟩ := h
  exact describes_flatten (p := .call .simpleSpace) (P := Blanks) Blanks.nil
    (fun hu hv => List.forall_mem_append.mpr ⟨hu, hv⟩) hparts

theorem describes_separatorRound (h : Pattern.separatorRound.Describes w) :
    ∃ a m, Blanks a ∧ Mark m ∧ w = a ++ m := by
  obtain ⟨a, m, rfl, ha, rfl | hnewline | ⟨body, n, hbody, hn, rfl⟩⟩ := h
  · exact ⟨a, _, ha, .semicolon, rfl⟩
  · exact ⟨a, m, ha, .newline hnewline, rfl⟩
  · exact ⟨a, _, ha, .comment hbody hn, rfl⟩

theorem describes_statementSep (h : Pattern.Describes (Rule.production .statementSep) w) :
    Separator w := by
  obtain ⟨_, b, rfl, ⟨first, _, rfl, hfirst, parts, rfl, hparts⟩, hb⟩ := h
  have hrounds : ∀ a m, Blanks a → Mark m → Separator (a ++ (m ++ (parts.flatten ++ b))) := by
    refine describes_flatten (p := .separatorRound)
      (P := fun w => ∀ a m, Blanks a → Mark m → Separator (a ++ (m ++ (w ++ b)))) ?_ ?_ hparts
    · exact fun a m ha hm => .last ha hm hb
    · intro u v hu hv a m ha hm
      obtain ⟨a', m', ha', hm', rfl⟩ := describes_separatorRound hu
      rw [List.append_assoc, List.append_assoc]
      exact .more ha hm (hv a' m' ha' hm')
  obtain ⟨a, m, ha, hm, rfl⟩ := describes_separatorRound hfirst
  rw [List.append_assoc, List.append_assoc]
  exact hrounds a m ha hm

theorem describes_statements (h : Pattern.Describes (Rule.production .statements) w) :
    ∃ ts, WrittenStatements ts w := by
  obtain ⟨first, _, rfl, ⟨t, ht⟩, parts, rfl, hparts⟩ := h
  have hrounds : ∀ t w, Written (.statement t) w →
      ∃ ts, WrittenStatements ts (w ++ parts.flatten) := by
    refine describes_flatten (p := .statementRound) (P := fun w' => ∀ t w,
      Written (.statement t) w → ∃ ts, WrittenStatements ts (w ++ w')) ?_ ?_ hparts
    · intro t w ht
      rw [List.append_nil]
      exact ⟨_, .last ht⟩
    · rintro _ v ⟨a, u, rfl, ha, t', ht'⟩ hv t w ht
      obtain ⟨ts, hts⟩ := hv t' u ht'
      rw [List.append_assoc]
      exact ⟨_, .more ht ha hts⟩
  exact hrounds t first ht

theorem describes_funcArgs (h : Pattern.Describes (Rule.production .funcArgs) w) :
    ∃ ts, Written (.arguments ts) w := by
  obtain ⟨_, last, rfl, ⟨parts, rfl, hparts⟩, hlast⟩ := h
  refine describes_flatten (p := .argumentRound)
    (P := fun w => ∃ ts, Written (.arguments ts) (w ++ last)) ?_ ?_ hparts
  · rcases hlast with rfl | ⟨t, ht⟩
    · exact ⟨_, .noArguments⟩
    · exact ⟨_, .lastArgument ht⟩
  · rintro _ v ⟨u, _, rfl, ⟨t, ht⟩, a, _, rfl, ha, _, b, rfl, rfl, hb⟩ ⟨ts, hts⟩
    have harguments := Written.moreArguments ht ha hb hts
    refine ⟨t :: ts, ?_⟩
    simpa using harguments

theorem describes_funcCall (h : Pattern.Describes (Rule.production .funcCall) w) :
    ∃ t, Written (.call t) w := by
  obtain ⟨_, _, rfl, ⟨name, hname, rfl⟩, _, _, rfl, rfl, a, _, rfl, ha, _, _, rfl, rfl, b, _, rfl,
    hb, u, _, rfl, ⟨ts, hts⟩, d, _, rfl, hd, rfl⟩ := h
  exact ⟨_, .call hname ha hb hts hd⟩

theorem describes_assign (h : Pattern.Describes (Rule.production .assign) w) :
    ∃ t, Written (.statement t) w := by
  obtain ⟨_, _, rfl, ⟨name, hname, rfl⟩, a, _, rfl, ha, _, _, rfl, rfl, b, _, rfl, hb, u, _, rfl,
    ⟨t, ht⟩, rfl⟩ := h
  have hassign := Written.assign hname ha hb ht
  rw [List.append_nil]
  exact ⟨_, hassign⟩

theorem describes_binop (h : Pattern.Describes (Rule.production .binop) w) :
    ∃ t, Written (.expression t) w := by
  obtain ⟨u, _, rfl, ⟨l, hl⟩, a, _, rfl, ha, _, _, rfl, rfl, _, _, rfl, rfl, b, _, rfl, hb, v, _,
    rfl, ⟨r, hr⟩, rfl⟩ := h
  have hsum := hl.exists_sum ha hb hr
  rw [List.append_nil]
  exact hsum

theorem describes_unop (h : Pattern.Describes (Rule.production .unop) w) :
    ∃ t, Written (.expression t) w := by
  obtain ⟨_, _, rfl, rfl, _, _, rfl, rfl, a, _, rfl, ha, u, _, rfl, ⟨t, ht⟩, rfl⟩ := h
  have hunop := Written.unop ha ht
  rw [List.append_nil]
  exact ⟨_, hunop⟩

theorem describes_operand (h : Pattern.Describes (Rule.production .noBinopExpression) w) :
    ∃ t, Written (.expression t) w := by
  rcases h with ⟨name, hname, rfl⟩ | ⟨t, ht⟩ | ⟨name, hname, rfl⟩ | hunop |
    ⟨_, _, rfl, rfl, a, _, rfl, ha, u, _, rfl, ⟨t, ht⟩, b, _, rfl, hb, rfl⟩
  · exact ⟨_, .operand (.literal hname)⟩
  · exact ⟨_, .operand (.callOperand ht)⟩
  · exact ⟨_, .operand (.variable hname)⟩
  · exact hunop
  · exact ⟨_, .operand (.parentheses ha ht hb)⟩

theorem describes_program (h : Pattern.Describes (Rule.production .program) w) :
    ∃ t, Rendering t w := by
  obtain ⟨a, _, rfl, ha, u, _, rfl, ⟨ts, hts⟩, s, _, rfl, hs, b, _, rfl, hb, rfl⟩ := h
  have hend : Layout true (b ++ []) := hb.append .nil
  refine ⟨_, .program ha hts ?_⟩
  rcases hs with rfl | hs
  · exact .layout hend
  · exact .separator hs hend

/-- What the pattern of a rule describes, the rule describes. -/
theorem describes_of_production (hrule : rule ≠ .comment) (h : rule.production.Describes w) :
    rule.Describes w := by
  cases rule with
  | program => exact describes_program h
  | statements => exact describes_statements h
  | statementSep => exact describes_statementSep h
  | statement =>
      obtain ⟨u, _, rfl, hassign | ⟨t, ht⟩, rfl⟩ := h
      · rw [List.append_nil]
        exact hassign
      · rw [List.append_nil]
        exact ⟨t, .callStatement ht⟩
  | assign => exact describes_assign h
  | funcCall => exact describes_funcCall h
  | funcArgs => exact describes_funcArgs h
  | funcArg | literal | «variable» =>
      obtain ⟨u, _, rfl, hu, rfl⟩ := h
      rw [List.append_nil]
      exact hu
  | expression => exact h.elim id id
  | noBinopExpression => exact describes_operand h
  | binop => exact describes_binop h
  | unop => exact describes_unop h
  | op | endOfInput => exact h
  | number => exact describes_number h
  | name => exact describes_name h
  | alphaChar => exact describes_alphaChar h
  | digit =>
      obtain ⟨c, rfl, hlow, hhigh⟩ := h
      exact ⟨c, rfl, by simpa [Char.isDigit, Char.le_def] using And.intro hlow hhigh⟩
  | alphaNumericChar => exact describes_alphaNumericChar h
  | comment => exact absurd rfl hrule
  | spaces => exact describes_layout h
  | space => exact describes_space h
  | simpleSpaces => exact describes_blanks h
  | simpleSpace =>
      rcases h with rfl | rfl <;> exact List.forall_mem_singleton.mpr rfl
  | newline =>
      rcases h with ⟨_, _, rfl, rfl, rfl⟩ | rfl | rfl
      · exact .returnFeed
      · exact .feed
      · exact .returnAlone

end Closure

end Sumscript
