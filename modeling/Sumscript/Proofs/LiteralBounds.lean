import Sumscript.Proofs.Lexemes
import Sumscript.Proofs.Lowering

/-! # Parsed programs have code unless a number is too big

A tree that was parsed has every shape that the translation to code asks for. Only the size of a
number is left to it, and the first number that is too big, in the order in which literals
become code, is the one that the error tells.
-/

namespace Sumscript

/-- Whether the decimal value of a number exceeds the greatest 64-bit number with a sign. -/
def isBigNumber (text : String) : Bool :=
  9223372036854775807 < Numeral.valueFrom 0 text.toList

namespace Node

mutual

/-- The texts of the literals of a tree in the order in which they become code: statements one
after the other, a right operand before the left one, and a later argument before an earlier
one. -/
def loweredLiterals : Node → List String
  | ⟨.literal, text, _⟩ => [text]
  | ⟨.binop, _, [left, right]⟩ => right.loweredLiterals ++ left.loweredLiterals
  | ⟨.call, _, arguments⟩ => argumentLiterals arguments
  | ⟨_, _, children⟩ => allLoweredLiterals children

/-- The texts of the literals of several trees, one tree after the other. -/
def allLoweredLiterals : List Node → List String
  | [] => []
  | t :: rest => t.loweredLiterals ++ allLoweredLiterals rest

/-- The texts of the literals of arguments, the last argument first. -/
def argumentLiterals : List Node → List String
  | [] => []
  | t :: rest => argumentLiterals rest ++ t.loweredLiterals

end

attribute [grind =] loweredLiterals allLoweredLiterals argumentLiterals

/-- There is code as long as none of some numbers is too big, and otherwise the error tells the
first one that is. -/
def StopsAtBig (literals : List String) (result : Except CompileError Code) : Prop :=
  match literals.find? isBigNumber with
  | some text => result = .error (.invalidLiteral text)
  | none => ∃ code, result = .ok code

theorem StopsAtBig.ok (code : Code) : StopsAtBig [] (.ok code) :=
  ⟨code, rfl⟩

/-- What is translated first is searched first. -/
theorem StopsAtBig.bind {first second : List String} {result : Except CompileError Code}
    {next : Code → Except CompileError Code} (hfirst : StopsAtBig first result)
    (hnext : ∀ code, StopsAtBig second (next code)) :
    StopsAtBig (first ++ second) (result >>= next) := by
  unfold StopsAtBig at hfirst ⊢
  rw [List.find?_append]
  cases hbig : first.find? isBigNumber with
  | some text =>
      rw [hbig] at hfirst
      subst hfirst
      rfl
  | none =>
      rw [hbig] at hfirst
      obtain ⟨code, rfl⟩ := hfirst
      exact hnext code

theorem StopsAtBig.map {literals : List String} {result : Except CompileError Code}
    (hresult : StopsAtBig literals result) (f : Code → Code) :
    StopsAtBig literals (result >>= fun code => .ok (f code)) := by
  have hmapped := hresult.bind fun code => StopsAtBig.ok (f code)
  rwa [List.append_nil] at hmapped

theorem StopsAtBig.error_iff {literals : List String} {result : Except CompileError Code}
    (hresult : StopsAtBig literals result) :
    (∃ e, result = .error e) ↔ ∃ text ∈ literals, isBigNumber text = true := by
  unfold StopsAtBig at hresult
  cases hbig : literals.find? isBigNumber with
  | some text =>
      rw [hbig] at hresult
      subst hresult
      simpa using ⟨text, List.mem_of_find?_eq_some hbig, List.find?_some hbig⟩
  | none =>
      rw [hbig] at hresult
      obtain ⟨code, rfl⟩ := hresult
      simpa using hbig

theorem StopsAtBig.find?_of_error {literals : List String} {result : Except CompileError Code}
    (hresult : StopsAtBig literals result) {e : CompileError} (he : result = .error e) :
    ∃ text, literals.find? isBigNumber = some text ∧ e = .invalidLiteral text := by
  subst he
  unfold StopsAtBig at hresult
  cases hbig : literals.find? isBigNumber with
  | some text =>
      rw [hbig] at hresult
      cases hresult
      exact ⟨text, rfl, rfl⟩
  | none =>
      rw [hbig] at hresult
      obtain ⟨code, hcode⟩ := hresult
      cases hcode

theorem natural?_of_isNumber {text : String} (h : isNumber text = true) :
    Numeral.natural? text.toList = some (Numeral.valueFrom 0 text.toList) :=
  if_pos h

/-- A number has no sign, so its value is what its digits say. -/
theorem integer?_of_isNumber {text : String} (h : isNumber text = true) :
    Numeral.integer? text.toList = some (Numeral.valueFrom 0 text.toList : Int) := by
  have hnatural := natural?_of_isNumber h
  have hdigits := List.all_eq_true.mp ((Bool.and_eq_true _ _).mp h).2
  unfold Numeral.integer?
  split
  next digits hchars =>
    rw [hchars] at hdigits
    exact absurd (hdigits '-' List.mem_cons_self) (by decide)
  next digits hchars =>
    rw [hchars] at hdigits
    exact absurd (hdigits '+' List.mem_cons_self) (by decide)
  next =>
    rw [hnatural]
    rfl

theorem fitsInt64_natCast (n : Nat) :
    Numeral.fitsInt64 n = !decide (9223372036854775807 < n) := by
  have hmin : Numeral.minInt64 ≤ (n : Int) := by
    unfold Numeral.minInt64
    omega
  have hmax : (n : Int) ≤ Numeral.maxInt64 ↔ ¬ 9223372036854775807 < n := by
    unfold Numeral.maxInt64
    omega
  simp only [Numeral.fitsInt64, hmin, hmax, decide_true, Bool.true_and, decide_not]

theorem stopsAtBig_literal {text : String} (h : isNumber text = true) :
    StopsAtBig [text] (leaf .literal text).code := by
  change StopsAtBig [text] (code ⟨.literal, text, []⟩)
  rw [code, Numeral.int64?, integer?_of_isNumber h]
  have hfits : Numeral.fitsInt64 (Numeral.valueFrom 0 text.toList) = !isBigNumber text :=
    fitsInt64_natCast _
  cases hbig : isBigNumber text with
  | true => simp [StopsAtBig, hbig, hfits]
  | false => simp [StopsAtBig, hbig, hfits]

theorem stopsAtBig_arguments {arguments : List Node}
    (h : ∀ argument ∈ arguments, StopsAtBig argument.loweredLiterals argument.code) :
    StopsAtBig (argumentLiterals arguments) (argumentsCode arguments) := by
  induction arguments with
  | nil => exact .ok []
  | cons argument later ih =>
      have hlater := ih fun other hother => h other (List.mem_cons_of_mem _ hother)
      rw [argumentLiterals, argumentsCode]
      apply hlater.bind
      intro laterCode
      exact (h argument List.mem_cons_self).map _

theorem stopsAtBig_of_expression {t : Node} (h : t.IsExpression) :
    StopsAtBig t.loweredLiterals t.code := by
  induction h with
  | literal hname => exact stopsAtBig_literal hname
  | «variable» => exact .ok _
  | call _ _ ih =>
      rw [loweredLiterals, code]
      exact (stopsAtBig_arguments ih).map _
  | @unop operand _ ih =>
      have hliterals : (Node.mk .unop "+" [operand]).loweredLiterals = operand.loweredLiterals := by
        simp [loweredLiterals, allLoweredLiterals]
      have hplus : "+" = plus := rfl
      rw [hliterals, code, if_pos hplus]
      exact ih
  | binop _ _ ihleft ihright =>
      have hplus : "+" = plus := rfl
      rw [loweredLiterals, code, if_pos hplus]
      apply ihright.bind
      intro rightCode
      exact ihleft.map _

theorem stopsAtBig_of_statement {t : Node} (h : t.IsStatement) :
    StopsAtBig t.loweredLiterals t.code := by
  cases h with
  | @assign name value _ hvalue =>
      have hliterals : (Node.mk .assign "" [leaf .variable name, value]).loweredLiterals =
          value.loweredLiterals := by
        simp [loweredLiterals, allLoweredLiterals, leaf]
      have htarget : (leaf .variable name).kind = .variable := rfl
      rw [hliterals, code, if_pos htarget]
      exact (stopsAtBig_of_expression hvalue).map _
  | call hcall => exact stopsAtBig_of_expression hcall

theorem stopsAtBig_of_statements {statements : List Node} (h : ∀ t ∈ statements, t.IsStatement) :
    StopsAtBig (allLoweredLiterals statements) (statementsCode statements) := by
  induction statements with
  | nil => exact .ok []
  | cons statement rest ih =>
      have hrest := ih fun other hother => h other (List.mem_cons_of_mem _ hother)
      rw [allLoweredLiterals, statementsCode]
      apply (stopsAtBig_of_statement (h statement List.mem_cons_self)).bind
      intro own
      exact hrest.map _

theorem stopsAtBig_of_isProgram {t : Node} (h : t.IsProgram) :
    StopsAtBig t.loweredLiterals t.compile := by
  obtain ⟨kind, name, children⟩ := t
  obtain ⟨hkind, -, -, hstatements⟩ := h
  cases hkind
  have hroot : (Node.mk .root name children).kind = .root := rfl
  rw [loweredLiterals, compile, if_pos hroot]
  · exact stopsAtBig_of_statements hstatements
  all_goals simp

end Node

theorem isNumber_of_isValid {name : String} (h : Identifier.isValid name = true) :
    isNumber name = false := by
  unfold Identifier.isValid at h
  unfold isNumber
  cases hchars : name.toList with
  | nil => rfl
  | cons c rest =>
      rw [hchars] at h
      have hstarts := ((Bool.and_eq_true _ _).mp h).1
      simp [isDigit_of_starts hstarts]

namespace Node

/-- The numbers of a tree in the order of the text are its literals in another order. -/
def CountsLiterals (t : Node) : Prop :=
  (t.lexemes.filter isNumber).Perm t.loweredLiterals

theorem numbers_perm_all {ts : List Node} (h : ∀ t ∈ ts, t.CountsLiterals) :
    ((allLexemes ts).filter isNumber).Perm (allLoweredLiterals ts) := by
  induction ts with
  | nil => simp [allLexemes, allLoweredLiterals]
  | cons t rest ih =>
      have hrest := ih fun other hother => h other (List.mem_cons_of_mem _ hother)
      rw [allLexemes, allLoweredLiterals, List.filter_append]
      exact (h t List.mem_cons_self).append hrest

theorem allLoweredLiterals_perm (ts : List Node) :
    (allLoweredLiterals ts).Perm (argumentLiterals ts) := by
  induction ts with
  | nil => simp [allLoweredLiterals, argumentLiterals]
  | cons t rest ih =>
      rw [allLoweredLiterals, argumentLiterals]
      exact List.perm_append_comm.trans (ih.append_right _)

theorem countsLiterals_of_expression {t : Node} (h : t.IsExpression) : t.CountsLiterals := by
  induction h with
  | literal hname => simp [CountsLiterals, leaf, lexemes, allLexemes, loweredLiterals, hname]
  | «variable» hname =>
      simp [CountsLiterals, leaf, lexemes, allLexemes, loweredLiterals, allLoweredLiterals,
        isNumber_of_isValid hname]
  | @call name arguments hname _ ih =>
      have hnumbers := (numbers_perm_all ih).trans (allLoweredLiterals_perm arguments)
      simpa [CountsLiterals, lexemes, loweredLiterals, isNumber_of_isValid hname] using hnumbers
  | unop _ ih =>
      have hplus : isNumber "+" = false := by decide
      simpa [CountsLiterals, lexemes, allLexemes, loweredLiterals, allLoweredLiterals, hplus]
        using ih
  | binop _ _ ihleft ihright =>
      have hplus : isNumber "+" = false := by decide
      have hboth := (ihleft.append ihright).trans List.perm_append_comm
      simpa [CountsLiterals, lexemes, loweredLiterals, hplus] using hboth

theorem countsLiterals_of_statement {t : Node} (h : t.IsStatement) : t.CountsLiterals := by
  cases h with
  | assign hname hvalue =>
      have hnumbers := countsLiterals_of_expression hvalue
      simpa [CountsLiterals, leaf, lexemes, allLexemes, loweredLiterals, allLoweredLiterals,
        isNumber_of_isValid hname] using hnumbers
  | call hcall => exact countsLiterals_of_expression hcall

theorem countsLiterals_of_isProgram {t : Node} (h : t.IsProgram) : t.CountsLiterals := by
  obtain ⟨kind, name, children⟩ := t
  obtain ⟨hkind, -, -, hstatements⟩ := h
  cases hkind
  have hnumbers := numbers_perm_all fun t ht => countsLiterals_of_statement (hstatements t ht)
  simpa [CountsLiterals, lexemes, loweredLiterals] using hnumbers

end Node

/-- A program that was parsed has no code exactly if one of the numbers of its text exceeds the
greatest 64-bit number, under whatever nesting limit it was parsed. The error is then about the
first such number in the order in which literals become code; no error of the translation about
operators or about the shape of the tree is possible. The literals are the numbers of the text,
each as often as it stands there. -/
theorem compile_of_parse (maxDepth : Nat) (w : List Char) (t : Node)
    (hparse : parse maxDepth w.toArray = .ok t) :
    ((∃ e, t.compile = .error e) ↔ ∃ text ∈ lexemes w, isNumber text = true ∧
      9223372036854775807 < Numeral.valueFrom 0 text.toList) ∧
    (∀ e, t.compile = .error e →
      ∃ text, t.loweredLiterals.find? isBigNumber = some text ∧ e = .invalidLiteral text) ∧
    ((lexemes w).filter isNumber).Perm t.loweredLiterals := by
  obtain ⟨-, hrendering⟩ := parse_sound hparse
  rw [List.toList_toArray] at hrendering
  have hprogram := hrendering.isProgram
  have hstops := Node.stopsAtBig_of_isProgram hprogram
  have hnumbers : ((lexemes w).filter isNumber).Perm t.loweredLiterals := by
    rw [hrendering.lexemes_eq]
    exact Node.countsLiterals_of_isProgram hprogram
  refine ⟨?_, fun e he => hstops.find?_of_error he, hnumbers⟩
  rw [hstops.error_iff]
  simp only [← hnumbers.mem_iff, List.mem_filter, isBigNumber, decide_eq_true_eq, and_assoc]

theorem compile_of_parse_bothBig :
    ∃ t, parse 8 "a = 9223372036854775808 + 09223372036854775809".toList.toArray = .ok t ∧
      t.compile = .error (.invalidLiteral "09223372036854775809") ∧
      t.loweredLiterals.find? isBigNumber = some "09223372036854775809" ∧
      ∃ text ∈ lexemes "a = 9223372036854775808 + 09223372036854775809".toList,
        isNumber text = true ∧ 9223372036854775807 < Numeral.valueFrom 0 text.toList := by
  have hterm : (parse 8 "a = 9223372036854775808 + 09223372036854775809".toList.toArray).toOption.map
      Node.loweredLiterals = some ["09223372036854775809", "9223372036854775808"] := by
    decide +kernel
  cases hparse : parse 8 "a = 9223372036854775808 + 09223372036854775809".toList.toArray with
  | error e =>
      rw [hparse] at hterm
      cases hterm
  | ok t =>
      rw [hparse] at hterm
      have hliterals : t.loweredLiterals = ["09223372036854775809", "9223372036854775808"] :=
        Option.some.inj hterm
      obtain ⟨hbig, hfirst, -⟩ := compile_of_parse 8 _ t hparse
      have hsome : ∃ text ∈ lexemes "a = 9223372036854775808 + 09223372036854775809".toList,
          isNumber text = true ∧ 9223372036854775807 < Numeral.valueFrom 0 text.toList :=
        ⟨"9223372036854775808", by decide, by decide, by decide⟩
      obtain ⟨e, hcompile⟩ := hbig.mpr hsome
      -- The right operand becomes code first, so the error is about its number.
      obtain ⟨text, hfound, rfl⟩ := hfirst e hcompile
      have htext : t.loweredLiterals.find? isBigNumber = some "09223372036854775809" := by
        rw [hliterals]
        decide
      rw [htext] at hfound
      cases hfound
      exact ⟨t, rfl, hcompile, htext, hsome⟩

end Sumscript
