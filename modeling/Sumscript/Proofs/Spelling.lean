import Sumscript.Proofs.RuleOrder
import Sumscript.Proofs.WrittenForm

/-! # What the lexical rules read

The rules for names, numbers and layout read a run of characters. Each is described by the text
that it reads and by the character that stops it.
-/

namespace Sumscript

/-- A text spells the characters `w` from one offset to another. -/
def Spells (chars : Array Char) : Nat → List Char → Nat → Prop
  | i, [], j => j = i
  | i, c :: w, j => chars[i]? = some c ∧ Spells chars (i + 1) w j

/-- A pattern matches from one offset to another, whatever it logs. -/
def Accepts (chars : Array Char) (p : Pattern) (i j : Nat) : Prop :=
  ∃ log, Succeeds chars p i j log

section Spells

variable {chars : Array Char} {i j k : Nat} {w w' : List Char} {c : Char}

@[simp] theorem spells_nil_iff : Spells chars i [] j ↔ j = i :=
  Iff.rfl

@[simp] theorem spells_cons_iff :
    Spells chars i (c :: w) j ↔ chars[i]? = some c ∧ Spells chars (i + 1) w j :=
  Iff.rfl

@[simp] theorem spells_append_iff :
    Spells chars i (w ++ w') j ↔ ∃ k, Spells chars i w k ∧ Spells chars k w' j := by
  induction w generalizing i with
  | nil => simp
  | cons c w ih => simp [ih, and_assoc]

theorem Spells.cons (hchar : chars[i]? = some c) (h : Spells chars (i + 1) w j) :
    Spells chars i (c :: w) j :=
  ⟨hchar, h⟩

theorem Spells.char (hchar : chars[i]? = some c) : Spells chars i [c] (i + 1) :=
  ⟨hchar, rfl⟩

theorem Spells.append (h : Spells chars i w k) (h' : Spells chars k w' j) :
    Spells chars i (w ++ w') j :=
  spells_append_iff.mpr ⟨k, h, h'⟩

theorem Spells.eq_add_length (h : Spells chars i w j) : j = i + w.length := by
  induction w generalizing i with
  | nil => exact h
  | cons c w ih =>
      have := ih h.2
      rw [List.length_cons]
      omega

theorem Spells.drop_eq (h : Spells chars i w j) :
    chars.toList.drop i = w ++ chars.toList.drop j := by
  induction w generalizing i with
  | nil => rw [spells_nil_iff.mp h, List.nil_append]
  | cons c w ih =>
      obtain ⟨hlt, hget⟩ := Array.getElem?_eq_some_iff.mp h.1
      rw [List.drop_eq_getElem_cons (by simpa using hlt), Array.getElem_toList, hget, ih h.2,
        List.cons_append]

theorem Spells.eq_toList (h : Spells chars 0 w chars.size) : w = chars.toList := by
  have hdrop := h.drop_eq
  rw [List.drop_zero, List.drop_eq_nil_of_le (by simp), List.append_nil] at hdrop
  exact hdrop.symm

theorem drop_cons {rest : List Char} (h : w.drop i = c :: rest) :
    w[i]? = some c ∧ w.drop (i + 1) = rest := by
  constructor
  · have hhead := congrArg List.head? h
    simpa [List.head?_drop] using hhead
  · rw [← List.drop_drop, h]
    rfl

/-- A text spells what it goes on with at an offset. -/
theorem spells_of_drop_eq (hdrop : chars.toList.drop i = w ++ w') :
    Spells chars i w (i + w.length) := by
  induction w generalizing i with
  | nil => rfl
  | cons c w ih =>
      obtain ⟨hchar, hrest⟩ := drop_cons hdrop
      have hspells := ih hrest
      rw [Nat.add_right_comm] at hspells
      exact .cons (by simpa using hchar) hspells

theorem spells_toList (w : List Char) : Spells w.toArray 0 w w.toArray.size := by
  have hspells : Spells w.toArray 0 w (0 + w.length) := spells_of_drop_eq (List.append_nil w).symm
  simpa using hspells

/-- A token covers the text that is spelled over its span. -/
theorem Spells.text_eq (h : Spells chars i w j) (label : Label) :
    Token.text ⟨label, i, j⟩ chars = String.ofList w := by
  have hdrop := h.drop_eq
  have hlength := h.eq_add_length
  unfold Token.text
  rw [Array.toList_extract, List.extract_eq_take_drop, hdrop]
  congr 1
  refine List.take_left' ?_
  change w.length = j - i
  omega

end Spells

section Accepts

variable {chars : Array Char} {p q : Pattern} {i j k : Nat}

theorem Succeeds.accepts {log : TokenLog} (h : Succeeds chars p i j log) : Accepts chars p i j :=
  ⟨log, h⟩

theorem Accepts.not_fails (h : Accepts chars p i j) : ¬ Fails chars p i := by
  obtain ⟨log, h⟩ := h
  exact h.not_fails

theorem Accepts.unique (h : Accepts chars p i j) (h' : Accepts chars p i k) : j = k := by
  obtain ⟨log, h⟩ := h
  obtain ⟨log', h'⟩ := h'
  exact (h.unique h').1

theorem accepts_char_iff {c : Char} :
    Accepts chars (.char c) i j ↔ chars[i]? = some c ∧ j = i + 1 := by
  simp [Accepts, succeeds_char_iff]

theorem Accepts.le (h : Accepts chars p i j) : i ≤ j := by
  obtain ⟨log, h⟩ := h
  exact h.le

theorem Accepts.lt (h : Accepts chars p i j) (hp : p.nullable = false) : i < j := by
  obtain ⟨log, h⟩ := h
  exact h.lt hp

theorem Accepts.le_size (h : Accepts chars p i j) (hstart : i ≤ chars.size) : j ≤ chars.size := by
  obtain ⟨log, h⟩ := h
  exact h.le_size hstart

theorem accepts_act_iff {action : Action} : Accepts chars (.act action) i j ↔ j = i := by
  simp [Accepts, succeeds_act_iff]

theorem accepts_stop_iff : Accepts chars .stop i j ↔ chars.size ≤ i ∧ j = i := by
  simp [Accepts, succeeds_stop_iff]

theorem accepts_any_iff :
    Accepts chars .any i j ↔ (∃ c, chars[i]? = some c) ∧ j = i + 1 := by
  simp [Accepts, succeeds_any_iff]

theorem accepts_call_iff {rule : Rule} :
    Accepts chars (.call rule) i j ↔ Accepts chars rule.production i j := by
  constructor
  · rintro ⟨log, h⟩
    obtain ⟨own, hown, -⟩ := succeeds_call_iff.mp h
    exact ⟨own, hown⟩
  · rintro ⟨log, h⟩
    exact ⟨_, succeeds_call_iff.mpr ⟨log, h, rfl⟩⟩

theorem accepts_seq_iff : Accepts chars (.seq p q) i j ↔
    ∃ k, Accepts chars p i k ∧ Accepts chars q k j := by
  constructor
  · rintro ⟨log, h⟩
    obtain ⟨k, first, second, hfirst, hsecond, -⟩ := succeeds_seq_iff.mp h
    exact ⟨k, ⟨first, hfirst⟩, ⟨second, hsecond⟩⟩
  · rintro ⟨k, ⟨first, hfirst⟩, ⟨second, hsecond⟩⟩
    exact ⟨_, succeeds_seq_iff.mpr ⟨k, first, second, hfirst, hsecond, rfl⟩⟩

theorem accepts_alt_iff : Accepts chars (.alt p q) i j ↔
    Accepts chars p i j ∨ Fails chars p i ∧ Accepts chars q i j := by
  constructor
  · rintro ⟨log, h⟩
    rcases succeeds_alt_iff.mp h with hfirst | ⟨hfails, hsecond⟩
    · exact .inl ⟨log, hfirst⟩
    · exact .inr ⟨hfails, log, hsecond⟩
  · rintro (⟨log, hfirst⟩ | ⟨hfails, log, hsecond⟩)
    · exact ⟨log, succeeds_alt_iff.mpr (.inl hfirst)⟩
    · exact ⟨log, succeeds_alt_iff.mpr (.inr ⟨hfails, hsecond⟩)⟩

@[simp] theorem accepts_group_iff : Accepts chars (.group p) i j ↔ Accepts chars p i j := by
  simp [Accepts]

theorem accepts_opt_iff : Accepts chars (.opt p) i j ↔
    Accepts chars p i j ∨ Fails chars p i ∧ j = i := by
  constructor
  · rintro ⟨log, h⟩
    rcases succeeds_opt_iff.mp h with hbody | ⟨hfails, rfl, -⟩
    · exact .inl ⟨log, hbody⟩
    · exact .inr ⟨hfails, rfl⟩
  · rintro (⟨log, hbody⟩ | ⟨hfails, rfl⟩)
    · exact ⟨log, succeeds_opt_iff.mpr (.inl hbody)⟩
    · exact ⟨[], succeeds_opt_iff.mpr (.inr ⟨hfails, rfl, rfl⟩)⟩

theorem accepts_notAhead_iff : Accepts chars (.notAhead p) i j ↔ Fails chars p i ∧ j = i := by
  simp [Accepts, succeeds_notAhead_iff]

theorem accepts_star_iff : Accepts chars (.star p) i j ↔
    Fails chars p i ∧ j = i ∨
      ∃ k, Accepts chars p i k ∧ i < k ∧ Accepts chars (.star p) k j := by
  constructor
  · rintro ⟨log, h⟩
    rcases succeeds_star_iff.mp h with ⟨hfails, rfl, -⟩ | ⟨k, first, rest, hfirst, hlt, hrest, -⟩
    · exact .inl ⟨hfails, rfl⟩
    · exact .inr ⟨k, ⟨first, hfirst⟩, hlt, ⟨rest, hrest⟩⟩
  · rintro (⟨hfails, rfl⟩ | ⟨k, ⟨first, hfirst⟩, hlt, ⟨rest, hrest⟩⟩)
    · exact ⟨[], succeeds_star_iff.mpr (.inl ⟨hfails, rfl, rfl⟩)⟩
    · exact ⟨_, succeeds_star_iff.mpr (.inr ⟨k, first, rest, hfirst, hlt, hrest, rfl⟩)⟩

/-- Induction on the rounds of a repetition, whatever they log. -/
theorem Accepts.star_induction {motive : Nat → Prop} (h : Accepts chars (.star p) i j)
    (done : Fails chars p j → motive j)
    (more : ∀ i k, Accepts chars p i k → i < k → Accepts chars (.star p) k j → motive k →
      motive i) : motive i := by
  obtain ⟨log, h⟩ := h
  exact h.star_induction (motive := fun i _ => motive i) done
    fun i k first rest hfirst hlt hrest => more i k ⟨first, hfirst⟩ hlt ⟨rest, hrest⟩

end Accepts

/-- A pattern that reads exactly one character of a class. -/
structure ReadsOne (chars : Array Char) (p : Pattern) (accepts : Char → Bool) : Prop where
  accepts_iff : ∀ i j, Accepts chars p i j ↔
    (∃ c, chars[i]? = some c ∧ accepts c = true) ∧ j = i + 1
  fails_iff : ∀ i, Fails chars p i ↔ ∀ c, chars[i]? = some c → accepts c = false

section ReadsOne

variable {chars : Array Char} {p q : Pattern} {f g : Char → Bool}

theorem readsOne_char (c : Char) : ReadsOne chars (.char c) (· == c) := by
  constructor
  · intro i j
    simp [accepts_char_iff]
  · intro i
    rw [fails_char_iff]
    grind

theorem readsOne_range (low high : Char) :
    ReadsOne chars (.range low high) fun c => low ≤ c && c ≤ high := by
  constructor
  · intro i j
    simp [Accepts, succeeds_range_iff]
  · intro i
    simp [fails_range_iff]

theorem ReadsOne.alt (hp : ReadsOne chars p f) (hq : ReadsOne chars q g) :
    ReadsOne chars (.alt p q) fun c => f c || g c := by
  constructor
  · intro i j
    rw [accepts_alt_iff, hp.accepts_iff, hq.accepts_iff, hp.fails_iff]
    grind
  · intro i
    rw [fails_alt_iff, hp.fails_iff, hq.fails_iff]
    grind

theorem ReadsOne.group (h : ReadsOne chars p f) : ReadsOne chars (.group p) f := by
  constructor
  · intro i j
    rw [accepts_group_iff, h.accepts_iff]
  · intro i
    rw [fails_group_iff, h.fails_iff]

theorem ReadsOne.call {rule : Rule} (h : ReadsOne chars rule.production f) :
    ReadsOne chars (.call rule) f := by
  constructor
  · intro i j
    rw [accepts_call_iff, h.accepts_iff]
  · intro i
    rw [fails_call_iff, h.fails_iff]

theorem ReadsOne.congr (h : ReadsOne chars p f) (hfg : ∀ c, f c = g c) : ReadsOne chars p g :=
  (funext hfg : f = g) ▸ h

/-- A repetition reads the longest run of characters of the class. -/
theorem ReadsOne.star_iff (h : ReadsOne chars p f) {i j : Nat} :
    Accepts chars (.star p) i j ↔
      ∃ w, (∀ c ∈ w, f c = true) ∧ Spells chars i w j ∧
        ∀ c, chars[j]? = some c → f c = false := by
  constructor
  · intro hstar
    refine hstar.star_induction (motive := fun i => ∃ w, (∀ c ∈ w, f c = true) ∧
      Spells chars i w j ∧ ∀ c, chars[j]? = some c → f c = false) (fun hfails => ?_)
      fun i k hbody _ _ ih => ?_
    · exact ⟨[], List.forall_mem_nil _, rfl, (h.fails_iff _).mp hfails⟩
    · obtain ⟨⟨c, hchar, haccepts⟩, rfl⟩ := (h.accepts_iff _ _).mp hbody
      obtain ⟨w, hw, hspells, hnext⟩ := ih
      exact ⟨c :: w, List.forall_mem_cons.mpr ⟨haccepts, hw⟩, ⟨hchar, hspells⟩, hnext⟩
  · rintro ⟨w, hw, hspells, hnext⟩
    induction w generalizing i with
    | nil =>
        cases hspells
        exact accepts_star_iff.mpr (.inl ⟨(h.fails_iff _).mpr hnext, rfl⟩)
    | cons c w ih =>
        obtain ⟨hc, hw⟩ := List.forall_mem_cons.mp hw
        have hbody := (h.accepts_iff i (i + 1)).mpr ⟨⟨c, hspells.1, hc⟩, rfl⟩
        exact accepts_star_iff.mpr (.inr ⟨i + 1, hbody, Nat.lt_succ_self i, ih hw hspells.2⟩)

theorem readsOne_digit : ReadsOne chars (.call .digit) Char.isDigit :=
  (readsOne_range '0' '9').call.congr fun c => by
    simp [Char.isDigit, Char.le_def]

theorem Identifier.starts_eq (c : Char) : Identifier.starts c =
    (('A' ≤ c && c ≤ 'Z' || 'a' ≤ c && c ≤ 'z') || c == '_') := by
  have hupper : c.isUpper = ('A' ≤ c && c ≤ 'Z') := Bool.decide_and _ _
  change (c.isUpper || c.isLower || c == '_') = _
  rw [hupper]
  rfl

theorem readsOne_alphaChar : ReadsOne chars (.call .alphaChar) Identifier.starts := by
  have h : ReadsOne chars (Rule.production .alphaChar) _ :=
    (readsOne_range 'a' 'z').alt ((readsOne_range 'A' 'Z').alt (readsOne_char '_'))
  refine (h.congr fun c => ?_).call
  rw [Identifier.starts_eq, Bool.or_left_comm, Bool.or_assoc]

theorem readsOne_alphaNumericChar :
    ReadsOne chars (.call .alphaNumericChar) Identifier.continues :=
  (readsOne_alphaChar.alt readsOne_digit).call

theorem readsOne_simpleSpace : ReadsOne chars (.call .simpleSpace) isBlankOrTab :=
  ((readsOne_char ' ').alt (readsOne_char '\t')).call

end ReadsOne

end Sumscript
