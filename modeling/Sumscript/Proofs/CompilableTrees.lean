import Sumscript.Proofs.Lowering

/-! # Which trees have code

Every kind asks something of its nodes: a number of children, a variable in the place of a
target, the one operator, a number that fits. A root has code exactly if all nodes that become
code with its statements are built as their kinds ask. The target of an assignment is no such
node, only its kind and its name are looked at, so a tree whose targets have children may have
code without being well formed.
-/

namespace Sumscript

namespace Numeral

/-- A text that stands for a number: ASCII digits, at least one, behind at most one sign. -/
inductive Denotes : List Char → Int → Prop where
  | bare {digits} (hne : digits ≠ []) (hdigits : ∀ c ∈ digits, c.isDigit = true) :
      Denotes digits (valueFrom 0 digits)
  | plus {digits} (hne : digits ≠ []) (hdigits : ∀ c ∈ digits, c.isDigit = true) :
      Denotes ('+' :: digits) (valueFrom 0 digits)
  | minus {digits} (hne : digits ≠ []) (hdigits : ∀ c ∈ digits, c.isDigit = true) :
      Denotes ('-' :: digits) (-valueFrom 0 digits)

theorem natural?_eq_some_iff {digits : List Char} {n : Nat} :
    natural? digits = some n ↔
      digits ≠ [] ∧ (∀ c ∈ digits, c.isDigit = true) ∧ valueFrom 0 digits = n := by
  simp [natural?, and_assoc]

theorem denotes_of_natural? {digits : List Char} {n : Nat} (h : natural? digits = some n) :
    Denotes digits n ∧ Denotes ('+' :: digits) n ∧ Denotes ('-' :: digits) (-n) := by
  obtain ⟨hne, hdigits, rfl⟩ := natural?_eq_some_iff.mp h
  exact ⟨.bare hne hdigits, .plus hne hdigits, .minus hne hdigits⟩

theorem integer?_eq_some_iff {chars : List Char} {n : Int} :
    integer? chars = some n ↔ Denotes chars n := by
  constructor
  · intro h
    unfold integer? at h
    split at h
    next digits =>
      cases hn : natural? digits <;> rw [hn] at h <;> cases h
      exact (denotes_of_natural? hn).2.2
    next digits =>
      cases hn : natural? digits <;> rw [hn] at h <;> cases h
      exact (denotes_of_natural? hn).2.1
    next =>
      cases hn : natural? chars <;> rw [hn] at h <;> cases h
      exact (denotes_of_natural? hn).1
  · intro h
    cases h with
    | minus hne hdigits => rw [integer?, natural?_eq_some_iff.mpr ⟨hne, hdigits, rfl⟩]; rfl
    | plus hne hdigits => rw [integer?, natural?_eq_some_iff.mpr ⟨hne, hdigits, rfl⟩]; rfl
    | bare hne hdigits =>
        -- No digit is a sign.
        unfold integer?
        split
        next => exact absurd (hdigits '-' List.mem_cons_self) (by decide)
        next => exact absurd (hdigits '+' List.mem_cons_self) (by decide)
        next => rw [natural?_eq_some_iff.mpr ⟨hne, hdigits, rfl⟩]; rfl

theorem fitsInt64_iff {n : Int} :
    fitsInt64 n = true ↔ -9223372036854775808 ≤ n ∧ n ≤ 9223372036854775807 := by
  rw [fitsInt64, Bool.and_eq_true, decide_eq_true_iff, decide_eq_true_iff]
  rfl

/-- The texts that have a value of 64 bits are those of a number between the bounds. -/
theorem exists_int64?_iff (chars : List Char) : (∃ value, int64? chars = some value) ↔
    ∃ n, Denotes chars n ∧ -9223372036854775808 ≤ n ∧ n ≤ 9223372036854775807 := by
  simp only [int64?, Option.bind_eq_some_iff, integer?_eq_some_iff, Option.ite_none_right_eq_some,
    fitsInt64_iff]
  constructor
  · rintro ⟨_, n, hn, hfits, -⟩
    exact ⟨n, hn, hfits⟩
  · rintro ⟨n, hn, hfits⟩
    exact ⟨_, n, hn, hfits, rfl⟩

end Numeral

namespace Node

/-- A node below the root is built as its kind asks. -/
def IsBuilt (node : Node) : Prop :=
  match node.kind with
  | .root => False
  | .assign => ∃ target value, node.children = [target, value] ∧ target.kind = .variable
  | .literal => node.children = [] ∧ ∃ n, Numeral.Denotes node.name.toList n ∧
      -9223372036854775808 ≤ n ∧ n ≤ 9223372036854775807
  | .variable => node.children = []
  | .unop => node.name = "+" ∧ ∃ operand, node.children = [operand]
  | .binop => node.name = "+" ∧ ∃ left right, node.children = [left, right]
  | .call => True

/-- A node of a tree, the tree itself included. -/
inductive Subtree : Node → Node → Prop where
  | self {t} : Subtree t t
  | child {t c u} (hchild : c ∈ t.children) (hrest : Subtree c u) : Subtree t u

/-- A tree is a root below which every node is built as its kind asks. -/
def IsWellFormed (t : Node) : Prop :=
  t.kind = .root ∧ ∀ statement ∈ t.children, ∀ u, Subtree statement u → u.IsBuilt

/-- The children whose code is part of the code of a node: all but the target of an
assignment. -/
def operands (node : Node) : List Node :=
  match node.kind with
  | .assign => node.children.drop 1
  | _ => node.children

/-- A node that becomes code with a tree: the tree itself, or one that becomes code with an
operand. -/
inductive Translated : Node → Node → Prop where
  | self {t} : Translated t t
  | operand {t c u} (hoperand : c ∈ t.operands) (hrest : Translated c u) : Translated t u

/-- If a node is an assignment, its target has no children. -/
def BareTarget (node : Node) : Prop :=
  node.kind = .assign → ∀ target ∈ node.children.head?, target.children = []

section Trees

variable {t u : Node} {P : Node → Prop}

theorem operands_subset (t : Node) : t.operands ⊆ t.children := by
  unfold operands
  split
  · exact (List.drop_suffix 1 _).subset
  · exact List.Subset.refl _

theorem Subtree.trans {v : Node} (h : Subtree t u) (h' : Subtree u v) : Subtree t v := by
  induction h with
  | self => exact h'
  | child hchild _ ih => exact .child hchild (ih h')

theorem Translated.subtree (h : Translated t u) : Subtree t u := by
  induction h with
  | self => exact .self
  | operand hoperand _ ih => exact .child (operands_subset _ hoperand) ih

theorem forall_translated_iff : (∀ u, Translated t u → P u) ↔
    P t ∧ ∀ c ∈ t.operands, ∀ u, Translated c u → P u := by
  constructor
  · exact fun h => ⟨h t .self, fun c hc u hu => h u (.operand hc hu)⟩
  · rintro ⟨hself, hoperands⟩ u hu
    cases hu with
    | self => exact hself
    | operand hc hu => exact hoperands _ hc u hu

theorem forall_subtree_iff : (∀ u, Subtree t u → P u) ↔
    P t ∧ ∀ c ∈ t.children, ∀ u, Subtree c u → P u := by
  constructor
  · exact fun h => ⟨h t .self, fun c hc u hu => h u (.child hc hu)⟩
  · rintro ⟨hself, hchildren⟩ u hu
    cases hu with
    | self => exact hself
    | child hc hu => exact hchildren _ hc u hu

end Trees

section Code

variable {ε α β : Type}

theorem exists_bind_eq_ok {first : Except ε α} {next : α → Except ε β} {P : Prop}
    (hnext : ∀ a, (∃ b, next a = .ok b) ↔ P) :
    (∃ b, (first >>= next) = .ok b) ↔ (∃ a, first = .ok a) ∧ P := by
  simp only [bind_eq_ok_iff]
  constructor
  · rintro ⟨b, a, ha, hb⟩
    exact ⟨⟨a, ha⟩, (hnext a).mp ⟨b, hb⟩⟩
  · rintro ⟨⟨a, ha⟩, hP⟩
    obtain ⟨b, hb⟩ := (hnext a).mpr hP
    exact ⟨b, a, ha, hb⟩

theorem exists_map_eq_ok {first : Except ε α} {f : α → β} :
    (∃ b, (first >>= fun a => .ok (f a)) = .ok b) ↔ ∃ a, first = .ok a := by
  rw [exists_bind_eq_ok (P := True) (fun a => iff_of_true ⟨f a, rfl⟩ trivial), and_true]

theorem exists_argumentsCode_iff {arguments : List Node} :
    (∃ code, argumentsCode arguments = .ok code) ↔
      ∀ argument ∈ arguments, ∃ code, argument.code = .ok code := by
  induction arguments with
  | nil => simp [argumentsCode]
  | cons argument later ih =>
      rw [argumentsCode, exists_bind_eq_ok fun _ => exists_map_eq_ok, ih, List.forall_mem_cons,
        and_comm]

theorem exists_statementsCode_iff {statements : List Node} :
    (∃ code, statementsCode statements = .ok code) ↔
      ∀ statement ∈ statements, ∃ code, statement.code = .ok code := by
  induction statements with
  | nil => simp [statementsCode]
  | cons statement rest ih =>
      rw [statementsCode, exists_bind_eq_ok fun _ => exists_map_eq_ok, ih, List.forall_mem_cons]

/-- A node has code exactly if it is built as its kind asks and its operands have code. -/
theorem exists_code_iff (t : Node) : (∃ code, t.code = .ok code) ↔
    t.IsBuilt ∧ ∀ c ∈ t.operands, ∃ code, c.code = .ok code := by
  obtain ⟨kind, name, children⟩ := t
  cases kind with
  | root => simp [code, IsBuilt]
  | assign =>
      rcases children with _ | ⟨target, _ | ⟨value, _ | ⟨_, _⟩⟩⟩
      · simp [code, IsBuilt]
      · simp [code, IsBuilt]
      · by_cases htarget : target.kind = .variable
        · rw [code, if_pos htarget]
          refine exists_map_eq_ok.trans ?_
          simp [IsBuilt, operands, htarget]
        · simp [code, IsBuilt, htarget]
      · simp [code, IsBuilt]
  | literal =>
      rcases children with _ | ⟨_, _⟩
      · have hvalue := Numeral.exists_int64?_iff name.toList
        simp only [IsBuilt, operands, ← hvalue]
        cases h : Numeral.int64? name.toList <;> simp [code, h]
      · simp [code, IsBuilt]
  | «variable» =>
      rcases children with _ | ⟨_, _⟩
      · simp [code, IsBuilt, operands]
      · simp [code, IsBuilt]
  | unop =>
      by_cases hop : name = "+"
      · rcases children with _ | ⟨operand, _ | ⟨_, _⟩⟩
        · simp [code, IsBuilt, plus, hop]
        · simp [code, IsBuilt, operands, plus, hop]
        · simp [code, IsBuilt, plus, hop]
      · have hbuilt : ¬ (Node.mk .unop name children).IsBuilt := by simp [IsBuilt, hop]
        rcases children with _ | ⟨_, _ | ⟨_, _⟩⟩ <;> simp [code, plus, hop, hbuilt]
  | binop =>
      by_cases hop : name = "+"
      · rcases children with _ | ⟨left, _ | ⟨right, _ | ⟨_, _⟩⟩⟩
        · simp [code, IsBuilt, plus, hop]
        · simp [code, IsBuilt, plus, hop]
        · rw [code, if_pos (show name = plus from hop)]
          refine (exists_bind_eq_ok fun _ => exists_map_eq_ok).trans ?_
          simp [IsBuilt, operands, hop, and_comm]
        · simp [code, IsBuilt, plus, hop]
      · have hbuilt : ¬ (Node.mk .binop name children).IsBuilt := by simp [IsBuilt, hop]
        rcases children with _ | ⟨_, _ | ⟨_, _ | ⟨_, _⟩⟩⟩ <;> simp [code, plus, hop, hbuilt]
  | call =>
      rw [code]
      refine exists_map_eq_ok.trans (exists_argumentsCode_iff.trans ?_)
      simp [IsBuilt, operands]

/-- A node has code exactly if all that becomes code with it is built as its kind asks. -/
theorem exists_code_iff_translated (t : Node) :
    (∃ code, t.code = .ok code) ↔ ∀ u, Translated t u → u.IsBuilt := by
  induction t using Node.induction with
  | step kind name children ih =>
      rw [exists_code_iff, forall_translated_iff]
      refine and_congr_right fun _ => forall₂_congr fun c hc => ?_
      exact ih c (operands_subset _ hc)

end Code

section Targets

variable {t u : Node}

/-- An assignment that is built as it should be has a target besides its operands, and nothing
stands below a target without children. -/
theorem mem_children_cases (hbuilt : t.IsBuilt) (hbare : t.BareTarget) {c : Node}
    (hc : c ∈ t.children) : c ∈ t.operands ∨ c.kind = .variable ∧ c.children = [] := by
  by_cases hassign : t.kind = .assign
  · unfold IsBuilt at hbuilt
    rw [hassign] at hbuilt
    obtain ⟨target, value, hchildren, htarget⟩ := hbuilt
    have hleaf : target.children = [] := hbare hassign target (by rw [hchildren]; rfl)
    rw [hchildren] at hc
    rcases List.mem_cons.mp hc with rfl | hc
    · exact .inr ⟨htarget, hleaf⟩
    · refine .inl ?_
      rw [operands, hassign, hchildren]
      exact hc
  · refine .inl ?_
    unfold operands
    split
    next hkind => exact absurd hkind hassign
    next => exact hc

/-- All of a tree is built as it should be exactly if what becomes code is, and the targets of
assignments among it have no children. -/
theorem forall_isBuilt_iff (t : Node) : (∀ u, Subtree t u → u.IsBuilt) ↔
    (∀ u, Translated t u → u.IsBuilt) ∧ ∀ u, Translated t u → u.BareTarget := by
  constructor
  · intro h
    refine ⟨fun u hu => h u hu.subtree, fun u hu hassign target htarget => ?_⟩
    have hbuilt := h u hu.subtree
    unfold IsBuilt at hbuilt
    rw [hassign] at hbuilt
    obtain ⟨target', value, hchildren, hkind⟩ := hbuilt
    rw [hchildren] at htarget
    cases htarget
    have hleaf := h target (hu.subtree.trans (.child (by rw [hchildren]; simp) .self))
    unfold IsBuilt at hleaf
    rw [hkind] at hleaf
    exact hleaf
  · rintro ⟨hbuilt, hbare⟩
    induction t using Node.induction with
    | step kind name children ih =>
        rw [forall_translated_iff] at hbuilt hbare
        refine forall_subtree_iff.mpr ⟨hbuilt.1, fun c hc => ?_⟩
        rcases mem_children_cases hbuilt.1 hbare.1 hc with hoperand | ⟨hkind, hleaf⟩
        · exact ih c hc (hbuilt.2 c hoperand) (hbare.2 c hoperand)
        · intro u hu
          cases hu with
          | self =>
              unfold IsBuilt
              rw [hkind]
              exact hleaf
          | child hchild =>
              rw [hleaf] at hchild
              cases hchild

end Targets

/-- A tree has code exactly if it is a root and all that becomes code below it is built as its
kind asks. The well-formed trees are those among them in which no target of an assignment that
becomes code has children. -/
theorem compile_succeeds_iff (t : Node) :
    ((∃ code, t.compile = .ok code) ↔
      t.kind = .root ∧ ∀ statement ∈ t.children, ∀ u, Translated statement u → u.IsBuilt) ∧
    (t.IsWellFormed ↔ (∃ code, t.compile = .ok code) ∧
      ∀ statement ∈ t.children, ∀ u, Translated statement u → u.BareTarget) := by
  have hcompile : (∃ code, t.compile = .ok code) ↔
      t.kind = .root ∧ ∀ statement ∈ t.children, ∀ u, Translated statement u → u.IsBuilt := by
    unfold compile
    split
    next hroot =>
      simp only [exists_statementsCode_iff, exists_code_iff_translated, hroot, true_and]
    next hroot => simp [hroot]
  refine ⟨hcompile, ?_⟩
  rw [hcompile, IsWellFormed, and_assoc]
  refine and_congr_right fun _ => ?_
  simp only [forall_isBuilt_iff]
  constructor
  · exact fun h => ⟨fun s hs => (h s hs).1, fun s hs => (h s hs).2⟩
  · exact fun h s hs => ⟨h.1 s hs, h.2 s hs⟩

/-- The program `a = 1` with a node below its target. -/
def targetWithChild : Node :=
  ⟨.root, "", [⟨.assign, "", [⟨.variable, "a", [leaf .literal "1"]⟩, leaf .literal "1"]⟩]⟩

theorem compile_targetWithChild :
    ¬ ∀ t : Node, (∃ code, t.compile = .ok code) ↔ t.IsWellFormed := by
  intro h
  have hcode : targetWithChild.compile = .ok [.const 1, .store "a", .discard] := rfl
  obtain ⟨-, hbuilt⟩ := (h targetWithChild).mp ⟨_, hcode⟩
  have htarget : IsBuilt ⟨.variable, "a", [leaf .literal "1"]⟩ :=
    hbuilt _ List.mem_cons_self _ (.child List.mem_cons_self .self)
  exact List.cons_ne_nil _ _ htarget

end Node

end Sumscript
